import Mathlib.Data.List.Nodup
import TextAdventure.Proofs.Eval.Steady

/-! # Computations that list what has a property

A computation lists a property if from each of some stores it gives exactly the items with the property,
each of them once, and ends in one of these stores. Appending, mapping, filtering and chaining such
computations list what is expected, provided that no item can come from two sides.
-/
namespace TextAdventure.Eval

variable {α β : Type} {T : Store → Prop} {m : Eval (List α)} {P : α → Prop}

/-- From each of the stores the computation gives the items with the property, each of them once. -/
def Lists (T : Store → Prop) (m : Eval (List α)) (P : α → Prop) : Prop :=
  ∃ xs, Yields T m xs ∧ xs.Nodup ∧ ∀ x, x ∈ xs ↔ P x

theorem lists_pure {xs : List α} (h : xs.Nodup) : Lists T (pure xs) (· ∈ xs) :=
  ⟨xs, yields_pure xs, h, fun _ => Iff.rfl⟩

theorem Lists.congr {Q : α → Prop} (h : Lists T m P) (hPQ : ∀ x, P x ↔ Q x) : Lists T m Q := by
  obtain ⟨xs, hm, hn, hx⟩ := h
  exact ⟨xs, hm, hn, fun x => (hx x).trans (hPQ x)⟩

theorem Lists.append {m' : Eval (List α)} {Q : α → Prop} (h : Lists T m P) (h' : Lists T m' Q)
    (hd : ∀ x, P x → ¬ Q x) :
    Lists T (do let xs ← m; return xs ++ (← m')) fun x => P x ∨ Q x := by
  obtain ⟨xs, hm, hn, hx⟩ := h
  obtain ⟨ys, hm', hn', hy⟩ := h'
  have hdisjoint : ∀ x ∈ xs, ∀ y ∈ ys, x ≠ y := by
    rintro x hxs y hys rfl
    exact hd x ((hx x).mp hxs) ((hy x).mp hys)
  refine ⟨xs ++ ys, hm.bind (hm'.bind (yields_pure _)), ?_, ?_⟩
  · exact List.nodup_append.mpr ⟨hn, hn', hdisjoint⟩
  · intro x
    rw [List.mem_append, hx, hy]

theorem Lists.map (h : Lists T m P) {f : α → β} (hf : ∀ x y, P x → P y → f x = f y → x = y) :
    Lists T (do let xs ← m; return xs.map f) fun y => ∃ x, P x ∧ f x = y := by
  obtain ⟨xs, hm, hn, hx⟩ := h
  have hinj : ∀ x ∈ xs, ∀ y ∈ xs, f x = f y → x = y := by
    intro x hxs y hys
    exact hf x y ((hx x).mp hxs) ((hx y).mp hys)
  refine ⟨xs.map f, hm.bind (yields_pure _), hn.map_on hinj, ?_⟩
  intro y
  simp only [List.mem_map, hx]

theorem exists_yields_flatten {f : α → Eval (List β)} {Q : α → β → Prop} {xs : List α}
    (hn : xs.Nodup) (hf : ∀ x ∈ xs, Lists T (f x) (Q x))
    (hd : ∀ x ∈ xs, ∀ x' ∈ xs, ∀ y, Q x y → Q x' y → x = x') :
    ∃ yss, Yields T (xs.mapM f) yss ∧ yss.flatten.Nodup ∧
      ∀ y, y ∈ yss.flatten ↔ ∃ x ∈ xs, Q x y := by
  induction xs with
  | nil => exact ⟨[], yields_pure [], List.nodup_nil, by simp⟩
  | cons x xs ih =>
    obtain ⟨hx, hn⟩ := List.nodup_cons.mp hn
    obtain ⟨ys, hys, hny, hy⟩ := hf x List.mem_cons_self
    obtain ⟨yss, hyss, hnys, hmem⟩ := ih hn (fun x' h => hf x' (List.mem_cons_of_mem x h))
      fun x' h x'' h' => hd x' (List.mem_cons_of_mem x h) x'' (List.mem_cons_of_mem x h')
    have hdisjoint : ∀ y ∈ ys, ∀ z ∈ yss.flatten, y ≠ z := by
      rintro y hys z hz rfl
      obtain ⟨x', hx', hQ⟩ := (hmem y).mp hz
      have heq := hd x List.mem_cons_self x' (List.mem_cons_of_mem x hx') y ((hy y).mp hys) hQ
      exact hx (heq ▸ hx')
    refine ⟨ys :: yss, ?_, ?_, ?_⟩
    · rw [List.mapM_cons]
      exact hys.bind (hyss.bind (yields_pure _))
    · rw [List.flatten_cons]
      exact List.nodup_append.mpr ⟨hny, hnys, hdisjoint⟩
    · intro y
      rw [List.flatten_cons, List.mem_append, hy, hmem, List.exists_mem_cons_iff]

theorem Lists.flatten (h : Lists T m P) {f : α → Eval (List β)} {Q : α → β → Prop}
    (hf : ∀ x, P x → Lists T (f x) (Q x)) (hd : ∀ x x' y, P x → P x' → Q x y → Q x' y → x = x') :
    Lists T (do let xs ← m; let yss ← xs.mapM f; return yss.flatten) fun y => ∃ x, P x ∧ Q x y := by
  obtain ⟨xs, hm, hn, hx⟩ := h
  obtain ⟨yss, hyss, hny, hy⟩ := exists_yields_flatten hn (fun x h => hf x ((hx x).mp h))
    fun x h x' h' y => hd x x' y ((hx x).mp h) ((hx x').mp h')
  refine ⟨yss.flatten, hm.bind (hyss.bind (yields_pure _)), hny, ?_⟩
  intro y
  simp only [hy, hx]

theorem yields_filterAuxM {p : α → Eval Bool} {answer : α → Bool} {xs : List α}
    (h : ∀ x ∈ xs, Yields T (p x) (answer x)) (acc : List α) :
    Yields T (xs.filterAuxM p acc) ((xs.filter answer).reverse ++ acc) := by
  induction xs generalizing acc with
  | nil => exact yields_pure acc
  | cons x xs ih =>
    have hxs := ih fun y hy => h y (List.mem_cons_of_mem x hy)
    refine (h x List.mem_cons_self).bind ?_
    cases hx : answer x with
    | false =>
      rw [List.filter_cons_of_neg (by simp [hx])]
      exact hxs acc
    | true =>
      rw [List.filter_cons_of_pos hx, List.reverse_cons, List.append_assoc]
      exact hxs (x :: acc)

theorem lists_filterM {p : α → Eval Bool} {answer : α → Bool} {xs : List α} (hn : xs.Nodup)
    (h : ∀ x ∈ xs, Yields T (p x) (answer x)) :
    Lists T (xs.filterM p) fun x => x ∈ xs ∧ answer x = true := by
  have hrun : Yields T (xs.filterM p) ((xs.filter answer).reverse ++ []).reverse :=
    (yields_filterAuxM h []).bind (yields_pure _)
  rw [List.append_nil, List.reverse_reverse] at hrun
  exact ⟨xs.filter answer, hrun, hn.filter answer, fun x => List.mem_filter⟩

end TextAdventure.Eval
