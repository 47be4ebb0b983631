import TextAdventure.Proofs.Dictionary.Writing

/-! # Growing memories

A map that is written with a fresh mark has new blocks with that mark, and other blocks that a memory has.
Since its keys are all different and a block has fewer of them than one that it lies in, no two of its
blocks have the same keys. So the memory can be extended by the new blocks.
-/
namespace TextAdventure

universe u

open Dictionary (keys)

namespace Layout

variable {α : Type u} {K : Layout → Dictionary α → Prop} {b : Layout} {ps : List Piece}
  {es fs gs : Dictionary α}

theorem Spread.and_length_le (h : Spread K ps es) :
    Spread (fun b fs => K b fs ∧ fs.length ≤ es.length) ps es := by
  induction h with
  | nil => exact .nil
  | entry e _ ih =>
    exact .entry e (ih.imp fun b fs hb => ⟨hb.1, Nat.le_succ_of_le hb.2⟩)
  | @block _ _ es gs hopen hblock h ihopen ih =>
    have hlength : (es ++ gs).length = es.length + gs.length := List.length_append
    refine .block (ihopen.imp fun b fs hb => ⟨hb.1, ?_⟩) ⟨hblock, ?_⟩ (ih.imp fun b fs hb => ⟨hb.1, ?_⟩)
    · exact hlength ▸ Nat.le_add_right_of_le hb.2
    · exact hlength ▸ Nat.le_add_right _ _
    · exact hlength ▸ Nat.le_add_left_of_le hb.2

theorem Solid.leaf_or_own (hb : b.Solid) (h : Spread K b.pieces es) :
    (∃ mark, b = leaf mark es.length) ∨
      ∃ ps qs fs e gs, b.pieces = ps ++ .entry :: qs ∧ es = fs ++ e :: gs ∧ Spread K ps fs ∧
        Spread K qs gs := by
  cases b with
  | leaf mark n => exact .inl ⟨mark, by rw [spread_leaf_iff.mp h]⟩
  | branch mark blocks =>
    match blocks, hb with
    | c :: d :: blocks, _ =>
      obtain ⟨fs, e, gs, hes, -, hfs, hgs⟩ := Spread.cons_row_inv h (List.cons_ne_nil d blocks)
      exact .inr ⟨_, _, fs, e, gs, rfl, hes, hfs, hgs⟩

theorem Spread.and_length_lt (hb : b.Solid) (h : Spread K b.pieces es) :
    Spread (fun c fs => K c fs ∧ fs.length < es.length) b.pieces es := by
  rcases hb.leaf_or_own h with ⟨mark, rfl⟩ | ⟨ps, qs, fs, e, gs, hpieces, rfl, hps, hqs⟩
  · exact spread_leaf_iff.mpr rfl
  · rw [hpieces]
    have hlength : (fs ++ e :: gs).length = fs.length + (gs.length + 1) := List.length_append
    refine Spread.append ?_ (.entry e ?_)
    · exact hps.and_length_le.imp fun b fs hb => ⟨hb.1, by omega⟩
    · exact hqs.and_length_le.imp fun b fs hb => ⟨hb.1, by omega⟩

theorem Spread.and_size (h : Spread K ps es) : Spread (fun b fs => K b fs ∧ fs.length = b.size) ps es := by
  induction h with
  | nil => exact .nil
  | entry e _ ih => exact .entry e ih
  | block hopen hblock _ ihopen ih => exact .block ihopen ⟨hblock, hopen.length_block⟩ ih

theorem Solid.eq_leaf (hb : b.Solid) (h : b.size = 0) : b = leaf b.mark 0 := by
  cases b with
  | leaf mark n => exact congrArg (leaf mark) h
  | branch mark blocks =>
    match blocks, hb with
    | c :: d :: blocks, _ =>
      rw [size, rowSize] at h
      omega

/-- What some blocks with entries have been put under: lists of keys that are not empty, of these entries. -/
def Covers (found : List String → Option (Layout × Dictionary α)) (es : Dictionary α) : Prop :=
  ∀ ks, (found ks).isSome → ks ≠ [] ∧ ∀ k ∈ ks, k ∈ keys es

/-- The block, what is found in it and what is found after it. -/
def findBlock (b : Layout) (es : Dictionary α) (inside after : List String → Option (Layout × Dictionary α))
    (ks : List String) : Option (Layout × Dictionary α) :=
  if ks = [] then none else if ks = keys es then some (b, es) else (inside ks).or (after ks)

theorem keys_ne_nil (h : es ≠ []) : keys es ≠ [] := by
  simpa [keys] using h

theorem exists_found (hsolid : ∀ b es, K b es → b.Solid) (h : Spread K ps es) (hkeys : (keys es).Nodup) :
    ∃ found, Covers found es ∧
      Spread (fun b fs => K b fs ∧ (fs ≠ [] → found (keys fs) = some (b, fs))) ps es := by
  induction h with
  | nil => exact ⟨fun _ => none, nofun, .nil⟩
  | entry e h ih =>
    obtain ⟨found, hcovers, hspread⟩ := ih (List.nodup_cons.mp hkeys).2
    refine ⟨found, fun ks hks => ?_, .entry e hspread⟩
    exact ⟨(hcovers ks hks).1, fun k hk => List.mem_cons_of_mem _ ((hcovers ks hks).2 k hk)⟩
  | @block b ps es fs hopen hblock h ihopen ih =>
    have happend : keys (es ++ fs) = keys es ++ keys fs := List.map_append
    rw [happend] at hkeys
    obtain ⟨hes, hfs, hdisjoint⟩ := List.nodup_append.mp hkeys
    obtain ⟨found, hcovers, hspread⟩ := ihopen hes
    obtain ⟨found', hcovers', hspread'⟩ := ih hfs
    refine ⟨findBlock b es found found', ?_, .block ?_ ⟨hblock, ?_⟩ ?_⟩
    · intro ks hks
      rw [findBlock] at hks
      rw [happend]
      split at hks
      next => cases hks
      next hne =>
        refine ⟨hne, fun k hk => List.mem_append.mpr ?_⟩
        split at hks
        next heq => exact .inl (heq ▸ hk)
        next =>
          rw [Option.isSome_or, Bool.or_eq_true] at hks
          exact hks.imp (fun h => (hcovers ks h).2 k hk) fun h => (hcovers' ks h).2 k hk
    · refine (hspread.and_length_lt (hsolid b es hblock)).imp fun c gs hc => ⟨hc.1.1, fun hne => ?_⟩
      have hks : keys gs ≠ keys es := by
        intro heq
        have := congrArg List.length heq
        simp only [keys, List.length_map] at this
        omega
      rw [findBlock, if_neg (keys_ne_nil hne), if_neg hks, hc.1.2 hne, Option.or]
    · intro hne
      rw [findBlock, if_neg (keys_ne_nil hne), if_pos rfl]
    · refine hspread'.imp fun c gs hc => ⟨hc.1, fun hne => ?_⟩
      have hgs := hc.2 hne
      obtain ⟨hne', hsub⟩ := hcovers' (keys gs) (by rw [hgs]; rfl)
      obtain ⟨k, hk⟩ := List.exists_mem_of_ne_nil _ hne'
      have hnot : k ∉ keys es := fun hes => hdisjoint k hes k (hsub k hk) rfl
      have hks : keys gs ≠ keys es := fun heq => hnot (heq ▸ hk)
      have hnone : found (keys gs) = none := by
        rw [← Option.not_isSome_iff_eq_none]
        exact fun hsome => hnot ((hcovers _ hsome).2 k hk)
      rw [findBlock, if_neg hne', if_neg hks, hnone, Option.none_or, hgs]

end Layout

namespace Memory
open Layout

variable {α : Type u} {M : Memory α} {ps : List Piece} {es : Dictionary α} {mark : Nat}

/-- The memory with the blocks of one mark, and with the empty block of that mark. -/
def add (M : Memory α) (mark : Nat) (found : List String → Option (Layout × Dictionary α)) : Memory α :=
  fun m ks => if m = mark then if ks = [] then some (leaf (some mark) 0, []) else found ks else M m ks

theorem add_of_ne {m : Nat} (h : m ≠ mark) (found : List String → Option (Layout × Dictionary α)) :
    M.add mark found m = M m := by
  funext ks
  rw [add, if_neg h]

/-- The blocks of a map that have a certain mark can take the place of all blocks with that mark. -/
theorem exists_added (hkeys : (keys es).Nodup)
    (h : Spread (fun b fs => b.Solid ∧ (b.mark = some mark ∨ M.Has b fs)) ps es) :
    ∃ M' : Memory α, (∀ m, m ≠ mark → M' m = M m) ∧ Spread (fun b fs => b.Solid ∧ M'.Has b fs) ps es := by
  obtain ⟨found, -, hfound⟩ := exists_found (fun b es hb => hb.1) h hkeys
  refine ⟨M.add mark found, fun m hm => add_of_ne hm found, hfound.and_size.imp fun b fs hb => ?_⟩
  obtain ⟨⟨⟨hsolid, hmarks⟩, hfs⟩, hsize⟩ := hb
  refine ⟨hsolid, fun m hm => ?_⟩
  by_cases heq : m = mark
  · subst heq
    by_cases hne : fs = []
    · subst hne
      have hleaf := hsolid.eq_leaf hsize.symm
      have hnil : keys ([] : Dictionary α) = [] := rfl
      rw [add, if_pos rfl, if_pos hnil, hleaf, hm]
    · rw [add, if_pos rfl, if_neg (keys_ne_nil hne), hfs hne]
  · rcases hmarks with hnew | hold
    · exact absurd (Option.some.inj (hm.symm.trans hnew)) heq
    · rw [add_of_ne heq]
      exact hold m hm

variable {M₁ M₂ : Memory α} {next next₁ next₂ : Nat} {b : Layout} {fs : Dictionary α}

/-- No block of the memory has the mark `next` or a later one. -/
def Fresh (M : Memory α) (next : Nat) : Prop :=
  ∀ mark, next ≤ mark → ∀ ks, M mark ks = none

/-- The second memory has blocks with marks from `next` on, up to `next₁`, and else those of the first. -/
structure Grows (M : Memory α) (next : Nat) (M₁ : Memory α) (next₁ : Nat) : Prop where
  le : next ≤ next₁
  agrees : ∀ mark, mark < next → M₁ mark = M mark
  fresh : M₁.Fresh next₁

theorem Grows.refl (h : M.Fresh next) : M.Grows next M next :=
  ⟨Nat.le_refl next, fun _ _ => rfl, h⟩

theorem Grows.trans (h : M.Grows next M₁ next₁) (h' : M₁.Grows next₁ M₂ next₂) : M.Grows next M₂ next₂ :=
  ⟨Nat.le_trans h.le h'.le, fun mark hmark =>
    (h'.agrees mark (Nat.lt_of_lt_of_le hmark h.le)).trans (h.agrees mark hmark), h'.fresh⟩

/-- The second memory has all blocks of the first. -/
def Extends (M M₁ : Memory α) : Prop :=
  ∀ mark ks block, M mark ks = some block → M₁ mark ks = some block

theorem Extends.has (h : M.Extends M₁) (hb : M.Has b fs) : M₁.Has b fs :=
  fun mark hmark => h mark (keys fs) (b, fs) (hb mark hmark)

theorem Grows.extends (h : M.Grows next M₁ next₁) (hfresh : M.Fresh next) : M.Extends M₁ := by
  intro mark ks block hblock
  have hlt : mark < next := by
    rw [← Nat.not_le]
    intro hle
    rw [hfresh mark hle] at hblock
    cases hblock
  rw [h.agrees mark hlt, hblock]

/-- A memory grows by a map that has one mark on blocks of its own and else blocks of the memory. -/
theorem exists_grows (hfresh : M.Fresh next) (hkeys : (keys es).Nodup)
    (h : Spread (fun b fs => b.Solid ∧ (b.mark = some next ∨ M.Has b fs)) ps es) :
    ∃ M₁ : Memory α, M.Grows next M₁ (next + 1) ∧ Spread (fun b fs => b.Solid ∧ M₁.Has b fs) ps es := by
  obtain ⟨M₁, hagrees, hspread⟩ := exists_added hkeys h
  refine ⟨M₁, ⟨Nat.le_succ next, fun mark hmark => hagrees mark (by omega), fun mark hmark ks => ?_⟩, hspread⟩
  rw [hagrees mark (by omega)]
  exact hfresh mark (by omega) ks

end Memory

end TextAdventure
