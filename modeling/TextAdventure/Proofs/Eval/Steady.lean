import Mathlib.Data.List.Forall2
import TextAdventure.Proofs.Eval.Compositional

/-! # Runs that succeed, and runs that make no difference to what follows

A sequence that succeeds splits into successes of its steps. Of some stores whose differences do not
matter, a steady computation gives one result in all of them and ends in one of them. It can be run again,
or left out, without any change to what comes after it, and what is made of steady computations is steady.
-/
namespace TextAdventure.Eval

variable {α β : Type} {s t : Store}

theorem split_bind {m : Eval α} {f : α → Eval β} {b : β} (h : runOn (m >>= f) s = (.ok b, t)) :
    ∃ a u, runOn m s = (.ok a, u) ∧ runOn (f a) u = (.ok b, t) := by
  rw [runOn_bind] at h
  cases hm : runOn m s with
  | mk r u =>
    rw [hm] at h
    cases r with
    | error e => cases h
    | ok a => exact ⟨a, u, rfl, h⟩

theorem exists_of_mem_mapM {f : α → Eval β} {xs : List α} {ys : List β}
    (h : runOn (xs.mapM f) s = (.ok ys, t)) {y : β} (hy : y ∈ ys) :
    ∃ x ∈ xs, ∃ u v, runOn (f x) u = (.ok y, v) := by
  induction xs generalizing s ys with
  | nil =>
    cases h
    cases hy
  | cons x xs ih =>
    rw [List.mapM_cons] at h
    obtain ⟨b, u, hb, h⟩ := split_bind h
    obtain ⟨bs, v, hbs, h⟩ := split_bind h
    cases h
    rcases List.mem_cons.mp hy with rfl | hy
    · exact ⟨x, List.mem_cons_self, s, u, hb⟩
    · obtain ⟨z, hz, hf⟩ := ih hbs hy
      exact ⟨z, List.mem_cons_of_mem x hz, hf⟩

/-- From each of the stores the computation has the same result, and it ends in one of them. -/
def Steady (T : Store → Prop) (m : Eval α) : Prop :=
  ∃ r, ∀ s, T s → (runOn m s).1 = r ∧ T (runOn m s).2

/-- From each of the stores the computation gives the value, and it ends in one of them. -/
def Yields (T : Store → Prop) (m : Eval α) (a : α) : Prop :=
  ∀ s, T s → (runOn m s).1 = .ok a ∧ T (runOn m s).2

variable {T : Store → Prop}

theorem Yields.steady {m : Eval α} {a : α} (h : Yields T m a) : Steady T m :=
  ⟨.ok a, h⟩

theorem Steady.yields {m : Eval α} {a : α} (hm : Steady T m) (hs : T s)
    (h : (runOn m s).1 = .ok a) : Yields T m a := by
  obtain ⟨r, hr⟩ := hm
  cases (hr s hs).1.symm.trans h
  exact hr

theorem Yields.exists_runOn {m : Eval α} {a : α} (h : Yields T m a) (hs : T s) :
    ∃ t, T t ∧ runOn m s = (.ok a, t) :=
  ⟨_, (h s hs).2, Prod.ext (h s hs).1 rfl⟩

theorem yields_pure (a : α) : Yields T (pure a) a :=
  fun _ hs => ⟨rfl, hs⟩

theorem steady_pure (a : α) : Steady T (pure a : Eval α) :=
  (yields_pure a).steady

theorem Yields.bind {m : Eval α} {f : α → Eval β} {a : α} {b : β} (hm : Yields T m a)
    (hf : Yields T (f a) b) : Yields T (m >>= f) b := by
  intro s hs
  obtain ⟨t, ht, hrun⟩ := hm.exists_runOn hs
  rw [runOn_bind, hrun]
  exact hf t ht

theorem Steady.bind {m : Eval α} {f : α → Eval β} (hm : Steady T m) (hf : ∀ a, Steady T (f a)) :
    Steady T (m >>= f) := by
  obtain ⟨r, hr⟩ := hm
  cases r with
  | ok a =>
    obtain ⟨r', hr'⟩ := hf a
    refine ⟨r', fun s hs => ?_⟩
    obtain ⟨t, ht, hrun⟩ := Yields.exists_runOn hr hs
    rw [runOn_bind, hrun]
    exact hr' t ht
  | error e =>
    refine ⟨.error e, fun s hs => ?_⟩
    have hrun : runOn m s = (.error e, (runOn m s).2) := Prod.ext (hr s hs).1 rfl
    rw [runOn_bind, hrun]
    exact ⟨rfl, (hr s hs).2⟩

theorem compositional_steady (T : Store → Prop) : Compositional fun _ m => Steady T m where
  pure := steady_pure
  bind := Steady.bind

theorem steady_throw (e : Error) : Steady T (throw e : Eval α) :=
  ⟨.error e, fun _ hs => ⟨rfl, hs⟩⟩

theorem steady_ofExcept (r : Except Error α) : Steady T (ofExcept r) := by
  cases r with
  | ok a => exact steady_pure a
  | error e => exact steady_throw e

theorem Steady.map {m : Eval α} (hm : Steady T m) (f : α → β) : Steady T (f <$> m) := by
  obtain ⟨r, hr⟩ := hm
  refine ⟨r.map f, fun s hs => ?_⟩
  rw [runOn_map, (hr s hs).1]
  exact ⟨rfl, (hr s hs).2⟩

theorem Steady.mapError {m : Eval α} (hm : Steady T m) (f : Error → Error) :
    Steady T (mapError f m) := by
  obtain ⟨r, hr⟩ := hm
  refine ⟨r.mapError f, fun s hs => ?_⟩
  rw [runOn_mapError, (hr s hs).1]
  exact ⟨rfl, (hr s hs).2⟩

/-- Of a sequence that succeeds, the first computation succeeds, and so does what follows it. -/
theorem Yields.split {m : Eval α} {f : α → Eval β} {b : β} (h : Yields T (m >>= f) b) (hs : T s)
    (hm : Steady T m) (hf : ∀ a, Steady T (f a)) : ∃ a, Yields T m a ∧ Yields T (f a) b := by
  obtain ⟨t, _, hrun⟩ := h.exists_runOn hs
  obtain ⟨a, u, ha, hb⟩ := split_bind hrun
  have hyields : Yields T m a := hm.yields hs (by rw [ha])
  have hu : T u := by simpa [ha] using (hyields s hs).2
  exact ⟨a, hyields, (hf a).yields hu (by rw [hb])⟩

theorem exists_yields_mapM {γ : Type} {f : α → Eval β} {R : β → γ → Prop} {xs : List α} {zs : List γ}
    (h : List.Forall₂ (fun x z => ∃ y, Yields T (f x) y ∧ R y z) xs zs) :
    ∃ ys, Yields T (xs.mapM f) ys ∧ List.Forall₂ R ys zs := by
  induction h with
  | nil => exact ⟨[], yields_pure [], List.Forall₂.nil⟩
  | cons hx _ ih =>
    obtain ⟨y, hy, hR⟩ := hx
    obtain ⟨ys, hys, hRs⟩ := ih
    refine ⟨y :: ys, ?_, List.Forall₂.cons hR hRs⟩
    rw [List.mapM_cons]
    exact hy.bind (hys.bind (yields_pure _))

theorem Yields.split_mapM {f : α → Eval β} {xs : List α} {ys : List β} (h : Yields T (xs.mapM f) ys)
    (hs : T s) (hf : ∀ x ∈ xs, Steady T (f x)) : List.Forall₂ (fun x y => Yields T (f x) y) xs ys := by
  induction xs generalizing ys with
  | nil =>
    cases (h s hs).1
    exact List.Forall₂.nil
  | cons x xs ih =>
    have hx := hf x List.mem_cons_self
    have hxs : ∀ y ∈ xs, Steady T (f y) := fun y hy => hf y (List.mem_cons_of_mem x hy)
    have hrest : Steady T (xs.mapM f) := (compositional_steady T).mapM hxs
    have hpure : ∀ y (ys : List β), Steady T (pure (y :: ys)) := fun y ys => steady_pure _
    rw [List.mapM_cons] at h
    obtain ⟨b, hb, h⟩ := h.split hs hx fun y => hrest.bind (hpure y)
    obtain ⟨bs, hbs, h⟩ := h.split hs hrest (hpure b)
    cases (h s hs).1
    exact List.Forall₂.cons hb (ih hbs hxs)

theorem yields_findSomeM? {f : α → Eval (Option β)} {p : β → Bool} {xs : List α} {ys : List (List β)}
    (h : List.Forall₂ (fun x y => Yields T (f x) (y.find? p)) xs ys) :
    Yields T (xs.findSomeM? f) (ys.flatten.find? p) := by
  induction h with
  | nil => exact yields_pure none
  | cons hx _ ih =>
    rw [List.findSomeM?_cons, List.flatten_cons, List.find?_append]
    refine hx.bind ?_
    cases List.find? p _ with
    | some b => exact yields_pure (some b)
    | none => exact ih

theorem yields_anyM {p : α → Eval Bool} {xs : List α} {answers : List Bool}
    (h : List.Forall₂ (fun x b => Yields T (p x) b) xs answers) :
    Yields T (xs.anyM p) (answers.any id) := by
  induction h with
  | nil => exact yields_pure false
  | @cons x b xs answers hx _ ih =>
    rw [List.anyM]
    refine hx.bind ?_
    cases b with
    | false => exact ih
    | true => exact yields_pure true

end TextAdventure.Eval
