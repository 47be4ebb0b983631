import TextAdventure.Proofs.Rule.Running

/-! # Cycles

A cycle runs the item after the one that it ran last, whatever happens between its runs, as long as the
progress of rules is left to the rules. A history of a store lets all of that happen and counts the runs
of the cycle that succeeded, so the progress of the cycle is that count, modulo the number of its items.
-/
namespace TextAdventure

namespace Rule

theorem componentOf_repeat_eq_ok_iff {key : String} {v : Value} {component : Rule} :
    componentOf "repeat" key v = .ok component ↔
      ∃ rule, ofValue key v = .ok rule ∧ rule.items ≠ [] ∧ component = .cycle key rule.items := by
  have hrepeat : ∀ rule, ofComponent "repeat" key rule =
      (someItems "repeat" rule).map (.cycle key) := by
    intro rule
    simp [ofComponent]
  rw [componentOf, Error.bind_eq_ok_iff]
  apply exists_congr
  intro rule
  rw [hrepeat, Error.map_eq_ok_iff]
  simp only [someItems_eq_ok_iff]
  constructor
  · rintro ⟨hrule, rules, ⟨rfl, hne⟩, rfl⟩
    exact ⟨hrule, hne, rfl⟩
  · rintro ⟨hrule, hne, rfl⟩
    exact ⟨hrule, rule.items, ⟨rfl, hne⟩, rfl⟩

section Items

variable {key : String} {v : Value} {items : List Rule}
  (hcompiled : componentOf "repeat" key v = .ok (cycle key items))
include hcompiled

theorem items_ne_nil : items ≠ [] := by
  obtain ⟨rule, _, hne, heq⟩ := componentOf_repeat_eq_ok_iff.mp hcompiled
  cases heq
  exact hne

theorem ne_of_mem_statefulIn_items {p : String × Rule} (hp : p ∈ statefulIn items) : p.1 ≠ key := by
  obtain ⟨rule, hrule, _, heq⟩ := componentOf_repeat_eq_ok_iff.mp hcompiled
  cases heq
  rw [statefulIn_items] at hp
  exact (compiledBelow_ofValue v hrule p hp).1.ne

end Items

section Run

variable {key : String} {items : List Rule} {item : Rule} {i : Nat} {s : Store}

theorem resolveAt_of_getElem? (h : items[i]? = some item) : resolveAt items i = item.resolve := by
  induction items generalizing i with
  | nil => cases h
  | cons rule rules ih =>
    cases i with
    | zero =>
      cases h
      rw [resolveAt]
    | succ i =>
      rw [resolveAt]
      exact ih h

theorem sparesAt_iff_of_getElem? (h : items[i]? = some item) :
    SparesAt items i s ↔ item.Spares s := by
  induction items generalizing i with
  | nil => cases h
  | cons rule rules ih =>
    cases i with
    | zero =>
      cases h
      rw [SparesAt]
    | succ i =>
      rw [SparesAt]
      exact ih h

theorem runOn_cycle (h : items[position key items.length s]? = some item) :
    Eval.runOn (cycle key items).resolve s = Eval.runOn (do
      let r ← item.resolve
      setProgress key ((position key items.length s + 1) % items.length)
      return r) s := by
  rw [resolve, Eval.runOn_bind, Eval.runOn_get]
  simp only [resolveAt_of_getElem? h]

end Run

/-- What may happen to a store, with the number of runs of a cycle that succeeded. The cycle is compiled
from some value at its key, each time anew. -/
inductive History (key : String) (v : Value) (s : Store) : Nat → Store → Prop where
  | start : History key v s 0 s
  /-- Something happens that leaves the progress of rules alone: code is evaluated, an entity changes, a
  scope is opened or closed. -/
  | other {n : Nat} {t u : Store} : History key v s n t → t.SparesProgress u → History key v s n u
  /-- A rule with another key notes its progress. -/
  | note {n : Nat} {t : Store} {other : String} (m : Nat) : History key v s n t → other ≠ key →
      History key v s n (Eval.runOn (setProgress other m) t).2
  | fails {n : Nat} {t u : Store} {component : Rule} {e : Error} : History key v s n t →
      componentOf "repeat" key v = .ok component → component.Spares t →
      Eval.runOn component.resolve t = (.error e, u) → History key v s n u
  | succeeds {n : Nat} {t u : Store} {component : Rule} {r : Resolved} : History key v s n t →
      componentOf "repeat" key v = .ok component → component.Spares t →
      Eval.runOn component.resolve t = (.ok r, u) → History key v s (n + 1) u

/-- The progress of rules is kept, and that under a key is some number. -/
def StandsAt (key : String) (n : Nat) (s : Store) : Prop :=
  s.KeepsProgress ∧ progress key s = Number.clampInt64 n

section Progress

variable {key other : String} {n m : Nat} {s t : Store}

theorem concerns_standsAt (key : String) (n : Nat) : Concerns key (StandsAt key n) :=
  concerns_progress key (Number.clampInt64 n)

theorem toInt_clampInt64 (h : (n : Int) ≤ Int64.maxValue.toInt) :
    (Number.clampInt64 n).toInt = n := by
  have hmin : Int64.minValue.toInt ≤ 0 := by decide
  rw [Number.toInt_clampInt64]
  omega

end Progress

section Invocation

variable {key : String} {v : Value} {items : List Rule} {item : Rule} {n i : Nat} {s t : Store}

theorem StandsAt.position_eq (h : StandsAt key i s) (hi : i < items.length)
    (hlength : (items.length : Int) ≤ Int64.maxValue.toInt) :
    position key items.length s = i := by
  have hvalue : (progress key s).toInt = i := by
    rw [h.2]
    apply toInt_clampInt64
    omega
  rw [position, hvalue, Int.toNat_natCast, Nat.mod_eq_of_lt hi]

theorem StandsAt.runOn_cycle (h : StandsAt key i s) (hitem : items[i]? = some item)
    (hlength : (items.length : Int) ≤ Int64.maxValue.toInt) :
    Eval.runOn (cycle key items).resolve s = Eval.runOn (do
      let r ← item.resolve
      setProgress key ((i + 1) % items.length)
      return r) s := by
  obtain ⟨hi, _⟩ := List.getElem?_eq_some_iff.mp hitem
  have hposition := h.position_eq hi hlength
  rw [← hposition] at hitem ⊢
  exact Rule.runOn_cycle hitem

theorem StandsAt.spares_cycle_iff (h : StandsAt key i s) (hitem : items[i]? = some item)
    (hlength : (items.length : Int) ≤ Int64.maxValue.toInt) :
    (cycle key items).Spares s ↔ item.Spares s := by
  obtain ⟨hi, _⟩ := List.getElem?_eq_some_iff.mp hitem
  rw [Spares, h.position_eq hi hlength, sparesAt_iff_of_getElem? hitem]

section Spared

variable {u : Store} (h : StandsAt key i s) (hitem : items[i]? = some item)
  (hlength : (items.length : Int) ≤ Int64.maxValue.toInt) (hspares : item.Spares s)
  (hkeys : ∀ p ∈ item.stateful, p.1 ≠ key)
include h hitem hlength hspares hkeys

/-- A cycle ends as its item does. If the item succeeds, the next position is noted after it; noting it
does not fail. -/
theorem StandsAt.exists_runOn_cycle :
    ∃ layout, Eval.runOn (cycle key items).resolve s =
      match Eval.runOn item.resolve s with
      | (.ok r, t) => (.ok r, t.note layout key ((i + 1) % items.length))
      | (.error e, t) => (.error e, t) := by
  have ht := (concerns_standsAt key i).run_of_ne h hspares hkeys
  obtain ⟨layout, hnote⟩ := ht.1.runOn_setProgress key ((i + 1) % items.length)
  refine ⟨layout, ?_⟩
  rw [h.runOn_cycle hitem hlength, Eval.runOn_bind]
  rcases hrun : Eval.runOn item.resolve s with ⟨e | r, t⟩
  · rfl
  · rw [hrun] at hnote
    dsimp only
    rw [Eval.runOn_bind, hnote]
    rfl

theorem StandsAt.result_cycle :
    (Eval.runOn (cycle key items).resolve s).1 = (Eval.runOn item.resolve s).1 := by
  obtain ⟨layout, hcycle⟩ := h.exists_runOn_cycle hitem hlength hspares hkeys
  rw [hcycle]
  rcases Eval.runOn item.resolve s with ⟨e | r, t⟩ <;> rfl

theorem StandsAt.cycle_of_ok {r : Resolved}
    (hcycle : Eval.runOn (cycle key items).resolve s = (.ok r, u)) :
    StandsAt key ((i + 1) % items.length) u := by
  obtain ⟨layout, heq⟩ := h.exists_runOn_cycle hitem hlength hspares hkeys
  have ht := (concerns_standsAt key i).run_of_ne h hspares hkeys
  rw [hcycle] at heq
  rcases hrun : Eval.runOn item.resolve s with ⟨e | r', t⟩
  · rw [hrun] at heq
    cases heq
  · rw [hrun] at heq ht
    cases heq
    exact ⟨ht.1.note key _ layout, ht.1.progress_note_self key _ layout⟩

theorem StandsAt.cycle_of_error {e : Error}
    (hcycle : Eval.runOn (cycle key items).resolve s = (.error e, u)) :
    Eval.runOn item.resolve s = (.error e, u) ∧ StandsAt key i u := by
  obtain ⟨layout, heq⟩ := h.exists_runOn_cycle hitem hlength hspares hkeys
  have ht := (concerns_standsAt key i).run_of_ne h hspares hkeys
  rw [hcycle] at heq
  rcases hrun : Eval.runOn item.resolve s with ⟨e' | r, t⟩
  · rw [hrun] at heq ht
    cases heq
    exact ⟨rfl, ht⟩
  · rw [hrun] at heq
    cases heq

end Spared

end Invocation

section Compiled

variable {key : String} {v : Value} {items : List Rule} {n : Nat} {s t : Store}
  (hcompiled : componentOf "repeat" key v = .ok (cycle key items))
  (hlength : (items.length : Int) ≤ Int64.maxValue.toInt)
include hcompiled

theorem exists_item (n : Nat) :
    ∃ item, items[n % items.length]? = some item ∧ ∀ p ∈ item.stateful, p.1 ≠ key := by
  have hpos : 0 < items.length := List.length_pos_iff.mpr (items_ne_nil hcompiled)
  have hlt := Nat.mod_lt n hpos
  refine ⟨items[n % items.length], List.getElem?_eq_getElem hlt, ?_⟩
  intro p hp
  apply ne_of_mem_statefulIn_items hcompiled
  exact mem_statefulIn_iff.mpr ⟨_, List.getElem_mem hlt, hp⟩

include hlength

theorem History.standsAt (hs : s.KeepsProgress) (hfresh : progress key s = 0)
    (h : History key v s n t) : StandsAt key (n % items.length) t := by
  induction h with
  | start =>
    rw [Nat.zero_mod]
    exact ⟨hs, hfresh⟩
  | other _ hspares ih => exact (concerns_standsAt key _).robust _ _ ih hspares
  | note m _ hne ih => exact (concerns_standsAt key _).note m ih hne
  | @fails n t u component e _ hcomponent hspares hrun ih =>
    cases hcompiled.symm.trans hcomponent
    obtain ⟨item, hitem, hkeys⟩ := exists_item hcompiled n
    have hspares := (ih.spares_cycle_iff hitem hlength).mp hspares
    exact (ih.cycle_of_error hitem hlength hspares hkeys hrun).2
  | @succeeds n t u component r _ hcomponent hspares hrun ih =>
    cases hcompiled.symm.trans hcomponent
    obtain ⟨item, hitem, hkeys⟩ := exists_item hcompiled n
    have hspares := (ih.spares_cycle_iff hitem hlength).mp hspares
    have hstands := ih.cycle_of_ok hitem hlength hspares hkeys hrun
    rwa [Nat.mod_add_mod] at hstands

end Compiled

theorem History.concerns (key : String) (v : Value) (s : Store) (n : Nat) :
    Concerns key (History key v s n) where
  robust _ _ h hspares := h.other hspares
  note m h hne := h.note m hne

/-- Any rule may be run in a history, whatever else is in it, if nothing in it but the cycle itself keeps
progress under the key of the cycle. -/
theorem History.run {key : String} {v : Value} {n : Nat} {s t : Store} {rule : Rule}
    (h : History key v s n t) (hspares : rule.Spares t)
    (hkeys : ∀ p ∈ rule.stateful, p.1 = key → componentOf "repeat" key v = .ok p.2) :
    ∃ m, n ≤ m ∧ History key v s m (Eval.runOn rule.resolve t).2 := by
  apply (Concerns.later (History.concerns key v s) n).run ⟨n, Nat.le_refl n, h⟩ hspares
  rintro p hp hkey t ⟨m, hle, hm⟩ hspares
  rcases hrun : Eval.runOn p.2.resolve t with ⟨e | r, u⟩
  · exact ⟨m, hle, hm.fails (hkeys p hp hkey) hspares hrun⟩
  · exact ⟨m + 1, Nat.le_succ_of_le hle, hm.succeeds (hkeys p hp hkey) hspares hrun⟩

theorem History.run_other {key : String} {v : Value} {n : Nat} {s t : Store} {rule : Rule}
    (h : History key v s n t) (hspares : rule.Spares t) (hkeys : ∀ p ∈ rule.stateful, p.1 ≠ key) :
    History key v s n (Eval.runOn rule.resolve t).2 :=
  (History.concerns key v s n).run_of_ne h hspares hkeys

/-- A cycle resumes where it left off. Its progress is kept and stands at zero at first, and then any
history follows in which `n` of its runs succeed. The next run is one of the item at position `n`, modulo
the number of items, with the next position noted at its end. It ends as that item does, and if it fails
the item is all that was run and the progress is as before. Histories go on with all rules that keep their
progress under other keys, and with rules that the cycle is part of. (A list in memory is never longer
than the greatest 64-bit integer.) -/
theorem cycle_resumes {key : String} {v : Value} {items : List Rule} {n : Nat} {s t : Store}
    (hcompiled : componentOf "repeat" key v = .ok (cycle key items))
    (hlength : (items.length : Int) ≤ Int64.maxValue.toInt) (hs : s.KeepsProgress)
    (hfresh : progress key s = 0) (h : History key v s n t) :
    ∃ item, items[n % items.length]? = some item ∧
      Eval.runOn (cycle key items).resolve t = Eval.runOn (do
        let r ← item.resolve
        setProgress key ((n + 1) % items.length)
        return r) t ∧
      (item.Spares t → (Eval.runOn (cycle key items).resolve t).1 = (Eval.runOn item.resolve t).1 ∧
        ∀ e u, Eval.runOn (cycle key items).resolve t = (.error e, u) →
          Eval.runOn item.resolve t = (.error e, u) ∧ progress key u = progress key t) ∧
      (∀ rule : Rule, rule.Spares t → (∀ p ∈ rule.stateful, p.1 ≠ key) →
        History key v s n (Eval.runOn rule.resolve t).2) ∧
      ∀ rule : Rule, rule.Spares t → (∀ p ∈ rule.stateful, p.1 = key → p.2 = cycle key items) →
        ∃ m, n ≤ m ∧ History key v s m (Eval.runOn rule.resolve t).2 := by
  have hstands := h.standsAt hcompiled hlength hs hfresh
  obtain ⟨item, hitem, hkeys⟩ := exists_item hcompiled n
  refine ⟨item, hitem, ?_, ?_, fun rule => h.run_other, ?_⟩
  · rw [hstands.runOn_cycle hitem hlength, Nat.mod_add_mod]
  · intro hspares
    refine ⟨hstands.result_cycle hitem hlength hspares hkeys, ?_⟩
    intro e u hrun
    obtain ⟨hitemRun, hu⟩ := hstands.cycle_of_error hitem hlength hspares hkeys hrun
    exact ⟨hitemRun, hu.2.trans hstands.2.symm⟩
  · intro rule hspares hcycle
    apply h.run hspares
    intro p hp hkey
    rw [hcycle p hp hkey]
    exact hcompiled

/-- Two rules in turn. The second calls a function without the argument that it needs. -/
def ticking : Value :=
  .list [.string "$Tick.", .function ⟨0, .builtin .floor⟩]

def tickingCycle : Rule :=
  cycle "turn/repeat" [line "Tick.", call ⟨0, .builtin .floor⟩]

/-- The store after a run that succeeds. -/
def tickedOnce : Store :=
  (Eval.runOn tickingCycle.resolve (.new 0 64)).2

/-- The store after a run that succeeds and one that fails. -/
def tickedTwice : Store :=
  (Eval.runOn tickingCycle.resolve tickedOnce).2

/-- The rule that failed is the next one to be run. -/
theorem cycle_resumes_ticking :
    History "turn/repeat" ticking (.new 0 64) 1 tickedTwice ∧ tickedTwice.lines = ["Tick."] ∧
      (Eval.runOn tickingCycle.resolve tickedTwice).1 =
        .error (.ofFault (.arityMismatch "floor" "1" 0)) := by
  have hcompiled : componentOf "repeat" "turn/repeat" ticking = .ok tickingCycle := rfl
  have hstart : (Store.new 0 64).KeepsProgress := by
    constructor
    · intro scope hscope
      cases hscope
    · intro v hv
      cases hv
  have hspares : Spares (call ⟨0, .builtin .floor⟩) tickedOnce := .of_eq rfl rfl rfl
  have hfirst : History "turn/repeat" ticking (.new 0 64) 1 tickedOnce :=
    History.start.succeeds (r := .value (.bool true)) hcompiled trivial rfl
  have hsecond : History "turn/repeat" ticking (.new 0 64) 1 tickedTwice :=
    hfirst.fails (e := .ofFault (.arityMismatch "floor" "1" 0)) hcompiled hspares rfl
  obtain ⟨item, hitem, hrun, _⟩ := cycle_resumes hcompiled (by decide) hstart rfl hsecond
  cases hitem
  refine ⟨hsecond, rfl, ?_⟩
  rw [tickingCycle, hrun]
  rfl

end Rule

end TextAdventure
