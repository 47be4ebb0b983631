import TextAdventure.Proofs.Rule.Cycle
import TextAdventure.Proofs.Rule.Keys

/-! # Rules that run once

A rule that runs once notes that it runs before its body does, so it does not matter whether the body
fails. The note is all that later runs read, and as long as the progress of rules is left to the rules
nothing takes it back.
-/
namespace TextAdventure

namespace Rule

variable {path key : String} {v : Value} {rule body : Rule} {n : Nat} {s t : Store}

/-- The first run notes that it is one, which does not fail, and is then that of the body. -/
theorem StandsAt.exists_runOn_once (h : StandsAt key 0 s) (body : Rule) :
    ∃ layout, Eval.runOn (setProgress key 1) s = (.ok (), s.note layout key 1) ∧
      Eval.runOn (once key body).resolve s = Eval.runOn body.resolve (s.note layout key 1) := by
  have hfresh : progress key s = 0 := h.2
  obtain ⟨layout, hnote⟩ := h.1.runOn_setProgress key 1
  refine ⟨layout, hnote, ?_⟩
  rw [resolve, Eval.runOn_bind, Eval.runOn_get]
  dsimp only
  rw [if_neg (not_not_intro hfresh), Eval.runOn_bind, hnote]

theorem StandsAt.runOn_once (h : StandsAt key 1 s) :
    Eval.runOn (once key body).resolve s = (.ok .unresolved, s) := by
  have hran : progress key s ≠ 0 := by
    rw [h.2]
    decide
  rw [resolve, Eval.runOn_bind, Eval.runOn_get]
  dsimp only
  rw [if_pos hran]
  rfl

theorem StandsAt.once (h : StandsAt key (min n 1) s) (hspares : (once key body).Spares s)
    (hkeys : ∀ p ∈ body.stateful, p.1 ≠ key) :
    StandsAt key 1 (Eval.runOn (once key body).resolve s).2 := by
  cases n with
  | zero =>
    have hfresh : progress key s = 0 := h.2
    obtain ⟨layout, hnote, hrun⟩ := h.exists_runOn_once body
    have hbody := hspares hfresh
    rw [hnote] at hbody
    have hnoted : StandsAt key 1 (s.note layout key 1) :=
      ⟨h.1.note key 1 layout, h.1.progress_note_self key 1 layout⟩
    rw [hrun]
    exact (concerns_standsAt key 1).run_of_ne hnoted hbody hkeys
  | succ n =>
    rw [Nat.min_eq_right (Nat.le_add_left 1 n)] at h
    rw [h.runOn_once]
    exact h

/-- What may happen to a store, with the number of runs of a rule that runs once. -/
inductive Invocations (key : String) (body : Rule) (s : Store) : Nat → Store → Prop where
  | start : Invocations key body s 0 s
  /-- Something happens that leaves the progress of rules alone: code is evaluated, an entity changes, a
  scope is opened or closed. -/
  | other {n : Nat} {t u : Store} : Invocations key body s n t → t.SparesProgress u →
      Invocations key body s n u
  /-- A rule with another key notes its progress. -/
  | note {n : Nat} {t : Store} {other : String} (m : Nat) : Invocations key body s n t →
      other ≠ key → Invocations key body s n (Eval.runOn (setProgress other m) t).2
  /-- The rule is run, and succeeds or fails. -/
  | invoked {n : Nat} {t : Store} : Invocations key body s n t → (once key body).Spares t →
      Invocations key body s (n + 1) (Eval.runOn (once key body).resolve t).2

namespace Invocations

theorem standsAt (h : Invocations key body s n t) (hkeys : ∀ p ∈ body.stateful, p.1 ≠ key)
    (hs : s.KeepsProgress) (hfresh : progress key s = 0) : StandsAt key (min n 1) t := by
  -- the note stands at the number of runs, but never above one
  induction h with
  | start => exact ⟨hs, hfresh⟩
  | other _ hspares ih => exact (concerns_standsAt key _).robust _ _ ih hspares
  | note m _ hne ih => exact (concerns_standsAt key _).note m ih hne
  | @invoked n t _ hspares ih =>
    rw [Nat.min_eq_right (Nat.le_add_left 1 n)]
    exact ih.once hspares hkeys

theorem concerns (key : String) (body : Rule) (s : Store) (n : Nat) :
    Concerns key (Invocations key body s n) where
  robust _ _ h hspares := h.other hspares
  note m h hne := h.note m hne

theorem run {other : Rule} (h : Invocations key body s n t) (hspares : other.Spares t)
    (hkeys : ∀ p ∈ other.stateful, p.1 = key → p.2 = once key body) :
    ∃ m, n ≤ m ∧ Invocations key body s m (Eval.runOn other.resolve t).2 := by
  apply (Concerns.later (concerns key body s) n).run ⟨n, Nat.le_refl n, h⟩ hspares
  rintro p hp hkey u ⟨m, hle, hm⟩ hspares
  rw [hkeys p hp hkey] at hspares ⊢
  exact ⟨m + 1, Nat.le_succ_of_le hle, hm.invoked hspares⟩

theorem run_other {other : Rule} (h : Invocations key body s n t) (hspares : other.Spares t)
    (hkeys : ∀ p ∈ other.stateful, p.1 ≠ key) :
    Invocations key body s n (Eval.runOn other.resolve t).2 :=
  (concerns key body s n).run_of_ne h hspares hkeys

end Invocations

section Compiled

variable (h : ofValue path v = .ok rule) (hmem : (key, once key body) ∈ rule.stateful)
include h hmem

theorem ne_of_mem_stateful_body : ∀ p ∈ body.stateful, p.1 ≠ key := by
  have hsublist : ((key, once key body) :: body.stateful).Sublist rule.stateful :=
    (stateful_of_mem rule hmem).2
  have hnodup := (hsublist.map Prod.fst).nodup (nodup_keys_ofValue h)
  obtain ⟨hkey, _⟩ := List.nodup_cons.mp hnodup
  intro p hp heq
  exact hkey (List.mem_map.mpr ⟨p, hp, heq⟩)

/-- A rule that runs once does so at most once. Its progress is kept and there is none at first, and then
any history follows with `n` runs of it. If they are none, the next run resolves the body, after a note
that does not fail, and ends as the body does. If there was one before, whether it succeeded or failed,
the next run is unresolved and changes nothing. Histories go on with all rules that keep their progress
under other keys, and with the rule that this one is part of and the parts of that. -/
theorem once_runs_once (hs : s.KeepsProgress) (hfresh : progress key s = 0)
    (hruns : Invocations key body s n t) :
    (n = 0 → ∃ layout, Eval.runOn (once key body).resolve t =
        Eval.runOn body.resolve (t.note layout key 1)) ∧
      (0 < n → Eval.runOn (once key body).resolve t = (.ok .unresolved, t)) ∧
      (∀ other : Rule, other.Spares t → (∀ p ∈ other.stateful, p.1 ≠ key) →
        Invocations key body s n (Eval.runOn other.resolve t).2) ∧
      ∀ other : Rule, other.Spares t → (∀ p ∈ other.stateful, p.1 = key → p ∈ rule.stateful) →
        ∃ m, n ≤ m ∧ Invocations key body s m (Eval.runOn other.resolve t).2 := by
  have hkeys := ne_of_mem_stateful_body h hmem
  have hstands := hruns.standsAt hkeys hs hfresh
  refine ⟨?_, ?_, fun other => hruns.run_other, ?_⟩
  · rintro rfl
    obtain ⟨layout, _, hrun⟩ := hstands.exists_runOn_once body
    exact ⟨layout, hrun⟩
  · intro hpos
    rw [Nat.min_eq_right hpos] at hstands
    exact hstands.runOn_once
  · intro other hspares hpart
    apply hruns.run hspares
    intro p hp hkey
    have hsame : p = (key, once key body) :=
      List.inj_on_of_nodup_map (nodup_keys_ofValue h) (hpart p hp hkey) hmem hkey
    rw [hsame]

end Compiled

/-- A line of a cycle and a call without the argument that it needs. -/
def warning : Value :=
  .map .empty [("once", .list [.map .empty [("repeat", .list [.string "$Careful."])],
    .function ⟨0, .builtin .floor⟩])]

def warningBody : Rule :=
  .sequence [.branch (.constant (.bool true)) (.cycle "hall/once/0/repeat" [.line "Careful."]) skip,
    .call ⟨0, .builtin .floor⟩]

/-- The store after the run that fails. -/
def warned : Store :=
  (Eval.runOn (once "hall/once" warningBody).resolve (.new 0 64)).2

theorem once_runs_once_warning :
    (Eval.runOn (once "hall/once" warningBody).resolve (.new 0 64)).1 =
        .error (.ofFault (.arityMismatch "floor" "1" 0)) ∧
      warned.lines = ["Careful."] ∧
      Eval.runOn (once "hall/once" warningBody).resolve warned = (.ok .unresolved, warned) := by
  have hcompiled : ofValue "hall" warning =
      .ok (.branch (.constant (.bool true)) (once "hall/once" warningBody) skip) := rfl
  have hstart : (Store.new 0 64).KeepsProgress := by
    constructor
    · nofun
    · nofun
  have hspares : (once "hall/once" warningBody).Spares (.new 0 64) := by
    intro _
    refine ⟨⟨trivial, ?_⟩, ?_⟩
    · intro r t hrun
      cases hrun
      exact trivial
    · intro r t hrun
      cases hrun
      refine ⟨.of_eq rfl rfl rfl, ?_⟩
      intro r t _
      exact trivial
  have hruns : Invocations "hall/once" warningBody (.new 0 64) 1 warned := .invoked .start hspares
  obtain ⟨_, hlater, _⟩ := once_runs_once hcompiled (.head _) hstart rfl hruns
  exact ⟨rfl, rfl, hlater Nat.one_pos⟩

end Rule

end TextAdventure
