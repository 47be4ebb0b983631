import TextAdventure.Proofs.Rule.Stateful

/-! # What runs of rules keep

A rule does two kinds of things to the progress of rules: its own cycles and rules that run once note
theirs, and its scripts and calls may define or assign the name that progress is bound to. If they do
not, whatever survives the notes survives the whole run.
-/
namespace TextAdventure

namespace Rule

variable {Q : Store → Prop} {s t : Store} {key : String}

mutual

/-- In the run of the rule from a store, no script and no call defines the name that progress is bound
to in a scope that stays open, or assigns it. -/
def Spares : Rule → Store → Prop
  | constant _, _ => True
  | line _, _ => True
  | script c, s => s.SparesProgress (Eval.runOn (resolve (script c)) s).2
  | property c, s => s.SparesProgress (Eval.runOn (resolve (property c)) s).2
  | call f, s => s.SparesProgress (Eval.runOn (resolve (call f)) s).2
  | sequence rules, s => SparesAll rules s
  | switch rules, s => SparesFirst rules s
  | choice rules, s => SparesAt rules (s.randomIndex rules.length).1 (s.randomIndex rules.length).2
  | cycle key rules, s => SparesAt rules (position key rules.length s) s
  | once key body, s => progress key s = 0 → Spares body (Eval.runOn (setProgress key 1) s).2
  | branch condition yes no, s =>
    Spares condition s ∧ ∀ r t, Eval.runOn (resolve condition) s = (.ok r, t) →
      if r.isTruthy then Spares yes t else Spares no t

def SparesAll : List Rule → Store → Prop
  | [], _ => True
  | rule :: rules, s =>
    Spares rule s ∧ ∀ r t, Eval.runOn (resolve rule) s = (.ok r, t) → SparesAll rules t

def SparesFirst : List Rule → Store → Prop
  | [], _ => True
  | rule :: rules, s =>
    Spares rule s ∧ ∀ r t, Eval.runOn (resolve rule) s = (.ok r, t) → r.isTruthy = false →
      SparesFirst rules t

def SparesAt : List Rule → Nat → Store → Prop
  | [], _, _ => True
  | rule :: _, 0, s => Spares rule s
  | _ :: rules, i + 1, s => SparesAt rules i s

end

/-- The property survives whatever leaves the progress alone. -/
def Robust (Q : Store → Prop) : Prop :=
  ∀ s t, Q s → s.SparesProgress t → Q t

/-- The property survives the notes of a rule that keeps progress, or the runs of that rule. -/
def Survives (Q : Store → Prop) (p : String × Rule) : Prop :=
  (∀ n s, Q s → Q (Eval.runOn (setProgress p.1 n) s).2) ∨
    ∀ s, Q s → p.2.Spares s → Q (Eval.runOn p.2.resolve s).2

theorem keeps_bind {α β : Type} {m : Eval α} {f : α → Eval β} (hm : Q (Eval.runOn m s).2)
    (hf : ∀ a t, Eval.runOn m s = (.ok a, t) → Q t → Q (Eval.runOn (f a) t).2) :
    Q (Eval.runOn (m >>= f) s).2 := by
  rw [Eval.runOn_bind]
  rcases hrun : Eval.runOn m s with ⟨e | a, t⟩
  · rw [hrun] at hm
    exact hm
  · rw [hrun] at hm
    exact hf a t hrun hm

mutual

theorem Spares.keeps (hQ : Robust Q) : ∀ (rule : Rule) (s : Store), rule.Spares s →
    (∀ p ∈ rule.stateful, Survives Q p) → Q s → Q (Eval.runOn rule.resolve s).2
  | .constant v, s, _, _, hs => by
    rw [resolve]
    exact hs
  | .line text, s, _, _, hs => by
    rw [resolve]
    exact hQ s (s.writeLines [text]) hs (.of_eq rfl rfl rfl)
  | .script c, s, hspares, _, hs => hQ s _ hs hspares
  | .property c, s, hspares, _, hs => hQ s _ hs hspares
  | .call f, s, hspares, _, hs => hQ s _ hs hspares
  | .sequence rules, s, hspares, hstateful, hs => by
    rw [resolve]
    exact SparesAll.keeps hQ rules .unresolved s hspares hstateful hs
  | .switch rules, s, hspares, hstateful, hs => by
    rw [resolve]
    exact SparesFirst.keeps hQ rules s hspares hstateful hs
  | .choice rules, s, hspares, hstateful, hs => by
    let drawn := s.randomIndex rules.length
    have hdrawn : Q drawn.2 := hQ s drawn.2 hs (.of_eq rfl rfl rfl)
    rw [resolve, Eval.runOn_bind, Eval.runOn_modifyGet]
    exact SparesAt.keeps hQ rules drawn.1 drawn.2 hspares hstateful hdrawn
  | .cycle key rules, s, hspares, hstateful, hs => by
    rcases hstateful _ List.mem_cons_self with hnotes | hruns
    · have hitems : ∀ p ∈ statefulIn rules, Survives Q p :=
        fun p hp => hstateful p (List.mem_cons_of_mem _ hp)
      rw [resolve, Eval.runOn_bind, Eval.runOn_get]
      dsimp only
      refine keeps_bind (SparesAt.keeps hQ rules _ s hspares hitems hs) fun r t _ ht => ?_
      exact keeps_bind (hnotes _ t ht) fun _ u _ hu => hu
    · exact hruns s hs hspares
  | .once key body, s, hspares, hstateful, hs => by
    rcases hstateful _ List.mem_cons_self with hnotes | hruns
    · have hbody : ∀ p ∈ body.stateful, Survives Q p :=
        fun p hp => hstateful p (List.mem_cons_of_mem _ hp)
      rw [resolve, Eval.runOn_bind, Eval.runOn_get]
      dsimp only
      by_cases hfirst : progress key s = 0
      · rw [if_neg (not_not_intro hfirst)]
        have hspares := hspares hfirst
        refine keeps_bind (hnotes 1 s hs) fun _ t hnote ht => ?_
        rw [hnote] at hspares
        exact Spares.keeps hQ body t hspares hbody ht
      · rw [if_pos hfirst]
        exact hs
    · exact hruns s hs hspares
  | .branch condition yes no, s, hspares, hstateful, hs => by
    have hcondition : ∀ p ∈ condition.stateful, Survives Q p :=
      fun p hp => hstateful p (List.mem_append_left _ hp)
    have hyes : ∀ p ∈ yes.stateful, Survives Q p :=
      fun p hp => hstateful p (List.mem_append_right _ (List.mem_append_left _ hp))
    have hno : ∀ p ∈ no.stateful, Survives Q p :=
      fun p hp => hstateful p (List.mem_append_right _ (List.mem_append_right _ hp))
    rw [resolve]
    refine keeps_bind (Spares.keeps hQ condition s hspares.1 hcondition hs) fun r t hrun ht => ?_
    have hrest := hspares.2 r t hrun
    split
    next htruthy =>
      rw [if_pos htruthy] at hrest
      exact Spares.keeps hQ yes t hrest hyes ht
    next htruthy =>
      rw [if_neg htruthy] at hrest
      exact Spares.keeps hQ no t hrest hno ht

theorem SparesAll.keeps (hQ : Robust Q) : ∀ (rules : List Rule) (last : Resolved) (s : Store),
    SparesAll rules s → (∀ p ∈ statefulIn rules, Survives Q p) → Q s →
      Q (Eval.runOn (resolveAll rules last) s).2
  | [], last, s, _, _, hs => by
    rw [resolveAll]
    exact hs
  | rule :: rules, last, s, hspares, hstateful, hs => by
    rw [resolveAll]
    have hrule : ∀ p ∈ rule.stateful, Survives Q p :=
      fun p hp => hstateful p (List.mem_append_left _ hp)
    have hrules : ∀ p ∈ statefulIn rules, Survives Q p :=
      fun p hp => hstateful p (List.mem_append_right _ hp)
    refine keeps_bind (Spares.keeps hQ rule s hspares.1 hrule hs) fun r t hrun ht => ?_
    exact SparesAll.keeps hQ rules r t (hspares.2 r t hrun) hrules ht

theorem SparesFirst.keeps (hQ : Robust Q) : ∀ (rules : List Rule) (s : Store),
    SparesFirst rules s → (∀ p ∈ statefulIn rules, Survives Q p) → Q s →
      Q (Eval.runOn (resolveFirst rules) s).2
  | [], s, _, _, hs => by
    rw [resolveFirst]
    exact hs
  | rule :: rules, s, hspares, hstateful, hs => by
    rw [resolveFirst]
    have hrule : ∀ p ∈ rule.stateful, Survives Q p :=
      fun p hp => hstateful p (List.mem_append_left _ hp)
    have hrules : ∀ p ∈ statefulIn rules, Survives Q p :=
      fun p hp => hstateful p (List.mem_append_right _ hp)
    refine keeps_bind (Spares.keeps hQ rule s hspares.1 hrule hs) fun r t hrun ht => ?_
    split
    · exact ht
    next hfalsy =>
      exact SparesFirst.keeps hQ rules t (hspares.2 r t hrun (Bool.not_eq_true _ ▸ hfalsy)) hrules ht

theorem SparesAt.keeps (hQ : Robust Q) : ∀ (rules : List Rule) (i : Nat) (s : Store),
    SparesAt rules i s → (∀ p ∈ statefulIn rules, Survives Q p) → Q s →
      Q (Eval.runOn (resolveAt rules i) s).2
  | [], i, s, _, _, hs => by
    rw [resolveAt]
    exact hs
  | rule :: rules, 0, s, hspares, hstateful, hs => by
    rw [resolveAt]
    exact Spares.keeps hQ rule s hspares (fun p hp => hstateful p (List.mem_append_left _ hp)) hs
  | rule :: rules, i + 1, s, hspares, hstateful, hs => by
    rw [resolveAt]
    exact SparesAt.keeps hQ rules i s hspares
      (fun p hp => hstateful p (List.mem_append_right _ hp)) hs

end

/-- The property is about the progress under one key only: it survives whatever leaves the progress alone,
and notes under all other keys. -/
structure Concerns (key : String) (Q : Store → Prop) : Prop where
  robust : Robust Q
  note {s : Store} {other : String} (n : Nat) : Q s → other ≠ key →
    Q (Eval.runOn (setProgress other n) s).2

namespace Concerns

variable {rule : Rule}

/-- Such a property survives the run of a rule if it survives the runs of the components under its key. -/
theorem run (hQ : Concerns key Q) (hs : Q s) (hspares : rule.Spares s)
    (hown : ∀ p ∈ rule.stateful, p.1 = key →
      ∀ t, Q t → p.2.Spares t → Q (Eval.runOn p.2.resolve t).2) :
    Q (Eval.runOn rule.resolve s).2 := by
  apply Spares.keeps hQ.robust rule s hspares _ hs
  intro p hp
  by_cases hkey : p.1 = key
  · exact .inr (hown p hp hkey)
  · exact .inl fun n t ht => hQ.note n ht hkey

theorem run_of_ne (hQ : Concerns key Q) (hs : Q s) (hspares : rule.Spares s)
    (hkeys : ∀ p ∈ rule.stateful, p.1 ≠ key) : Q (Eval.runOn rule.resolve s).2 :=
  hQ.run hs hspares fun p hp hkey => absurd hkey (hkeys p hp)

theorem later {H : Nat → Store → Prop} (hH : ∀ n, Concerns key (H n)) (n : Nat) :
    Concerns key fun s => ∃ m, n ≤ m ∧ H m s where
  robust := by
    rintro s t ⟨m, hle, hm⟩ hspares
    exact ⟨m, hle, (hH m).robust s t hm hspares⟩
  note := by
    rintro s other k ⟨m, hle, hm⟩ hne
    exact ⟨m, hle, (hH m).note k hm hne⟩

end Concerns

theorem concerns_progress (key : String) (x : Int64) :
    Concerns key fun s => s.KeepsProgress ∧ progress key s = x where
  robust := by
    rintro s t ⟨hs, hx⟩ hspares
    exact ⟨hspares.keepsProgress hs, (hspares.progress_eq hs key).trans hx⟩
  note := by
    rintro s other n ⟨hs, hx⟩ hne
    obtain ⟨layout, hrun⟩ := hs.runOn_setProgress other n
    rw [hrun]
    exact ⟨hs.note other n layout, (hs.progress_note_of_ne other n layout hne.symm).trans hx⟩

end Rule

end TextAdventure
