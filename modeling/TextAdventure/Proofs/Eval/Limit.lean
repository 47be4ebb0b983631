import TextAdventure.Proofs.Store.Locality

/-! # Evaluation ends within the limit of nested calls

Evaluation is defined by recursion on how many calls are still allowed. A run can also be derived by rules
that know of no such number: a step is taken, a sequence runs its parts one after the other, and a call
that is entered runs the body of its function, whatever function a name or a value stands for by then.
Every computation has such a derivation from every store, so evaluation ends by itself. Only calls that
find as many calls active as the store allows are refused, and no store on the way has more of them.
-/
namespace TextAdventure

namespace Store

variable {s t u : Store}

/-- How many calls may still be entered, one in the other. -/
def allowance (s : Store) : Nat :=
  s.maxCalls - s.activeCalls

def enterCall (s : Store) : Store :=
  { s with activeCalls := s.activeCalls + 1 }

def exitCall (s : Store) : Store :=
  { s with activeCalls := s.activeCalls - 1 }

theorem allowance_eq_zero_iff : s.allowance = 0 ↔ s.maxCalls ≤ s.activeCalls :=
  Nat.sub_eq_zero_iff_le

theorem allowance_enterCall (s : Store) : s.enterCall.allowance = s.allowance - 1 :=
  Nat.sub_add_eq s.maxCalls s.activeCalls 1

/-- As many calls are active as before, and as many are allowed. -/
structure SameLimits (s t : Store) : Prop where
  activeCalls : t.activeCalls = s.activeCalls
  maxCalls : t.maxCalls = s.maxCalls

theorem SameLimits.trans (hst : SameLimits s t) (htu : SameLimits t u) : SameLimits s u :=
  ⟨htu.activeCalls.trans hst.activeCalls, htu.maxCalls.trans hst.maxCalls⟩

theorem SameLimits.allowance (h : SameLimits s t) : t.allowance = s.allowance := by
  rw [Store.allowance, Store.allowance, h.activeCalls, h.maxCalls]

theorem SameLimits.exitCall (h : SameLimits s.enterCall t) : SameLimits s t.exitCall := by
  refine ⟨?_, h.maxCalls⟩
  rw [Store.exitCall, h.activeCalls, enterCall]
  exact Nat.add_sub_cancel s.activeCalls 1

theorem AgreeOff.sameLimits {places : List Location} (h : AgreeOff places s t) : SameLimits s t :=
  ⟨h.activeCalls, h.maxCalls⟩

theorem sameLimits_invariant : Eval.Invariant SameLimits where
  refl _ := ⟨rfl, rfl⟩
  trans := SameLimits.trans
  writeLines _ _ := ⟨rfl, rfl⟩
  draw _ _ := ⟨rfl, rfl⟩
  mark _ _ := ⟨rfl, rfl⟩
  assign h := (agreeOff_of_assign h).sameLimits
  setKeys h := (agreeOff_of_setKeys h).sameLimits
  closeScope _ h := ⟨h.activeCalls, h.maxCalls⟩
  exitCall _ h := SameLimits.exitCall h

end Store

namespace Eval

open Store (SameLimits)

/-- Derives the run of a computation from a store, with the stores that it passes on its way, its result
and the store it ends in. Calls are derived from the bodies of functions. -/
inductive Runs : {α : Type} → (Caller → Eval α) → Store → List Store → Except Error α → Store → Prop where
  | step {α : Type} {m : Eval α} {s : Store} :
    IsStep m → Runs (fun _ => m) s [(runOn m s).2] (runOn m s).1 (runOn m s).2
  | bind_error {α β : Type} {m : Caller → Eval α} (k : α → Caller → Eval β) {s t : Store}
    {passed : List Store} {e : Error} :
    Runs m s passed (.error e) t →
      Runs (fun call => m call >>= fun a => k a call) s passed (.error e) t
  | bind_ok {α β : Type} {m : Caller → Eval α} {k : α → Caller → Eval β} {s t u : Store}
    {passed further : List Store} {a : α} {r : Except Error β} :
    Runs m s passed (.ok a) t → Runs (k a) t further r u →
      Runs (fun call => m call >>= fun a => k a call) s (passed ++ further) r u
  | mapError {α : Type} {m : Caller → Eval α} (f : Error → Error) {s t : Store}
    {passed : List Store} {r : Except Error α} :
    Runs m s passed r t → Runs (fun call => mapError f (m call)) s passed (r.mapError f) t
  | inScope {α : Type} {m : Caller → Eval α} (scope : Scope) {s t : Store} {passed : List Store}
    {r : Except Error α} :
    Runs m (s.openScope scope) passed r t →
      Runs (fun call => inScope scope (m call)) s
        (s.openScope scope :: (passed ++ [t.closeScope])) r t.closeScope
  /-- A call beyond the limit runs nothing. -/
  | refused (f : Function) (args : List Value) {s : Store} :
    s.maxCalls ≤ s.activeCalls →
      Runs (fun call => call f args) s [] (.error (.ofFault (.limitExceeded s.maxCalls))) s
  | entered {f : Function} {args : List Value} {s t : Store} {passed : List Store}
    {r : Except Error Value} :
    s.activeCalls < s.maxCalls → Runs (f.body args) s.enterCall passed r t →
      Runs (fun call => call f args) s (s.enterCall :: (passed ++ [t.exitCall])) r t.exitCall

variable {α : Type} {m : Caller → Eval α} {s t : Store} {passed : List Store} {r : Except Error α}

theorem Runs.respects {R : Store → Store → Prop} (hR : Invariant R) (h : Runs m s passed r t) :
    R s t := by
  induction h with
  | step hm => exact hR.step hm _
  | bind_error k _ ih => exact ih
  | bind_ok _ _ ihm ihk => exact hR.trans ihm ihk
  | mapError f _ ih => exact ih
  | inScope scope _ ih => exact hR.closeScope scope ih
  | refused f args => exact hR.refl _
  | entered hlt _ ih => exact hR.exitCall hlt ih

theorem Runs.sameLimits (h : Runs m s passed r t) : SameLimits s t :=
  h.respects Store.sameLimits_invariant

/-- A store on the way of a run has no more active calls than the run may have. -/
def Within (s t : Store) : Prop :=
  t.maxCalls = s.maxCalls ∧ t.activeCalls ≤ s.maxCalls

theorem within_of_sameLimits (h : SameLimits s t) (hs : s.activeCalls ≤ s.maxCalls) : Within s t :=
  ⟨h.maxCalls, h.activeCalls ▸ hs⟩

theorem Runs.within (h : Runs m s passed r t) (hs : s.activeCalls ≤ s.maxCalls) :
    ∀ u ∈ passed, Within s u := by
  induction h with
  | step hm =>
    intro u hu
    rw [List.mem_singleton.mp hu]
    exact within_of_sameLimits (Store.sameLimits_invariant.step hm _) hs
  | bind_error k _ ih => exact ih hs
  | bind_ok hm _ ihm ihk =>
    intro u hu
    have hlimits := hm.sameLimits
    rcases List.mem_append.mp hu with hu | hu
    · exact ihm hs u hu
    · have ht := ihk (by rw [hlimits.activeCalls, hlimits.maxCalls]; exact hs) u hu
      rwa [Within, hlimits.maxCalls] at ht
  | mapError f _ ih => exact ih hs
  | inScope scope hm ih =>
    intro u hu
    have hlimits := hm.sameLimits
    rcases List.mem_cons.mp hu with rfl | hu
    · exact ⟨rfl, hs⟩
    · rcases List.mem_append.mp hu with hu | hu
      · exact ih hs u hu
      · rw [List.mem_singleton.mp hu]
        exact within_of_sameLimits ⟨hlimits.activeCalls, hlimits.maxCalls⟩ hs
  | refused f args =>
    intro u hu
    cases hu
  | entered hlt hbody ih =>
    intro u hu
    rcases List.mem_cons.mp hu with rfl | hu
    · exact ⟨rfl, hlt⟩
    · rcases List.mem_append.mp hu with hu | hu
      · exact ih hlt u hu
      · rw [List.mem_singleton.mp hu]
        exact within_of_sameLimits hbody.sameLimits.exitCall hs

/-- From stores with the same allowance or a smaller one, a call runs as if it were given a number of calls
that is enough. -/
def Suffices (call : Caller) (s : Store) : Prop :=
  ∀ f args t, t.allowance ≤ s.allowance →
    ∃ n, t.allowance ≤ n ∧ runOn (call f args) t = runOn (Function.callWithin n f args) t

theorem suffices_callWithin {n : Nat} (h : s.allowance ≤ n) : Suffices (Function.callWithin n) s :=
  fun _ _ _ ht => ⟨n, Nat.le_trans ht h, rfl⟩

theorem suffices_call (s : Store) : Suffices Function.call s :=
  fun _ _ t _ => ⟨t.allowance, Nat.le_refl _, rfl⟩

theorem Suffices.congr {call : Caller} (h : Suffices call s) (hst : SameLimits s t) :
    Suffices call t := by
  intro f args u hu
  exact h f args u (hst.allowance ▸ hu)

theorem runOn_callWithin_of_refused {s : Store} (h : s.maxCalls ≤ s.activeCalls) (n : Nat)
    (f : Function) (args : List Value) :
    runOn (Function.callWithin n f args) s = (.error (.ofFault (.limitExceeded s.maxCalls)), s) := by
  cases n with
  | zero => rfl
  | succ n => rw [Function.callWithin_succ, runOn_asCall, if_neg (Nat.not_lt.mpr h)]

/-- A call that is entered runs its body, and for that one call less is enough. -/
theorem Suffices.exists_entered {call : Caller} (hcall : Suffices call s)
    (hlt : s.activeCalls < s.maxCalls) (f : Function) (args : List Value) :
    ∃ n, s.enterCall.allowance ≤ n ∧
      runOn (call f args) s =
        ((runOn (f.body args (Function.callWithin n)) s.enterCall).1,
          (runOn (f.body args (Function.callWithin n)) s.enterCall).2.exitCall) := by
  obtain ⟨n, hle, hn⟩ := hcall f args s (Nat.le_refl _)
  have hpos : 0 < s.allowance := Nat.sub_pos_of_lt hlt
  cases n with
  | zero => omega
  | succ n =>
    refine ⟨n, ?_, ?_⟩
    · rw [Store.allowance_enterCall]
      omega
    · rw [hn, Function.callWithin_succ, runOn_asCall, if_pos hlt]
      rfl

/-- A derived run is what evaluation does. -/
theorem Runs.runOn_eq (h : Runs m s passed r t) {call : Caller} (hcall : Suffices call s) :
    runOn (m call) s = (r, t) := by
  induction h generalizing call with
  | step hm => rfl
  | bind_error k _ ih => rw [runOn_bind, ih hcall]
  | bind_ok hm _ ihm ihk => rw [runOn_bind, ihm hcall, ← ihk (hcall.congr hm.sameLimits)]
  | mapError f _ ih => rw [runOn_mapError, ih hcall]
  | inScope scope _ ih => rw [runOn_inScope, ih hcall]
  | @refused f args s hle =>
    obtain ⟨n, _, hn⟩ := hcall f args s (Nat.le_refl _)
    rw [hn, runOn_callWithin_of_refused hle]
  | @entered f args s t passed r hlt _ ih =>
    obtain ⟨n, hn, hrun⟩ := hcall.exists_entered hlt f args
    rw [hrun, ih (suffices_callWithin hn)]

theorem closed_exists_runs {n : Nat} (hcall : ∀ (f : Function) (args : List Value) (s : Store),
    s.allowance = n → ∃ passed r t, Runs (fun call => call f args) s passed r t) :
    Closed fun _ m => ∀ s, s.allowance = n → ∃ passed r t, Runs m s passed r t where
  step hm s _ := ⟨_, _, _, .step hm⟩
  call := hcall
  bind hm hk s hs := by
    obtain ⟨passed, r, t, hrun⟩ := hm s hs
    cases r with
    | error e => exact ⟨passed, _, t, .bind_error _ hrun⟩
    | ok a =>
      -- what follows starts with the same allowance, since the run so far has left every call it entered
      obtain ⟨further, r', u, hrest⟩ := hk a t (hrun.sameLimits.allowance.trans hs)
      exact ⟨passed ++ further, r', u, .bind_ok hrun hrest⟩
  mapError _ hm s hs := by
    obtain ⟨passed, r, t, hrun⟩ := hm s hs
    exact ⟨passed, _, t, .mapError _ hrun⟩
  inScope scope hm s hs := by
    obtain ⟨passed, r, t, hrun⟩ := hm (s.openScope scope) hs
    exact ⟨_, r, _, .inScope scope hrun⟩

theorem exists_runs (n : Nat) :
    Closed fun _ m => ∀ s, s.allowance = n → ∃ passed r t, Runs m s passed r t := by
  induction n with
  | zero =>
    apply closed_exists_runs
    intro f args s hs
    exact ⟨[], _, s, .refused f args (Store.allowance_eq_zero_iff.mp hs)⟩
  | succ n ih =>
    apply closed_exists_runs
    intro f args s hs
    have hlt : s.activeCalls < s.maxCalls := by
      rw [Store.allowance] at hs
      omega
    have hn : s.enterCall.allowance = n := by rw [Store.allowance_enterCall, hs, Nat.add_sub_cancel]
    obtain ⟨passed, r, t, hrun⟩ := ih.body f args s.enterCall hn
    exact ⟨_, r, _, .entered hlt hrun⟩

/-- The run ends, and if no more calls are active at first than are allowed, this holds all the way. -/
def EndsWithin (m : Caller → Eval α) (s : Store) (outcome : Except Error α × Store) : Prop :=
  ∃ passed, Runs m s passed outcome.1 outcome.2 ∧
    (s.activeCalls ≤ s.maxCalls → ∀ t ∈ passed, Within s t)

theorem endsWithin_of_exists (h : ∃ passed r t, Runs m s passed r t) :
    EndsWithin m s (runOn (m Function.call) s) := by
  obtain ⟨passed, r, t, hrun⟩ := h
  refine ⟨passed, ?_, hrun.within⟩
  rw [hrun.runOn_eq (suffices_call s)]
  exact hrun

end Eval

open Eval (runOn EndsWithin)

/-- From every store, the evaluation of every script and of every rule ends, and it never has more calls
active than the store allows. A call that would be one too many fails and changes nothing. -/
theorem evaluation_ends_within_limit (s : Store) :
    (∀ script : Script,
      EndsWithin (fun call => script.evalWith call) s (runOn script.resolve s)) ∧
    (∀ rule : Rule, EndsWithin (fun call => rule.resolveWith call) s (runOn rule.resolve s)) ∧
    ∀ (f : Function) (args : List Value), s.maxCalls ≤ s.activeCalls →
      runOn (Function.call f args) s = (.error (.ofFault (.limitExceeded s.maxCalls)), s) := by
  have hexists := Eval.exists_runs s.allowance
  refine ⟨fun script => ?_, fun rule => ?_, fun f args h => ?_⟩
  · exact Eval.endsWithin_of_exists (hexists.evalWith script s rfl)
  · rw [← Rule.resolveWith_call]
    exact Eval.endsWithin_of_exists (hexists.resolveWith rule s rfl)
  · exact Eval.runOn_callWithin_of_refused h _ f args

/-- A function that does nothing but call itself, where two calls may be nested. -/
def spinning : Store :=
  { Store.new 0 2 with
    globals := [("spin", .function ⟨0, .script ⟨"spin", [], ⟨"spin()", .callName "spin" []⟩⟩⟩)] }

def spin : Script :=
  ⟨"spin()", .callName "spin" []⟩

theorem evaluation_ends_spinning :
    (∃ passed, Eval.Runs (fun call => spin.evalWith call) spinning passed
        (runOn spin.resolve spinning).1 (runOn spin.resolve spinning).2 ∧
      ∀ t ∈ passed, t.activeCalls ≤ 2) ∧
    (∃ e, (runOn spin.resolve spinning).1 = .error e ∧ e.root = .limitExceeded 2) ∧
    ∀ f args, (runOn (Function.call f args) { spinning with activeCalls := 2 }).1 =
      .error (.ofFault (.limitExceeded 2)) := by
  refine ⟨?_, ⟨_, rfl, rfl⟩, fun f args => ?_⟩
  · obtain ⟨passed, hrun, hwithin⟩ := (evaluation_ends_within_limit spinning).1 spin
    exact ⟨passed, hrun, fun t ht => (hwithin (by decide) t ht).2⟩
  · have hfull := evaluation_ends_within_limit { spinning with activeCalls := 2 }
    rw [hfull.2.2 f args (by decide)]
    rfl

end TextAdventure
