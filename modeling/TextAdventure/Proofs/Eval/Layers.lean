import TextAdventure.Proofs.Eval.Failure
import TextAdventure.Proofs.Eval.Staying

/-! # The layers around a failure

Every run either succeeds or comes to a failure, and the functions whose bodies are active there occur in
the store it started from. So the error of a script has its text on the outside, then the texts of the
active bodies, outermost first, and at last a fault. Actions put one more layer on top.
-/
namespace TextAdventure

namespace Eval

variable {α β : Type} {Q : Function → Prop} {φ : Post (.functions Q) α} {s : Store}

/-- The computation succeeds as promised, or it raises a fault itself. -/
def StepsTo (φ : Post (.functions Q) α) (m : Eval α) (s : Store) : Prop :=
  (∃ passed a t, Runs (fun _ => m) s passed (.ok a) t ∧ t.At (.functions Q) () ∧ φ.holds () a) ∨
    ∃ fault t, fault.isStepFault = true ∧ runOn m s = (.error (.ofFault fault), t)

theorem stepsTo_of_isStep {m : Eval α} (hm : IsStep m) (hstays : Stays φ () m) (hs : s.At (.functions Q) ())
    (hraises : Error.Raises (runOn m s).1) : StepsTo φ m s := by
  have hstep := Runs.step hm (s := s)
  obtain ⟨_, -, ht, ha⟩ := hstays s hs
  rcases hrun : runOn m s with ⟨e | a, t⟩ <;> rw [hrun] at hraises hstep ht ha
  · obtain ⟨fault, rfl, hfault⟩ := hraises e rfl
    exact .inr ⟨fault, t, hfault, hrun⟩
  · exact .inl ⟨_, a, t, hstep, ht, ha a rfl⟩

theorem StepsTo.bind {ψ : Post (.functions Q) β} {m : Eval α} {k : α → Eval β} (hm : StepsTo φ m s)
    (hk : ∀ a t, t.At (.functions Q) () → φ.holds () a → StepsTo ψ (k a) t) :
    StepsTo ψ (m >>= k) s := by
  rcases hm with ⟨passed, a, t, hrun, ht, ha⟩ | ⟨fault, t, hfault, hrun⟩
  · rcases hk a t ht ha with ⟨further, b, u, hrest, hu, hb⟩ | ⟨fault, u, hfault, hrest⟩
    · exact .inl ⟨passed ++ further, b, u, .bind_ok (k := fun a _ => k a) hrun hrest, hu, hb⟩
    · refine .inr ⟨fault, u, hfault, ?_⟩
      rw [runOn_bind, hrun.runOn_eq (suffices_call s)]
      exact hrest
  · refine .inr ⟨fault, t, hfault, ?_⟩
    rw [runOn_bind, hrun]

theorem stepContract_stepsTo :
    StepContract (.functions Q) fun _ φ w m => ∀ s, s.At (.functions Q) w → StepsTo φ m s where
  pure ha _ hs := stepsTo_of_isStep (.pure _) (.pure ha) hs (Error.raises_ok _)
  raise hfault s _ := .inr ⟨_, s, hfault, rfl⟩
  get _ hs := stepsTo_of_isStep .get .get hs (Error.raises_ok _)
  write lines _ hs :=
    stepsTo_of_isStep (.write lines) ((stepContract_stays _).write lines) hs (Error.raises_ok _)
  randomIndex n _ hs :=
    stepsTo_of_isStep (.randomIndex n) ((stepContract_stays _).randomIndex n) hs (Error.raises_ok _)
  randomUnit _ hs := stepsTo_of_isStep .randomUnit (stepContract_stays _).randomUnit hs (Error.raises_ok _)
  bind hm hk s hs := (hm s hs).bind fun a t ht ha => hk () a trivial ha t ht

theorem raises_change {f : Store → Except Error (α × Store)} (hf : Error.Raises (f s)) :
    Error.Raises (runOn (change f) s).1 := by
  rw [runOn_change]
  split
  next => exact Error.raises_ok _
  next e heq =>
    rintro _ ⟨⟩
    exact hf e heq

theorem stepsTo_storeName (op : AssignOp) (root : String) (keys : List String) {new : Value}
    (hs : s.At (.functions Q) ()) (hnew : new.Only Q) :
    StepsTo (.resolved (.functions Q)) (Code.storeName op root keys new) s := by
  refine stepsTo_of_isStep (.storeName op root keys new) (.storeName op root keys hnew) hs (raises_change ?_)
  exact (Code.raises_combine op _ new).bind fun stored =>
    (Store.raises_setKeys root keys _ _).bind fun u => Error.raises_ok _

theorem stepsTo_storeInto (op : AssignOp) (keys : List String) {target new : Value}
    (hs : s.At (.functions Q) ()) (htarget : target.Only Q) (hnew : new.Only Q) :
    StepsTo (.resolved (.functions Q)) (Code.storeInto op target keys new) s := by
  refine stepsTo_of_isStep (.storeInto op target keys new) (.storeInto op keys htarget hnew) hs
    (raises_change ?_)
  exact (Code.raises_combine op _ new).bind fun stored =>
    (Store.raises_assign target keys _ _).bind fun u => Error.raises_ok _

/-- The computation succeeds as promised, or it fails in bodies of functions with the property. -/
def Accounted (φ : Post (.functions Q) α) (m : Caller → Eval α) (s : Store) : Prop :=
  (∃ passed a t, Runs m s passed (.ok a) t ∧ t.At (.functions Q) () ∧ φ.holds () a) ∨
    ∃ active fault, FailsIn m s active fault ∧ ∀ g ∈ active, ∃ f, Q f ∧ f.callable = .script g

theorem StepsTo.accounted {m : Eval α} (h : StepsTo φ m s) (hm : IsStep m) :
    Accounted φ (fun _ => m) s := by
  rcases h with hok | ⟨fault, t, hfault, hrun⟩
  · exact .inl hok
  · exact .inr ⟨[], fault, (Breaks.step hm hfault hrun).failsIn, nofun⟩

theorem contract_accounted {n : Nat} (hcall : ∀ (f : Function) (args : List Value) (s : Store),
    Q f → (∀ v ∈ args, v.Only Q) → s.At (.functions Q) () → s.allowance = n →
      Accounted (.value (.functions Q)) (fun call => call f args) s) :
    Contract (.functions Q) fun _ φ w m =>
      ∀ s, s.At (.functions Q) w → s.allowance = n → Accounted φ m s where
  pure ha s hs _ := (stepContract_stepsTo.pure ha s hs).accounted (.pure _)
  raise {_ φ _ fault} hfault s hs _ :=
    (stepContract_stepsTo.raise (φ := φ) hfault s hs).accounted
      (.throw (fault.isCompileFault_of_isStepFault hfault))
  get s hs _ := (stepContract_stepsTo.get s hs).accounted .get
  write lines s hs _ := (stepContract_stepsTo.write lines s hs).accounted (.write lines)
  randomIndex n s hs _ := (stepContract_stepsTo.randomIndex n s hs).accounted (.randomIndex n)
  randomUnit s hs _ := (stepContract_stepsTo.randomUnit s hs).accounted .randomUnit
  storeName op root keys _ hnew s hs _ :=
    (stepsTo_storeName op root keys hs hnew).accounted (.storeName op root keys _)
  storeInto op keys _ _ htarget hnew s hs _ :=
    (stepsTo_storeInto op keys hs htarget hnew).accounted (.storeInto op _ keys _)
  call hf hargs s hs hn := hcall _ _ s (Value.only_function_iff.mp hf) hargs hs hn
  bind hm hk s hs hn := by
    rcases hm s hs hn with ⟨passed, a, t, hrun, ht, ha⟩ | ⟨active, fault, hfails, hactive⟩
    · -- what follows starts with the same allowance, since every call that was entered was left
      rcases hk () a trivial ha t ht (hrun.sameLimits.allowance.trans hn) with
        ⟨further, b, u, hrest, hu, hb⟩ | ⟨active, fault, ⟨γ, p, u, hreaches, hbreaks⟩, hactive⟩
      · exact .inl ⟨passed ++ further, b, u, .bind_ok hrun hrest, hu, hb⟩
      · exact .inr ⟨active, fault, ⟨γ, p, u, .next hrun hreaches, hbreaks⟩, hactive⟩
    · obtain ⟨γ, p, u, hreaches, hbreaks⟩ := hfails
      exact .inr ⟨active, fault, ⟨γ, p, u, .first _ hreaches, hbreaks⟩, hactive⟩

theorem at_entered {g : ScriptFunction} {args : List Value} (hs : s.At (.functions Q) ())
    (hargs : ∀ v ∈ args, v.Only Q) : (g.entered args s).At (.functions Q) () := by
  have hentered : s.enterCall.At (.functions Q) () := hs.of_same rfl rfl rfl rfl
  obtain ⟨_, -, hheld, hvalues⟩ := hentered.holdAll hargs
  refine hheld.openScope ?_
  rintro _ ⟨⟩
  exact Realm.hasAll_bindings g hvalues

theorem accounted_call_builtin {f : Function} {b : Builtin} (hf : f.callable = .builtin b)
    (hlt : s.activeCalls < s.maxCalls) {args : List Value} (hs : s.At (.functions Q) ())
    (hargs : ∀ v ∈ args, v.Only Q) : Accounted (.value (.functions Q)) (fun call => call f args) s := by
  have hentered : s.enterCall.At (.functions Q) () := hs.of_same rfl rfl rfl rfl
  rcases stepContract_stepsTo.runBuiltin (w := ()) b hargs s.enterCall hentered with
    ⟨passed, v, t, hrun, ht, hv⟩ | ⟨fault, t, hfault, hrun⟩
  · rw [← Function.body_of_builtin hf] at hrun
    exact .inl ⟨_, v, _, .entered hlt hrun, ht.of_same rfl rfl rfl rfl, hv⟩
  · exact .inr ⟨[], fault, (Breaks.builtin hf hlt hfault hrun).failsIn, nofun⟩

theorem exists_runs_runWith {g : ScriptFunction} (args : List Value) {passed : List Store} {r : Resolved}
    {t : Store} (h : Runs (fun call => g.body.code.eval call) (g.entered args s) passed (.ok r) t) :
    ∃ further, Runs (fun call => g.runWith call args) s.enterCall further (.ok r.get) t.closeScope := by
  have hscript : Runs (fun call => g.body.evalWith call) (g.entered args s) passed (.ok r) t :=
    .mapError (·.inExpression g.body.source) h
  have hvalue : Runs (fun call => g.body.evalWith call >>= fun r => pure r.get) (g.entered args s)
      (passed ++ [t]) (.ok r.get) t :=
    .bind_ok (k := fun r _ => pure r.get) hscript (.step (.pure r.get))
  simp only [bind_pure_comp] at hvalue
  exact ⟨_, .bind_ok (.step (.holdAll args)) (.inScope _ hvalue)⟩

theorem accounted_call_script {f : Function} {g : ScriptFunction} (hg : f.callable = .script g) (hf : Q f)
    (hlt : s.activeCalls < s.maxCalls) {args : List Value}
    (h : Accounted (.resolved (.functions Q)) (fun call => g.body.code.eval call) (g.entered args s)) :
    Accounted (.value (.functions Q)) (fun call => call f args) s := by
  rcases h with ⟨passed, r, t, hrun, ht, hr⟩ | ⟨active, fault, ⟨β, p, u, hreaches, hbreaks⟩, hactive⟩
  · obtain ⟨further, hrunWith⟩ := exists_runs_runWith args hrun
    rw [← Function.body_of_script hg] at hrunWith
    exact .inl ⟨_, r.get, _, .entered hlt hrunWith, ht.closeScope.of_same rfl rfl rfl rfl, hr⟩
  · refine .inr ⟨g :: active, fault, ⟨β, p, u, .body hg hlt hreaches, hbreaks⟩, ?_⟩
    exact List.forall_mem_cons.mpr ⟨⟨f, hf, hg⟩, hactive⟩

theorem accounted (n : Nat) :
    Contract (.functions Q) fun _ φ w m =>
      ∀ s, s.At (.functions Q) w → s.allowance = n → Accounted φ m s := by
  -- the body of a call that is entered has one call less to enter
  induction n with
  | zero =>
    refine contract_accounted fun f args s _ _ _ hn => ?_
    have hle := Store.allowance_eq_zero_iff.mp hn
    exact .inr ⟨[], _, (Breaks.refused f args hle).failsIn, nofun⟩
  | succ n ih =>
    refine contract_accounted fun f args s hf hargs hs hn => ?_
    have hlt : s.activeCalls < s.maxCalls := by
      rw [Store.allowance] at hn
      omega
    cases hcallable : f.callable with
    | builtin b => exact accounted_call_builtin hcallable hlt hs hargs
    | script g =>
      refine accounted_call_script hcallable hf hlt ?_
      refine ih.evalCode (w := ()) g.body.code _ (at_entered hs hargs) ?_
      rw [ScriptFunction.allowance_entered, hn, Nat.add_sub_cancel]

theorem Accounted.exists_failsIn {m : Caller → Eval α} (h : Accounted φ m s) {e : Error}
    (he : (runOn (m Function.call) s).1 = .error e) :
    ∃ active fault, FailsIn m s active fault ∧ e = .evaluating (active.map (·.body.source)) fault ∧
      ∀ g ∈ active, ∃ f, Q f ∧ f.callable = .script g := by
  rcases h with ⟨passed, a, t, hrun, _⟩ | ⟨active, fault, hfails, hactive⟩
  · rw [hrun.runOn_eq (suffices_call s)] at he
    cases he
  · rw [hfails.runOn_error (suffices_call s)] at he
    cases he
    exact ⟨active, fault, hfails, rfl, hactive⟩

/-- A failure is a fault under the texts that were being evaluated. -/
def FailsEvaluating (m : Eval α) : Prop :=
  ∀ s e, (runOn m s).1 = .error e → ∃ sources fault, e = .evaluating sources fault

namespace FailsEvaluating

theorem of_accounted {m : Caller → Eval α} (h : ∀ s, Accounted φ m s) :
    FailsEvaluating (m Function.call) := by
  intro s e he
  obtain ⟨active, fault, _, rfl, _⟩ := (h s).exists_failsIn he
  exact ⟨_, fault, rfl⟩

theorem inExpression {m : Eval α} (h : FailsEvaluating m) (source : String) :
    FailsEvaluating (mapError (·.inExpression source) m) := by
  intro s e he
  rw [runOn_mapError] at he
  cases hrun : (runOn m s).1 with
  | ok a =>
    rw [hrun] at he
    cases he
  | error inner =>
    rw [hrun] at he
    cases he
    obtain ⟨sources, fault, rfl⟩ := h s inner hrun
    exact ⟨source :: sources, fault, rfl⟩

theorem inScope {m : Eval α} (h : FailsEvaluating m) (scope : Scope) :
    FailsEvaluating (inScope scope m) := by
  intro s e he
  rw [runOn_inScope] at he
  exact h _ e he

theorem bind {m : Eval α} {k : α → Eval β} (hm : FailsEvaluating m) (hk : ∀ a, FailsEvaluating (k a)) :
    FailsEvaluating (m >>= k) := by
  intro s e he
  rw [runOn_bind] at he
  rcases hrun : runOn m s with ⟨r, t⟩
  rw [hrun] at he
  cases r with
  | error e' =>
    cases he
    exact hm s e (by rw [hrun])
  | ok a => exact hk a t e he

theorem setProgress (key : String) (n : Nat) : FailsEvaluating (Rule.setProgress key n) := by
  intro s e he
  rw [Rule.setProgress, runOn_change] at he
  split at he
  · cases he
  next e' h =>
    cases he
    have hraises := (Store.raises_setKeys Rule.progressName [key] (.ofNat n) s).bind fun t =>
      Error.raises_ok ((), t)
    obtain ⟨fault, rfl, _⟩ := hraises e h
    exact ⟨[], fault, rfl⟩

theorem at_functions_true (s : Store) : s.At (.functions fun _ => True) () :=
  ⟨(Post.store (.functions fun _ => True)).lax (fun _ _ _ _ => trivial) () s, trivial⟩

theorem ruleClosed : RuleClosed fun _ m => FailsEvaluating (m Function.call) where
  pure _ := nofun
  get := nofun
  write _ := nofun
  randomIndex _ := nofun
  setProgress := setProgress
  call _ := of_accounted fun s =>
    (accounted s.allowance).call (w := ()) (fun _ _ => trivial) (fun _ _ _ _ => trivial) s
      (at_functions_true s) rfl
  script script := inExpression (of_accounted fun s =>
    (accounted s.allowance).evalCode (w := ()) script.code s (at_functions_true s) rfl) script.source
  bind hm hk := hm.bind hk

theorem inScopes {m : Eval α} (h : FailsEvaluating m) (owner : String) (captures : Bindings) :
    FailsEvaluating (Action.inScopes owner captures m) := by
  refine bind nofun fun s => ?_
  refine inScope (inScope (inScope ?_ _) _) _
  split
  · exact h.inScope _
  · exact h

end FailsEvaluating

end Eval

open Eval (runOn FailsIn Runaway)

end TextAdventure
