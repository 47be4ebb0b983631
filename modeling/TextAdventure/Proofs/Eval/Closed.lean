import TextAdventure.Action
import TextAdventure.Proofs.Eval.Compositional
import TextAdventure.Proofs.Eval.Contract
import TextAdventure.Proofs.Store.Functions

/-! # What every evaluation is made of

Code and rules do what they do by a few kinds of steps: reading the store, writing lines, drawing by
chance, giving out marks and assigning. They take them one after the other, in scopes that are opened for
them and with errors that are marked on their way out, and they call functions. So a property that steps
have, that calls have and that is kept by these ways to build computations is one of every evaluation.
How functions are called is left open: a property is one of the computation for all ways to call.
-/
namespace TextAdventure

/-- What a call of a function runs once it is entered. -/
def Function.body (f : Function) (args : List Value) (call : Caller) : Eval Value :=
  match f.callable with
  | .builtin b => b.run args
  | .script g => g.runWith call args

theorem Function.body_of_builtin {f : Function} {b : Builtin} (h : f.callable = .builtin b)
    (args : List Value) : f.body args = fun _ => b.run args := by
  funext call
  rw [Function.body, h]

theorem Function.body_of_script {f : Function} {g : ScriptFunction} (h : f.callable = .script g)
    (args : List Value) : f.body args = fun call => g.runWith call args := by
  funext call
  rw [Function.body, h]

theorem Function.callWithin_succ (calls : Nat) (f : Function) (args : List Value) :
    callWithin (calls + 1) f args = Eval.asCall (f.body args (callWithin calls)) :=
  rfl

namespace Rule

def callIfFunctionWith (call : Caller) (r : Resolved) : Eval Resolved :=
  match r with
  | .value (.function f) => Resolved.value <$> call f []
  | r => return r

mutual

/-- Runs a rule with a given way to call functions. -/
def resolveWith (call : Caller) : Rule → Eval Resolved
  | constant v => return .value v
  | line text => do
    Eval.write [text]
    return .value (.bool true)
  | script s => s.evalWith call
  | property s => do callIfFunctionWith call (← s.evalWith call)
  | .call f => Resolved.value <$> call f []
  | sequence rules => resolveAllWith call rules .unresolved
  | switch rules => resolveFirstWith call rules
  | choice rules => do
    let i ← modifyGet (Store.randomIndex rules.length)
    resolveAtWith call rules i
  | cycle key rules => do
    let i := position key rules.length (← get)
    let r ← resolveAtWith call rules i
    setProgress key ((i + 1) % rules.length)
    return r
  | once key body => do
    if progress key (← get) ≠ 0 then return .unresolved
    else
      setProgress key 1
      resolveWith call body
  | branch condition yes no => do
    if (← resolveWith call condition).isTruthy then resolveWith call yes else resolveWith call no

def resolveAllWith (call : Caller) : List Rule → Resolved → Eval Resolved
  | [], last => return last
  | rule :: rules, _ => do
    let r ← resolveWith call rule
    resolveAllWith call rules r

def resolveFirstWith (call : Caller) : List Rule → Eval Resolved
  | [] => return .value (.bool false)
  | rule :: rules => do
    let r ← resolveWith call rule
    if r.isTruthy then return r else resolveFirstWith call rules

def resolveAtWith (call : Caller) : List Rule → Nat → Eval Resolved
  | [], _ => return .unresolved
  | rule :: _, 0 => resolveWith call rule
  | _ :: rules, i + 1 => resolveAtWith call rules i

end

mutual

theorem resolveWith_call : ∀ rule : Rule, rule.resolveWith Function.call = rule.resolve
  | .constant v => by rw [resolveWith, resolve]
  | .line text => by rw [resolveWith, resolve]
  | .script s => by rw [resolveWith, resolve, Script.resolve]
  | .property s => by
    rw [resolveWith, resolve, Script.resolve]
    rfl
  | .call f => by rw [resolveWith, resolve]
  | .sequence rules => by rw [resolveWith, resolve, resolveAllWith_call rules]
  | .switch rules => by rw [resolveWith, resolve, resolveFirstWith_call rules]
  | .choice rules => by simp only [resolveWith, resolve, resolveAtWith_call rules]
  | .cycle key rules => by simp only [resolveWith, resolve, resolveAtWith_call rules]
  | .once key body => by simp only [resolveWith, resolve, resolveWith_call body]
  | .branch condition yes no => by
    simp only [resolveWith, resolve, resolveWith_call condition, resolveWith_call yes,
      resolveWith_call no]

theorem resolveAllWith_call : ∀ (rules : List Rule) (last : Resolved),
    resolveAllWith Function.call rules last = resolveAll rules last
  | [], last => by rw [resolveAllWith, resolveAll]
  | rule :: rules, last => by
    simp only [resolveAllWith, resolveAll, resolveWith_call rule, resolveAllWith_call rules]

theorem resolveFirstWith_call : ∀ rules : List Rule,
    resolveFirstWith Function.call rules = resolveFirst rules
  | [] => by rw [resolveFirstWith, resolveFirst]
  | rule :: rules => by
    simp only [resolveFirstWith, resolveFirst, resolveWith_call rule, resolveFirstWith_call rules]

theorem resolveAtWith_call : ∀ (rules : List Rule) (i : Nat),
    resolveAtWith Function.call rules i = resolveAt rules i
  | [], i => by rw [resolveAtWith, resolveAt]
  | rule :: rules, 0 => by rw [resolveAtWith, resolveAt, resolveWith_call rule]
  | rule :: rules, i + 1 => by rw [resolveAtWith, resolveAt, resolveAtWith_call rules i]

end

end Rule

namespace Eval

variable {α β : Type}

/-- A computation that evaluates no code and calls no function. -/
inductive IsStep : {α : Type} → Eval α → Prop where
  | pure {α : Type} (a : α) : IsStep (pure a : Eval α)
  | throw {α : Type} {e : Error} : e.isCompileError = false → IsStep (throw e : Eval α)
  | get : IsStep (get : Eval Store)
  | write (lines : List String) : IsStep (Eval.write lines)
  | randomIndex (n : Nat) : IsStep (modifyGet (Store.randomIndex n) : Eval Nat)
  | randomUnit : IsStep (modifyGet Store.randomUnit : Eval Float)
  | holdAll (vs : List Value) : IsStep (modifyGet (Store.holdAll vs) : Eval (List Value))
  | storeName (op : AssignOp) (root : String) (keys : List String) (new : Value) :
    IsStep (Code.storeName op root keys new)
  | storeInto (op : AssignOp) (target : Value) (keys : List String) (new : Value) :
    IsStep (Code.storeInto op target keys new)
  | setProgress (key : String) (n : Nat) : IsStep (Rule.setProgress key n)

/-- A property of computations, for all ways to call functions, that steps and calls have and that is
kept by every way in which an evaluation is built of them. -/
structure Closed (P : (α : Type) → (Caller → Eval α) → Prop) : Prop where
  step {α : Type} {m : Eval α} : IsStep m → P α fun _ => m
  call (f : Function) (args : List Value) : P Value fun call => call f args
  bind {α β : Type} {m : Caller → Eval α} {k : α → Caller → Eval β} :
    P α m → (∀ a, P β (k a)) → P β fun call => m call >>= fun a => k a call
  mapError {α : Type} {m : Caller → Eval α} {f : Error → Error} :
    Error.KeepsClass f → P α m → P α fun call => mapError f (m call)
  inScope {α : Type} {m : Caller → Eval α} (scope : Scope) :
    P α m → P α fun call => inScope scope (m call)

namespace Closed

variable {P : (α : Type) → (Caller → Eval α) → Prop} (hP : Closed P)
include hP

theorem pure (a : α) : P α fun _ => pure a :=
  hP.step (.pure a)

theorem map (f : α → β) {m : Caller → Eval α} (hm : P α m) : P β fun call => f <$> m call := by
  have hbind := hP.bind hm fun a => hP.pure (f a)
  simpa only [bind_pure_comp] using hbind

/-- A closed property is a contract that asks nothing of values and promises nothing of results. -/
theorem contract : Contract (.functions fun _ => True) fun α _ _ m => P α m where
  pure _ := hP.pure _
  raise {_ _ _ fault} h := hP.step (.throw (fault.isCompileFault_of_isStepFault h))
  get := hP.step .get
  write lines := hP.step (.write lines)
  randomIndex n := hP.step (.randomIndex n)
  randomUnit := hP.step .randomUnit
  storeName op root keys _ _ := hP.step (.storeName op root keys _)
  storeInto op keys _ _ _ _ := hP.step (.storeInto op _ keys _)
  call _ _ := hP.call _ _
  bind {_ _ φ _ w _ _} hm hk :=
    hP.bind hm fun a => hk w a trivial (φ.lax (fun _ _ _ _ => trivial) w a)

theorem evalCode (c : Code) : P Resolved fun call => c.eval call :=
  hP.contract.evalCode c (w := ())

theorem evalWith (script : Script) : P Resolved fun call => script.evalWith call :=
  hP.mapError (Error.keepsClass_inExpression script.source) (hP.evalCode script.code)

theorem runWith (f : ScriptFunction) (args : List Value) :
    P Value fun call => f.runWith call args :=
  hP.bind (hP.step (.holdAll args)) fun _ => hP.inScope _ (hP.map _ (hP.evalWith f.body))

theorem body (f : Function) (args : List Value) : P Value (f.body args) := by
  unfold Function.body
  split
  · exact hP.contract.steps.runBuiltin _ (w := ()) fun _ _ _ _ => trivial
  · exact hP.runWith _ args

end Closed

/-- A property of computations that the steps of rules, scripts and calls have and that is kept by taking
one computation after the other. -/
structure RuleClosed (P : (α : Type) → (Caller → Eval α) → Prop) : Prop where
  pure {α : Type} (a : α) : P α fun _ => pure a
  get : P Store fun _ => get
  write (lines : List String) : P Unit fun _ => Eval.write lines
  randomIndex (n : Nat) : P Nat fun _ => modifyGet (Store.randomIndex n)
  setProgress (key : String) (n : Nat) : P Unit fun _ => Rule.setProgress key n
  call (f : Function) : P Value fun call => call f []
  script (script : Script) : P Resolved fun call => script.evalWith call
  bind {α β : Type} {m : Caller → Eval α} {k : α → Caller → Eval β} :
    P α m → (∀ a, P β (k a)) → P β fun call => m call >>= fun a => k a call

theorem Closed.ruleClosed {P : (α : Type) → (Caller → Eval α) → Prop} (hP : Closed P) :
    RuleClosed P where
  pure := hP.pure
  get := hP.step .get
  write lines := hP.step (.write lines)
  randomIndex n := hP.step (.randomIndex n)
  setProgress key n := hP.step (.setProgress key n)
  call f := hP.call f []
  script := hP.evalWith
  bind := hP.bind

namespace RuleClosed

variable {P : (α : Type) → (Caller → Eval α) → Prop} (hP : RuleClosed P)
include hP

theorem map (f : α → β) {m : Caller → Eval α} (hm : P α m) : P β fun call => f <$> m call := by
  have hbind := hP.bind hm fun a => hP.pure (f a)
  simpa only [bind_pure_comp] using hbind

theorem callIfFunctionWith (r : Resolved) :
    P Resolved fun call => Rule.callIfFunctionWith call r := by
  unfold Rule.callIfFunctionWith
  split
  · exact hP.map _ (hP.call _)
  · exact hP.pure _

mutual

theorem resolveWith : ∀ rule : Rule, P Resolved fun call => rule.resolveWith call
  | .constant v => by
    simp only [Rule.resolveWith]
    exact hP.pure _
  | .line text => by
    simp only [Rule.resolveWith]
    exact hP.bind (hP.write _) fun _ => hP.pure _
  | .script s => by
    simp only [Rule.resolveWith]
    exact hP.script s
  | .property s => by
    simp only [Rule.resolveWith]
    exact hP.bind (hP.script s) fun r => hP.callIfFunctionWith r
  | .call f => by
    simp only [Rule.resolveWith]
    exact hP.map _ (hP.call f)
  | .sequence rules => by
    simp only [Rule.resolveWith]
    exact resolveAllWith rules _
  | .switch rules => by
    simp only [Rule.resolveWith]
    exact resolveFirstWith rules
  | .choice rules => by
    simp only [Rule.resolveWith]
    exact hP.bind (hP.randomIndex _) fun i => resolveAtWith rules i
  | .cycle key rules => by
    simp only [Rule.resolveWith]
    refine hP.bind (hP.get) fun s => hP.bind (resolveAtWith rules _) fun r => ?_
    exact hP.bind (hP.setProgress ..) fun _ => hP.pure r
  | .once key body => by
    simp only [Rule.resolveWith]
    refine hP.bind (hP.get) fun s => ?_
    split
    · exact hP.pure _
    · exact hP.bind (hP.setProgress ..) fun _ => resolveWith body
  | .branch condition yes no => by
    simp only [Rule.resolveWith]
    refine hP.bind (resolveWith condition) fun r => ?_
    split
    · exact resolveWith yes
    · exact resolveWith no

theorem resolveAllWith : ∀ (rules : List Rule) (last : Resolved),
    P Resolved fun call => Rule.resolveAllWith call rules last
  | [], last => by
    simp only [Rule.resolveAllWith]
    exact hP.pure last
  | rule :: rules, last => by
    simp only [Rule.resolveAllWith]
    exact hP.bind (resolveWith rule) fun r => resolveAllWith rules r

theorem resolveFirstWith : ∀ rules : List Rule,
    P Resolved fun call => Rule.resolveFirstWith call rules
  | [] => by
    simp only [Rule.resolveFirstWith]
    exact hP.pure _
  | rule :: rules => by
    simp only [Rule.resolveFirstWith]
    refine hP.bind (resolveWith rule) fun r => ?_
    split
    · exact hP.pure r
    · exact resolveFirstWith rules

theorem resolveAtWith : ∀ (rules : List Rule) (i : Nat),
    P Resolved fun call => Rule.resolveAtWith call rules i
  | [], i => by
    simp only [Rule.resolveAtWith]
    exact hP.pure _
  | rule :: rules, 0 => by
    simp only [Rule.resolveAtWith]
    exact resolveWith rule
  | rule :: rules, i + 1 => by
    simp only [Rule.resolveAtWith]
    exact resolveAtWith rules i

end

end RuleClosed

theorem Closed.resolveWith {P : (α : Type) → (Caller → Eval α) → Prop} (hP : Closed P) (rule : Rule) :
    P Resolved fun call => rule.resolveWith call :=
  hP.ruleClosed.resolveWith rule

/-- A property of computations that is closed where functions are called as the store allows. -/
def RunClosed (Q : (α : Type) → Eval α → Prop) : Prop :=
  Closed fun α m => Q α (m Function.call)

namespace RunClosed

variable {Q : (α : Type) → Eval α → Prop} (hQ : RunClosed Q)
include hQ

theorem pure (a : α) : Q α (pure a) :=
  Closed.pure hQ a

theorem get : Q Store get :=
  Closed.step hQ .get

theorem write (lines : List String) : Q Unit (write lines) :=
  Closed.step hQ (.write lines)

theorem bind {m : Eval α} {k : α → Eval β} (hm : Q α m) (hk : ∀ a, Q β (k a)) : Q β (m >>= k) :=
  Closed.bind hQ (m := fun _ => m) (k := fun a _ => k a) hm hk

theorem map (f : α → β) {m : Eval α} (hm : Q α m) : Q β (f <$> m) :=
  Closed.map hQ f (m := fun _ => m) hm

theorem mapError {f : Error → Error} (hf : Error.KeepsClass f) {m : Eval α} (hm : Q α m) :
    Q α (mapError f m) :=
  Closed.mapError hQ (m := fun _ => m) hf hm

theorem inScope (scope : Scope) {m : Eval α} (hm : Q α m) : Q α (inScope scope m) :=
  Closed.inScope hQ (m := fun _ => m) scope hm

theorem compositional : Compositional Q where
  pure := hQ.pure
  bind := hQ.bind

theorem resolveScript (script : Script) : Q Resolved script.resolve :=
  Closed.evalWith hQ script

theorem resolveRule (rule : Rule) : Q Resolved rule.resolve := by
  rw [← Rule.resolveWith_call]
  exact Closed.resolveWith hQ rule

theorem inScopes (owner : String) (captures : Bindings) {m : Eval α} (hm : Q α m) :
    Q α (Action.inScopes owner captures m) := by
  refine hQ.bind hQ.get fun s => ?_
  refine hQ.inScope _ (hQ.inScope _ (hQ.inScope _ ?_))
  split
  · exact hQ.inScope _ hm
  · exact hm

theorem perform (owner : String) (c : Command) (a : Action) :
    Q Resolved (a.perform owner c) := by
  unfold Action.perform
  split
  · exact hQ.pure _
  · exact hQ.mapError (Error.keepsClass_inAction _ _) (hQ.inScopes _ _ (hQ.resolveRule a.body))

end RunClosed

end Eval

end TextAdventure
