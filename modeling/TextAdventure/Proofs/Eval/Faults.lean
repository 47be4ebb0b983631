import TextAdventure.Code.Eval

/-! # The two classes of errors

An error belongs to compiling or to execution, by the fault it started from; the layers and places that
are added to it on its way out do not change that. Operators, writes and built-in functions raise bare
faults of execution only, and never the one of nesting calls too deeply.
-/
namespace TextAdventure

variable {α β : Type} {compile : Bool}

namespace Fault

/-- Whether a single step of an evaluation can raise the fault. Only calls exceed the limit. -/
def isStepFault : Fault → Bool
  | limitExceeded _ => false
  | fault => !fault.isCompileFault

theorem isCompileFault_of_isStepFault (fault : Fault) (h : fault.isStepFault = true) :
    fault.isCompileFault = false := by
  cases fault <;> first
    | rfl
    | cases h

end Fault

namespace Error

/-- A change of an error that leaves it in its class. -/
def KeepsClass (f : Error → Error) : Prop :=
  ∀ e, (f e).isCompileError = e.isCompileError

theorem keepsClass_inExpression (expression : String) : KeepsClass (·.inExpression expression) :=
  fun _ => rfl

theorem keepsClass_inAction (phase path : String) : KeepsClass (·.inAction phase path) :=
  fun _ => rfl

theorem keepsClass_atPath (path : String) : KeepsClass (atPath path) := by
  intro e
  cases e <;> rfl

/-- A failure is one of compiling if `compile` is true, and one of execution if it is false. -/
def FailsAs (compile : Bool) (r : Except Error α) : Prop :=
  ∀ e, r = .error e → e.isCompileError = compile

theorem failsAs_ok (a : α) : FailsAs compile (.ok a : Except Error α) := by
  intro e h
  cases h

theorem failsAs_error {e : Error} (h : e.isCompileError = compile) :
    FailsAs compile (.error e : Except Error α) := by
  intro e' he
  cases he
  exact h

namespace FailsAs

theorem bind {x : Except Error α} {f : α → Except Error β} (hx : FailsAs compile x)
    (hf : ∀ a, FailsAs compile (f a)) : FailsAs compile (x >>= f) := by
  cases x with
  | error e => exact failsAs_error (hx e rfl)
  | ok a => exact hf a

theorem map {x : Except Error α} (hx : FailsAs compile x) (f : α → β) :
    FailsAs compile (x.map f) := by
  cases x with
  | error e => exact failsAs_error (hx e rfl)
  | ok a => exact failsAs_ok (f a)

theorem mapError {x : Except Error α} {f : Error → Error} (hf : KeepsClass f)
    (hx : FailsAs compile x) : FailsAs compile (x.mapError f) := by
  cases x with
  | error e => exact failsAs_error ((hf e).trans (hx e rfl))
  | ok a => exact failsAs_ok a

theorem reportAt {x : Except Error α} (hx : FailsAs compile x) (path : String) :
    FailsAs compile (reportAt path x) :=
  hx.mapError (keepsClass_atPath path)

theorem mapM {f : α → Except Error β} (hf : ∀ a, FailsAs compile (f a)) (xs : List α) :
    FailsAs compile (xs.mapM f) := by
  induction xs with
  | nil => exact failsAs_ok []
  | cons x xs ih =>
    rw [List.mapM_cons]
    exact (hf x).bind fun b => ih.bind fun bs => failsAs_ok (b :: bs)

end FailsAs

/-- A failure is a bare fault that a single step can raise. -/
def Raises (r : Except Error α) : Prop :=
  ∀ e, r = .error e → ∃ fault, e = .ofFault fault ∧ fault.isStepFault = true

theorem raises_ok (a : α) : Raises (.ok a : Except Error α) := by
  intro e h
  cases h

theorem raises_error {fault : Fault} (h : fault.isStepFault = true) :
    Raises (.error (.ofFault fault) : Except Error α) := by
  intro e he
  cases he
  exact ⟨fault, rfl, h⟩

theorem Raises.bind {x : Except Error α} {f : α → Except Error β} (hx : Raises x)
    (hf : ∀ a, Raises (f a)) : Raises (x >>= f) := by
  cases x with
  | error e =>
    intro e' he
    cases he
    exact hx e rfl
  | ok a => exact hf a

theorem Raises.failsAs {r : Except Error α} (h : Raises r) : FailsAs false r := by
  intro e he
  obtain ⟨fault, rfl, hfault⟩ := h e he
  exact fault.isCompileFault_of_isStepFault hfault

end Error

open Error (Raises raises_ok raises_error)

namespace Value

theorem raises_asNumber (v : Value) : Raises v.asNumber := by
  unfold asNumber
  split
  · exact raises_ok _
  · exact raises_error rfl

theorem raises_arithmetic (op : BinaryOp) (left right : Value) :
    Raises (arithmetic op left right) := by
  have hmixed : Raises (mixedArithmetic op left right) :=
    left.raises_asNumber.bind fun x => right.raises_asNumber.bind fun y => raises_ok _
  unfold arithmetic
  split
  · split
    · exact raises_ok _
    · exact hmixed
  · exact hmixed

theorem raises_add (left right : Value) : Raises (left.add right) := by
  unfold add
  split
  · exact raises_ok _
  · exact raises_ok _
  · exact raises_ok _
  · exact raises_arithmetic .add left right

theorem raises_compareValues (left right : Value) : Raises (left.compareValues right) := by
  unfold compareValues
  split
  · exact raises_ok _
  · split
    · exact raises_ok _
    · exact raises_error rfl
    · exact raises_error rfl

end Value

theorem BinaryOp.raises_apply (op : BinaryOp) (left right : Value) :
    Raises (op.apply left right) := by
  cases op with
  | add => exact left.raises_add right
  | sub => exact Value.raises_arithmetic .sub left right
  | mul => exact Value.raises_arithmetic .mul left right
  | div => exact Value.raises_arithmetic .div left right
  | rem => exact Value.raises_arithmetic .rem left right
  | eq | ne | strictEq | strictNe => exact raises_ok _
  | lt | le | gt | ge => exact (left.raises_compareValues right).bind fun order => raises_ok _

theorem UnaryOp.raises_apply (op : UnaryOp) (v : Value) : Raises (op.apply v) := by
  unfold UnaryOp.apply
  split
  · exact raises_ok _
  · exact raises_ok _
  · exact raises_ok _
  · exact raises_ok _
  · exact raises_ok _
  · exact raises_error rfl

namespace Store

theorem raises_assign (target : Value) (keys : List String) (value : Value) (s : Store) :
    Raises (s.assign target keys value) := by
  induction keys generalizing target s with
  | nil => exact raises_ok _
  | cons key keys ih =>
    cases target with
    | entity id => exact (ih _ s).bind fun _ => raises_ok _
    | map layout entries => exact (ih _ s).bind fun _ => raises_ok _
    | nil => exact (ih _ s).bind fun _ => raises_ok _
    | list items =>
      rw [assign]
      split
      · exact (ih _ s).bind fun _ => raises_ok _
      · exact raises_error rfl
    | _ => exact raises_error rfl

theorem raises_setKeys (name : String) (keys : List String) (value : Value) (s : Store) :
    Raises (s.setKeys name keys value) := by
  cases keys with
  | nil => exact raises_ok _
  | cons key keys => exact (s.raises_assign _ _ value).bind fun _ => raises_ok _

end Store

namespace Code

theorem raises_function (callee : String) (v : Value) : Raises (function callee v) := by
  unfold function
  split
  · exact raises_ok _
  · exact raises_error rfl

theorem raises_combine (op : AssignOp) (present new : Value) :
    Raises (combine op present new) := by
  cases op with
  | set => exact raises_ok new
  | add => exact BinaryOp.add.raises_apply _ new
  | sub => exact BinaryOp.sub.raises_apply _ new

end Code

namespace Builtin

theorem raises_arity (b : Builtin) (least most : Nat) (args : List Value) :
    Raises (b.arity least most args) := by
  unfold arity
  split
  · exact raises_ok _
  · exact raises_error rfl

theorem raises_bound (v : Value) : Raises (bound v) := by
  unfold bound
  split
  · exact raises_ok _
  · exact raises_error rfl

theorem raises_extreme (beats : Float → Float → Bool) (best : Option (Float × Value))
    (vs : List Value) : Raises (extreme beats best vs) := by
  induction vs generalizing best with
  | nil => exact raises_ok _
  | cons v vs ih =>
    rw [extreme]
    refine v.raises_asNumber.bind fun x => ?_
    split
    · exact ih _
    · exact ih _

theorem raises_runFloor (args : List Value) : Raises (runFloor args) := by
  refine (raises_arity .floor 1 1 args).bind fun _ => ?_
  split
  · exact raises_ok _
  · exact raises_ok _
  · exact raises_error rfl

end Builtin

end TextAdventure
