import TextAdventure.Proofs.Eval.Faults
import TextAdventure.Proofs.Store.Realm

/-! # What evaluating code promises

A contract says of a computation that what it gives is of a realm of values, at the stage that the run has
come to by then, where the store and the arguments of calls are of the realm. Any property of computations,
of what they promise and of the stage they start at that steps and calls have, and that is kept by taking
one computation after the other, is one of all code and of all built-in functions.
-/
namespace TextAdventure.Eval

variable {α β : Type} {R : Realm} {w : R.Stage}

/-- What is promised of a result. Where the realm has all values there is nothing to promise. -/
structure Post (R : Realm) (α : Type) where
  holds : R.Stage → α → Prop
  lax : (∀ w v, R.Has w v) → ∀ w a, holds w a

namespace Post

variable (R : Realm)

def any : Post R α :=
  ⟨fun _ _ => True, fun _ _ _ => trivial⟩

def value : Post R Value :=
  ⟨R.Has, fun h => h⟩

def resolved : Post R Resolved :=
  ⟨fun w r => R.Has w r.get, fun h w r => h w r.get⟩

def values : Post R (List Value) :=
  ⟨fun w vs => ∀ v ∈ vs, R.Has w v, fun h w _ v _ => h w v⟩

def entries : Post R Bindings :=
  ⟨R.HasAll, fun h w _ entry _ => h w entry.2⟩

def function : Post R Function :=
  ⟨fun w f => R.Has w (.function f), fun h w f => h w (.function f)⟩

def store : Post R Store :=
  ⟨Store.Within R, fun h w _ => ⟨fun _ _ => h w _, fun _ _ _ _ => h w _, fun _ _ _ _ => h w _⟩⟩

end Post

/-- A property of computations and of what they promise, from a stage on, that steps have and that is kept
by taking one computation after the other. -/
structure StepContract (R : Realm) (P : (α : Type) → Post R α → R.Stage → Eval α → Prop) : Prop where
  pure {α : Type} {φ : Post R α} {w : R.Stage} {a : α} : φ.holds w a → P α φ w (pure a)
  raise {α : Type} {φ : Post R α} {w : R.Stage} {fault : Fault} :
    fault.isStepFault = true → P α φ w (throw (.ofFault fault))
  get {w : R.Stage} : P Store (.store R) w get
  write {w : R.Stage} (lines : List String) : P Unit (.any R) w (Eval.write lines)
  randomIndex {w : R.Stage} (n : Nat) : P Nat (.any R) w (modifyGet (Store.randomIndex n))
  randomUnit {w : R.Stage} : P Float (.any R) w (modifyGet Store.randomUnit)
  bind {α β : Type} {φ : Post R α} {ψ : Post R β} {w : R.Stage} {m : Eval α} {k : α → Eval β} :
    P α φ w m → (∀ w₁ a, R.Le w w₁ → φ.holds w₁ a → P β ψ w₁ (k a)) → P β ψ w (m >>= k)

/-- The same for all ways to call functions, where assignments and calls have the property as well. -/
structure Contract (R : Realm) (P : (α : Type) → Post R α → R.Stage → (Caller → Eval α) → Prop) :
    Prop where
  pure {α : Type} {φ : Post R α} {w : R.Stage} {a : α} : φ.holds w a → P α φ w fun _ => pure a
  raise {α : Type} {φ : Post R α} {w : R.Stage} {fault : Fault} :
    fault.isStepFault = true → P α φ w fun _ => throw (.ofFault fault)
  get {w : R.Stage} : P Store (.store R) w fun _ => get
  write {w : R.Stage} (lines : List String) : P Unit (.any R) w fun _ => Eval.write lines
  randomIndex {w : R.Stage} (n : Nat) : P Nat (.any R) w fun _ => modifyGet (Store.randomIndex n)
  randomUnit {w : R.Stage} : P Float (.any R) w fun _ => modifyGet Store.randomUnit
  storeName {w : R.Stage} (op : AssignOp) (root : String) (keys : List String) {new : Value} :
    R.Has w new → P Resolved (.resolved R) w fun _ => Code.storeName op root keys new
  storeInto {w : R.Stage} (op : AssignOp) (keys : List String) {target new : Value} :
    R.Has w target → R.Has w new →
      P Resolved (.resolved R) w fun _ => Code.storeInto op target keys new
  call {w : R.Stage} {f : Function} {args : List Value} :
    R.Has w (.function f) → (∀ v ∈ args, R.Has w v) → P Value (.value R) w fun call => call f args
  bind {α β : Type} {φ : Post R α} {ψ : Post R β} {w : R.Stage} {m : Caller → Eval α}
      {k : α → Caller → Eval β} :
    P α φ w m → (∀ w₁ a, R.Le w w₁ → φ.holds w₁ a → P β ψ w₁ (k a)) →
      P β ψ w fun call => m call >>= fun a => k a call

namespace StepContract

variable {P : (α : Type) → Post R α → R.Stage → Eval α → Prop} (hP : StepContract R P) {φ : Post R α}
include hP

theorem ofExcept (φ : Post R α) {r : Except Error α} (hr : Error.Raises r)
    (hφ : ∀ a, r = .ok a → φ.holds w a) : P α φ w (ofExcept r) := by
  cases r with
  | error e =>
    obtain ⟨fault, rfl, hfault⟩ := hr e rfl
    exact hP.raise hfault
  | ok a => exact hP.pure (hφ a rfl)

theorem read {f : Store → α} (hf : ∀ w₁ s, R.Le w w₁ → s.Within R w₁ → φ.holds w₁ (f s)) :
    P α φ w (MonadState.get >>= fun s => Pure.pure (f s)) :=
  hP.bind hP.get fun w₁ s hle hs => hP.pure (hf w₁ s hle hs)

theorem checked {b : Builtin} {least most : Nat} {args : List Value} {k : Eval α}
    (hk : ∀ w₁, R.Le w w₁ → P α φ w₁ k) :
    P α φ w (Eval.ofExcept (b.arity least most args) >>= fun _ => k) :=
  hP.bind (hP.ofExcept (.any R) (Builtin.raises_arity b least most args) fun _ _ => trivial)
    fun w₁ _ hle _ => hk w₁ hle

theorem bound (v : Value) : P Int (.any R) w (Eval.ofExcept (Builtin.bound v)) :=
  hP.ofExcept (.any R) (Builtin.raises_bound v) fun _ _ => trivial

theorem runRandom (args : List Value) : P Value (.value R) w (Builtin.runRandom args) := by
  unfold Builtin.runRandom
  refine hP.checked fun w₁ _ => ?_
  match args with
  | [] => exact hP.bind hP.randomUnit fun _ x _ _ => hP.pure (R.plain rfl)
  | [n] =>
    refine hP.bind (hP.bound n) fun _ n _ _ => ?_
    exact hP.bind (hP.randomIndex _) fun _ i _ _ => hP.pure (Realm.has_ofNat i)
  | lo :: hi :: rest =>
    refine hP.bind (hP.bound lo) fun _ lo _ _ => hP.bind (hP.bound hi) fun _ hi _ _ => ?_
    exact hP.bind (hP.randomIndex _) fun _ i _ _ => hP.pure (R.plain rfl)

theorem runPick {args : List Value} (h : ∀ v ∈ args, R.Has w v) :
    P Value (.value R) w (Builtin.runPick args) := by
  unfold Builtin.runPick
  refine hP.checked fun w₁ hle => ?_
  have hhead : R.Has w₁ (args.headD .nil) := R.mono hle (Realm.has_headD h)
  split
  · exact hP.pure (R.plain rfl)
  · exact hP.pure (R.plain rfl)
  next items _ hitems =>
    rw [hitems] at hhead
    refine hP.bind (hP.randomIndex _) fun w₂ i hle _ => hP.pure (Realm.has_getD fun v hv => ?_)
    exact R.mono hle (R.list_iff.mp hhead v (List.mem_of_getElem? hv))
  · exact hP.raise rfl

theorem runLength (args : List Value) : P Value (.value R) w (Builtin.runLength args) := by
  refine hP.checked fun _ _ => ?_
  cases args.headD .nil with
  | nil | list | map | string => exact hP.pure (Realm.has_ofNat _)
  | entity id => exact hP.read fun _ s _ _ => Realm.has_ofNat _
  | _ => exact hP.raise rfl

theorem runIncludes (args : List Value) : P Value (.value R) w (Builtin.runIncludes args) := by
  refine hP.checked fun _ _ => ?_
  cases args.headD .nil with
  | nil | list | string => exact hP.pure (R.plain rfl)
  | map layout entries => exact hP.read fun _ s _ _ => R.plain rfl
  | entity id => exact hP.read fun _ s _ _ => R.plain rfl
  | _ => exact hP.raise rfl

theorem runKeys (args : List Value) : P Value (.value R) w (Builtin.runKeys args) := by
  refine hP.checked fun _ _ => ?_
  cases args.headD .nil with
  | nil => exact hP.pure (R.list_iff.mpr nofun)
  | map => exact hP.pure (Realm.has_keyList _)
  | entity id => exact hP.read fun _ s _ _ => Realm.has_keyList _
  | _ => exact hP.raise rfl

theorem runHas (args : List Value) : P Value (.value R) w (Builtin.runHas args) := by
  refine hP.checked fun _ _ => ?_
  cases args.headD .nil with
  | map layout entries => exact hP.read fun _ s _ _ => R.plain rfl
  | entity id => exact hP.read fun _ s _ _ => R.plain rfl
  | _ => exact hP.pure (R.plain rfl)

theorem runBuiltin (b : Builtin) {args : List Value} (h : ∀ v ∈ args, R.Has w v) :
    P Value (.value R) w (b.run args) := by
  cases b with
  | write => exact hP.bind (hP.write _) fun _ _ _ _ => hP.pure (R.plain rfl)
  | str => exact hP.pure (R.plain rfl)
  | random => exact hP.runRandom args
  | pick => exact hP.runPick h
  | length => exact hP.runLength args
  | includes => exact hP.runIncludes args
  | keys => exact hP.runKeys args
  | has => exact hP.runHas args
  | min | max =>
    refine hP.ofExcept (.value R) (Builtin.raises_extreme _ _ _) fun v => ?_
    exact Realm.has_extreme nofun (Realm.has_spread h)
  | floor => exact hP.ofExcept (.value R) (Builtin.raises_runFloor args) fun v => Realm.has_runFloor

end StepContract

namespace Contract

variable {P : (α : Type) → Post R α → R.Stage → (Caller → Eval α) → Prop} (hP : Contract R P)
  {φ : Post R α}
include hP

theorem steps : StepContract R fun α φ w m => P α φ w fun _ => m where
  pure := hP.pure
  raise := hP.raise
  get := hP.get
  write := hP.write
  randomIndex := hP.randomIndex
  randomUnit := hP.randomUnit
  bind hm hk := hP.bind hm hk

-- what has been evaluated stays of the realm while the rest is, at the later stages that the rest comes to
mutual

theorem evalCode : ∀ (c : Code) {w : R.Stage}, P Resolved (.resolved R) w fun call => c.eval call
  | .constant v, w => by
    simp only [Code.eval]
    exact hP.pure (Realm.has_ofLiteral v)
  | .name n, w => by
    simp only [Code.eval]
    refine hP.bind hP.get fun _ s _ hs => ?_
    split
    next v hv => exact hP.pure (hs.lookupName hv)
    next => exact hP.raise rfl
  | .list items, w => by
    simp only [Code.eval]
    exact hP.bind (evalAll items) fun _ vs _ hvs => hP.pure (R.list_iff.mpr hvs)
  | .record entries, w => by
    simp only [Code.eval]
    exact hP.bind (evalEntries entries) fun _ vs _ hvs => hP.pure (R.ofEntries hvs)
  | .unary op operand, w => by
    simp only [Code.eval]
    refine hP.bind (evalCode operand) fun w₁ v _ _ => ?_
    have happlied := hP.steps.ofExcept (w := w₁) (.value R) (op.raises_apply v.get) fun _ =>
      Realm.has_unary
    exact hP.bind happlied fun _ _ _ h => hP.pure h
  | .binary op left right, w => by
    simp only [Code.eval]
    refine hP.bind (evalCode left) fun w₁ l _ hl => hP.bind (evalCode right) fun w₂ r hle hr => ?_
    have happlied := hP.steps.ofExcept (w := w₂) (.value R) (op.raises_apply l.get r.get) fun _ =>
      Realm.has_binary op (R.mono hle hl) hr
    exact hP.bind happlied fun _ _ _ h => hP.pure h
  | .logical op left right, w => by
    simp only [Code.eval]
    refine hP.bind (evalCode left) fun _ l _ hl => ?_
    split
    · exact hP.pure hl
    · exact evalCode right
  | .conditional test consequent alternate, w => by
    simp only [Code.eval]
    refine hP.bind (evalCode test) fun _ b _ _ => ?_
    split
    · exact evalCode consequent
    · exact evalCode alternate
  | .member container key, w => by
    simp only [Code.eval]
    refine hP.bind (evalCode container) fun _ v _ hv => ?_
    split
    · exact hP.pure (R.plain rfl)
    · refine hP.bind (evalCode key) fun _ k hle _ => hP.steps.read fun _ s hle₁ hs => ?_
      exact Realm.has_getD fun v => hs.member? (R.mono (R.trans hle hle₁) hv)
  | .assignName op root keys value, w => by
    simp only [Code.eval]
    refine hP.bind (evalCode value) fun _ new _ hnew => hP.bind (evalAll keys) fun _ keys hle _ => ?_
    exact hP.storeName op root _ (R.mono hle hnew)
  | .assignInto op target keys value, w => by
    simp only [Code.eval]
    refine hP.bind (evalCode value) fun _ new _ hnew => hP.bind (evalCode target) fun _ v hle hv => ?_
    split
    · refine hP.bind (evalAll keys) fun _ keys hle₁ _ => ?_
      exact hP.storeInto op _ (R.mono hle₁ hv) (R.mono (R.trans hle hle₁) hnew)
    · exact hP.raise rfl
  | .callName f args, w => by
    simp only [Code.eval]
    refine hP.bind hP.get fun w₁ s _ hs => ?_
    split
    next v hv =>
      have hfunction := hP.steps.ofExcept (w := w₁) (.function R) (Code.raises_function f v) fun _ =>
        Realm.has_function (hs.lookupName hv)
      refine hP.bind hfunction fun _ g _ hg => hP.bind (evalAll args) fun _ vs hle hvs => ?_
      exact hP.bind (hP.call (R.mono hle hg) hvs) fun _ v _ hv => hP.pure hv
    next => exact hP.raise rfl
  | .callValue callee args, w => by
    simp only [Code.eval]
    refine hP.bind (evalCode callee) fun w₁ v _ hv => ?_
    have hfunction := hP.steps.ofExcept (w := w₁) (.function R) (Code.raises_function "value" v.get)
      fun _ => Realm.has_function hv
    refine hP.bind hfunction fun _ g _ hg => hP.bind (evalAll args) fun _ vs hle hvs => ?_
    exact hP.bind (hP.call (R.mono hle hg) hvs) fun _ v _ hv => hP.pure hv
  | .sequence items, w => by
    simp only [Code.eval]
    exact evalLast items (R.plain rfl)

theorem evalAll : ∀ (cs : List Code) {w : R.Stage}, P (List Value) (.values R) w fun call =>
    Code.evalAll call cs
  | [], w => by
    simp only [Code.evalAll]
    exact hP.pure nofun
  | c :: cs, w => by
    simp only [Code.evalAll]
    refine hP.bind (evalCode c) fun _ v _ hv => hP.bind (evalAll cs) fun _ vs hle hvs => ?_
    exact hP.pure (List.forall_mem_cons.mpr ⟨R.mono hle hv, hvs⟩)

theorem evalEntries : ∀ (entries : List (String × Code)) {w : R.Stage},
    P Bindings (.entries R) w fun call => Code.evalEntries call entries
  | [], w => by
    simp only [Code.evalEntries]
    exact hP.pure nofun
  | (key, c) :: rest, w => by
    simp only [Code.evalEntries]
    refine hP.bind (evalCode c) fun _ v _ hv => hP.bind (evalEntries rest) fun _ vs hle hvs => ?_
    exact hP.pure (List.forall_mem_cons.mpr ⟨R.mono hle hv, hvs⟩)

theorem evalLast : ∀ (cs : List Code) {last : Resolved} {w : R.Stage}, R.Has w last.get →
    P Resolved (.resolved R) w fun call => Code.evalLast call cs last
  | [], last, w, hlast => by
    simp only [Code.evalLast]
    exact hP.pure hlast
  | c :: cs, last, w, _ => by
    simp only [Code.evalLast]
    exact hP.bind (evalCode c) fun _ r _ hr => evalLast cs hr

end

end Contract

end TextAdventure.Eval
