import TextAdventure.Store.Path

/-! # Evaluation

A computation reads and changes the store and ends with a result or an error; what it did to the store
before an error stays done. Scopes and output buffers are opened for the extent of a computation only.
For each way to build a computation, an equation `runOn_…` says what its run does.
-/
namespace TextAdventure

abbrev Eval := ExceptT Error (StateM Store)

namespace Eval

variable {α β : Type}

def runOn (m : Eval α) (s : Store) : Except Error α × Store :=
  m.run.run s

def reading (f : Store → α) : Eval α :=
  f <$> get

def ofExcept : Except Error α → Eval α
  | .ok a => pure a
  | .error e => throw e

/-- A change of the store that is made as a whole or not at all. -/
def change (f : Store → Except Error (α × Store)) : Eval α := do
  match f (← get) with
  | .ok (a, s) =>
    set s
    return a
  | .error e => throw e

def outcome (m : Eval α) : Eval (Except Error α) :=
  tryCatch (.ok <$> m) fun e => pure (.error e)

def mapError (f : Error → Error) (m : Eval α) : Eval α :=
  tryCatch m fun e => throw (f e)

/-- Runs a computation with one more scope, which is closed however the computation ends. -/
def inScope (scope : Scope) (m : Eval α) : Eval α := do
  modify (Store.openScope scope)
  let result ← outcome m
  modify Store.closeScope
  ofExcept result

/-- Runs a computation with a fresh output buffer and gives its outcome and the lines it wrote. -/
def buffered (m : Eval α) : Eval (Except Error α × List String) := do
  modify Store.pushBuffer
  let result ← outcome m
  let lines ← modifyGet Store.popBuffer
  return (result, lines)

def write (lines : List String) : Eval Unit :=
  modify (Store.writeLines lines)

/-- Counts one more active call, unless as many as allowed are active. -/
def enterCall : Eval Unit := do
  let s ← get
  if s.activeCalls < s.maxCalls then set { s with activeCalls := s.activeCalls + 1 }
  else throw (.ofFault (.limitExceeded s.maxCalls))

def exitCall : Eval Unit :=
  modify fun s => { s with activeCalls := s.activeCalls - 1 }

def asCall (m : Eval α) : Eval α := do
  enterCall
  let result ← outcome m
  exitCall
  ofExcept result

@[simp] theorem runOn_pure (a : α) (s : Store) : runOn (pure a) s = (.ok a, s) := rfl

theorem runOn_bind (m : Eval α) (f : α → Eval β) (s : Store) :
    runOn (m >>= f) s =
      match runOn m s with
      | (.ok a, t) => runOn (f a) t
      | (.error e, t) => (.error e, t) := by
  simp only [runOn, ExceptT.run_bind, StateT.run_bind]
  rcases h : (m.run.run s : Except Error α × Store) with ⟨a | a, t⟩ <;> simp <;> rfl

@[simp] theorem runOn_throw (e : Error) (s : Store) :
    runOn (throw e : Eval α) s = (.error e, s) := rfl

@[simp] theorem runOn_get (s : Store) : runOn get s = (.ok s, s) := rfl

@[simp] theorem runOn_set (s t : Store) : runOn (set t) s = (.ok ⟨⟩, t) := rfl

@[simp] theorem runOn_modify (f : Store → Store) (s : Store) :
    runOn (modify f) s = (.ok ⟨⟩, f s) := rfl

@[simp] theorem runOn_modifyGet (f : Store → α × Store) (s : Store) :
    runOn (modifyGet f) s = (.ok (f s).1, (f s).2) := rfl

@[simp] theorem runOn_ofExcept (r : Except Error α) (s : Store) :
    runOn (ofExcept r) s = (r, s) := by
  cases r <;> rfl

theorem runOn_change (f : Store → Except Error (α × Store)) (s : Store) :
    runOn (change f) s =
      match f s with
      | .ok (a, t) => (.ok a, t)
      | .error e => (.error e, s) := by
  simp only [change, runOn_bind, runOn_get]
  rcases f s with e | ⟨a, t⟩ <;> rfl

theorem runOn_tryCatch (m : Eval α) (f : Error → Eval α) (s : Store) :
    runOn (tryCatch m f) s =
      match runOn m s with
      | (.ok a, t) => (.ok a, t)
      | (.error e, t) => runOn (f e) t := by
  simp only [runOn, tryCatch, tryCatchThe, MonadExceptOf.tryCatch, ExceptT.tryCatch, ExceptT.run,
    ExceptT.mk, StateT.run_bind]
  rcases StateT.run m s with ⟨e | a, t⟩ <;> rfl

theorem runOn_map (f : α → β) (m : Eval α) (s : Store) :
    runOn (f <$> m) s = ((runOn m s).1.map f, (runOn m s).2) := by
  rw [← bind_pure_comp, runOn_bind]
  rcases runOn m s with ⟨e | a, t⟩ <;> rfl

theorem runOn_outcome (m : Eval α) (s : Store) :
    runOn (outcome m) s = (.ok (runOn m s).1, (runOn m s).2) := by
  rw [outcome, runOn_tryCatch, runOn_map]
  rcases runOn m s with ⟨e | a, t⟩ <;> rfl

theorem runOn_mapError (f : Error → Error) (m : Eval α) (s : Store) :
    runOn (mapError f m) s = ((runOn m s).1.mapError f, (runOn m s).2) := by
  rw [mapError, runOn_tryCatch]
  rcases runOn m s with ⟨e | a, t⟩ <;> rfl

theorem runOn_inScope (scope : Scope) (m : Eval α) (s : Store) :
    runOn (inScope scope m) s =
      ((runOn m (s.openScope scope)).1, (runOn m (s.openScope scope)).2.closeScope) := by
  simp [inScope, runOn_bind, runOn_outcome]

theorem runOn_buffered (m : Eval α) (s : Store) :
    runOn (buffered m) s =
      (.ok ((runOn m s.pushBuffer).1, (runOn m s.pushBuffer).2.popBuffer.1),
        (runOn m s.pushBuffer).2.popBuffer.2) := by
  simp [buffered, runOn_bind, runOn_map, runOn_outcome]
  rfl

@[simp] theorem runOn_write (lines : List String) (s : Store) :
    runOn (write lines) s = (.ok ⟨⟩, s.writeLines lines) := rfl

theorem runOn_asCall (m : Eval α) (s : Store) :
    runOn (asCall m) s =
      if s.activeCalls < s.maxCalls then
        let t := runOn m { s with activeCalls := s.activeCalls + 1 }
        (t.1, { t.2 with activeCalls := t.2.activeCalls - 1 })
      else (.error (.ofFault (.limitExceeded s.maxCalls)), s) := by
  by_cases h : s.activeCalls < s.maxCalls <;>
    simp [asCall, enterCall, exitCall, runOn_bind, runOn_outcome, h]

end Eval

end TextAdventure
