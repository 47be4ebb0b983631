import TextAdventure.Number.Notation

/-! # Errors

An error is a fault and the layers it passed through on its way out: expressions being evaluated,
functions being called, actions being performed. The fault and every layer may carry the place in the
content that they belong to.
-/
namespace TextAdventure

inductive Fault where
  /-- The source text of an expression is malformed; `context` is the source line. -/
  | parse (message : String) (line column : Nat) (context : String)
  | missingVerb
  | unknownVerb (verb : String)
  | invalidMatch (message : String)
  /-- `=>` stands where no action is defined. -/
  | misplacedMatch
  | duplicateComponent (component existing : String)
  | unknownComponent (key : String)
  | invalidRule (message : String)
  | undefinedSymbol (name : String)
  | undefinedFunction (name : String)
  | notCallable (description : String)
  | typeMismatch (expected actual : String)
  | arityMismatch (name expected : String) (actual : Nat)
  | invalidAssignment (description : String)
  /-- Function calls are nested more deeply than `limit`. -/
  | limitExceeded (limit : Nat)
  deriving DecidableEq, Repr

def Fault.message : Fault → String
  | parse message line column _ =>
    "parse error at " ++ Number.naturalText line ++ ":" ++ Number.naturalText column ++ ": " ++ message
  | missingVerb => "match expression has no verb"
  | unknownVerb verb => "unknown verb: " ++ verb
  | invalidMatch message => "invalid match expression: " ++ message
  | misplacedMatch => "the match operator `=>` is only valid at the top of an action"
  | duplicateComponent component existing =>
    "duplicate " ++ component ++ " component in rule (already has " ++ existing ++ ")"
  | unknownComponent key => "unknown rule component: " ++ key
  | invalidRule message => "invalid rule: " ++ message
  | undefinedSymbol name => "undefined symbol: " ++ name
  | undefinedFunction name => "undefined function: " ++ name
  | notCallable description => "not callable: " ++ description
  | typeMismatch expected actual => "type mismatch: expected " ++ expected ++ ", got " ++ actual
  | arityMismatch name expected actual =>
    "arity mismatch in " ++ name ++ ": expected " ++ expected ++ ", got " ++ Number.naturalText actual
  | invalidAssignment description => "invalid assignment target: " ++ description
  | limitExceeded limit => "limit exceeded: max call depth (" ++ Number.naturalText limit ++ ") exceeded"

/-- Whether the fault is found while content is compiled, rather than while it runs. -/
def Fault.isCompileFault : Fault → Bool
  | parse .. | missingVerb | unknownVerb _ | invalidMatch _ | misplacedMatch
  | duplicateComponent .. | unknownComponent _ | invalidRule _ => true
  | undefinedSymbol _ | undefinedFunction _ | notCallable _ | typeMismatch ..
  | arityMismatch .. | invalidAssignment _ | limitExceeded _ => false

/-- Where an error belongs in the content: a declared path, a source text, or both. -/
structure ErrorContext where
  source : Option String
  expression : Option String
  deriving DecidableEq, Repr

def ErrorContext.text (context : ErrorContext) : String :=
  (context.source.map fun source => "at " ++ source).getD "" ++
    (context.expression.map fun expression => " in `" ++ expression ++ "`").getD ""

inductive Layer where
  | evaluation (expression : String)
  | action (phase path : String)
  deriving DecidableEq, Repr

def Layer.text : Layer → String
  | evaluation expression => "while evaluating `" ++ expression ++ "`"
  | action phase path => "in " ++ phase ++ " action at " ++ path

inductive Error where
  | raised (fault : Fault) (context : Option ErrorContext)
  | within (layer : Layer) (cause : Error) (context : Option ErrorContext)
  deriving DecidableEq, Repr

namespace Error

def ofFault (fault : Fault) : Error :=
  .raised fault none

def context : Error → Option ErrorContext
  | raised _ context => context
  | within _ _ context => context

/-- Replaces the context of the outermost layer. -/
def withContext (context : ErrorContext) : Error → Error
  | raised fault _ => .raised fault (some context)
  | within layer cause _ => .within layer cause (some context)

/-- Attaches a declared path and keeps the source text that is already attached. -/
def atPath (path : String) (error : Error) : Error :=
  error.withContext ⟨some path, error.context.bind ErrorContext.expression⟩

def reportAt {α : Type} (path : String) (result : Except Error α) : Except Error α :=
  result.mapError (atPath path)

theorem bind_eq_ok_iff {α β : Type} {x : Except Error α} {f : α → Except Error β} {b : β} :
    x >>= f = .ok b ↔ ∃ a, x = .ok a ∧ f a = .ok b := by
  cases x with
  | error e => simp [bind, Except.bind]
  | ok a => simp [bind, Except.bind]

theorem map_eq_ok_iff {α β : Type} {x : Except Error α} {f : α → β} {b : β} :
    x.map f = .ok b ↔ ∃ a, x = .ok a ∧ f a = b := by
  cases x with
  | error e => simp [Except.map]
  | ok a => simp [Except.map]

theorem reportAt_eq_ok_iff {α : Type} {path : String} {x : Except Error α} {a : α} :
    reportAt path x = .ok a ↔ x = .ok a := by
  cases x with
  | error e =>
    constructor
    · intro h
      cases h
    · intro h
      cases h
  | ok b => exact Iff.rfl

def inExpression (expression : String) (error : Error) : Error :=
  .within (.evaluation expression) error none

def inAction (phase path : String) (error : Error) : Error :=
  .within (.action phase path) error none

def root : Error → Fault
  | raised fault _ => fault
  | within _ cause _ => cause.root

def layers : Error → List Layer
  | raised .. => []
  | within layer cause _ => layer :: cause.layers

/-- The message of the fault, then a line for each layer from the inside out. -/
def message : Error → String
  | raised fault _ => fault.message
  | within layer cause _ => cause.message ++ "\n  " ++ layer.text

def isCompileError (error : Error) : Bool :=
  error.root.isCompileFault

end Error

end TextAdventure
