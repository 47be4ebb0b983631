import TextAdventure.Error
import TextAdventure.Expr
import TextAdventure.Token.Lexer

/-! # Reading expressions

A reader for each level of the grammar, loosest first: action, sequence, assignment, conditional, the
six levels of left-associative operators, prefix operators, postfix forms and primary expressions.
Brackets, arguments and branches contain assignments again, so every level from the assignment down is
a function of the reader `nested` for those. One token of look-ahead decides every choice.
-/
namespace TextAdventure

structure SyntaxError where
  message : String
  span : Span

def SyntaxError.toError (source : String) (e : SyntaxError) : Error :=
  .ofFault (.parse e.message e.span.line e.span.column (e.span.lineText source))

/-- The tokens still to be read and the span of the one read last. -/
structure ReaderState where
  tokens : List Token
  previous : Span

def ReaderState.current (s : ReaderState) : Token :=
  s.tokens.headD ⟨.eof, .default⟩

abbrev Reader := StateT ReaderState (Except SyntaxError)

namespace Reader

def current : Reader Token :=
  ReaderState.current <$> get

def advance : Reader Unit :=
  modify fun s => ⟨s.tokens.tail, s.current.span⟩

def failAt (span : Span) (message : String) : Reader α :=
  throw ⟨message, span⟩

def fail (message : String) : Reader α := do
  failAt (← current).span message

def symbol? : Reader (Option Symbol) := do
  match (← current).kind with
  | .symbol s => return some s
  | _ => return none

def eat (s : Symbol) : Reader Bool := do
  if (← symbol?) = some s then
    advance
    return true
  else return false

def expect (s : Symbol) : Reader Unit := do
  unless ← eat s do
    let found := (← current).kind.name
    fail ("expected '" ++ s.spelling ++ "', found " ++ found)

def spanFrom (start : Span) : Reader Span := do
  return start.through (← get).previous

/-- Runs `step` for at most `rounds` rounds, until it gives no further value. -/
def loopFor (step : α → Reader (Option α)) : Nat → α → Reader α
  | 0, a => return a
  | rounds + 1, a => do
    match ← step a with
    | some b => loopFor step rounds b
    | none => return a

/-- Runs `step` until it gives no further value. A round that gives one reads a token, so the tokens
that are left bound the number of rounds. -/
def loop (step : α → Reader (Option α)) (a : α) : Reader α := do
  loopFor step (← get).tokens.length a

/-- One more item after a comma, unless the comma precedes the closing symbol. -/
def nextItem (close : Symbol) (item : Reader α) (items : List α) : Reader (Option (List α)) := do
  if ← eat .comma then
    if (← symbol?) = some close then return none
    else return some (items ++ [← item])
  else return none

/-- Items separated by commas, up to a closing symbol; a comma may precede it. -/
def separated (close : Symbol) (item : Reader α) : Reader (List α) := do
  if ← eat close then return []
  let first ← item
  let items ← loop (nextItem close item) [first]
  expect close
  return items

def objectKey : Reader String := do
  match (← current).kind with
  | .identifier name | .string name => advance; return name
  | .int n => advance; return Number.integerText n.toInt
  | kind => fail ("expected object key, found " ++ kind.name)

def objectEntry (nested : Reader Expr) : Reader (String × Expr) := do
  let key ← objectKey
  expect .colon
  return (key, ← nested)

/-- One more expression after a semicolon, unless the semicolon is the last token of the sequence. -/
def nextInSequence (nested : Reader Expr) (items : List Expr) : Reader (Option (List Expr)) := do
  if ← eat .semicolon then
    match (← current).kind with
    | .eof | .symbol .rightParen | .symbol .fatArrow | .symbol .semicolon => return none
    | _ => return some (items ++ [← nested])
  else return none

/-- The sequence of the items that start at a place; a single one stands for itself. -/
def sequenceFrom (start : Span) : List Expr → Reader Expr
  | [item] => return item
  | items => return .sequence items (← spanFrom start)

def sequence (nested : Reader Expr) : Reader Expr := do
  let first ← nested
  let items ← loop (nextInSequence nested) [first]
  sequenceFrom first.span items

def literal (value : Literal) : Reader Expr := do
  let span := (← current).span
  advance
  return .literal value span

def primary (nested : Reader Expr) : Reader Expr := do
  let token ← current
  match token.kind with
  | .nil => literal .nil
  | .bool b => literal (.bool b)
  | .int n => literal (.int n)
  | .float x => literal (.float x)
  | .string s => literal (.string s)
  | .identifier name =>
    advance
    return .identifier name token.span
  | .symbol .leftParen =>
    advance
    let inner ← sequence nested
    expect .rightParen
    return inner
  | .symbol .leftBracket =>
    advance
    let items ← separated .rightBracket nested
    return .array items (← spanFrom token.span)
  | .symbol .leftBrace =>
    advance
    let entries ← separated .rightBrace (objectEntry nested)
    return .object entries (← spanFrom token.span)
  | .error message => fail message
  | kind => fail ("unexpected " ++ kind.name)

/-- The next call, property or element of an expression, if one follows. -/
def postfixStep (nested : Reader Expr) (e : Expr) : Reader (Option Expr) := do
  match ← symbol? with
  | some .leftParen =>
    advance
    let args ← separated .rightParen nested
    return some (.call e args (← spanFrom e.span))
  | some .dot =>
    advance
    match (← current).kind with
    | .identifier name =>
      advance
      return some (.member e name (← spanFrom e.span))
    | kind => fail ("expected property name, found " ++ kind.name)
  | some .leftBracket =>
    advance
    let key ← nested
    expect .rightBracket
    return some (.element e key (← spanFrom e.span))
  | _ => return none

def postfixExpr (nested : Reader Expr) : Reader Expr := do
  loop (postfixStep nested) (← primary nested)

def prefixOp? : Symbol → Option UnaryOp
  | .bang => some .not
  | .minus => some .neg
  | .plus => some .plus
  | _ => none

def nextPrefix (ops : List (UnaryOp × Span)) : Reader (Option (List (UnaryOp × Span))) := do
  let token ← current
  match (← symbol?).bind prefixOp? with
  | some op =>
    advance
    return some (ops ++ [(op, token.span)])
  | none => return none

def prefixOps : Reader (List (UnaryOp × Span)) :=
  loop nextPrefix []

def unary (nested : Reader Expr) : Reader Expr := do
  let ops ← prefixOps
  let operand ← postfixExpr nested
  let stop := (← get).previous
  return ops.foldr (fun op e => .unary op.1 e (op.2.through stop)) operand

inductive Operator where
  | binary (op : BinaryOp)
  | logical (op : LogicalOp)

def Operator.apply (left right : Expr) : Operator → Expr
  | binary op => .binary op left right (left.span.through right.span)
  | logical op => .logical op left right (left.span.through right.span)

/-- The levels of operators, loosest first. -/
def operatorLevels : List (List (Symbol × Operator)) :=
  [[(.orOr, .logical .or)],
   [(.andAnd, .logical .and)],
   [(.equal, .binary .eq), (.notEqual, .binary .ne),
    (.strictEqual, .binary .strictEq), (.strictNotEqual, .binary .strictNe)],
   [(.less, .binary .lt), (.lessEqual, .binary .le),
    (.greater, .binary .gt), (.greaterEqual, .binary .ge)],
   [(.plus, .binary .add), (.minus, .binary .sub)],
   [(.star, .binary .mul), (.slash, .binary .div), (.percent, .binary .rem)]]

/-- One more operator of the level and its right operand. -/
def nextOperand (ops : List (Symbol × Operator)) (operand : Reader Expr) (left : Expr) :
    Reader (Option Expr) := do
  match (← symbol?).bind (List.lookup · ops) with
  | some op =>
    advance
    return some (op.apply left (← operand))
  | none => return none

def leftAssociative (ops : List (Symbol × Operator)) (operand : Reader Expr) : Reader Expr := do
  loop (nextOperand ops operand) (← operand)

def operators (operand : Reader Expr) : List (List (Symbol × Operator)) → Reader Expr
  | [] => operand
  | ops :: tighter => leftAssociative ops (operators operand tighter)

def conditional (nested : Reader Expr) : Reader Expr := do
  let test ← operators (unary nested) operatorLevels
  if ← eat .question then
    let consequent ← nested
    expect .colon
    let alternate ← nested
    return .conditional test consequent alternate (test.span.through alternate.span)
  else return test

def assignOp? : Symbol → Option AssignOp
  | .assign => some .set
  | .plusAssign => some .add
  | .minusAssign => some .sub
  | _ => none

/-- An assignment, which groups from the right, or a conditional. -/
def assignmentOver (nested : Reader Expr) : Reader Expr := do
  let target ← conditional nested
  match (← symbol?).bind assignOp? with
  | some op =>
    unless target.isPlace do failAt target.span "invalid assignment target"
    advance
    let value ← nested
    return .assign op target value (target.span.through value.span)
  | none => return target

/-- Assignments nested in each other to at most the given depth. -/
def assignment : Nat → Reader Expr
  | 0 => fail "expression is nested too deeply"
  | depth + 1 => assignmentOver (assignment depth)

def action (nested : Reader Expr) : Reader Expr := do
  let pattern ← sequence nested
  if ← eat .fatArrow then
    let body ← sequence nested
    return .arrow pattern body (pattern.span.through body.span)
  else return pattern

/-- All tokens as one expression, with assignments nested to at most the given depth. -/
def whole (depth : Nat) : Reader Expr := do
  if (← current).kind matches .eof then fail "empty expression"
  let e ← action (assignment depth)
  match (← current).kind with
  | .eof => return e
  | kind => fail ("unexpected " ++ kind.name)

end Reader

def Expr.parseWithin (depth : Nat) (source : String) : Except Error Expr :=
  match (Reader.whole depth).run ⟨Token.scan source, .default⟩ with
  | .ok (e, _) => .ok e
  | .error e => .error (e.toError source)

/-- The expression of a source text. A nested assignment starts after a token of the one around it, so
the number of tokens bounds the depth. -/
def Expr.parse (source : String) : Except Error Expr :=
  parseWithin (Token.scan source).length source

end TextAdventure
