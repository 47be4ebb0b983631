import TextAdventure.Span

/-! # Expressions

The tree of a source text. Every node carries the span of its text; a parenthesised expression has the
span of what is between the parentheses.
-/
namespace TextAdventure

inductive Literal where
  | nil
  | bool (b : Bool)
  | int (n : Int64)
  | float (x : Float)
  | string (s : String)

inductive UnaryOp where
  | not | neg | plus
  deriving DecidableEq, Repr

inductive BinaryOp where
  | add | sub | mul | div | rem
  | eq | ne | strictEq | strictNe
  | lt | le | gt | ge
  deriving DecidableEq, Repr

inductive LogicalOp where
  | and | or
  deriving DecidableEq, Repr

inductive AssignOp where
  | set | add | sub
  deriving DecidableEq, Repr

inductive Expr where
  | literal (value : Literal) (span : Span)
  | identifier (name : String) (span : Span)
  | array (items : List Expr) (span : Span)
  | object (entries : List (String × Expr)) (span : Span)
  | unary (op : UnaryOp) (operand : Expr) (span : Span)
  | binary (op : BinaryOp) (left right : Expr) (span : Span)
  | logical (op : LogicalOp) (left right : Expr) (span : Span)
  | conditional (test consequent alternate : Expr) (span : Span)
  | assign (op : AssignOp) (target value : Expr) (span : Span)
  /-- A property named in the source, `container.name`. -/
  | member (container : Expr) (name : String) (span : Span)
  /-- A property whose key is computed, `container[key]`. -/
  | element (container key : Expr) (span : Span)
  | call (callee : Expr) (args : List Expr) (span : Span)
  | sequence (items : List Expr) (span : Span)
  /-- An action, `pattern => body`. -/
  | arrow (pattern body : Expr) (span : Span)

namespace Expr

def span : Expr → Span
  | literal _ span | identifier _ span | array _ span | object _ span | unary _ _ span
  | binary _ _ _ span | logical _ _ _ span | conditional _ _ _ span | assign _ _ _ span
  | member _ _ span | element _ _ span | call _ _ span | sequence _ span | arrow _ _ span => span

def identifier? : Expr → Option String
  | identifier name _ => some name
  | _ => none

/-- Whether an assignment may write to the expression. -/
def isPlace : Expr → Bool
  | identifier .. | member .. | element .. => true
  | _ => false

mutual

def containsArrow : Expr → Bool
  | arrow .. => true
  | literal .. | identifier .. => false
  | array items _ | sequence items _ => containsArrowAny items
  | object entries _ => containsArrowEntry entries
  | unary _ operand _ => containsArrow operand
  | binary _ left right _ | logical _ left right _ => containsArrow left || containsArrow right
  | conditional test consequent alternate _ =>
    containsArrow test || containsArrow consequent || containsArrow alternate
  | assign _ target value _ => containsArrow target || containsArrow value
  | member container _ _ => containsArrow container
  | element container key _ => containsArrow container || containsArrow key
  | call callee args _ => containsArrow callee || containsArrowAny args

def containsArrowAny : List Expr → Bool
  | [] => false
  | e :: es => containsArrow e || containsArrowAny es

def containsArrowEntry : List (String × Expr) → Bool
  | [] => false
  | (_, e) :: es => containsArrow e || containsArrowEntry es

end

end Expr

end TextAdventure
