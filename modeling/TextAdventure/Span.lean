/-! # Places in source text

Offsets count bytes of UTF-8; lines and columns start at one, and a column counts characters. A span
carries the line and column of its start.
-/
namespace TextAdventure

/-- Lines and columns are unbounded here. Counters of 32 bits agree with them in texts of fewer than `2 ^ 32`
lines with fewer than `2 ^ 32` characters each. -/
structure Position where
  offset : Nat
  line : Nat
  column : Nat
  deriving DecidableEq, Repr

namespace Position

def start : Position := ⟨0, 1, 1⟩

def next (p : Position) (c : Char) : Position :=
  if c = '\n' then ⟨p.offset + c.utf8Size, p.line + 1, 1⟩
  else ⟨p.offset + c.utf8Size, p.line, p.column + 1⟩

def after (p : Position) (cs : List Char) : Position :=
  cs.foldl next p

@[simp] theorem after_nil (p : Position) : p.after [] = p := rfl

@[simp] theorem after_cons (p : Position) (c : Char) (cs : List Char) :
    p.after (c :: cs) = (p.next c).after cs := rfl

theorem after_append (p : Position) (cs ds : List Char) :
    p.after (cs ++ ds) = (p.after cs).after ds :=
  List.foldl_append

end Position

/-- The line and the column are those of the start, unbounded as in `Position`. -/
structure Span where
  start : Nat
  stop : Nat
  line : Nat
  column : Nat
  deriving DecidableEq, Repr

/-- Splits characters after exactly `n` bytes; `none` if that is past the end or inside a character. -/
def splitBytes : Nat → List Char → Option (List Char × List Char)
  | 0, cs => some ([], cs)
  | _ + 1, [] => none
  | n + 1, c :: cs =>
    if c.utf8Size ≤ n + 1 then
      (splitBytes (n + 1 - c.utf8Size) cs).map fun parts => (c :: parts.1, parts.2)
    else none
termination_by _ cs => cs.length

namespace Span

def default : Span := ⟨0, 0, 0, 0⟩

def between (first last : Position) : Span :=
  ⟨first.offset, last.offset, first.line, first.column⟩

def through (a b : Span) : Span :=
  { a with stop := max b.stop a.stop }

/-- The characters a span covers; none if it lies outside the source, runs backwards or cuts a
character. -/
def slice (span : Span) (source : List Char) : List Char :=
  match splitBytes span.start source with
  | some (_, rest) =>
    if span.start ≤ span.stop then
      ((splitBytes (span.stop - span.start) rest).map Prod.fst).getD []
    else []
  | none => []

def text (span : Span) (source : String) : String :=
  String.ofList (span.slice source.toList)

/-- The line of the source that holds the start of the span. -/
def lineText (span : Span) (source : String) : String :=
  let (before, rest) := (splitBytes span.start source.toList).getD (source.toList, [])
  String.ofList
    ((before.reverse.takeWhile (· ≠ '\n')).reverse ++ rest.takeWhile (· ≠ '\n'))

end Span

end TextAdventure
