import TextAdventure.Text.Alphabetic
import TextAdventure.Text.Blank
import TextAdventure.Token

/-! # Tokens of a source text

Reading never fails: characters that form no token become an error token. White space and comments,
which run from `//` to the end of the line, separate tokens and are dropped.
-/
namespace TextAdventure.Token

/-- The sign `$` marks captures. -/
def isIdentifierStart (c : Char) : Bool :=
  Text.isAlphabetic c || c = '_' || c = '$'

def isIdentifierChar (c : Char) : Bool :=
  isIdentifierStart c || c.isDigit

/-- How many characters of white space and comments come first. -/
def blankSize (inComment : Bool) : List Char → Nat
  | [] => 0
  | c :: cs =>
    if inComment then 1 + blankSize (c ≠ '\n') cs
    else if Text.isBlank c then 1 + blankSize false cs
    else if c = '/' && cs.head? = some '/' then 1 + blankSize true cs
    else 0

/-- The character an escape sequence stands for, by the character after the backslash. -/
def unescape? : Char → Option Char
  | 'n' => some '\n'
  | 't' => some '\t'
  | 'r' => some '\r'
  | '\\' => some '\\'
  | '"' => some '"'
  | '\'' => some '\''
  | _ => none

/-- The text of a string up to its closing quote, or why there is none. -/
def stringBody (quote : Char) : List Char → Except String (List Char) × Nat
  | [] => (.error "unterminated string literal", 0)
  | c :: cs =>
    if c = quote then (.ok [], 1)
    else if c = '\\' then
      match cs with
      | [] => (.error "unexpected end of input in string escape", 1)
      | e :: rest =>
        match unescape? e with
        | some d =>
          let (body, size) := stringBody quote rest
          (body.map (d :: ·), size + 2)
        | none => (.error ("invalid escape sequence: \\" ++ e.toString), 1)
    else
      let (body, size) := stringBody quote cs
      (body.map (c :: ·), size + 1)

def stringToken (quote : Char) (cs : List Char) : TokenKind × Nat :=
  match stringBody quote cs with
  | (.ok text, size) => (.string (String.ofList text), size + 1)
  | (.error message, size) => (.error message, size + 1)

def digitsValue (digits : List Char) : Nat :=
  digits.foldl (fun n d => 10 * n + (d.toNat - '0'.toNat)) 0

def intToken (digits : List Char) : TokenKind :=
  let n := digitsValue digits
  if n ≤ Int64.maxValue.toInt.toNat then .int (Int64.ofNat n)
  else .error "invalid integer: number too large to fit in target type"

/-- A number without sign or exponent. A point belongs to it if a digit follows. -/
def numberToken (cs : List Char) : TokenKind × Nat :=
  let whole := cs.takeWhile Char.isDigit
  match cs.drop whole.length with
  | '.' :: rest =>
    let fraction := rest.takeWhile Char.isDigit
    if fraction.isEmpty then (intToken whole, whole.length)
    else
      (.float (Float.ofScientific (digitsValue (whole ++ fraction)) true fraction.length),
        whole.length + 1 + fraction.length)
  | _ => (intToken whole, whole.length)

def identifierToken (cs : List Char) : TokenKind × Nat :=
  let name := cs.takeWhile isIdentifierChar
  let kind :=
    match String.ofList name with
    | "nil" | "null" => TokenKind.nil
    | "true" => .bool true
    | "false" => .bool false
    | name => .identifier name
  (kind, name.length)

def unexpected (c : Char) : TokenKind :=
  .error ("unexpected character: " ++ c.toString)

/-- An operator that starts with `c`, by the characters that follow it. -/
def operatorToken (c : Char) (rest : List Char) : TokenKind × Nat :=
  match c, rest with
  | '=', '=' :: '=' :: _ => (.symbol .strictEqual, 3)
  | '!', '=' :: '=' :: _ => (.symbol .strictNotEqual, 3)
  | '=', '=' :: _ => (.symbol .equal, 2)
  | '!', '=' :: _ => (.symbol .notEqual, 2)
  | '=', '>' :: _ => (.symbol .fatArrow, 2)
  | '+', '=' :: _ => (.symbol .plusAssign, 2)
  | '-', '=' :: _ => (.symbol .minusAssign, 2)
  | '<', '=' :: _ => (.symbol .lessEqual, 2)
  | '>', '=' :: _ => (.symbol .greaterEqual, 2)
  | '&', '&' :: _ => (.symbol .andAnd, 2)
  | '|', '|' :: _ => (.symbol .orOr, 2)
  | '=', _ => (.symbol .assign, 1)
  | '!', _ => (.symbol .bang, 1)
  | '+', _ => (.symbol .plus, 1)
  | '-', _ => (.symbol .minus, 1)
  | '<', _ => (.symbol .less, 1)
  | '>', _ => (.symbol .greater, 1)
  | c, _ => (unexpected c, 1)

/-- Symbols that are the start of no longer one. -/
def single? : Char → Option Symbol
  | '(' => some .leftParen
  | ')' => some .rightParen
  | '[' => some .leftBracket
  | ']' => some .rightBracket
  | '{' => some .leftBrace
  | '}' => some .rightBrace
  | ',' => some .comma
  | ';' => some .semicolon
  | ':' => some .colon
  | '?' => some .question
  | '*' => some .star
  | '/' => some .slash
  | '%' => some .percent
  | '.' => some .dot
  | _ => none

/-- The token that starts with `c`, which is neither white space nor the start of a comment. -/
def lexeme (c : Char) (rest : List Char) : TokenKind × Nat :=
  if c.isDigit || (c = '.' && (rest.head?.map Char.isDigit).getD false) then numberToken (c :: rest)
  else if isIdentifierStart c then identifierToken (c :: rest)
  else if c = '"' || c = '\'' then stringToken c rest
  else
    match single? c with
    | some s => (.symbol s, 1)
    | none => operatorToken c rest

/-- The tokens of the characters that follow a place, ending with an `eof` token. -/
def scanFrom (p : Position) (cs : List Char) : List Token :=
  let blanks := blankSize false cs
  let first := p.after (cs.take blanks)
  match _h : cs.drop blanks with
  | [] => [⟨.eof, .between first first⟩]
  | c :: rest =>
    let (kind, size) := lexeme c rest
    let last := (first.next c).after (rest.take (size - 1))
    ⟨kind, .between first last⟩ :: scanFrom last (rest.drop (size - 1))
termination_by cs.length
decreasing_by
  have : (cs.drop blanks).length = rest.length + 1 := by simp [*]
  simp only [List.length_drop] at this ⊢
  omega

def scan (source : String) : List Token :=
  scanFrom .start source.toList

end TextAdventure.Token
