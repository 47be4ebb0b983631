import TextAdventure.Span

/-! # Tokens -/
namespace TextAdventure

inductive Symbol where
  | leftParen | rightParen | leftBracket | rightBracket | leftBrace | rightBrace
  | dot | comma | semicolon | colon | question
  | plus | minus | star | slash | percent | bang
  | assign | plusAssign | minusAssign
  | equal | notEqual | strictEqual | strictNotEqual
  | less | lessEqual | greater | greaterEqual
  | andAnd | orOr | fatArrow
  deriving DecidableEq, Repr

def Symbol.spelling : Symbol → String
  | leftParen => "("
  | rightParen => ")"
  | leftBracket => "["
  | rightBracket => "]"
  | leftBrace => "\x7b"
  | rightBrace => "\x7d"
  | dot => "."
  | comma => ","
  | semicolon => ";"
  | colon => ":"
  | question => "?"
  | plus => "+"
  | minus => "-"
  | star => "*"
  | slash => "/"
  | percent => "%"
  | bang => "!"
  | assign => "="
  | plusAssign => "+="
  | minusAssign => "-="
  | equal => "=="
  | notEqual => "!="
  | strictEqual => "==="
  | strictNotEqual => "!=="
  | less => "<"
  | lessEqual => "<="
  | greater => ">"
  | greaterEqual => ">="
  | andAnd => "&&"
  | orOr => "||"
  | fatArrow => "=>"

inductive TokenKind where
  | symbol (s : Symbol)
  | nil
  | bool (b : Bool)
  | int (n : Int64)
  | float (x : Float)
  | string (s : String)
  | identifier (name : String)
  /-- The end of the source. -/
  | eof
  /-- Characters that form no token, with the reason. -/
  | error (message : String)

def TokenKind.name : TokenKind → String
  | symbol s => "'" ++ s.spelling ++ "'"
  | nil => "nil"
  | bool b => if b then "true" else "false"
  | int _ => "integer"
  | float _ => "float"
  | string _ => "string"
  | identifier _ => "identifier"
  | eof => "end of input"
  | error _ => "error"

structure Token where
  kind : TokenKind
  span : Span

end TextAdventure
