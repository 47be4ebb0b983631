/-! # Bracketed lists of text -/
namespace TextAdventure.Text

def commaSeparated (items : List String) : String :=
  String.intercalate ", " items

def brackets (items : List String) : String :=
  "[" ++ commaSeparated items ++ "]"

def braces (items : List String) : String :=
  "\x7b" ++ commaSeparated items ++ "\x7d"

end TextAdventure.Text
