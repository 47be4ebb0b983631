import Mathlib.Data.List.TakeWhile
import TextAdventure.Proofs.Token.Slices

/-! # Tokens as they are written

Every token but a float has spellings: a word, digits, the characters of a symbol, or a text in quotes with
escapes in it. Spellings with one space between neighbours are read as just the tokens that they spell.
-/
namespace TextAdventure.Token

/-- The words that are no identifiers, and the tokens that they are. -/
def keywords : List (String × TokenKind) :=
  [("nil", .nil), ("null", .nil), ("true", .bool true), ("false", .bool false)]

/-- What may follow a backslash in a string, and the character that it then stands for. -/
def escapes : List (Char × Char) :=
  [('n', '\n'), ('t', '\t'), ('r', '\r'), ('\\', '\\'), ('"', '"'), ('\'', '\'')]

/-- A text and the characters that write it between two quotes: each character for itself, if it is neither
the quote nor a backslash, or escaped. -/
inductive Quotes (quote : Char) : List Char → List Char → Prop
  | nil : Quotes quote [] []
  | plain {c : Char} {text cs : List Char} (hquote : c ≠ quote) (hbackslash : c ≠ '\\')
      (h : Quotes quote text cs) : Quotes quote (c :: text) (c :: cs)
  | escaped {e c : Char} {text cs : List Char} (hescape : (e, c) ∈ escapes) (h : Quotes quote text cs) :
      Quotes quote (c :: text) ('\\' :: e :: cs)

/-- The characters that a token may be written as. -/
inductive Spells : TokenKind → List Char → Prop
  | symbol (s : Symbol) : Spells (.symbol s) s.spelling.toList
  | keyword {word : String} {kind : TokenKind} (h : (word, kind) ∈ keywords) : Spells kind word.toList
  | int {n : Int64} (h : 0 ≤ n.toInt) : Spells (.int n) (Number.integerText n.toInt).toList
  | identifier {c : Char} {cs : List Char} (hc : Text.isAlphabetic c = true ∨ c = '_' ∨ c = '$')
      (hcs : ∀ d ∈ cs, (Text.isAlphabetic d = true ∨ d = '_' ∨ d = '$') ∨ d.isDigit = true)
      (hkeyword : ∀ k ∈ keywords, k.1 ≠ String.ofList (c :: cs)) :
      Spells (.identifier (String.ofList (c :: cs))) (c :: cs)
  | string {quote : Char} {text cs : List Char} (hquote : quote = '"' ∨ quote = '\'')
      (h : Quotes quote text cs) : Spells (.string (String.ofList text)) (quote :: cs ++ [quote])

variable {c d : Char} {cs tail : List Char} {kind : TokenKind}

theorem digitsValue_eq (digits : List Char) : digitsValue digits = Nat.ofDigitChars 10 digits 0 :=
  Nat.ofDigitChars_eq_foldl.symm

theorem takeWhile_append_of_head {p : Char → Bool} (hcs : ∀ c ∈ cs, p c = true)
    (htail : ∀ d ∈ tail.head?, p d = false) : (cs ++ tail).takeWhile p = cs := by
  have hnil : tail.takeWhile p = [] := by
    cases tail with
    | nil => rfl
    | cons d tail => exact List.takeWhile_cons_of_neg (by simp [htail d rfl])
  rw [List.takeWhile_append_of_pos hcs, hnil, List.append_nil]

theorem numberToken_digits (hcs : ∀ c ∈ cs, c.isDigit = true)
    (htail : ∀ d ∈ tail.head?, d.isDigit = false ∧ d ≠ '.') :
    numberToken (cs ++ tail) = (intToken cs, cs.length) := by
  unfold numberToken
  rw [takeWhile_append_of_head hcs fun d hd => (htail d hd).1]
  dsimp only
  rw [List.drop_left]
  cases tail with
  | nil => rfl
  | cons d tail =>
    split
    next heq => exact absurd (List.cons.inj heq).1 (htail d rfl).2
    next => rfl

theorem intToken_toDigits (n : Nat) : intToken (Nat.toDigits 10 n) =
    if n ≤ Int64.maxValue.toInt.toNat then .int (Int64.ofNat n)
    else .error "invalid integer: number too large to fit in target type" := by
  rw [intToken, digitsValue_eq, Nat.ofDigitChars_ten_toDigits]

theorem intToken_natAbs {n : Int64} (h : 0 ≤ n.toInt) :
    intToken (Nat.toDigits 10 n.toInt.natAbs) = .int n := by
  have hle : n.toInt.natAbs ≤ Int64.maxValue.toInt.toNat := by
    have := n.toInt_le
    omega
  rw [intToken_toDigits, if_pos hle, ← Int64.ofInt_eq_ofNat, Int.natAbs_of_nonneg h, Int64.ofInt_toInt]

theorem isDigit_of_mem_toDigits {n : Nat} (h : c ∈ Nat.toDigits 10 n) : c.isDigit = true :=
  Nat.isDigit_of_mem_toDigits (by decide) (by decide) h

theorem isIdentifierStart_iff :
    isIdentifierStart c = true ↔ Text.isAlphabetic c = true ∨ c = '_' ∨ c = '$' := by
  simp [isIdentifierStart, or_assoc]

theorem isIdentifierChar_iff : isIdentifierChar c = true ↔
    (Text.isAlphabetic c = true ∨ c = '_' ∨ c = '$') ∨ c.isDigit = true := by
  rw [isIdentifierChar, Bool.or_eq_true, isIdentifierStart_iff]

theorem isIdentifierChar_of_isIdentifierStart (h : isIdentifierStart c = true) :
    isIdentifierChar c = true := by
  rw [isIdentifierChar, h, Bool.true_or]

theorem isIdentifierChar_of_mem_word (hc : Text.isAlphabetic c = true ∨ c = '_' ∨ c = '$')
    (hcs : ∀ d ∈ cs, (Text.isAlphabetic d = true ∨ d = '_' ∨ d = '$') ∨ d.isDigit = true) :
    ∀ d ∈ c :: cs, isIdentifierChar d = true :=
  List.forall_mem_cons.mpr ⟨isIdentifierChar_of_isIdentifierStart (isIdentifierStart_iff.mpr hc),
    fun d hd => isIdentifierChar_iff.mpr (hcs d hd)⟩

theorem isIdentifierStart_eq_false (h : c.isDigit = true) : isIdentifierStart c = false := by
  have hrange : '0'.toNat ≤ c.toNat ∧ c.toNat ≤ '9'.toNat := by
    rw [Char.isDigit, Bool.and_eq_true, decide_eq_true_iff, decide_eq_true_iff] at h
    exact h
  have hcode : ∀ n ∈ List.range' '0'.toNat 10, isIdentifierStart (Char.ofNat n) = false := by decide +kernel
  have hmem : c.toNat ∈ List.range' '0'.toNat 10 := List.mem_range'_1.mpr ⟨hrange.1, Nat.lt_succ_of_le hrange.2⟩
  simpa using hcode _ hmem

theorem identifierToken_append (hcs : ∀ d ∈ cs, isIdentifierChar d = true)
    (htail : ∀ d ∈ tail.head?, isIdentifierChar d = false) :
    identifierToken (cs ++ tail) = ((identifierToken cs).1, cs.length) := by
  have hall : cs.takeWhile isIdentifierChar = cs := List.takeWhile_eq_self_iff.mpr hcs
  simp only [identifierToken, takeWhile_append_of_head hcs htail, hall]

theorem identifierToken_eq (hcs : ∀ d ∈ cs, isIdentifierChar d = true)
    (hkeyword : ∀ k ∈ keywords, k.1 ≠ String.ofList cs) :
    (identifierToken cs).1 = .identifier (String.ofList cs) := by
  have hall : cs.takeWhile isIdentifierChar = cs := List.takeWhile_eq_self_iff.mpr hcs
  unfold identifierToken
  rw [hall]
  dsimp only
  split
  next heq => exact absurd heq.symm (hkeyword ("nil", .nil) (by simp [keywords]))
  next heq => exact absurd heq.symm (hkeyword ("null", .nil) (by simp [keywords]))
  next heq => exact absurd heq.symm (hkeyword ("true", .bool true) (by simp [keywords]))
  next heq => exact absurd heq.symm (hkeyword ("false", .bool false) (by simp [keywords]))
  next => rfl

theorem unescape?_of_mem_escapes {e : Char} (h : (e, c) ∈ escapes) : unescape? e = some c := by
  simp only [escapes, List.mem_cons, List.not_mem_nil, or_false, Prod.mk.injEq] at h
  rcases h with ⟨rfl, rfl⟩ | ⟨rfl, rfl⟩ | ⟨rfl, rfl⟩ | ⟨rfl, rfl⟩ | ⟨rfl, rfl⟩ | ⟨rfl, rfl⟩ <;> rfl

theorem stringBody_quotes {quote : Char} {text : List Char} (hquote : quote ≠ '\\') (h : Quotes quote text cs)
    (tail : List Char) : stringBody quote (cs ++ quote :: tail) = (.ok text, cs.length + 1) := by
  induction h with
  | nil => exact stringBody_quote quote tail
  | plain hq hb _ ih =>
    rw [List.cons_append, stringBody_plain hq hb, ih]
    rfl
  | escaped he _ ih =>
    rw [List.cons_append, List.cons_append, stringBody_escape hquote.symm (unescape?_of_mem_escapes he), ih]
    rfl

theorem blankSize_eq_zero (hblank : Text.isBlank c = false) (hslash : c ≠ '/') (cs : List Char) :
    blankSize false (c :: cs) = 0 := by
  simp [blankSize, hblank, hslash]

theorem startsWith_of_lexeme {n : Nat} (hblank : blankSize false (c :: cs) = 0)
    (h : lexeme c cs = (kind, n + 1)) : StartsWith (c :: cs) 0 (n + 1) kind :=
  ⟨hblank.symm, c, cs, rfl, by rw [h], by rw [h, Nat.add_sub_cancel, Nat.zero_add, Nat.add_comm]⟩

theorem startsWith_symbol (s : Symbol) (htail : ∀ d ∈ tail.head?, d = ' ') :
    StartsWith (s.spelling.toList ++ tail) 0 s.spelling.toList.length (.symbol s) := by
  rcases tail with _ | ⟨d, tail⟩
  · cases s <;> simp only [Symbol.spelling, String.reduceToList] <;> exact startsWith_of_lexeme rfl rfl
  · obtain rfl := htail d rfl
    cases s <;> simp only [Symbol.spelling, String.reduceToList] <;> exact startsWith_of_lexeme rfl rfl

theorem startsWith_toDigits (n : Nat) (htail : ∀ d ∈ tail.head?, d.isDigit = false ∧ d ≠ '.') :
    StartsWith (Nat.toDigits 10 n ++ tail) 0 (Nat.toDigits 10 n).length (intToken (Nat.toDigits 10 n)) := by
  have hdigits : ∀ c ∈ Nat.toDigits 10 n, c.isDigit = true := fun c => isDigit_of_mem_toDigits
  obtain ⟨c, cs, hcs⟩ := List.exists_cons_of_ne_nil (Nat.toDigits_ne_nil (n := n) (b := 10))
  rw [hcs] at hdigits ⊢
  have hc := hdigits c List.mem_cons_self
  rw [List.cons_append]
  refine startsWith_of_lexeme (blankSize_eq_zero (isBlank_eq_false_of_isDigit hc) ?_ _) ?_
  · rintro rfl
    cases hc
  · rw [lexeme_eq, if_pos (by simp [startsNumber, hc]), ← List.cons_append, numberToken_digits hdigits htail]
    rfl

theorem startsWith_word (hc : isIdentifierStart c = true) (hcs : ∀ d ∈ cs, isIdentifierChar d = true)
    (htail : ∀ d ∈ tail.head?, isIdentifierChar d = false) :
    StartsWith (c :: cs ++ tail) 0 (c :: cs).length (identifierToken (c :: cs)).1 := by
  have hchar := isIdentifierChar_of_isIdentifierStart hc
  have hnumber : startsNumber c (cs ++ tail) = false := by
    cases hdigit : c.isDigit with
    | true => rw [isIdentifierStart_eq_false hdigit] at hc; cases hc
    | false =>
      have hpoint : c ≠ '.' := by rintro rfl; cases hc
      simp [startsNumber, hdigit, hpoint]
  rw [List.cons_append]
  refine startsWith_of_lexeme (blankSize_eq_zero (isBlank_eq_false_of_isIdentifierChar hchar) ?_ _) ?_
  · rintro rfl
    cases hc
  · rw [lexeme_eq, hnumber, if_neg Bool.false_ne_true, if_pos hc, ← List.cons_append,
      identifierToken_append (List.forall_mem_cons.mpr ⟨hchar, hcs⟩) htail]
    rfl

theorem startsWith_keyword {word : String} (hword : (word, kind) ∈ keywords)
    (htail : ∀ d ∈ tail.head?, isIdentifierChar d = false) :
    StartsWith (word.toList ++ tail) 0 word.toList.length kind := by
  simp only [keywords, List.mem_cons, List.not_mem_nil, or_false, Prod.mk.injEq] at hword
  rcases hword with ⟨rfl, rfl⟩ | ⟨rfl, rfl⟩ | ⟨rfl, rfl⟩ | ⟨rfl, rfl⟩ <;>
    exact startsWith_word (by decide) (List.all_eq_true.mp (by decide)) htail

theorem startsWith_string {quote : Char} {text : List Char} (hquote : quote = '"' ∨ quote = '\'')
    (h : Quotes quote text cs) (tail : List Char) :
    StartsWith (quote :: cs ++ [quote] ++ tail) 0 (quote :: cs ++ [quote]).length
      (.string (String.ofList text)) := by
  have htoken : stringToken quote (cs ++ [quote] ++ tail) = (.string (String.ofList text), cs.length + 1 + 1) := by
    rw [stringToken, List.append_assoc, List.singleton_append, stringBody_quotes _ h]
    rcases hquote with rfl | rfl <;> decide
  rw [List.length_append, List.length_cons, List.length_singleton]
  rcases hquote with rfl | rfl
  · exact startsWith_of_lexeme rfl htoken
  · exact startsWith_of_lexeme rfl htoken

/-- A spelling is read as its token if nothing or a space follows. -/
theorem Spells.startsWith (h : Spells kind cs) (htail : ∀ d ∈ tail.head?, d = ' ') :
    StartsWith (cs ++ tail) 0 cs.length kind := by
  have hchar : ∀ d ∈ tail.head?, isIdentifierChar d = false := fun d hd => by rw [htail d hd]; decide
  cases h with
  | symbol s => exact startsWith_symbol s htail
  | keyword hword => exact startsWith_keyword hword hchar
  | int hn =>
    rw [Number.integerText, if_neg (Int.not_lt.mpr hn), Number.naturalText, String.toList_ofList,
      ← intToken_natAbs hn]
    exact startsWith_toDigits _ fun d hd => by rw [htail d hd]; decide
  | @identifier c cs hc hcs hkeyword =>
    have hword := isIdentifierChar_of_mem_word hc hcs
    rw [← identifierToken_eq hword hkeyword]
    exact startsWith_word (isIdentifierStart_iff.mpr hc) (List.forall_mem_cons.mp hword).2 hchar
  | string hquote h => exact startsWith_string hquote h tail

theorem scanFrom_space (p : Position) (cs : List Char) : scanFrom p (' ' :: cs) = scanFrom (p.next ' ') cs := by
  have hsize : blankSize false (' ' :: cs) = blankSize false cs + 1 := Nat.add_comm _ _
  rw [← scanFrom_drop_blanks p, ← scanFrom_drop_blanks (p.next ' ') cs, hsize]
  rfl

theorem StartsWith.map_kind_eq {n : Nat} (h : StartsWith cs 0 n kind) (p : Position) :
    ∃ q, (scanFrom p cs).map Token.kind = kind :: (scanFrom q (cs.drop n)).map Token.kind :=
  ⟨_, congrArg (List.map Token.kind) (h.scanFrom_eq p)⟩

theorem map_kind_spellings {kinds : List TokenKind} {spellings : List (List Char)}
    (h : List.Forall₂ Spells kinds spellings) (p : Position) :
    (scanFrom p ([' '].intercalate spellings)).map Token.kind = kinds ++ [.eof] := by
  induction h generalizing p with
  | nil =>
    rw [List.intercalate_nil, scanFrom.eq_def]
    rfl
  | @cons kind cs kinds spellings hspells hrest ih =>
    cases hrest with
    | nil =>
      have hfirst : StartsWith (cs ++ []) 0 cs.length kind := hspells.startsWith (by simp)
      obtain ⟨q, hq⟩ := hfirst.map_kind_eq p
      rw [List.drop_left, List.append_nil] at hq
      rw [List.intercalate_singleton, hq, scanFrom.eq_def]
      rfl
    | @cons _ next _ rest hnext hrest =>
      have hfirst : StartsWith (cs ++ ' ' :: [' '].intercalate (next :: rest)) 0 cs.length kind :=
        hspells.startsWith (by simp)
      obtain ⟨q, hq⟩ := hfirst.map_kind_eq p
      rw [List.drop_left, scanFrom_space, ih] at hq
      rw [List.intercalate_cons_cons, List.append_assoc, List.singleton_append, hq]
      rfl

/-- Tokens that are spelled with a space between neighbours are read again, and nothing else is. -/
theorem scan_spellings {kinds : List TokenKind} {spellings : List (List Char)}
    (h : List.Forall₂ Spells kinds spellings) :
    (scan (String.ofList ([' '].intercalate spellings))).map Token.kind = kinds ++ [.eof] := by
  rw [scan, String.toList_ofList]
  exact map_kind_spellings h .start

theorem scan_spellings_slashes :
    List.Forall₂ Spells
        [.symbol .slash, .symbol .slash, .symbol .dot, .int 5, .symbol .equal, .nil, .identifier "$x",
          .string "it's\n"]
        [['/'], ['/'], ['.'], ['5'], ['=', '='], ['n', 'u', 'l', 'l'], ['$', 'x'],
          ['\'', 'i', 't', '\\', '\'', 's', '\\', 'n', '\'']] ∧
      (scan "/ / . 5 == null $x 'it\\'s\\n'").map Token.kind =
        [.symbol .slash, .symbol .slash, .symbol .dot, .int 5, .symbol .equal, .nil, .identifier "$x",
          .string "it's\n", .eof] := by
  have hstring : Quotes '\'' ['i', 't', '\'', 's', '\n'] ['i', 't', '\\', '\'', 's', '\\', 'n'] :=
    .plain (by decide) (by decide) <| .plain (by decide) (by decide) <| .escaped (by decide) <|
      .plain (by decide) (by decide) <| .escaped (by decide) .nil
  have hnull : Spells .nil "null".toList := .keyword (by simp [keywords])
  have h : List.Forall₂ Spells
      [.symbol .slash, .symbol .slash, .symbol .dot, .int 5, .symbol .equal, .nil, .identifier "$x",
        .string "it's\n"]
      [['/'], ['/'], ['.'], ['5'], ['=', '='], ['n', 'u', 'l', 'l'], ['$', 'x'],
        ['\'', 'i', 't', '\\', '\'', 's', '\\', 'n', '\'']] :=
    .cons (.symbol .slash) <| .cons (.symbol .slash) <| .cons (.symbol .dot) <|
      .cons (.int (by decide)) <| .cons (.symbol .equal) <|
      .cons hnull <|
      .cons (.identifier (.inr (.inr rfl)) (List.forall_mem_singleton.mpr (by decide)) (by simp [keywords])) <|
      .cons (.string (.inr rfl) hstring) .nil
  have hsource : "/ / . 5 == null $x 'it\\'s\\n'" = String.ofList ([' '].intercalate
      [['/'], ['/'], ['.'], ['5'], ['=', '='], ['n', 'u', 'l', 'l'], ['$', 'x'],
        ['\'', 'i', 't', '\\', '\'', 's', '\\', 'n', '\'']]) := by decide
  rw [hsource]
  exact ⟨h, scan_spellings h⟩

end TextAdventure.Token
