import TextAdventure.Code
import TextAdventure.Proofs.Expr.Attached
import TextAdventure.Proofs.Token.Spelling
import TextAdventure.Store.Path

/-! # Dotted paths as text

A name and some keys with points between them are a dotted path. It is cut at its points into the name and
the keys again, since no word has a point in it, and as source text it is the property of a property of the
name. So is the left side of an assignment to it.
-/
namespace TextAdventure

open TextAdventure.Expr (Derives Tree)

variable {name value : String} {keys : List String}

def dottedPath (name : String) (keys : List String) : String :=
  ".".intercalate (name :: keys)

namespace Token

/-- What the lexer needs of a word that is no keyword. -/
structure IsWord (name : String) : Prop where
  start : ∃ c cs, name.toList = c :: cs ∧ isIdentifierStart c = true
  char : ∀ d ∈ name.toList, isIdentifierChar d = true
  kind : (identifierToken name.toList).1 = .identifier name

theorem Spells.isWord (h : Spells (.identifier name) name.toList) : IsWord name := by
  generalize hkind : TokenKind.identifier name = kind, hword : name.toList = word at h
  cases h with
  | @identifier c cs hc hcs hkeyword =>
    have hchar := isIdentifierChar_of_mem_word hc hcs
    have htoken := identifierToken_eq hchar hkeyword
    rw [← hword] at hchar htoken
    rw [String.ofList_toList] at htoken
    exact ⟨⟨c, cs, hword, isIdentifierStart_iff.mpr hc⟩, hchar, htoken⟩
  | keyword hkeyword =>
    subst hkind
    simp [keywords] at hkeyword
  | _ => cases hkind

theorem spells_identifier {c : Char} {cs : List Char} (hname : name.toList = c :: cs)
    (hc : isIdentifierStart c = true) (hcs : cs.all isIdentifierChar = true)
    (hkeyword : (keywords.map Prod.fst).contains name = false) : Spells (.identifier name) name.toList := by
  have hne : ∀ k ∈ keywords, k.1 ≠ name := by
    rintro k hk rfl
    rw [List.contains_iff_mem.mpr (List.mem_map_of_mem hk)] at hkeyword
    cases hkeyword
  obtain rfl : name = String.ofList (c :: cs) := by rw [← hname, String.ofList_toList]
  rw [hname]
  refine .identifier (isIdentifierStart_iff.mp hc) (fun d hd => ?_) hne
  exact isIdentifierChar_iff.mp (List.all_eq_true.mp hcs d hd)

theorem toList_dottedPath (name : String) (keys : List String) :
    (dottedPath name keys).toList = name.toList ++ keys.flatMap ('.' :: ·.toList) := by
  induction keys generalizing name with
  | nil => simp [dottedPath]
  | cons key keys ih =>
    rw [dottedPath, String.intercalate_cons_cons, String.toList_append, String.toList_append, ← dottedPath,
      ih, List.append_assoc]
    rfl

theorem IsWord.startsWith (h : IsWord name) (tail : List Char)
    (htail : ∀ d ∈ tail.head?, isIdentifierChar d = false) :
    StartsWith (name.toList ++ tail) 0 name.toList.length (.identifier name) := by
  obtain ⟨c, cs, hcs, hc⟩ := h.start
  have hchar := h.char
  have hkind := h.kind
  rw [hcs] at hchar hkind ⊢
  rw [← hkind]
  exact startsWith_word hc (List.forall_mem_cons.mp hchar).2 htail

theorem IsWord.startsWith_dot (h : IsWord name) (tail : List Char) :
    StartsWith ('.' :: (name.toList ++ tail)) 0 1 (.symbol .dot) := by
  obtain ⟨c, cs, hcs, hc⟩ := h.start
  have hdigit : c.isDigit = false := by
    cases hdigit : c.isDigit with
    | true => rw [isIdentifierStart_eq_false hdigit] at hc; cases hc
    | false => rfl
  have hnumber : startsNumber '.' (c :: cs ++ tail) = false := by simp [startsNumber, hdigit]
  rw [hcs]
  refine startsWith_of_lexeme rfl ?_
  rw [lexeme_eq, hnumber]
  rfl

/-- The tokens of a dotted path. -/
def pathKinds (name : String) (keys : List String) : List TokenKind :=
  .identifier name :: keys.flatMap fun key => [.symbol .dot, .identifier key]

theorem map_kind_path (hname : IsWord name) (hkeys : ∀ k ∈ keys, IsWord k) (tail : List Char)
    (htail : ∀ d ∈ tail.head?, isIdentifierChar d = false) (p : Position) : ∃ q,
    (scanFrom p ((dottedPath name keys).toList ++ tail)).map Token.kind =
      pathKinds name keys ++ (scanFrom q tail).map Token.kind := by
  rw [toList_dottedPath]
  induction keys generalizing name p with
  | nil =>
    obtain ⟨q, hq⟩ := (hname.startsWith tail htail).map_kind_eq p
    rw [List.drop_left] at hq
    exact ⟨q, by simpa [pathKinds] using hq⟩
  | cons key keys ih =>
    obtain ⟨hkey, hkeys⟩ := List.forall_mem_cons.mp hkeys
    have hpath : name.toList ++ (key :: keys).flatMap ('.' :: ·.toList) ++ tail =
        name.toList ++ '.' :: (key.toList ++ (keys.flatMap ('.' :: ·.toList) ++ tail)) := by simp
    have hpoint : ∀ d ∈ ('.' :: (key.toList ++ (keys.flatMap ('.' :: ·.toList) ++ tail))).head?,
        isIdentifierChar d = false := by
      simp only [List.head?_cons, Option.mem_some_iff, forall_eq']
      decide
    obtain ⟨q, hq⟩ := (hname.startsWith _ hpoint).map_kind_eq p
    obtain ⟨r, hr⟩ := (hkey.startsWith_dot (keys.flatMap ('.' :: ·.toList) ++ tail)).map_kind_eq q
    obtain ⟨t, ht⟩ := ih hkey hkeys r
    rw [List.append_assoc] at ht
    rw [List.drop_left, hr, List.drop_one, List.tail_cons, ht] at hq
    exact ⟨t, by rw [hpath, hq]; rfl⟩

theorem map_kind_scanFrom_nil (p : Position) : (scanFrom p []).map Token.kind = [.eof] := by
  rw [scanFrom.eq_def]
  rfl

theorem kinds_path (hname : Spells (.identifier name) name.toList)
    (hkeys : ∀ k ∈ keys, Spells (.identifier k) k.toList) :
    kinds (dottedPath name keys) = pathKinds name keys := by
  obtain ⟨q, hq⟩ := map_kind_path hname.isWord (fun k hk => (hkeys k hk).isWord) [] nofun .start
  rw [List.append_nil, map_kind_scanFrom_nil] at hq
  rw [kinds, scan, hq, List.dropLast_concat]

theorem kinds_path_assign (hname : Spells (.identifier name) name.toList)
    (hkeys : ∀ k ∈ keys, Spells (.identifier k) k.toList)
    (hvalue : Spells (.identifier value) value.toList) :
    kinds (dottedPath name keys ++ " = " ++ value) =
      pathKinds name keys ++ [.symbol .assign, .identifier value] := by
  have hspace : ∀ d ∈ (' ' :: '=' :: ' ' :: (value.toList ++ [])).head?, isIdentifierChar d = false := by
    simp only [List.head?_cons, Option.mem_some_iff, forall_eq']
    decide
  have htext : (dottedPath name keys ++ " = " ++ value).toList =
      (dottedPath name keys).toList ++ ' ' :: '=' :: ' ' :: (value.toList ++ []) := by
    rw [String.toList_append, String.toList_append, List.append_assoc, List.append_nil]
    rfl
  have hassign : StartsWith ('=' :: ' ' :: (value.toList ++ [])) 0 1 (.symbol .assign) :=
    startsWith_symbol .assign (by simp)
  obtain ⟨q, hq⟩ := map_kind_path hname.isWord (fun k hk => (hkeys k hk).isWord) _ hspace .start
  obtain ⟨r, hr⟩ := hassign.map_kind_eq (q.next ' ')
  obtain ⟨t, ht⟩ := (hvalue.isWord.startsWith [] nofun).map_kind_eq (r.next ' ')
  have hkinds : (scanFrom q (' ' :: '=' :: ' ' :: (value.toList ++ []))).map Token.kind =
      [.symbol .assign, .identifier value] ++ [.eof] := by
    rw [scanFrom_space, hr, List.drop_one, List.tail_cons, scanFrom_space, ht, List.drop_left,
      map_kind_scanFrom_nil]
    rfl
  rw [kinds, scan, htext, hq, hkinds, ← List.append_assoc, List.dropLast_concat]

end Token

theorem splitAtPoints_of_not_mem {cs : List Char} (h : '.' ∉ cs) : splitAtPoints cs = (cs, []) := by
  induction cs with
  | nil => rfl
  | cons c cs ih =>
    obtain ⟨hc, hcs⟩ := not_or.mp (List.mem_cons.not.mp h)
    rw [splitAtPoints, ih hcs]
    exact if_neg (Ne.symm hc)

theorem splitAtPoints_append {cs : List Char} (h : '.' ∉ cs) (rest : List Char) :
    splitAtPoints (cs ++ '.' :: rest) = (cs, (splitAtPoints rest).1 :: (splitAtPoints rest).2) := by
  induction cs with
  | nil => rfl
  | cons c cs ih =>
    obtain ⟨hc, hcs⟩ := not_or.mp (List.mem_cons.not.mp h)
    rw [List.cons_append, splitAtPoints, ih hcs]
    exact if_neg (Ne.symm hc)

theorem Token.IsWord.dot_not_mem (h : Token.IsWord name) : '.' ∉ name.toList := by
  intro hmem
  have hpoint : Token.isIdentifierChar '.' = false := by decide
  exact absurd (h.char '.' hmem) (by simp [hpoint])

theorem pathSegments_path (hname : Token.IsWord name) (hkeys : ∀ k ∈ keys, Token.IsWord k) :
    pathSegments (dottedPath name keys) = (name, keys) := by
  have hsplit : splitAtPoints (dottedPath name keys).toList =
      (name.toList, keys.map String.toList) := by
    rw [Token.toList_dottedPath]
    induction keys generalizing name with
    | nil => simpa using splitAtPoints_of_not_mem hname.dot_not_mem
    | cons key keys ih =>
      obtain ⟨hkey, hkeys⟩ := List.forall_mem_cons.mp hkeys
      rw [List.flatMap_cons, List.cons_append, splitAtPoints_append hname.dot_not_mem, ih hkey hkeys]
      rfl
  rw [pathSegments, hsplit]
  simp

namespace Expr

/-- The property of a property of a name. -/
def pathTree (name : String) (keys : List String) : Tree :=
  keys.foldl .member (.identifier name)

theorem derives_keys {ts : List TokenKind} {tree : Tree} (h : Derives .postfixForm ts tree)
    (keys : List String) : Derives .postfixForm
      (ts ++ keys.flatMap fun key => [.symbol .dot, .identifier key]) (keys.foldl .member tree) := by
  induction keys generalizing ts tree with
  | nil => simpa using h
  | cons key keys ih =>
    have hmember : Derives .postfixForm (ts ++ [.symbol .dot, .identifier key]) (.member tree key) :=
      .member h
    simpa using ih hmember

theorem derives_path (name : String) (keys : List String) :
    Derives .postfixForm (Token.pathKinds name keys) (pathTree name keys) :=
  derives_keys (.bare .identifier) keys

theorem Derives.conditional_of_postfixForm {ts : List TokenKind} {tree : Tree}
    (h : Derives .postfixForm ts tree) : Derives .conditional ts tree :=
  .test (h.plain.tightest.operators_le (Nat.zero_le _) (Nat.le_refl _))

theorem isPlace_pathTree (name : String) (keys : List String) : (pathTree name keys).isPlace = true := by
  cases keys using List.reverseRecOn with
  | nil => rfl
  | append_singleton keys key =>
    rw [pathTree, List.foldl_concat]
    rfl

theorem exists_parse_path (hname : Token.Spells (.identifier name) name.toList)
    (hkeys : ∀ k ∈ keys, Token.Spells (.identifier k) k.toList) :
    ∃ e, parse (dottedPath name keys) = .ok e ∧ e.tree = pathTree name keys := by
  apply exists_parse_of_derives
  rw [Token.kinds_path hname hkeys]
  exact .pattern ((derives_path name keys).sequence_of_level nofun nofun)

theorem exists_parse_path_assign (hname : Token.Spells (.identifier name) name.toList)
    (hkeys : ∀ k ∈ keys, Token.Spells (.identifier k) k.toList)
    (hvalue : Token.Spells (.identifier value) value.toList) :
    ∃ e, parse (dottedPath name keys ++ " = " ++ value) = .ok e ∧
      e.tree = .assign .set (pathTree name keys) (.identifier value) := by
  apply exists_parse_of_derives
  rw [Token.kinds_path_assign hname hkeys hvalue]
  have htarget := (derives_path name keys).conditional_of_postfixForm
  have hassigned : Derives .assignment [.identifier value] (.identifier value) :=
    .value (Derives.bare .identifier).conditional_of_postfixForm
  have hassign : Derives .assignment _ _ := .assign htarget (isPlace_pathTree name keys) .set hassigned
  exact .pattern (hassign.sequence_of_level nofun nofun)

end Expr

end TextAdventure
