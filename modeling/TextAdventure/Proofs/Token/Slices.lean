import TextAdventure.Proofs.Expr.Parsing

/-! # Tokens of a slice of a text

Each token stands for the characters that its span covers. The text from the start of a token to the end
of a later one has just the tokens from the one to the other: what is cut off is looked at only where it
would make a token longer.
-/
namespace TextAdventure

namespace Position

/-- The number of bytes of some characters. -/
def byteSize : List Char → Nat
  | [] => 0
  | c :: cs => c.utf8Size + byteSize cs

@[simp] theorem byteSize_nil : byteSize [] = 0 := rfl

@[simp] theorem byteSize_cons (c : Char) (cs : List Char) :
    byteSize (c :: cs) = c.utf8Size + byteSize cs := rfl

@[simp] theorem byteSize_append (cs ds : List Char) :
    byteSize (cs ++ ds) = byteSize cs + byteSize ds := by
  induction cs with
  | nil => simp
  | cons c cs ih => simp [ih, Nat.add_assoc]

theorem offset_after (p : Position) (cs : List Char) :
    (p.after cs).offset = p.offset + byteSize cs := by
  induction cs generalizing p with
  | nil => rfl
  | cons c cs ih =>
    have hnext : (p.next c).offset = p.offset + c.utf8Size := by
      unfold next
      split <;> rfl
    rw [after_cons, ih, hnext, byteSize_cons, Nat.add_assoc]

theorem offset_le_after (p : Position) (cs : List Char) : p.offset ≤ (p.after cs).offset := by
  rw [offset_after]
  exact Nat.le_add_right _ _

end Position

open Position

theorem splitBytes_append (cs ds : List Char) : splitBytes (byteSize cs) (cs ++ ds) = some (cs, ds) := by
  induction cs with
  | nil => simp [splitBytes]
  | cons c cs ih =>
    obtain ⟨n, hn⟩ := Nat.exists_eq_succ_of_ne_zero (Nat.pos_iff_ne_zero.mp c.utf8Size_pos)
    have hsize : byteSize (c :: cs) = n + byteSize cs + 1 := by
      rw [byteSize_cons, hn]
      omega
    rw [hsize, List.cons_append, splitBytes, if_pos (by omega), hn]
    rw [show n + byteSize cs + 1 - n.succ = byteSize cs by omega, ih]
    rfl

theorem Span.slice_eq {span : Span} {before piece : List Char} (after : List Char)
    (hstart : span.start = byteSize before) (hstop : span.stop = byteSize (before ++ piece)) :
    span.slice (before ++ piece ++ after) = piece := by
  have hlength : span.stop - span.start = byteSize piece := by
    rw [hstart, hstop, byteSize_append]
    omega
  have hle : span.start ≤ span.stop := by
    rw [hstart, hstop, byteSize_append]
    omega
  rw [slice, hstart, List.append_assoc, splitBytes_append]
  dsimp only
  rw [← hstart, if_pos hle, hlength, splitBytes_append]
  rfl

namespace Token

variable {c : Char} {cs rest : List Char} {n : Nat}

theorem blankSize_true_pos (h : cs ≠ []) : 0 < blankSize true cs := by
  cases cs with
  | nil => exact absurd rfl h
  | cons c cs =>
    simp only [blankSize, if_true]
    omega

theorem head?_take_of_ne (h : cs.head? ≠ some c) (n : Nat) : (cs.take n).head? ≠ some c := by
  rw [List.head?_take]
  split
  · simp
  · exact h

theorem blankSize_take (inComment : Bool) (h : blankSize inComment cs ≤ n) :
    blankSize inComment (cs.take n) = blankSize inComment cs := by
  induction cs generalizing inComment n with
  | nil => simp
  | cons c cs ih =>
    cases n with
    | zero => rw [Nat.le_zero.mp h]; rfl
    | succ n =>
      rw [List.take_succ_cons]
      cases inComment with
      | true =>
        simp only [blankSize, if_true] at h ⊢
        rw [ih _ (by omega)]
      | false =>
        simp only [blankSize, Bool.false_eq_true, if_false, Bool.and_eq_true, decide_eq_true_eq] at h ⊢
        by_cases hblank : Text.isBlank c = true
        · simp only [if_pos hblank] at h ⊢
          rw [ih _ (by omega)]
        simp only [if_neg hblank] at h ⊢
        by_cases hcomment : c = '/' ∧ cs.head? = some '/'
        · have hpos : 0 < blankSize true cs := blankSize_true_pos (by rintro rfl; cases hcomment.2)
          simp only [if_pos hcomment] at h
          rw [if_pos hcomment, if_pos ⟨hcomment.1, by rw [List.head?_take, if_neg (by omega), hcomment.2]⟩,
            ih _ (by omega)]
        · rw [if_neg hcomment, if_neg fun hcut => ?_]
          exact head?_take_of_ne (fun hhead => hcomment ⟨hcut.1, hhead⟩) n hcut.2

theorem takeWhile_take {p : Char → Bool} (h : (cs.takeWhile p).length ≤ n) :
    (cs.take n).takeWhile p = cs.takeWhile p := by
  rw [← List.take_takeWhile, List.take_of_length_le h]

theorem length_whole_le (cs : List Char) :
    (cs.takeWhile Char.isDigit).length ≤ (numberToken cs).2 := by
  unfold numberToken
  dsimp only
  split
  · split
    · exact Nat.le_refl _
    · dsimp only
      omega
  · exact Nat.le_refl _

theorem numberToken_take (h : (numberToken cs).2 ≤ n) : numberToken (cs.take n) = numberToken cs := by
  have hlen := Nat.le_trans (length_whole_le cs) h
  unfold numberToken at h ⊢
  dsimp only at h ⊢
  rw [takeWhile_take hlen, List.drop_take]
  generalize cs.takeWhile Char.isDigit = whole at h hlen ⊢
  generalize cs.drop whole.length = tail at h ⊢
  obtain ⟨k, rfl⟩ := Nat.exists_eq_add_of_le hlen
  rw [Nat.add_sub_cancel_left]
  rcases tail with _ | ⟨d, rest⟩
  · simp
  by_cases hd : d = '.'
  · subst hd
    by_cases hfraction : (rest.takeWhile Char.isDigit).isEmpty = true
    · simp only [if_pos hfraction]
      cases k with
      | zero => rfl
      | succ k =>
        have hcut : ((rest.take k).takeWhile Char.isDigit).isEmpty = true := by
          rw [← List.take_takeWhile, List.isEmpty_iff.mp hfraction]
          simp
        simp only [List.take_succ_cons, hcut, if_true]
    · simp only [if_neg hfraction] at h ⊢
      obtain ⟨k, rfl⟩ := Nat.exists_eq_succ_of_ne_zero (show k ≠ 0 by omega)
      have hcut : (rest.take k).takeWhile Char.isDigit = rest.takeWhile Char.isDigit :=
        takeWhile_take (by omega)
      rw [List.take_succ_cons]
      simp only [hcut, if_neg hfraction]
  · cases k with
    | zero => simp [hd]
    | succ k => simp [hd]

theorem identifierToken_take (h : (identifierToken cs).2 ≤ n) :
    identifierToken (cs.take n) = identifierToken cs := by
  have hname : (cs.take n).takeWhile isIdentifierChar = cs.takeWhile isIdentifierChar := takeWhile_take h
  simp only [identifierToken, hname]

theorem stringBody_quote (quote : Char) (cs : List Char) : stringBody quote (quote :: cs) = (.ok [], 1) := by
  rw [stringBody.eq_def]
  exact if_pos rfl

theorem stringBody_escape {quote e d : Char} (hq : '\\' ≠ quote) (he : unescape? e = some d)
    (cs : List Char) : stringBody quote ('\\' :: e :: cs) =
      ((stringBody quote cs).1.map (d :: ·), (stringBody quote cs).2 + 2) := by
  rw [stringBody.eq_def]
  simp [hq, he]

theorem stringBody_plain {quote : Char} (hq : ¬c = quote) (hb : ¬c = '\\') (cs : List Char) :
    stringBody quote (c :: cs) =
      ((stringBody quote cs).1.map (c :: ·), (stringBody quote cs).2 + 1) := by
  rw [stringBody.eq_def]
  simp [hq, hb]

theorem exists_of_map_eq_ok {α β ε : Type} {f : α → β} {r : Except ε α} {b : β}
    (h : r.map f = .ok b) :
    ∃ a, r = .ok a := by
  cases r with
  | error e => cases h
  | ok a => exact ⟨a, rfl⟩

theorem stringBody_take {quote : Char} {text : List Char} (h : (stringBody quote cs).1 = .ok text)
    (hn : (stringBody quote cs).2 ≤ n) : stringBody quote (cs.take n) = stringBody quote cs := by
  fun_induction stringBody quote cs generalizing text n with
  | case1 => rw [List.take_nil, stringBody]
  | case2 cs =>
    cases n with
    | zero => cases hn
    | succ n => rw [List.take_succ_cons, stringBody_quote]
  | case4 e rest d he body size hbody hq ih =>
    match n with
    | 0 | 1 => simp at hn
    | n + 2 =>
      obtain ⟨text', htext⟩ := exists_of_map_eq_ok h
      rw [hbody] at ih
      rw [List.take_succ_cons, List.take_succ_cons, stringBody_escape hq he,
        ih htext (Nat.le_of_add_le_add_right hn)]
  | case6 c cs hq hb body size hbody ih =>
    cases n with
    | zero => simp at hn
    | succ n =>
      obtain ⟨text', htext⟩ := exists_of_map_eq_ok h
      rw [hbody] at ih
      rw [List.take_succ_cons, stringBody_plain hq hb, ih htext (Nat.le_of_add_le_add_right hn)]
  | _ => cases h

theorem operatorToken_congr (c a b : Char) (cs ds : List Char) :
    operatorToken c (a :: b :: cs) = operatorToken c (a :: b :: ds) := by
  by_cases hb : b = '='
  · subst hb
    unfold operatorToken
    split <;> simp_all
    all_goals grind
  · unfold operatorToken
    split <;> simp_all

theorem operatorToken_take (h : (operatorToken c rest).2 ≤ n + 1) :
    operatorToken c (rest.take n) = operatorToken c rest := by
  rcases rest with _ | ⟨a, _ | ⟨b, tail⟩⟩
  · simp
  · cases n with
    | zero =>
      unfold operatorToken at h ⊢
      split at h <;> simp_all
    | succ n => simp
  · match n with
    | 0 =>
      unfold operatorToken at h ⊢
      split at h <;> simp_all
    | 1 =>
      unfold operatorToken at h ⊢
      split at h <;> simp_all
    | n + 2 => exact operatorToken_congr c a b (tail.take n) tail

/-- Whether a number starts here. -/
def startsNumber (c : Char) (rest : List Char) : Bool :=
  c.isDigit || (c = '.' && (rest.head?.map Char.isDigit).getD false)

theorem startsNumber_take (h : startsNumber c rest = true → (numberToken (c :: rest)).2 ≤ n + 1) :
    startsNumber c (rest.take n) = startsNumber c rest := by
  cases n with
  | succ n => simp [startsNumber, List.head?_take]
  | zero =>
    cases rest with
    | nil => rfl
    | cons d rest =>
      cases hdigit : c.isDigit with
      | true => simp [startsNumber, hdigit]
      | false =>
        cases hstart : startsNumber c (d :: rest) with
        | false => simp_all [startsNumber]
        | true =>
          obtain ⟨rfl, hd⟩ : c = '.' ∧ d.isDigit = true := by simpa [startsNumber, hdigit] using hstart
          have hsize : 1 + ((rest.takeWhile Char.isDigit).length + 1) ≤ 1 := by
            simpa [numberToken, hdigit, hd] using h hstart
          omega

theorem lexeme_eq (c : Char) (rest : List Char) : lexeme c rest =
    if startsNumber c rest = true then numberToken (c :: rest)
    else if isIdentifierStart c = true then identifierToken (c :: rest)
    else if c = '"' ∨ c = '\'' then stringToken c rest
    else (single? c).elim (operatorToken c rest) fun s => (.symbol s, 1) := by
  unfold lexeme startsNumber
  cases single? c <;> simp

theorem exists_stringBody_of_terminal (h : Expr.Terminal (stringToken c rest).1) :
    ∃ text, (stringBody c rest).1 = .ok text ∧
      stringToken c rest = (.string (String.ofList text), (stringBody c rest).2 + 1) := by
  unfold stringToken at h ⊢
  split at h
  next text size hbody => exact ⟨text, by rw [hbody], by rw [hbody]⟩
  next => exact h.elim

theorem stringToken_take (hterminal : Expr.Terminal (stringToken c rest).1)
    (h : (stringToken c rest).2 ≤ n + 1) : stringToken c (rest.take n) = stringToken c rest := by
  obtain ⟨text, hbody, htoken⟩ := exists_stringBody_of_terminal hterminal
  rw [htoken] at h
  unfold stringToken
  rw [stringBody_take hbody (Nat.le_of_add_le_add_right h)]

theorem lexeme_take (hterminal : Expr.Terminal (lexeme c rest).1) (h : (lexeme c rest).2 ≤ n + 1) :
    lexeme c (rest.take n) = lexeme c rest := by
  have hnumber : startsNumber c (rest.take n) = startsNumber c rest :=
    startsNumber_take fun hstart => by rwa [lexeme_eq, if_pos hstart] at h
  have hcons : c :: rest.take n = (c :: rest).take (n + 1) := rfl
  rw [lexeme_eq] at hterminal h
  rw [lexeme_eq, lexeme_eq c rest, hnumber, hcons]
  split at h
  next hstart => rw [if_pos hstart, if_pos hstart, numberToken_take h]
  next hstart =>
    rw [if_neg hstart, if_neg hstart]
    split at h
    next hname => rw [if_pos hname, if_pos hname, identifierToken_take h]
    next hname =>
      rw [if_neg hname, if_neg hname]
      split at h
      next hquote =>
        rw [if_neg hstart, if_neg hname, if_pos hquote] at hterminal
        rw [if_pos hquote, if_pos hquote, stringToken_take hterminal h]
      next hquote =>
        rw [if_neg hquote, if_neg hquote]
        cases hsingle : single? c with
        | some s => rfl
        | none =>
          rw [hsingle] at h
          exact operatorToken_take h

/-- The code points of white space. -/
def blankCodes : List Nat :=
  List.range' 9 5 ++ [0x20, 0x85, 0xA0, 0x1680] ++ List.range' 0x2000 11 ++
    [0x2028, 0x2029, 0x202F, 0x205F, 0x3000]

theorem toNat_mem_blankCodes (h : Text.isBlank c = true) : c.toNat ∈ blankCodes := by
  simp only [Text.isBlank, Bool.or_eq_true, Bool.and_eq_true, decide_eq_true_eq] at h
  simp only [blankCodes, List.mem_append, List.mem_range'_1, List.mem_cons, List.not_mem_nil, or_false]
  omega

theorem isBlank_eq_false_of_isIdentifierChar (h : isIdentifierChar c = true) : Text.isBlank c = false := by
  have hcode : ∀ n ∈ blankCodes, isIdentifierChar (Char.ofNat n) = false := by decide +kernel
  rw [Bool.eq_false_iff]
  intro hblank
  have hfalse := hcode _ (toNat_mem_blankCodes hblank)
  rw [Char.ofNat_toNat, h] at hfalse
  cases hfalse

theorem isBlank_eq_false_of_isDigit (h : c.isDigit = true) : Text.isBlank c = false :=
  isBlank_eq_false_of_isIdentifierChar (by simp [isIdentifierChar, h])

theorem take_length_takeWhile (p : Char → Bool) (cs : List Char) :
    cs.take (cs.takeWhile p).length = cs.takeWhile p :=
  (List.prefix_iff_eq_take.mp (List.takeWhile_prefix p)).symm

theorem of_mem_getLast?_takeWhile {p : Char → Bool} {d : Char} (h : d ∈ (cs.takeWhile p).getLast?) :
    p d = true :=
  List.all_eq_true.mp List.all_takeWhile d (List.mem_of_getLast? h)

theorem isDigit_of_mem_getLast?_numberToken {d : Char}
    (h : d ∈ (cs.take (numberToken cs).2).getLast?) : d.isDigit = true := by
  unfold numberToken at h
  dsimp only at h
  split at h
  next rest hrest =>
    split at h
    · rw [take_length_takeWhile] at h
      exact of_mem_getLast?_takeWhile h
    next hfraction =>
      have hne : rest.takeWhile Char.isDigit ≠ [] := fun hnil => hfraction (List.isEmpty_iff.mpr hnil)
      rw [Nat.add_assoc, List.take_add, hrest, Nat.add_comm 1, List.take_succ_cons,
        take_length_takeWhile _ rest, List.getLast?_append, List.getLast?_cons,
        List.getLast?_eq_some_getLast hne] at h
      have hlast : d ∈ (rest.takeWhile Char.isDigit).getLast? := by
        rw [List.getLast?_eq_some_getLast hne]
        exact h
      exact of_mem_getLast?_takeWhile hlast
  next =>
    rw [take_length_takeWhile] at h
    exact of_mem_getLast?_takeWhile h

theorem getLast?_stringBody {quote : Char} {text : List Char} (h : (stringBody quote cs).1 = .ok text) :
    (cs.take (stringBody quote cs).2).getLast? = some quote := by
  fun_induction stringBody quote cs generalizing text with
  | case2 cs => rfl
  | case4 e rest d he body size hbody hq ih =>
    obtain ⟨text', htext⟩ := exists_of_map_eq_ok h
    rw [hbody] at ih
    rw [List.take_succ_cons, List.take_succ_cons, List.getLast?_cons, List.getLast?_cons, ih htext]
    rfl
  | case6 c cs hq hb body size hbody ih =>
    obtain ⟨text', htext⟩ := exists_of_map_eq_ok h
    rw [hbody] at ih
    rw [List.take_succ_cons, List.getLast?_cons, ih htext]
    rfl
  | _ => cases h

theorem not_blank_of_mem_operatorToken (hc : Text.isBlank c = false) {d : Char}
    (h : d ∈ ((c :: rest).take (operatorToken c rest).2).getLast?) : Text.isBlank d = false := by
  unfold operatorToken at h
  split at h <;> simp at h <;> subst h <;> first
    | rfl
    | exact hc

theorem not_blank_of_mem_lexeme (hc : Text.isBlank c = false) (hterminal : Expr.Terminal (lexeme c rest).1)
    {d : Char} (h : d ∈ (c :: rest.take ((lexeme c rest).2 - 1)).getLast?) : Text.isBlank d = false := by
  cases hsize : (lexeme c rest).2 with
  | zero =>
    rw [hsize] at h
    cases h
    exact hc
  | succ n =>
    have h' : d ∈ ((c :: rest).take (lexeme c rest).2).getLast? := by
      rw [hsize] at h ⊢
      exact h
    clear h hsize
    rw [lexeme_eq] at hterminal h'
    split at h'
    next => exact isBlank_eq_false_of_isDigit (isDigit_of_mem_getLast?_numberToken h')
    next hstart =>
      split at h'
      next =>
        have hlast : d ∈ ((c :: rest).takeWhile isIdentifierChar).getLast? := by
          rw [← take_length_takeWhile]
          exact h'
        exact isBlank_eq_false_of_isIdentifierChar (of_mem_getLast?_takeWhile hlast)
      next hname =>
        split at h'
        next hquote =>
          rw [if_neg hstart, if_neg hname, if_pos hquote] at hterminal
          obtain ⟨text, hbody, htoken⟩ := exists_stringBody_of_terminal hterminal
          rw [htoken, List.take_succ_cons, List.getLast?_cons, getLast?_stringBody hbody] at h'
          cases h'
          exact hc
        next =>
          cases hsingle : single? c with
          | some s =>
            rw [hsingle] at h'
            cases h'
            exact hc
          | none =>
            rw [hsingle] at h'
            exact not_blank_of_mem_operatorToken hc h'

theorem isBlank_of_drop_blankSize (inComment : Bool) (h : cs.drop (blankSize inComment cs) = c :: rest) :
    Text.isBlank c = false := by
  induction cs generalizing inComment with
  | nil => cases h
  | cons d cs ih =>
    unfold blankSize at h
    split at h
    · rw [Nat.add_comm, List.drop_succ_cons] at h
      exact ih _ h
    split at h
    · rw [Nat.add_comm, List.drop_succ_cons] at h
      exact ih _ h
    next hblank =>
      split at h
      · rw [Nat.add_comm, List.drop_succ_cons] at h
        exact ih _ h
      · cases h
        simpa using hblank

/-- The first token of the characters is of the kind and ends after `n` of them, `b` of which are blank. -/
structure StartsWith (cs : List Char) (b n : Nat) (kind : TokenKind) : Prop where
  blanks : b = blankSize false cs
  lexeme : ∃ c rest, cs.drop b = c :: rest ∧ kind = (lexeme c rest).1 ∧
    n = b + (1 + ((Token.lexeme c rest).2 - 1))

variable {p : Position} {b : Nat} {kind : TokenKind} {token : Token} {tokens : List Token}

theorem take_of_drop (h : cs.drop b = c :: rest) (k : Nat) :
    cs.take (b + (1 + k)) = cs.take b ++ c :: rest.take k := by
  rw [List.take_add, h, Nat.add_comm 1 k, List.take_succ_cons]

theorem drop_of_drop (h : cs.drop b = c :: rest) (k : Nat) : cs.drop (b + (1 + k)) = rest.drop k := by
  rw [← List.drop_drop, h, Nat.add_comm 1 k, List.drop_succ_cons]

theorem StartsWith.scanFrom_eq (h : StartsWith cs b n kind) (p : Position) :
    scanFrom p cs = ⟨kind, .between (p.after (cs.take b)) (p.after (cs.take n))⟩ ::
      scanFrom (p.after (cs.take n)) (cs.drop n) := by
  obtain ⟨rfl, c, rest, hdrop, rfl, rfl⟩ := h
  rw [scanFrom.eq_def]
  dsimp only
  split
  next hnil => cases hdrop.symm.trans hnil
  next c' rest' hdrop' =>
    obtain ⟨rfl, rfl⟩ := List.cons.inj (hdrop.symm.trans hdrop')
    rw [take_of_drop hdrop, drop_of_drop hdrop, after_append, after_cons]

theorem exists_startsWith (h : scanFrom p cs = token :: tokens) (htokens : tokens ≠ []) :
    ∃ b n, StartsWith cs b n token.kind ∧
      token.span = .between (p.after (cs.take b)) (p.after (cs.take n)) ∧
      scanFrom (p.after (cs.take n)) (cs.drop n) = tokens := by
  cases hdrop : cs.drop (blankSize false cs) with
  | nil =>
    rw [scanFrom.eq_def] at h
    dsimp only at h
    split at h
    · exact absurd (List.cons.inj h).2.symm htokens
    next hcons => cases hdrop.symm.trans hcons
  | cons c rest =>
    have hstarts : StartsWith cs _ _ _ := ⟨rfl, c, rest, hdrop, rfl, rfl⟩
    rw [hstarts.scanFrom_eq] at h
    obtain ⟨rfl, rfl⟩ := List.cons.inj h
    exact ⟨_, _, hstarts, rfl, rfl⟩

theorem StartsWith.take {m : Nat} (h : StartsWith cs b n kind) (hterminal : Expr.Terminal kind)
    (hm : n ≤ m) : StartsWith (cs.take m) b n kind := by
  obtain ⟨rfl, c, rest, hdrop, rfl, rfl⟩ := h
  obtain ⟨k, rfl⟩ := Nat.exists_eq_add_of_le hm
  rw [Nat.add_assoc, Nat.add_assoc]
  refine ⟨(blankSize_take false (Nat.le_add_right _ _)).symm, c,
    rest.take ((Token.lexeme c rest).2 - 1 + k), ?_⟩
  have hlexeme := lexeme_take (n := (Token.lexeme c rest).2 - 1 + k) hterminal (by omega)
  rw [hlexeme, List.drop_take, hdrop, Nat.add_sub_cancel_left, Nat.add_comm 1, List.take_succ_cons]
  exact ⟨rfl, rfl, rfl⟩

theorem StartsWith.not_blank_first (h : StartsWith cs b n kind) (hb : c ∈ (cs.drop b).head?) :
    Text.isBlank c = false := by
  obtain ⟨rfl, c, rest, hdrop, -, -⟩ := h
  rw [hdrop] at hb
  cases hb
  exact isBlank_of_drop_blankSize false hdrop

theorem StartsWith.not_blank_last (h : StartsWith cs b n kind) (hterminal : Expr.Terminal kind)
    (hc : c ∈ (cs.take n).getLast?) : Text.isBlank c = false := by
  obtain ⟨rfl, d, rest, hdrop, rfl, rfl⟩ := h
  rw [take_of_drop hdrop, List.getLast?_append, List.getLast?_cons, Option.some_or,
    ← List.getLast?_cons] at hc
  exact not_blank_of_mem_lexeme (isBlank_of_drop_blankSize false hdrop) hterminal hc

theorem exists_take {mid ys : List Token} (h : scanFrom p cs = mid ++ ys) (hys : ys ≠ [])
    (hmid : ∀ t ∈ mid, Expr.Terminal t.kind) :
    ∃ n, (∀ q, (scanFrom q (cs.take n)).map Token.kind = mid.map Token.kind ++ [.eof]) ∧
      (∀ t ∈ mid.getLast?, t.span.stop = p.offset + byteSize (cs.take n)) ∧
      (∀ c ∈ (cs.take n).getLast?, Text.isBlank c = false) ∧ (mid = [] → n = 0) := by
  induction mid generalizing p cs with
  | nil =>
    refine ⟨0, fun q => ?_, nofun, nofun, fun _ => rfl⟩
    rw [List.take_zero, scanFrom.eq_def]
    rfl
  | cons t mid ih =>
    obtain ⟨b, n, hstarts, hspan, hrest⟩ := exists_startsWith h (by simp [hys])
    obtain ⟨hterminal, hmid⟩ := List.forall_mem_cons.mp hmid
    obtain ⟨m, hkinds, hstop, hlast, hnil⟩ := ih hrest hmid
    refine ⟨n + m, fun q => ?_, fun t' ht' => ?_, fun c hc => ?_, nofun⟩
    · rw [(hstarts.take hterminal (Nat.le_add_right n m)).scanFrom_eq, List.drop_take, Nat.add_sub_cancel_left,
        List.map_cons, hkinds]
      rfl
    · cases hmid' : mid.getLast? with
      | none =>
        obtain rfl := List.getLast?_eq_none_iff.mp hmid'
        obtain rfl : t = t' := Option.some.inj ht'
        rw [hnil rfl, hspan]
        exact offset_after p _
      | some last =>
        rw [List.getLast?_cons, hmid'] at ht'
        obtain rfl : last = t' := Option.some.inj ht'
        rw [hstop last hmid', offset_after, List.take_add, byteSize_append, Nat.add_assoc]
    · rw [List.take_add, List.getLast?_append] at hc
      rcases Option.or_eq_some_iff.mp hc with hc | ⟨-, hc⟩
      · exact hlast c hc
      · exact hstarts.not_blank_last hterminal hc

theorem blankSize_drop (inComment : Bool) (cs : List Char) :
    blankSize false (cs.drop (blankSize inComment cs)) = 0 := by
  fun_induction blankSize inComment cs with
  | case1 => rfl
  | case2 c cs ih => rwa [Nat.add_comm, List.drop_succ_cons]
  | case3 c cs _ _ ih | case4 c cs _ _ _ ih => rwa [Nat.add_comm, List.drop_succ_cons]
  | case5 inComment c cs hcomment hblank hslash =>
    rw [List.drop_zero, blankSize, if_neg Bool.false_ne_true, if_neg hblank, if_neg hslash]

theorem scanFrom_drop_blanks (p : Position) (cs : List Char) :
    scanFrom (p.after (cs.take (blankSize false cs))) (cs.drop (blankSize false cs)) = scanFrom p cs := by
  cases hdrop : cs.drop (blankSize false cs) with
  | nil =>
    rw [scanFrom.eq_def, scanFrom.eq_def p cs]
    dsimp only
    split
    next =>
      split
      · rfl
      next hcons => cases hdrop.symm.trans hcons
    next hcons => cases hcons
  | cons c rest =>
    have hzero := blankSize_drop false cs
    rw [hdrop] at hzero
    have hstarts : StartsWith cs _ _ _ := ⟨rfl, c, rest, hdrop, rfl, rfl⟩
    have hstarts' : StartsWith (c :: rest) 0 _ _ := ⟨hzero.symm, c, rest, rfl, rfl, rfl⟩
    have hdrop' : (c :: rest).drop 0 = c :: rest := rfl
    rw [hstarts.scanFrom_eq, hstarts'.scanFrom_eq, take_of_drop hdrop, drop_of_drop hdrop, take_of_drop hdrop',
      drop_of_drop hdrop']
    simp only [after_append, List.take_zero, after_nil, List.nil_append]

end Token

theorem Text.trimChars_eq_self {cs : List Char} (hfirst : ∀ c ∈ cs.head?, isBlank c = false)
    (hlast : ∀ c ∈ cs.getLast?, isBlank c = false) : trimChars cs = cs := by
  have hdrop : ∀ ds : List Char, (∀ c ∈ ds.head?, isBlank c = false) → ds.dropWhile isBlank = ds := by
    intro ds h
    cases ds with
    | nil => rfl
    | cons d ds => rw [List.dropWhile_cons_of_neg (by simp [h d rfl])]
  rw [trimChars, hdrop cs hfirst, hdrop cs.reverse (by simpa using hlast), List.reverse_reverse]

namespace Token

variable {p : Position} {xs mid ys : List Token} {cs : List Char}

theorem exists_piece (h : scanFrom p cs = xs ++ (mid ++ ys)) (hne : mid ≠ []) (hys : ys ≠ [])
    (hmid : ∀ t ∈ mid, Expr.Terminal t.kind) :
    ∃ before piece after, cs = before ++ piece ++ after ∧
      (∀ t ∈ mid.head?, t.span.start = p.offset + byteSize before) ∧
      (∀ t ∈ mid.getLast?, t.span.stop = p.offset + byteSize (before ++ piece)) ∧
      (∀ q, (scanFrom q piece).map Token.kind = mid.map Token.kind ++ [.eof]) ∧
      Text.trimChars piece = piece := by
  induction xs generalizing p cs with
  | nil =>
    obtain ⟨t, mid, rfl⟩ := List.exists_cons_of_ne_nil hne
    obtain ⟨b, n, hstarts, hspan, -⟩ := exists_startsWith h (by simp [hys])
    have hdrop : scanFrom (p.after (cs.take b)) (cs.drop b) = t :: mid ++ ys := by
      rw [hstarts.blanks, scanFrom_drop_blanks, h]
      rfl
    obtain ⟨m, hkinds, hstop, hlast, -⟩ := exists_take hdrop hys hmid
    refine ⟨cs.take b, (cs.drop b).take m, (cs.drop b).drop m, ?_, ?_, ?_, hkinds, ?_⟩
    · rw [List.append_assoc, List.take_append_drop, List.take_append_drop]
    · intro t' ht'
      cases ht'
      rw [hspan]
      exact offset_after p _
    · intro t' ht'
      rw [hstop t' ht', offset_after, byteSize_append, Nat.add_assoc]
    · refine Text.trimChars_eq_self (fun c hc => hstarts.not_blank_first ?_) hlast
      rw [List.head?_take] at hc
      split at hc
      · cases hc
      · exact hc
  | cons x xs ih =>
    obtain ⟨b, n, -, -, hrest⟩ := exists_startsWith h (by simp [hne])
    obtain ⟨before, piece, after, hcs, hstart, hstop, hkinds, htrim⟩ := ih hrest
    refine ⟨cs.take n ++ before, piece, after, ?_, fun t ht => ?_, fun t ht => ?_, hkinds, htrim⟩
    · rw [List.append_assoc, List.append_assoc, ← List.append_assoc before, ← hcs, List.take_append_drop]
    · rw [hstart t ht, offset_after, byteSize_append, Nat.add_assoc]
    · rw [hstop t ht, offset_after, List.append_assoc, byteSize_append _ (before ++ piece), Nat.add_assoc]

/-- The text from the start of a token to the end of another has the tokens from the one to the other. -/
theorem kinds_text {source : String} {span : Span} (h : scan source = xs ++ (mid ++ ys)) (hys : ys ≠ [])
    (hmid : ∀ t ∈ mid, Expr.Terminal t.kind) (hstart : ∃ t ∈ mid.head?, span.start = t.span.start)
    (hstop : ∃ t ∈ mid.getLast?, span.stop = t.span.stop) :
    kinds (Text.trim (span.text source)) = mid.map Token.kind := by
  obtain ⟨first, hfirst, hstart⟩ := hstart
  obtain ⟨last, hlast, hstop⟩ := hstop
  have hne : mid ≠ [] := by
    rintro rfl
    cases hfirst
  obtain ⟨before, piece, after, hcs, hbefore, hpiece, hkinds, htrim⟩ := exists_piece h hne hys hmid
  have hslice : span.slice source.toList = piece := by
    rw [hcs]
    refine Span.slice_eq after ?_ ?_
    · rw [hstart, hbefore first hfirst]
      exact Nat.zero_add _
    · rw [hstop, hpiece last hlast]
      exact Nat.zero_add _
  rw [kinds, scan, Text.trim, Span.text, hslice, String.toList_ofList, String.toList_ofList, htrim, hkinds,
    List.dropLast_concat]

theorem offset_le_stop {t : Token} (h : t ∈ scanFrom p cs) : p.offset ≤ t.span.stop := by
  fun_induction scanFrom p cs with
  | case1 p cs first =>
    obtain rfl := List.mem_singleton.mp h
    exact offset_le_after p _
  | case2 p cs blanks first c rest _ kind size _ last ih =>
    have hle : p.offset ≤ last.offset := by
      rw [offset_after]
      exact Nat.le_trans (Nat.le_trans (offset_le_after p _) (offset_le_after first [c])) (Nat.le_add_right _ _)
    rcases List.mem_cons.mp h with rfl | h
    · exact hle
    · exact Nat.le_trans hle (ih h)

theorem pairwise_stop_scanFrom (p : Position) (cs : List Char) :
    (scanFrom p cs).Pairwise fun t u => t.span.stop ≤ u.span.stop := by
  fun_induction scanFrom p cs with
  | case1 => exact List.pairwise_singleton _ _
  | case2 _ _ _ _ _ _ _ _ _ _ last ih => exact List.pairwise_cons.mpr ⟨fun t ht => offset_le_stop ht, ih⟩

end Token

end TextAdventure
