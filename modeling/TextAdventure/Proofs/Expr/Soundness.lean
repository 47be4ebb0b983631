import Mathlib.Data.List.Forall2
import Mathlib.Data.Nat.Init
import TextAdventure.Proofs.Expr.Grammar
import TextAdventure.Proofs.Expr.Reading

/-! # What is read is derived

Each reader of the parser reads only tokens that derive the tree of its result at its level of the
grammar, provided that the reader for nested assignments does. By induction on the depth of nesting all
of them do.
-/
namespace TextAdventure

namespace Reader

open TextAdventure.Expr (Derives Level Listed Tree)

variable {α : Type} {R : List TokenKind → α → Prop} {separator : Symbol}

/-- Items with a separator before each of them but the first. -/
def Row (R : List TokenKind → α → Prop) (separator : Symbol) (ts : List TokenKind) (as : List α) :
    Prop :=
  ∃ (first : List TokenKind × α) (rest : List (List TokenKind × α)), R first.1 first.2 ∧
    (∀ p ∈ rest, R p.1 p.2) ∧ as = first.2 :: rest.map Prod.snd ∧
    ts = first.1 ++ rest.flatMap fun p => .symbol separator :: p.1

/-- Items that are listed, with or without a separator after the last one. -/
def ListedBy (R : List TokenKind → α → Prop) (separator : Symbol) (ts : List TokenKind)
    (as : List α) : Prop :=
  ∃ parts : List (List TokenKind × α), (∀ p ∈ parts, R p.1 p.2) ∧ as = parts.map Prod.snd ∧
    Listed separator (parts.map Prod.fst) ts

theorem row_single {ts : List TokenKind} {a : α} (h : R ts a) : Row R separator ts [a] :=
  ⟨(ts, a), [], h, by simp, rfl, by simp⟩

theorem Row.snoc {ts us : List TokenKind} {as : List α} {a : α} (h : Row R separator ts as)
    (ha : R us a) : Row R separator (ts ++ .symbol separator :: us) (as ++ [a]) := by
  obtain ⟨first, rest, hfirst, hrest, rfl, rfl⟩ := h
  refine ⟨first, rest ++ [(us, a)], hfirst, ?_, by simp, by simp⟩
  intro p hp
  rcases List.mem_append.mp hp with hp | hp
  · exact hrest p hp
  · cases List.mem_singleton.mp hp
    exact ha

theorem Row.ne_nil {ts : List TokenKind} {as : List α} (h : Row R separator ts as) : as ≠ [] := by
  obtain ⟨first, rest, _, _, rfl, _⟩ := h
  exact List.cons_ne_nil _ _

theorem Row.parts {ts : List TokenKind} {as : List α} (h : Row R separator ts as) :
    ∃ (first : List TokenKind) (rest : List (List TokenKind)) (parts : List (List TokenKind × α)),
      (∀ p ∈ parts, R p.1 p.2) ∧ as = parts.map Prod.snd ∧ parts.map Prod.fst = first :: rest ∧
      ts = first ++ rest.flatMap (.symbol separator :: ·) := by
  obtain ⟨first, rest, hfirst, hrest, rfl, rfl⟩ := h
  refine ⟨first.1, rest.map Prod.fst, first :: rest, ?_, rfl, rfl, by simp [List.flatMap_map]⟩
  intro p hp
  rcases List.mem_cons.mp hp with rfl | hp
  · exact hfirst
  · exact hrest p hp

theorem Row.listed {ts : List TokenKind} {as : List α} (h : Row R separator ts as) :
    ListedBy R separator ts as := by
  obtain ⟨first, rest, parts, hparts, has, hfst, rfl⟩ := h.parts
  exact ⟨parts, hparts, has, hfst ▸ .items first rest⟩

theorem Row.listed_trailing {ts : List TokenKind} {as : List α} (h : Row R separator ts as) :
    ListedBy R separator (ts ++ [.symbol separator]) as := by
  obtain ⟨first, rest, parts, hparts, has, hfst, rfl⟩ := h.parts
  exact ⟨parts, hparts, has, hfst ▸ .trailing first rest⟩

theorem reads_nextItem {item : Reader α} (hitem : Reads item R) (close : Symbol)
    {ts : List TokenKind} {as : List α} (h : Row R .comma ts as) :
    Reads (nextItem close item as) (Round (Row R .comma) (ListedBy R .comma) ts as) := by
  intro s
  unfold nextItem
  refine readsAt_eat ?_ fun _ => readsAt_pure ?_
  · refine readsAt_symbol? ?_
    split
    · exact readsAt_pure h.listed_trailing
    · refine (hitem s.next).bind fun us a t ha => readsAt_pure ?_
      simpa [Round] using h.snoc ha
  · simpa [Round] using h.listed

theorem reads_separated {item : Reader α} (hitem : Reads item R) (close : Symbol) :
    Reads (separated close item) fun ts as =>
      ∃ us, ts = us ++ [.symbol close] ∧ ListedBy R .comma us as := by
  intro s
  unfold separated
  refine readsAt_eat (readsAt_pure ?_) fun _ => ?_
  · exact ⟨[], rfl, [], by simp, rfl, .nothing⟩
  · refine (hitem s).bind fun ts a t ha => ?_
    refine (reads_loop (fun _ _ h => reads_nextItem hitem close h) (fun _ _ h => h.listed) (row_single ha) t).bind ?_
    intro us as u has
    refine readsAt_expect (readsAt_pure ?_)
    exact ⟨ts ++ us, by simp, has⟩

/-- The reader reads only what derives the tree of its result at the level. -/
def Sound (level : Level) (m : Reader Expr) : Prop :=
  Reads m fun ts e => Derives level ts e.tree

theorem ListedBy.trees {ts : List TokenKind} {es : List Expr}
    (h : ListedBy (fun ts e => Derives .assignment ts e.tree) separator ts es) :
    ∃ parts : List (List TokenKind × Tree), (∀ p ∈ parts, Derives .assignment p.1 p.2) ∧
      es.map Expr.tree = parts.map Prod.snd ∧ Listed separator (parts.map Prod.fst) ts := by
  obtain ⟨parts, hparts, rfl, hts⟩ := h
  refine ⟨parts.map fun p => (p.1, p.2.tree), ?_, by simp, by simpa [Function.comp_def] using hts⟩
  intro p hp
  obtain ⟨q, hq, rfl⟩ := List.mem_map.mp hp
  exact hparts q hq

variable {nested : Reader Expr}

/-- The items of a sequence, of which there is at least one. -/
def SequenceOf (ts : List TokenKind) (es : List Expr) : Prop :=
  es ≠ [] ∧ ListedBy (fun ts e => Derives .assignment ts e.tree) .semicolon ts es

theorem reads_nextInSequence (hn : Sound .assignment nested) {ts : List TokenKind}
    {es : List Expr} (h : Row (fun ts e => Derives .assignment ts e.tree) .semicolon ts es) :
    Reads (nextInSequence nested es)
      (Round (Row (fun ts e => Derives .assignment ts e.tree) .semicolon) SequenceOf ts es) := by
  intro s
  unfold nextInSequence
  refine readsAt_eat ?_ fun _ => readsAt_pure ?_
  · refine readsAt_current ?_
    split
    iterate 4 exact readsAt_pure ⟨h.ne_nil, h.listed_trailing⟩
    refine (hn s.next).bind fun us e t he => readsAt_pure ?_
    simpa [Round] using h.snoc he
  · have hes : SequenceOf ts es := ⟨h.ne_nil, h.listed⟩
    simpa [Round] using hes

theorem SequenceOf.derives {ts : List TokenKind} {es : List Expr} (h : SequenceOf ts es) :
    Derives .sequence ts (.ofItems (es.map Expr.tree)) := by
  obtain ⟨hne, hlisted⟩ := h
  obtain ⟨parts, hparts, htrees, hts⟩ := hlisted.trees
  have hnil : parts ≠ [] := by
    rintro rfl
    exact hne (by simpa using htrees)
  rw [htrees]
  exact .sequence hnil hparts hts

theorem run_sequenceFrom (start : Span) (es : List Expr) (s : ReaderState) :
    ∃ e, (sequenceFrom start es).run s = .ok (e, s) ∧ e.tree = .ofItems (es.map Expr.tree) := by
  match es with
  | [] => exact ⟨_, rfl, by simp [Expr.tree, Tree.ofItems]⟩
  | [item] => exact ⟨item, rfl, rfl⟩
  | _ :: _ :: _ => exact ⟨_, rfl, by simp [Expr.tree, Tree.ofItems]⟩

theorem sound_sequence (hn : Sound .assignment nested) : Sound .sequence (sequence nested) := by
  intro s
  unfold sequence
  refine (hn s).bind fun ts e t he => ?_
  refine (reads_loop (fun _ _ h => reads_nextInSequence hn h)
    (fun _ _ h => ⟨h.ne_nil, h.listed⟩) (row_single he) t).bind fun us es u hes => ?_
  obtain ⟨e', hrun, htree⟩ := run_sequenceFrom e.span es u
  intro e'' v h
  cases hrun.symm.trans h
  exact ⟨[], rfl, by simpa [htree] using hes.derives⟩

theorem reads_objectKey : Reads objectKey fun ts key => ∃ k, ts = [k] ∧ Expr.key? k = some key := by
  intro s
  unfold objectKey
  refine readsAt_current ?_
  split
  next name hk => exact readsAt_advance hk (by simp) (readsAt_pure ⟨_, rfl, rfl⟩)
  next name hk => exact readsAt_advance hk (by simp) (readsAt_pure ⟨_, rfl, rfl⟩)
  next n hk => exact readsAt_advance hk (by simp) (readsAt_pure ⟨_, rfl, rfl⟩)
  next => exact readsAt_fail _

/-- The tokens of an entry of an object, with its key and its value. -/
def EntryOf (ts : List TokenKind) (entry : String × Expr) : Prop :=
  ∃ k us, ts = k :: .symbol .colon :: us ∧ Expr.key? k = some entry.1 ∧
    Derives .assignment us entry.2.tree

theorem reads_objectEntry (hn : Sound .assignment nested) :
    Reads (objectEntry nested) EntryOf := by
  intro s
  unfold objectEntry
  refine (reads_objectKey s).bind ?_
  rintro _ key t ⟨k, rfl, hk⟩
  refine readsAt_expect ((hn t.next).bind fun us e u he => readsAt_pure ?_)
  exact ⟨k, us, by simp, hk, he⟩

theorem sound_literal {k : TokenKind} {value : Literal} {s : ReaderState}
    (hs : s.current.kind = k) (hk : Expr.literal? k = some value) :
    ReadsAt s (literal value) fun ts e => Derives .primary ts e.tree := by
  have hne : k ≠ .eof := by
    rintro rfl
    cases hk
  unfold literal
  refine readsAt_current (readsAt_advance hs hne (readsAt_pure ?_))
  exact .literal hk

theorem exists_entries {parts : List (List TokenKind × String × Expr)}
    (h : ∀ p ∈ parts, EntryOf p.1 p.2) :
    ∃ entries : List Expr.Entry, (∀ p ∈ entries, Expr.key? p.keyToken = some p.key) ∧
      (∀ p ∈ entries, Derives .assignment p.value p.tree) ∧
      (parts.map fun p => (p.2.1, p.2.2.tree)) = (entries.map fun p => (p.key, p.tree)) ∧
      parts.map Prod.fst = entries.map Expr.Entry.tokens := by
  induction parts with
  | nil => exact ⟨[], by simp, by simp, rfl, rfl⟩
  | cons p parts ih =>
    obtain ⟨entries, hkeys, hvalues, htrees, htokens⟩ := ih fun q hq => h q (List.mem_cons_of_mem p hq)
    obtain ⟨ts, key, e⟩ := p
    obtain ⟨k, us, rfl, hk, he⟩ := h _ List.mem_cons_self
    refine ⟨⟨k, key, us, e.tree⟩ :: entries, ?_, ?_, by simp [htrees], ?_⟩
    · exact List.forall_mem_cons.mpr ⟨hk, hkeys⟩
    · exact List.forall_mem_cons.mpr ⟨he, hvalues⟩
    · rw [List.map_cons, List.map_cons, htokens]
      rfl

theorem sound_primary (hn : Sound .assignment nested) : Sound .primary (primary nested) := by
  intro s
  unfold primary
  refine readsAt_current ?_
  split
  next h => exact sound_literal h rfl
  next h => exact sound_literal h rfl
  next h => exact sound_literal h rfl
  next h => exact sound_literal h rfl
  next h => exact sound_literal h rfl
  next name h => exact readsAt_advance h (by simp) (readsAt_pure .identifier)
  next h =>
    refine readsAt_advance h (by simp) ((sound_sequence hn s.next).bind fun ts e t he => ?_)
    exact readsAt_expect (readsAt_pure (by simpa using Derives.parens he))
  next h =>
    refine readsAt_advance h (by simp) ((reads_separated hn .rightBracket s.next).bind ?_)
    rintro _ es t ⟨us, rfl, hes⟩
    refine readsAt_spanFrom fun span => readsAt_pure ?_
    obtain ⟨parts, hparts, htrees, hus⟩ := hes.trees
    simpa [Expr.tree, htrees] using Derives.array hparts hus
  next h =>
    refine readsAt_advance h (by simp)
      ((reads_separated (reads_objectEntry hn) .rightBrace s.next).bind ?_)
    rintro _ es t ⟨us, rfl, hes⟩
    refine readsAt_spanFrom fun span => readsAt_pure ?_
    obtain ⟨parts, hparts, rfl, hus⟩ := hes
    obtain ⟨entries, hkeys, hvalues, htrees, htokens⟩ := exists_entries hparts
    rw [htokens] at hus
    simpa [Expr.tree, Function.comp_def, htrees] using Derives.object hkeys hvalues hus
  next => exact readsAt_fail _
  next => exact readsAt_fail _

theorem reads_postfixStep (hn : Sound .assignment nested) {ts : List TokenKind} {e : Expr}
    (h : Derives .postfixForm ts e.tree) :
    Reads (postfixStep nested e) (Round (fun ts e => Derives .postfixForm ts e.tree)
      (fun ts e => Derives .postfixForm ts e.tree) ts e) := by
  intro s
  unfold postfixStep
  refine readsAt_symbol? ?_
  split
  next hy =>
    refine readsAt_advance (ReaderState.symbol?_eq_some_iff.mp hy) (by simp)
      ((reads_separated hn .rightParen s.next).bind ?_)
    rintro _ es t ⟨us, rfl, hes⟩
    refine readsAt_spanFrom fun span => readsAt_pure ?_
    obtain ⟨parts, hparts, htrees, hus⟩ := hes.trees
    simpa [Round, Expr.tree, htrees] using h.call hparts hus
  next hy =>
    refine readsAt_advance (ReaderState.symbol?_eq_some_iff.mp hy) (by simp) (readsAt_current ?_)
    split
    next name hk =>
      refine readsAt_advance hk (by simp) (readsAt_spanFrom fun span => readsAt_pure ?_)
      simpa [Round, Expr.tree] using h.member
    next => exact readsAt_fail _
  next hy =>
    refine readsAt_advance (ReaderState.symbol?_eq_some_iff.mp hy) (by simp)
      ((hn s.next).bind fun us key t hkey => ?_)
    refine readsAt_expect (readsAt_spanFrom fun span => readsAt_pure ?_)
    simpa [Round, Expr.tree] using h.element hkey
  next => exact readsAt_pure (by simpa [Round] using h)

theorem sound_postfixExpr (hn : Sound .assignment nested) :
    Sound .postfixForm (postfixExpr nested) := by
  intro s
  unfold postfixExpr
  refine (sound_primary hn s).bind fun ts e t he => ?_
  exact reads_loop (fun _ _ h => reads_postfixStep hn h) (fun _ _ h => h) (.bare he) t

theorem prefixes_of_prefixOp? {sign : Symbol} {op : UnaryOp} (h : prefixOp? sign = some op) :
    Expr.Prefixes sign op := by
  unfold prefixOp? at h
  split at h <;> cases h <;> constructor

/-- The signs of prefix operators. -/
def PrefixesOf (ts : List TokenKind) (ops : List (UnaryOp × Span)) : Prop :=
  List.Forall₂ (fun k op => ∃ sign, k = .symbol sign ∧ Expr.Prefixes sign op.1) ts ops

theorem reads_nextPrefix {ts : List TokenKind} {ops : List (UnaryOp × Span)}
    (h : PrefixesOf ts ops) : Reads (nextPrefix ops) (Round PrefixesOf PrefixesOf ts ops) := by
  intro s
  unfold nextPrefix
  refine readsAt_current (readsAt_symbol? ?_)
  split
  next op hop =>
    obtain ⟨sign, hsign, hop⟩ := Option.bind_eq_some_iff.mp hop
    refine readsAt_advance (ReaderState.symbol?_eq_some_iff.mp hsign) (by simp) (readsAt_pure ?_)
    exact List.rel_append h (.cons ⟨sign, rfl, prefixes_of_prefixOp? hop⟩ .nil)
  next => exact readsAt_pure (by simpa [Round] using h)

theorem derives_of_prefixesOf {ts us : List TokenKind} {ops : List (UnaryOp × Span)} {e : Expr}
    {stop : Span} (h : PrefixesOf ts ops) (he : Derives .postfixForm us e.tree) :
    Derives .unary (ts ++ us)
      (ops.foldr (fun op e => .unary op.1 e (op.2.through stop)) e).tree := by
  induction h with
  | nil => exact .plain he
  | cons hop _ ih =>
    obtain ⟨sign, rfl, hop⟩ := hop
    simpa [Expr.tree] using Derives.prefixed hop ih

theorem sound_unary (hn : Sound .assignment nested) : Sound .unary (unary nested) := by
  intro s
  unfold unary prefixOps
  refine (reads_loop (fun _ _ h => reads_nextPrefix h) (fun _ _ h => h)
    (List.Forall₂.nil : PrefixesOf [] []) s).bind fun ts ops t hops => ?_
  refine (sound_postfixExpr hn t).bind fun us e u he => readsAt_get (readsAt_pure ?_)
  simpa using derives_of_prefixesOf hops he

theorem exists_operatorLevel {level : Nat} (h : level < Expr.operatorLevelCount) :
    ∃ ops, operatorLevels.drop level = ops :: operatorLevels.drop (level + 1) ∧
      ∀ sign op, List.lookup sign ops = some op ↔ Expr.precedence sign = some (level, op) := by
  have hlookup : ∃ ops, operatorLevels.drop level = ops :: operatorLevels.drop (level + 1) ∧
      ∀ sign, List.lookup sign ops =
        (Expr.precedence sign).bind fun p => if p.1 = level then some p.2 else none := by
    match level, h with
    | 0, _ | 1, _ | 2, _ | 3, _ | 4, _ | 5, _ => exact ⟨_, rfl, fun sign => by cases sign <;> rfl⟩
  obtain ⟨ops, hdrop, hlookup⟩ := hlookup
  refine ⟨ops, hdrop, fun sign op => ?_⟩
  rw [hlookup]
  cases Expr.precedence sign with
  | none => simp
  | some p =>
    obtain ⟨l, o⟩ := p
    by_cases hl : l = level <;> simp [hl]

theorem reads_nextOperand {ops : List (Symbol × Operator)} {operand : Reader Expr} {level : Nat}
    (hops : ∀ sign op, List.lookup sign ops = some op ↔ Expr.precedence sign = some (level, op))
    (hoperand : Sound (.operators (level + 1)) operand) {ts : List TokenKind} {e : Expr}
    (h : Derives (.operators level) ts e.tree) :
    Reads (nextOperand ops operand e) (Round (fun ts e => Derives (.operators level) ts e.tree)
      (fun ts e => Derives (.operators level) ts e.tree) ts e) := by
  intro s
  unfold nextOperand
  refine readsAt_symbol? ?_
  split
  next op hop =>
    obtain ⟨sign, hsign, hop⟩ := Option.bind_eq_some_iff.mp hop
    refine readsAt_advance (ReaderState.symbol?_eq_some_iff.mp hsign) (by simp)
      ((hoperand s.next).bind fun us right t hright => readsAt_pure ?_)
    simpa [Round] using h.joined ((hops sign op).mp hop) hright
  next => exact readsAt_pure (by simpa [Round] using h)

theorem sound_operators {operand : Reader Expr} (ho : Sound .unary operand) {level : Nat}
    (hlevel : level ≤ Expr.operatorLevelCount) :
    Sound (.operators level) (operators operand (operatorLevels.drop level)) := by
  induction hlevel using Nat.decreasingInduction with
  | self => exact fun s => (ho s).imp fun _ _ h => h.tightest
  | of_succ level hlevel ih =>
    obtain ⟨ops, hdrop, hops⟩ := exists_operatorLevel hlevel
    rw [hdrop, operators]
    intro s
    unfold leftAssociative
    refine (ih s).bind fun ts e t he => ?_
    exact reads_loop (fun _ _ h => reads_nextOperand hops ih h) (fun _ _ h => h)
      (.operand hlevel he) t

theorem sound_conditional (hn : Sound .assignment nested) :
    Sound .conditional (conditional nested) := by
  intro s
  unfold conditional
  refine (sound_operators (sound_unary hn) (Nat.zero_le _) s).bind fun ts test t htest => ?_
  refine readsAt_eat ?_ fun _ => readsAt_pure (by simpa using htest.test)
  refine (hn t.next).bind fun us consequent u hconsequent => ?_
  refine readsAt_expect ((hn u.next).bind fun vs alternate v halternate => readsAt_pure ?_)
  simpa [Expr.tree] using htest.conditional hconsequent halternate

theorem assigns_of_assignOp? {sign : Symbol} {op : AssignOp} (h : assignOp? sign = some op) :
    Expr.Assigns sign op := by
  unfold assignOp? at h
  split at h <;> cases h <;> constructor

theorem sound_assignmentOver (hn : Sound .assignment nested) :
    Sound .assignment (assignmentOver nested) := by
  intro s
  unfold assignmentOver
  refine (sound_conditional hn s).bind fun ts target t htarget => readsAt_symbol? ?_
  split
  next op hop =>
    obtain ⟨sign, hsign, hop⟩ := Option.bind_eq_some_iff.mp hop
    cases hplace : target.isPlace with
    | false => exact readsAt_error rfl
    | true =>
      refine readsAt_advance (ReaderState.symbol?_eq_some_iff.mp hsign) (by simp)
        ((hn t.next).bind fun us value u hvalue => readsAt_pure ?_)
      simpa [Expr.tree] using htarget.assign (by simpa using hplace) (assigns_of_assignOp? hop) hvalue
  next => exact readsAt_pure (by simpa using htarget.value)

theorem sound_assignment (depth : Nat) : Sound .assignment (assignment depth) := by
  induction depth with
  | zero => exact fun s => readsAt_fail _
  | succ depth ih => exact sound_assignmentOver ih

theorem sound_action (hn : Sound .assignment nested) : Sound .action (action nested) := by
  intro s
  unfold action
  refine (sound_sequence hn s).bind fun ts pattern t hpattern => ?_
  refine readsAt_eat ?_ fun _ => readsAt_pure (by simpa using hpattern.pattern)
  refine (sound_sequence hn t.next).bind fun us body u hbody => readsAt_pure ?_
  simpa [Expr.tree] using hpattern.arrow hbody

end Reader

end TextAdventure
