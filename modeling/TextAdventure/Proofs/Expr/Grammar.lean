import TextAdventure.Expr.Parser

/-! # The grammar of expressions

Which trees the tokens of a source text derive. The levels of the grammar are, loosest first, actions,
sequences, assignments, conditionals, six levels of left-associative operators, prefix operators,
postfix forms and primary expressions. A tree is an expression without its spans.
-/
namespace TextAdventure

namespace Expr

inductive Tree where
  | literal (value : Literal)
  | identifier (name : String)
  | array (items : List Tree)
  | object (entries : List (String × Tree))
  | unary (op : UnaryOp) (operand : Tree)
  | binary (op : BinaryOp) (left right : Tree)
  | logical (op : LogicalOp) (left right : Tree)
  | conditional (test consequent alternate : Tree)
  | assign (op : AssignOp) (target value : Tree)
  | member (container : Tree) (name : String)
  | element (container key : Tree)
  | call (callee : Tree) (args : List Tree)
  | sequence (items : List Tree)
  | arrow (pattern body : Tree)

mutual

def tree : Expr → Tree
  | literal value _ => .literal value
  | identifier name _ => .identifier name
  | array items _ => .array (trees items)
  | object entries _ => .object (entryTrees entries)
  | unary op operand _ => .unary op operand.tree
  | binary op left right _ => .binary op left.tree right.tree
  | logical op left right _ => .logical op left.tree right.tree
  | conditional test consequent alternate _ =>
    .conditional test.tree consequent.tree alternate.tree
  | assign op target value _ => .assign op target.tree value.tree
  | member container name _ => .member container.tree name
  | element container key _ => .element container.tree key.tree
  | call callee args _ => .call callee.tree (trees args)
  | sequence items _ => .sequence (trees items)
  | arrow pattern body _ => .arrow pattern.tree body.tree

def trees : List Expr → List Tree
  | [] => []
  | e :: es => e.tree :: trees es

def entryTrees : List (String × Expr) → List (String × Tree)
  | [] => []
  | (key, e) :: es => (key, e.tree) :: entryTrees es

end

@[simp] theorem trees_eq_map (es : List Expr) : trees es = es.map tree := by
  induction es with
  | nil => rfl
  | cons e es ih => rw [trees, ih, List.map_cons]

@[simp] theorem entryTrees_eq_map (es : List (String × Expr)) :
    entryTrees es = es.map fun entry => (entry.1, entry.2.tree) := by
  induction es with
  | nil => rfl
  | cons e es ih => rw [entryTrees, ih, List.map_cons]

namespace Tree

/-- Whether an assignment may write to the tree. -/
def isPlace : Tree → Bool
  | identifier _ | member .. | element .. => true
  | _ => false

/-- One item stands for itself, more of them make a sequence. -/
def ofItems : List Tree → Tree
  | [item] => item
  | items => sequence items

def join : Reader.Operator → Tree → Tree → Tree
  | .binary op => binary op
  | .logical op => logical op

end Tree

@[simp] theorem isPlace_tree (e : Expr) : e.tree.isPlace = e.isPlace := by
  cases e <;> simp [tree, Tree.isPlace, isPlace]

@[simp] theorem tree_apply (op : Reader.Operator) (left right : Expr) :
    (op.apply left right).tree = Tree.join op left.tree right.tree := by
  cases op <;> simp [Reader.Operator.apply, tree, Tree.join]

def literal? : TokenKind → Option Literal
  | .nil => some .nil
  | .bool b => some (.bool b)
  | .int n => some (.int n)
  | .float x => some (.float x)
  | .string s => some (.string s)
  | _ => none

/-- The key that a token writes in an object: a word, a text or an integer. -/
def key? : TokenKind → Option String
  | .identifier name => some name
  | .string s => some s
  | .int n => some (Number.integerText n.toInt)
  | _ => none

/-- The operators with two operands and their levels, which count from the loosest. -/
def precedence : Symbol → Option (Nat × Reader.Operator)
  | .orOr => some (0, .logical .or)
  | .andAnd => some (1, .logical .and)
  | .equal => some (2, .binary .eq)
  | .notEqual => some (2, .binary .ne)
  | .strictEqual => some (2, .binary .strictEq)
  | .strictNotEqual => some (2, .binary .strictNe)
  | .less => some (3, .binary .lt)
  | .lessEqual => some (3, .binary .le)
  | .greater => some (3, .binary .gt)
  | .greaterEqual => some (3, .binary .ge)
  | .plus => some (4, .binary .add)
  | .minus => some (4, .binary .sub)
  | .star => some (5, .binary .mul)
  | .slash => some (5, .binary .div)
  | .percent => some (5, .binary .rem)
  | _ => none

def operatorLevelCount : Nat := 6

inductive Prefixes : Symbol → UnaryOp → Prop
  | not : Prefixes .bang .not
  | neg : Prefixes .minus .neg
  | plus : Prefixes .plus .plus

inductive Assigns : Symbol → AssignOp → Prop
  | set : Assigns .assign .set
  | add : Assigns .plusAssign .add
  | sub : Assigns .minusAssign .sub

/-- The items one after the other, each but the first after the separator, and after the last of them a
separator or none. -/
inductive Listed (separator : Symbol) : List (List TokenKind) → List TokenKind → Prop
  | nothing : Listed separator [] []
  | items (first : List TokenKind) (rest : List (List TokenKind)) :
      Listed separator (first :: rest) (first ++ rest.flatMap (.symbol separator :: ·))
  | trailing (first : List TokenKind) (rest : List (List TokenKind)) :
      Listed separator (first :: rest)
        (first ++ rest.flatMap (.symbol separator :: ·) ++ [.symbol separator])

theorem Listed.exists_trailing {separator : Symbol} {first : List TokenKind}
    {rest : List (List TokenKind)} {ts : List TokenKind} (h : Listed separator (first :: rest) ts) :
    ∃ trailing, (trailing = [] ∨ trailing = [.symbol separator]) ∧
      ts = first ++ (rest.flatMap (.symbol separator :: ·) ++ trailing) := by
  cases h with
  | items => exact ⟨[], .inl rfl, by simp⟩
  | trailing => exact ⟨_, .inr rfl, by simp⟩

inductive Level where
  | action
  | sequence
  | assignment
  | conditional
  /-- Operands joined by operators of the level or a tighter one. -/
  | operators (level : Nat)
  | unary
  | postfixForm
  | primary

/-- A key, the tokens of its value and the tree they derive. -/
structure Entry where
  keyToken : TokenKind
  key : String
  value : List TokenKind
  tree : Tree

def Entry.tokens (entry : Entry) : List TokenKind :=
  entry.keyToken :: .symbol .colon :: entry.value

/-- The trees that tokens derive at a level. -/
inductive Derives : Level → List TokenKind → Tree → Prop
  | pattern {ts : List TokenKind} {t : Tree} (h : Derives .sequence ts t) : Derives .action ts t
  | arrow {ts us : List TokenKind} {p b : Tree} (hp : Derives .sequence ts p)
      (hb : Derives .sequence us b) : Derives .action (ts ++ .symbol .fatArrow :: us) (.arrow p b)
  | sequence {parts : List (List TokenKind × Tree)} {ts : List TokenKind} (hne : parts ≠ [])
      (h : ∀ p ∈ parts, Derives .assignment p.1 p.2)
      (hts : Listed .semicolon (parts.map Prod.fst) ts) :
      Derives .sequence ts (.ofItems (parts.map Prod.snd))
  | value {ts : List TokenKind} {t : Tree} (h : Derives .conditional ts t) : Derives .assignment ts t
  | assign {ts us : List TokenKind} {target v : Tree} {sign : Symbol} {op : AssignOp}
      (ht : Derives .conditional ts target) (hplace : target.isPlace = true) (hop : Assigns sign op)
      (hv : Derives .assignment us v) :
      Derives .assignment (ts ++ .symbol sign :: us) (.assign op target v)
  | test {ts : List TokenKind} {t : Tree} (h : Derives (.operators 0) ts t) :
      Derives .conditional ts t
  | conditional {ts us vs : List TokenKind} {t c a : Tree} (ht : Derives (.operators 0) ts t)
      (hc : Derives .assignment us c) (ha : Derives .assignment vs a) :
      Derives .conditional (ts ++ .symbol .question :: us ++ .symbol .colon :: vs)
        (.conditional t c a)
  | operand {level : Nat} {ts : List TokenKind} {t : Tree} (hlevel : level < operatorLevelCount)
      (h : Derives (.operators (level + 1)) ts t) : Derives (.operators level) ts t
  | joined {level : Nat} {ts us : List TokenKind} {l r : Tree} {sign : Symbol} {op : Reader.Operator}
      (hl : Derives (.operators level) ts l) (hop : precedence sign = some (level, op))
      (hr : Derives (.operators (level + 1)) us r) :
      Derives (.operators level) (ts ++ .symbol sign :: us) (.join op l r)
  | tightest {ts : List TokenKind} {t : Tree} (h : Derives .unary ts t) :
      Derives (.operators operatorLevelCount) ts t
  | plain {ts : List TokenKind} {t : Tree} (h : Derives .postfixForm ts t) : Derives .unary ts t
  | prefixed {ts : List TokenKind} {t : Tree} {sign : Symbol} {op : UnaryOp} (hop : Prefixes sign op)
      (h : Derives .unary ts t) : Derives .unary (.symbol sign :: ts) (.unary op t)
  | bare {ts : List TokenKind} {t : Tree} (h : Derives .primary ts t) : Derives .postfixForm ts t
  | call {ts us : List TokenKind} {callee : Tree} {parts : List (List TokenKind × Tree)}
      (hc : Derives .postfixForm ts callee) (h : ∀ p ∈ parts, Derives .assignment p.1 p.2)
      (hus : Listed .comma (parts.map Prod.fst) us) :
      Derives .postfixForm (ts ++ .symbol .leftParen :: us ++ [.symbol .rightParen])
        (.call callee (parts.map Prod.snd))
  | member {ts : List TokenKind} {container : Tree} {name : String}
      (h : Derives .postfixForm ts container) :
      Derives .postfixForm (ts ++ [.symbol .dot, .identifier name]) (.member container name)
  | element {ts us : List TokenKind} {container k : Tree} (h : Derives .postfixForm ts container)
      (hk : Derives .assignment us k) :
      Derives .postfixForm (ts ++ .symbol .leftBracket :: us ++ [.symbol .rightBracket])
        (.element container k)
  | literal {k : TokenKind} {v : Literal} (h : literal? k = some v) :
      Derives .primary [k] (.literal v)
  | identifier {name : String} : Derives .primary [.identifier name] (.identifier name)
  | parens {ts : List TokenKind} {t : Tree} (h : Derives .sequence ts t) :
      Derives .primary (.symbol .leftParen :: ts ++ [.symbol .rightParen]) t
  | array {ts : List TokenKind} {parts : List (List TokenKind × Tree)}
      (h : ∀ p ∈ parts, Derives .assignment p.1 p.2) (hts : Listed .comma (parts.map Prod.fst) ts) :
      Derives .primary (.symbol .leftBracket :: ts ++ [.symbol .rightBracket])
        (.array (parts.map Prod.snd))
  | object {ts : List TokenKind} {entries : List Entry}
      (hk : ∀ p ∈ entries, key? p.keyToken = some p.key)
      (h : ∀ p ∈ entries, Derives .assignment p.value p.tree)
      (hts : Listed .comma (entries.map Entry.tokens) ts) :
      Derives .primary (.symbol .leftBrace :: ts ++ [.symbol .rightBrace])
        (.object (entries.map fun p => (p.key, p.tree)))

theorem Listed.mem {separator : Symbol} {items : List (List TokenKind)} {ts : List TokenKind}
    (h : Listed separator items ts) {k : TokenKind} (hk : k ∈ ts) :
    k = .symbol separator ∨ ∃ item ∈ items, k ∈ item := by
  cases h with
  | nothing => cases hk
  | items first rest | trailing first rest =>
    simp only [List.mem_append, List.mem_flatMap, List.mem_cons, List.not_mem_nil, or_false] at hk ⊢
    grind

/-- The tokens that a derivation can contain. -/
def Terminal : TokenKind → Prop
  | .eof | .error _ => False
  | _ => True

theorem Listed.terminal {separator : Symbol} {items : List (List TokenKind)} {ts : List TokenKind}
    (h : Listed separator items ts) (hitems : ∀ item ∈ items, ∀ k ∈ item, Terminal k) :
    ∀ k ∈ ts, Terminal k := by
  intro k hk
  rcases h.mem hk with rfl | ⟨item, hitem, hk⟩
  · trivial
  · exact hitems item hitem k hk

theorem terminal_of_literal? {k : TokenKind} {v : Literal} (h : literal? k = some v) :
    Terminal k := by
  cases k with
  | eof | error => cases h
  | _ => trivial

theorem terminal_of_key? {k : TokenKind} {key : String} (h : key? k = some key) : Terminal k := by
  cases k with
  | eof | error => cases h
  | _ => trivial

theorem derives_terminal {level : Level} {ts : List TokenKind} {t : Tree} (h : Derives level ts t) :
    ∀ k ∈ ts, Terminal k := by
  induction h with
  | pattern _ ih | value _ ih | test _ ih | operand _ _ ih | tightest _ ih | plain _ ih | bare _ ih =>
    exact ih
  | arrow _ _ ih ih' | assign _ _ _ _ ih ih' | joined _ _ _ ih ih' =>
    exact List.forall_mem_append.mpr ⟨ih, List.forall_mem_cons.mpr ⟨trivial, ih'⟩⟩
  | conditional _ _ _ iht ihc iha =>
    simp only [List.forall_mem_append, List.forall_mem_cons]
    exact ⟨⟨iht, trivial, ihc⟩, trivial, iha⟩
  | sequence _ _ hts ih => exact hts.terminal (List.forall_mem_map.mpr ih)
  | prefixed _ _ ih => exact List.forall_mem_cons.mpr ⟨trivial, ih⟩
  | call _ _ hus ihc ih =>
    simp only [List.forall_mem_append, List.forall_mem_cons]
    exact ⟨⟨ihc, trivial, hus.terminal (List.forall_mem_map.mpr ih)⟩, trivial, by simp⟩
  | member _ ih =>
    simp only [List.forall_mem_append, List.forall_mem_cons]
    exact ⟨ih, trivial, trivial, by simp⟩
  | element _ _ ih ihk =>
    simp only [List.forall_mem_append, List.forall_mem_cons]
    exact ⟨⟨ih, trivial, ihk⟩, trivial, by simp⟩
  | literal h => exact List.forall_mem_singleton.mpr (terminal_of_literal? h)
  | identifier => exact List.forall_mem_singleton.mpr trivial
  | parens _ ih =>
    simp only [List.forall_mem_append, List.forall_mem_cons]
    exact ⟨⟨trivial, ih⟩, trivial, by simp⟩
  | array _ hts ih =>
    simp only [List.forall_mem_append, List.forall_mem_cons]
    exact ⟨⟨trivial, hts.terminal (List.forall_mem_map.mpr ih)⟩, trivial, by simp⟩
  | object hk _ hts ih =>
    simp only [List.forall_mem_append, List.forall_mem_cons]
    refine ⟨⟨trivial, hts.terminal (List.forall_mem_map.mpr fun p hp => ?_)⟩, trivial, by simp⟩
    simp only [Entry.tokens, List.forall_mem_cons]
    exact ⟨terminal_of_key? (hk p hp), trivial, ih p hp⟩

/-- The tokens that a derivation can begin with. -/
def Starts : TokenKind → Prop
  | .symbol s => s ∈ [.leftParen, .leftBracket, .leftBrace, .bang, .minus, .plus]
  | .eof | .error _ => False
  | _ => True

theorem Listed.starts {separator : Symbol} {items : List (List TokenKind)} {ts : List TokenKind}
    (h : Listed separator items ts) (hne : items ≠ [])
    (hitems : ∀ item ∈ items, ∃ k ks, item = k :: ks ∧ Starts k) : ∃ k ks, ts = k :: ks ∧ Starts k := by
  cases h with
  | nothing => exact absurd rfl hne
  | items first rest | trailing first rest =>
    obtain ⟨k, ks, rfl, hk⟩ := hitems first List.mem_cons_self
    exact ⟨k, _, rfl, hk⟩

theorem starts_of_literal? {k : TokenKind} {v : Literal} (h : literal? k = some v) : Starts k := by
  cases k with
  | symbol | eof | error => cases h
  | nil | bool | int | float | string | identifier => trivial

theorem starts_of_prefixes {sign : Symbol} {op : UnaryOp} (h : Prefixes sign op) :
    Starts (.symbol sign) := by
  cases h <;> simp [Starts]

theorem derives_starts {level : Level} {ts : List TokenKind} {t : Tree} (h : Derives level ts t) :
    ∃ k ks, ts = k :: ks ∧ Starts k := by
  induction h with
  | sequence hne _ hts ih =>
    refine hts.starts (by simpa using hne) ?_
    intro item hitem
    obtain ⟨p, hp, rfl⟩ := List.mem_map.mp hitem
    exact ih p hp
  | pattern _ ih | value _ ih | test _ ih | operand _ _ ih | tightest _ ih | plain _ ih | bare _ ih =>
    exact ih
  | arrow _ _ ih _ | assign _ _ _ _ ih _ | joined _ _ _ ih _ | call _ _ _ ih _ | member _ ih
  | element _ _ ih _ =>
    obtain ⟨k, ks, rfl, hk⟩ := ih
    exact ⟨k, _, rfl, hk⟩
  | conditional _ _ _ ih _ _ =>
    obtain ⟨k, ks, rfl, hk⟩ := ih
    exact ⟨k, _, rfl, hk⟩
  | prefixed hop _ _ => exact ⟨_, _, rfl, starts_of_prefixes hop⟩
  | literal h => exact ⟨_, [], rfl, starts_of_literal? h⟩
  | identifier => exact ⟨_, [], rfl, trivial⟩
  | parens | array | object => exact ⟨_, _, rfl, by simp [Starts]⟩

end Expr

end TextAdventure
