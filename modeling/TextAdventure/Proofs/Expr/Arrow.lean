import TextAdventure.Code
import TextAdventure.Proofs.Expr.Nodes
import TextAdventure.Proofs.Expr.Parsing

/-! # Where `=>` stands

An action is an arrow between two expressions. The grammar has no other place for an arrow, so what is
read from a text compiles to code unless it is an action, and the two sides of an action always compile.
-/
namespace TextAdventure

namespace Expr

/-- No `=>` occurs in the tree. -/
inductive Tree.ArrowFree : Tree → Prop
  | literal (value : Literal) : ArrowFree (.literal value)
  | identifier (name : String) : ArrowFree (.identifier name)
  | array {items : List Tree} (h : ∀ t ∈ items, ArrowFree t) : ArrowFree (.array items)
  | object {entries : List (String × Tree)} (h : ∀ entry ∈ entries, ArrowFree entry.2) :
      ArrowFree (.object entries)
  | unary {op : UnaryOp} {operand : Tree} (h : ArrowFree operand) : ArrowFree (.unary op operand)
  | binary {op : BinaryOp} {left right : Tree} (hl : ArrowFree left) (hr : ArrowFree right) :
      ArrowFree (.binary op left right)
  | logical {op : LogicalOp} {left right : Tree} (hl : ArrowFree left) (hr : ArrowFree right) :
      ArrowFree (.logical op left right)
  | conditional {test consequent alternate : Tree} (ht : ArrowFree test)
      (hc : ArrowFree consequent) (ha : ArrowFree alternate) :
      ArrowFree (.conditional test consequent alternate)
  | assign {op : AssignOp} {target value : Tree} (ht : ArrowFree target) (hv : ArrowFree value) :
      ArrowFree (.assign op target value)
  | member {container : Tree} {name : String} (h : ArrowFree container) :
      ArrowFree (.member container name)
  | element {container key : Tree} (hc : ArrowFree container) (hk : ArrowFree key) :
      ArrowFree (.element container key)
  | call {callee : Tree} {args : List Tree} (hc : ArrowFree callee)
      (h : ∀ t ∈ args, ArrowFree t) : ArrowFree (.call callee args)
  | sequence {items : List Tree} (h : ∀ t ∈ items, ArrowFree t) : ArrowFree (.sequence items)

theorem Tree.ArrowFree.ofItems {items : List Tree} (h : ∀ t ∈ items, ArrowFree t) :
    ArrowFree (Tree.ofItems items) := by
  unfold Tree.ofItems
  split
  · exact h _ List.mem_cons_self
  · exact .sequence h

theorem Tree.ArrowFree.join {op : Reader.Operator} {left right : Tree} (hl : ArrowFree left)
    (hr : ArrowFree right) : ArrowFree (Tree.join op left right) := by
  cases op with
  | binary op => exact .binary hl hr
  | logical op => exact .logical hl hr

theorem Derives.arrowFree {level : Level} {ts : List TokenKind} {t : Tree} (h : Derives level ts t)
    (hlevel : level ≠ .action) : t.ArrowFree := by
  induction h with
  | pattern | arrow => exact absurd rfl hlevel
  | sequence _ _ _ ih =>
    apply Tree.ArrowFree.ofItems
    intro t ht
    obtain ⟨p, hp, rfl⟩ := List.mem_map.mp ht
    exact ih p hp nofun
  | value _ ih | test _ ih | operand _ _ ih | tightest _ ih | plain _ ih | bare _ ih | parens _ ih =>
    exact ih nofun
  | assign _ _ _ _ iht ihv => exact .assign (iht nofun) (ihv nofun)
  | conditional _ _ _ iht ihc iha => exact .conditional (iht nofun) (ihc nofun) (iha nofun)
  | joined _ _ _ ihl ihr => exact .join (ihl nofun) (ihr nofun)
  | prefixed _ _ ih => exact .unary (ih nofun)
  | call _ _ _ ihc ih =>
    apply Tree.ArrowFree.call (ihc nofun)
    intro t ht
    obtain ⟨p, hp, rfl⟩ := List.mem_map.mp ht
    exact ih p hp nofun
  | member _ ih => exact .member (ih nofun)
  | element _ _ ihc ihk => exact .element (ihc nofun) (ihk nofun)
  | literal => exact .literal _
  | identifier => exact .identifier _
  | array _ _ ih =>
    apply Tree.ArrowFree.array
    intro t ht
    obtain ⟨p, hp, rfl⟩ := List.mem_map.mp ht
    exact ih p hp nofun
  | object _ _ _ ih =>
    apply Tree.ArrowFree.object
    intro entry hentry
    obtain ⟨p, hp, rfl⟩ := List.mem_map.mp hentry
    exact ih p hp nofun

theorem arrow_or_arrowFree {source : String} {e : Expr} (h : parse source = .ok e) :
    (∃ pattern body span, e = .arrow pattern body span ∧ pattern.tree.ArrowFree ∧
      body.tree.ArrowFree) ∨ e.tree.ArrowFree := by
  obtain ⟨hkinds, heof⟩ := Token.map_kind_scan source
  obtain ⟨t, hrun⟩ := parseWithin_eq_ok_iff.mp h
  have hderives := Reader.derives_of_whole (s := ⟨Token.scan source, .default⟩) hkinds heof hrun
  generalize htree : e.tree = tree, Token.kinds source = ts at hderives
  cases hderives with
  | pattern hp => exact .inr (hp.arrowFree nofun)
  | arrow hp hb =>
    cases e with
    | arrow pattern body span =>
      cases htree
      exact .inl ⟨pattern, body, span, rfl, hp.arrowFree nofun, hb.arrowFree nofun⟩
    | _ => cases htree

end Expr

namespace Code

mutual

theorem exists_ofExpr : ∀ e : Expr, e.tree.ArrowFree → ∃ c, ofExpr e = .ok c
  | .literal _ _, _ => ⟨_, rfl⟩
  | .identifier _ _, _ => ⟨_, rfl⟩
  | .array items _, h => by
    cases h with
    | array h =>
      obtain ⟨cs, hcs⟩ := exists_ofExprs items h
      exact ⟨.list cs, by rw [ofExpr, hcs]; rfl⟩
  | .object entries _, h => by
    cases h with
    | object h =>
      obtain ⟨cs, hcs⟩ := exists_ofEntries entries h
      exact ⟨.record cs, by rw [ofExpr, hcs]; rfl⟩
  | .unary op operand _, h => by
    cases h with
    | unary h =>
      obtain ⟨c, hc⟩ := exists_ofExpr operand h
      exact ⟨.unary op c, by rw [ofExpr, hc]; rfl⟩
  | .binary op left right _, h => by
    cases h with
    | binary hl hr =>
      obtain ⟨l, hl⟩ := exists_ofExpr left hl
      obtain ⟨r, hr⟩ := exists_ofExpr right hr
      exact ⟨.binary op l r, by rw [ofExpr, hl, hr]; rfl⟩
  | .logical op left right _, h => by
    cases h with
    | logical hl hr =>
      obtain ⟨l, hl⟩ := exists_ofExpr left hl
      obtain ⟨r, hr⟩ := exists_ofExpr right hr
      exact ⟨.logical op l r, by rw [ofExpr, hl, hr]; rfl⟩
  | .conditional test consequent alternate _, h => by
    cases h with
    | conditional ht hc ha =>
      obtain ⟨t, ht⟩ := exists_ofExpr test ht
      obtain ⟨c, hc⟩ := exists_ofExpr consequent hc
      obtain ⟨a, ha⟩ := exists_ofExpr alternate ha
      exact ⟨.conditional t c a, by rw [ofExpr, ht, hc, ha]; rfl⟩
  | .assign op target value _, h => by
    cases h with
    | assign ht hv =>
      obtain ⟨t, ht⟩ := exists_ofExpr target ht
      obtain ⟨v, hv⟩ := exists_ofExpr value hv
      exact ⟨t.place.assign op v, by rw [ofExpr, ht, hv]; rfl⟩
  | .member container key _, h => by
    cases h with
    | member h =>
      obtain ⟨c, hc⟩ := exists_ofExpr container h
      exact ⟨.member c (.constant (.string key)), by rw [ofExpr, hc]; rfl⟩
  | .element container key _, h => by
    cases h with
    | element hc hk =>
      obtain ⟨c, hc⟩ := exists_ofExpr container hc
      obtain ⟨k, hk⟩ := exists_ofExpr key hk
      exact ⟨.member c k, by rw [ofExpr, hc, hk]; rfl⟩
  | .call callee args _, h => by
    cases h with
    | call hc h =>
      obtain ⟨f, hf⟩ := exists_ofExpr callee hc
      obtain ⟨cs, hcs⟩ := exists_ofExprs args h
      rw [ofExpr]
      cases callee.identifier? with
      | some name => exact ⟨.callName name cs, by rw [hcs]; rfl⟩
      | none => exact ⟨.callValue f cs, by rw [hf, hcs]; rfl⟩
  | .sequence items _, h => by
    cases h with
    | sequence h =>
      obtain ⟨cs, hcs⟩ := exists_ofExprs items h
      exact ⟨.sequence cs, by rw [ofExpr, hcs]; rfl⟩
  | .arrow .., h => nomatch h

theorem exists_ofExprs : ∀ es : List Expr, (∀ t ∈ Expr.trees es, t.ArrowFree) →
    ∃ cs, ofExprs es = .ok cs
  | [], _ => ⟨[], rfl⟩
  | e :: es, h => by
    obtain ⟨c, hc⟩ := exists_ofExpr e (h _ List.mem_cons_self)
    obtain ⟨cs, hcs⟩ := exists_ofExprs es fun t ht => h t (List.mem_cons_of_mem _ ht)
    exact ⟨c :: cs, by rw [ofExprs, hc, hcs]; rfl⟩

theorem exists_ofEntries : ∀ entries : List (String × Expr),
    (∀ entry ∈ Expr.entryTrees entries, entry.2.ArrowFree) → ∃ cs, ofEntries entries = .ok cs
  | [], _ => ⟨[], rfl⟩
  | (key, e) :: entries, h => by
    obtain ⟨c, hc⟩ := exists_ofExpr e (h _ List.mem_cons_self)
    obtain ⟨cs, hcs⟩ := exists_ofEntries entries fun t ht => h t (List.mem_cons_of_mem _ ht)
    exact ⟨(key, c) :: cs, by rw [ofEntries, hc, hcs]; rfl⟩

end

end Code

/-- A text compiles to a script exactly if it is read as something else than an action. -/
theorem Script.exists_compile_iff {source : String} : (∃ script, compile source = .ok script) ↔
    ∃ e, Expr.parse source = .ok e ∧ ∀ pattern body span, e ≠ .arrow pattern body span := by
  constructor
  · rintro ⟨script, h⟩
    obtain ⟨e, hparse, h⟩ := Error.bind_eq_ok_iff.mp h
    obtain ⟨code, hcode, _⟩ := Error.bind_eq_ok_iff.mp h
    refine ⟨e, hparse, ?_⟩
    rintro pattern body span rfl
    rw [Code.ofExpr] at hcode
    cases hcode
  · rintro ⟨e, hparse, hroot⟩
    rcases Expr.arrow_or_arrowFree hparse with ⟨pattern, body, span, rfl, _⟩ | hfree
    · exact absurd rfl (hroot pattern body span)
    · obtain ⟨code, hcode⟩ := Code.exists_ofExpr e hfree
      have hscript : compile source = .ok ⟨Text.trim source, code⟩ :=
        Error.bind_eq_ok_iff.mpr ⟨e, hparse, Error.bind_eq_ok_iff.mpr ⟨code, hcode, rfl⟩⟩
      exact ⟨_, hscript⟩

namespace Expr

variable {c d e : Expr}

theorem Tree.ArrowFree.child (h : e.tree.ArrowFree) (hc : c ∈ e.children) : c.tree.ArrowFree := by
  cases e with
  | literal | identifier => cases hc
  | array items span =>
    cases h with
    | array h => exact h _ (trees_eq_map items ▸ List.mem_map_of_mem hc)
  | object entries span =>
    cases h with
    | object h =>
      obtain ⟨entry, hentry, rfl⟩ := List.mem_map.mp hc
      exact h _ (entryTrees_eq_map entries ▸ List.mem_map_of_mem hentry)
  | sequence items span =>
    cases h with
    | sequence h => exact h _ (trees_eq_map items ▸ List.mem_map_of_mem hc)
  | call callee args span =>
    cases h with
    | call hcallee h =>
      rcases List.mem_cons.mp hc with rfl | hc
      · exact hcallee
      · exact h _ (trees_eq_map args ▸ List.mem_map_of_mem hc)
  | arrow => cases h
  | _ =>
    cases h
    simp only [children, List.mem_cons, List.not_mem_nil, or_false] at hc
    rcases hc with rfl | rfl | rfl <;> assumption

theorem Node.arrowFree (h : Node d e) (he : e.tree.ArrowFree) : d.tree.ArrowFree := by
  induction h with
  | root => exact he
  | inside hc _ ih => exact ih (he.child hc)

theorem Node.not_isArrow (h : Node d e) (he : e.tree.ArrowFree) : ¬d.IsArrow := by
  rintro ⟨pattern, body, span, rfl⟩
  have hfree := h.arrowFree he
  cases hfree

variable {source : String}

theorem isArrow_of_node (h : parse source = .ok e) (hd : Node d e) (harrow : d.IsArrow) : e.IsArrow := by
  rcases arrow_or_arrowFree h with ⟨pattern, body, span, rfl, -⟩ | hfree
  · exact ⟨pattern, body, span, rfl⟩
  · exact absurd harrow (hd.not_isArrow hfree)

theorem arrowFree_sides {pattern body : Expr} {span : Span}
    (h : parse source = .ok (.arrow pattern body span)) : pattern.tree.ArrowFree ∧ body.tree.ArrowFree := by
  rcases arrow_or_arrowFree h with ⟨_, _, _, heq, hpattern, hbody⟩ | hfree
  · cases heq
    exact ⟨hpattern, hbody⟩
  · cases hfree

end Expr

namespace Script

variable {source : String} {e : Expr}

theorem compile_of_parse_error {error : Error} (h : Expr.parse source = .error error) :
    compile source = .error error ∧ error.root ≠ .misplacedMatch := by
  refine ⟨by rw [compile, h]; rfl, ?_⟩
  unfold Expr.parse Expr.parseWithin at h
  split at h
  · cases h
  · cases h
    exact nofun

theorem compile_of_isArrow (h : Expr.parse source = .ok e) (he : e.IsArrow) :
    compile source = .error (.ofFault .misplacedMatch) := by
  obtain ⟨pattern, body, span, rfl⟩ := he
  rw [compile, h]
  rfl

theorem exists_compile_iff_not_isArrow :
    (∃ script, compile source = .ok script) ↔ ∃ e, Expr.parse source = .ok e ∧ ¬e.IsArrow := by
  simp only [exists_compile_iff, Expr.IsArrow, not_exists]

theorem exists_ofFragment {pattern body : Expr} {span : Span}
    (h : Expr.parse source = .ok (.arrow pattern body span)) :
    ∃ script, ofFragment source body = .ok script := by
  obtain ⟨code, hcode⟩ := Code.exists_ofExpr body (Expr.arrowFree_sides h).2
  have hscript : ofFragment source body = .ok ⟨Text.trim (body.span.text source), code⟩ :=
    Error.bind_eq_ok_iff.mpr ⟨code, hcode, rfl⟩
  exact ⟨_, hscript⟩

theorem exists_misplacedMatch_iff : (∃ error, compile source = .error error ∧ error.root = .misplacedMatch) ↔
    ∃ e, Expr.parse source = .ok e ∧ e.IsArrow := by
  constructor
  · rintro ⟨error, herror, hmisplaced⟩
    cases hparse : Expr.parse source with
    | error parseError =>
      obtain ⟨hcompile, hne⟩ := compile_of_parse_error hparse
      cases hcompile.symm.trans herror
      exact absurd hmisplaced hne
    | ok e =>
      refine ⟨e, rfl, ?_⟩
      by_contra hne
      obtain ⟨script, hscript⟩ := exists_compile_iff_not_isArrow.mpr ⟨e, hparse, hne⟩
      cases hscript.symm.trans herror
  · rintro ⟨e, he, harrow⟩
    exact ⟨_, compile_of_isArrow he harrow, rfl⟩

/-- An arrow stands at the root of a tree or nowhere in it. So a text fails to compile for an arrow exactly
if it is read as an action, every other text that is read compiles, and the body of an action always does. -/
theorem arrow_only_at_root (source : String) :
    (∀ e, Expr.parse source = .ok e →
      ((∃ d, Expr.Node d e ∧ d.IsArrow) ↔ e.IsArrow) ∧ (e.containsArrow = true ↔ e.IsArrow) ∧
      ∀ pattern body span, e = .arrow pattern body span →
        (∀ d, Expr.Node d pattern ∨ Expr.Node d body → ¬d.IsArrow) ∧
        ∃ script, ofFragment source body = .ok script) ∧
    ((∃ error, compile source = .error error ∧ error.root = .misplacedMatch) ↔
      ∃ e, Expr.parse source = .ok e ∧ e.IsArrow) ∧
    ((∃ script, compile source = .ok script) ↔ ∃ e, Expr.parse source = .ok e ∧ ¬e.IsArrow) := by
  refine ⟨fun e he => ?_, exists_misplacedMatch_iff, exists_compile_iff_not_isArrow⟩
  have hroot : (∃ d, Expr.Node d e ∧ d.IsArrow) ↔ e.IsArrow :=
    ⟨fun ⟨d, hd, harrow⟩ => Expr.isArrow_of_node he hd harrow, fun harrow => ⟨e, .root e, harrow⟩⟩
  refine ⟨hroot, (Expr.containsArrow_iff e).trans hroot, ?_⟩
  rintro pattern body span rfl
  obtain ⟨hpattern, hbody⟩ := Expr.arrowFree_sides he
  refine ⟨?_, exists_ofFragment he⟩
  rintro d (hd | hd)
  · exact hd.not_isArrow hpattern
  · exact hd.not_isArrow hbody

/-- A computed key may hold a sequence of assignments, but no arrow. -/
theorem arrow_only_at_root_go :
    (∃ error, compile "go($x) => here[(a = 1; x)] = $x;" = .error error ∧ error.root = .misplacedMatch) ∧
      ∃ pattern body span script,
        Expr.parse "go($x) => here[(a = 1; x)] = $x;" = .ok (.arrow pattern body span) ∧
        ofFragment "go($x) => here[(a = 1; x)] = $x;" body = .ok script := by
  obtain ⟨hsides, hmisplaced, -⟩ := arrow_only_at_root "go($x) => here[(a = 1; x)] = $x;"
  have harrow :
      ((Expr.parse "go($x) => here[(a = 1; x)] = $x;").toOption.any (· matches .arrow ..)) = true := by
    decide +kernel
  cases hparse : Expr.parse "go($x) => here[(a = 1; x)] = $x;" with
  | error error =>
    rw [hparse] at harrow
    cases harrow
  | ok e =>
    rw [hparse] at harrow
    cases e with
    | arrow pattern body span =>
      obtain ⟨-, -, hbody⟩ := hsides _ hparse
      obtain ⟨-, script, hscript⟩ := hbody pattern body span rfl
      have hread := hmisplaced.mpr ⟨_, hparse, pattern, body, span, rfl⟩
      exact ⟨hread, pattern, body, span, script, rfl, hscript⟩
    | _ => cases harrow

end Script

end TextAdventure
