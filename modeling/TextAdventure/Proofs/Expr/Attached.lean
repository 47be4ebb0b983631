import TextAdventure.Proofs.Expr.Spans
import TextAdventure.Proofs.Token.Slices

/-! # The text attached to the body of an action

The body of an action is compiled with the text that it spans. That text is read as the body again, except
where the span has lost one parenthesis of a pair: then it is not read at all.
-/
namespace TextAdventure

open TextAdventure.Expr (Balanced Derives)

namespace Expr

variable {source : String} {pattern body : Expr} {span : Span} {tree : Tree}

theorem derives_of_parse {e : Expr} (h : parse source = .ok e) :
    Derives .action (Token.kinds source) e.tree := by
  obtain ⟨hkinds, heof⟩ := Token.map_kind_scan source
  obtain ⟨t, hrun⟩ := parseWithin_eq_ok_iff.mp h
  exact Reader.derives_of_whole (s := ⟨Token.scan source, .default⟩) hkinds heof hrun

theorem exists_parse_of_derives (h : Derives .action (Token.kinds source) tree) :
    ∃ e, parse source = .ok e ∧ e.tree = tree := by
  obtain ⟨hkinds, _⟩ := Token.map_kind_scan source
  have hlen : (Token.kinds source).length ≤ (Token.scan source).length := by
    rw [← List.length_map Token.kind, hkinds, List.length_append]
    exact Nat.le_add_right _ _
  obtain ⟨e, t, hrun, _, htree⟩ := Reader.accepts_whole h hlen ⟨Token.scan source, .default⟩ hkinds
  exact ⟨e, parseWithin_eq_ok_iff.mpr ⟨t, hrun⟩, htree⟩

theorem ordered_scan (source : String) : Ordered (Token.scan source) :=
  Token.pairwise_stop_scanFrom .start source.toList

theorem exists_body_tokens (h : parse source = .ok (.arrow pattern body span)) :
    ∃ us vs ws, Token.scan source = us ++ vs ++ ws ∧ ws ≠ [] ∧ Reader.SpelledSequence vs body := by
  obtain ⟨hkinds, heof⟩ := Token.map_kind_scan source
  obtain ⟨t, hrun⟩ := parseWithin_eq_ok_iff.mp h
  obtain ⟨_, haction, _⟩ := Reader.run_whole_eq_ok_iff.mp hrun
  have hsound := Reader.sound_action (Reader.sound_assignment (Token.scan source).length)
  obtain ⟨ts, hpass, hderives, us, vs, rfl, hbody⟩ :=
    (Reader.takes_action _ ⟨Token.scan source, .default⟩).and_reads (hsound _) _ t haction
  have hscan : Token.scan source = us ++ vs ++ t.tokens := hpass.tokens
  refine ⟨us, vs, t.tokens, hscan, ?_, hbody⟩
  intro hnil
  have hts : Token.kinds source ++ [.eof] = (us ++ vs).map Token.kind := by
    rw [← hkinds, hscan, hnil, List.append_nil]
  exact derives_terminal hderives .eof (hts ▸ List.mem_concat_self)

/-- The tokens of the attached text derive the body if their parentheses balance. -/
theorem derives_text (h : parse source = .ok (.arrow pattern body span))
    (hbalanced : Balanced (Token.kinds (Text.trim (body.span.text source)))) :
    Derives .action (Token.kinds (Text.trim (body.span.text source))) body.tree := by
  obtain ⟨us, vs, ws, hscan, hws, hbody⟩ := exists_body_tokens h
  have hordered := ordered_scan source
  rw [hscan] at hordered
  obtain ⟨core, trailing, rfl, _, before, mid, after, rfl, hspans⟩ := hbody.covered hordered.left.right
  have hmid : ∀ t ∈ mid, Terminal t.kind := fun t ht =>
    derives_terminal hbody.derives t.kind (List.mem_map_of_mem (by simp [ht]))
  have hscan' : Token.scan source = (us ++ before) ++ (mid ++ (after ++ (trailing ++ ws))) := by
    rw [hscan]
    simp
  have hkinds : Token.kinds (Text.trim (body.span.text source)) = mid.map Token.kind :=
    Token.kinds_text hscan' (by simp [hws]) hmid hspans.bounds.start hspans.bounds.stop
  rw [hkinds] at hbalanced ⊢
  exact .pattern (hspans.derives hbalanced)

end Expr

namespace Script

/-- The text that is attached to the body of an action is read exactly if its parentheses balance, and then
as the body. -/
theorem ofFragment_parses_iff {source : String} {pattern body : Expr} {span : Span}
    (h : Expr.parse source = .ok (.arrow pattern body span)) :
    ∃ script, ofFragment source body = .ok script ∧
      ((∃ e, Expr.parse script.source = .ok e) ↔ Balanced (Token.kinds script.source)) ∧
      ∀ e, Expr.parse script.source = .ok e → e.tree = body.tree := by
  have hfree : body.tree.ArrowFree := by
    obtain ⟨us, vs, ws, -, -, hbody⟩ := Expr.exists_body_tokens h
    exact hbody.derives.arrowFree nofun
  obtain ⟨code, hcode⟩ := Code.exists_ofExpr body hfree
  refine ⟨⟨Text.trim (body.span.text source), code⟩, ?_, ⟨?_, ?_⟩, ?_⟩
  · rw [ofFragment, hcode]
    rfl
  · rintro ⟨e, he⟩
    exact (Expr.derives_of_parse he).balanced
  · intro hbalanced
    obtain ⟨e, he, _⟩ := Expr.exists_parse_of_derives (Expr.derives_text h hbalanced)
    exact ⟨e, he⟩
  · intro e he
    have hderives := Expr.derives_of_parse he
    exact Expr.derives_unique hderives (Expr.derives_text h hderives.balanced)

/-- The text attached to the body, if the source text is read as an action. -/
def bodyText? (source : String) : Option String :=
  match Expr.parse source with
  | .ok (.arrow _ body _) => (ofFragment source body).toOption.map Script.source
  | _ => none

theorem exists_of_bodyText? {source text : String} (h : bodyText? source = some text) :
    ∃ pattern body span script, Expr.parse source = .ok (.arrow pattern body span) ∧
      ofFragment source body = .ok script ∧ script.source = text := by
  unfold bodyText? at h
  split at h
  next pattern body span hparse =>
    cases hscript : ofFragment source body with
    | error e =>
      rw [hscript] at h
      cases h
    | ok script =>
      rw [hscript] at h
      exact ⟨pattern, body, span, script, hparse, hscript, Option.some.inj h⟩
  next => cases h

theorem ofFragment_parses_difference : ∃ pattern body span script e,
    Expr.parse "go => x * (a + b) - c" = .ok (.arrow pattern body span) ∧
      ofFragment "go => x * (a + b) - c" body = .ok script ∧ script.source = "x * (a + b) - c" ∧
      Expr.parse script.source = .ok e ∧ e.tree = body.tree := by
  have htext : bodyText? "go => x * (a + b) - c" = some "x * (a + b) - c" := by decide +kernel
  obtain ⟨pattern, body, span, script, hparse, hscript, hsource⟩ := exists_of_bodyText? htext
  obtain ⟨script', hscript', hiff, htree⟩ := ofFragment_parses_iff hparse
  cases hscript.symm.trans hscript'
  have hbalanced : Balanced (Token.kinds "x * (a + b) - c") := by decide +kernel
  obtain ⟨e, he⟩ := hiff.mpr (hsource ▸ hbalanced)
  exact ⟨pattern, body, span, script, e, hparse, hscript, hsource, he, htree e he⟩

/-- A sum that begins with a parenthesised term: the text of its body has lost the opening parenthesis. -/
theorem not_ofFragment_parses : ∃ pattern body span script,
    Expr.parse "go => (a) + b" = .ok (.arrow pattern body span) ∧
      ofFragment "go => (a) + b" body = .ok script ∧ script.source = "a) + b" ∧
      ¬∃ e, Expr.parse script.source = .ok e ∧ e.tree = body.tree := by
  have htext : bodyText? "go => (a) + b" = some "a) + b" := by decide +kernel
  obtain ⟨pattern, body, span, script, hparse, hscript, hsource⟩ := exists_of_bodyText? htext
  refine ⟨pattern, body, span, script, hparse, hscript, hsource, ?_⟩
  rintro ⟨e, he, -⟩
  have hfails : (Expr.parse "a) + b").isOk = false := by decide +kernel
  rw [← hsource, he] at hfails
  cases hfails

end Script

end TextAdventure
