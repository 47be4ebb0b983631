import TextAdventure.Proofs.Expr.Completeness
import TextAdventure.Proofs.Expr.Depth

/-! # Texts and their expressions

A text is read as an expression exactly if its tokens derive the tree of that expression, and no other
tree can be derived from them.
-/
namespace TextAdventure

namespace Token

/-- The tokens of a text, without the end of the source. -/
def kinds (source : String) : List TokenKind :=
  ((scan source).map Token.kind).dropLast

theorem intToken_ne_eof (digits : List Char) : intToken digits ≠ .eof := by
  unfold intToken
  dsimp only
  split <;> simp

theorem numberToken_ne_eof (cs : List Char) : (numberToken cs).1 ≠ .eof := by
  unfold numberToken
  dsimp only
  split
  · split
    · exact intToken_ne_eof _
    · simp
  · exact intToken_ne_eof _

theorem identifierToken_ne_eof (cs : List Char) : (identifierToken cs).1 ≠ .eof := by
  unfold identifierToken
  dsimp only
  split <;> simp

theorem stringToken_ne_eof (quote : Char) (cs : List Char) : (stringToken quote cs).1 ≠ .eof := by
  unfold stringToken
  split <;> simp

theorem operatorToken_ne_eof (c : Char) (rest : List Char) : (operatorToken c rest).1 ≠ .eof := by
  unfold operatorToken
  split <;> simp [unexpected]

theorem lexeme_ne_eof (c : Char) (rest : List Char) : (lexeme c rest).1 ≠ .eof := by
  unfold lexeme
  split
  · exact numberToken_ne_eof _
  split
  · exact identifierToken_ne_eof _
  split
  · exact stringToken_ne_eof c rest
  split
  · simp
  · exact operatorToken_ne_eof c rest

theorem map_kind_scanFrom (p : Position) (cs : List Char) :
    ∃ ks, (scanFrom p cs).map Token.kind = ks ++ [.eof] ∧ .eof ∉ ks := by
  fun_induction scanFrom p cs with
  | case1 => exact ⟨[], rfl, List.not_mem_nil⟩
  | case2 p cs _ _ c rest _ kind size hlexeme _ ih =>
    obtain ⟨ks, hks, hmem⟩ := ih
    have hkind : kind ≠ .eof := by
      have h := lexeme_ne_eof c rest
      rwa [hlexeme] at h
    refine ⟨kind :: ks, by rw [List.map_cons, hks, List.cons_append], ?_⟩
    exact List.not_mem_cons_of_ne_of_not_mem hkind.symm hmem

theorem map_kind_scan (source : String) :
    (scan source).map Token.kind = kinds source ++ [.eof] ∧ .eof ∉ kinds source := by
  obtain ⟨ks, hks, hmem⟩ := map_kind_scanFrom .start source.toList
  have hkinds : kinds source = ks := by
    unfold kinds scan
    rw [hks, List.dropLast_concat]
  exact ⟨hkinds ▸ hks, hkinds ▸ hmem⟩

end Token

namespace Reader

open TextAdventure.Expr (Derives Tree)

variable {ts : List TokenKind} {tree : Tree} {s t : ReaderState} {depth : Nat} {e : Expr}

theorem run_whole_eq_ok_iff : (whole depth).run s = .ok (e, t) ↔
    s.current.kind ≠ .eof ∧ (action (assignment depth)).run s = .ok (e, t) ∧
      t.current.kind = .eof := by
  unfold whole
  rw [run_bind_of_ok run_current]
  dsimp only
  split
  next heof =>
    constructor
    · intro h
      cases h
    · rintro ⟨hne, _⟩
      exact absurd heof hne
  next hne =>
    rw [if_neg Bool.false_ne_true, run_bind_eq_ok_iff]
    constructor
    · rintro ⟨e', u, hrun, h⟩
      rw [run_bind_of_ok run_current] at h
      cases hu : u.current.kind with
      | eof =>
        rw [hu] at h
        cases h
        exact ⟨hne, hrun, hu⟩
      | _ =>
        rw [hu] at h
        cases h
    · rintro ⟨_, hrun, ht⟩
      refine ⟨e, t, hrun, ?_⟩
      rw [run_bind_of_ok run_current, ht]
      rfl

theorem derives_of_whole (hs : s.kinds = ts ++ [.eof]) (hts : .eof ∉ ts)
    (h : (whole depth).run s = .ok (e, t)) : Derives .action ts e.tree := by
  obtain ⟨_, hrun, ht⟩ := run_whole_eq_ok_iff.mp h
  obtain ⟨us, hus, hderives⟩ := sound_action (sound_assignment depth) s e t hrun
  have heof : .eof ∉ us := fun hmem => Expr.derives_terminal hderives _ hmem
  rw [hs] at hus
  cases hkinds : t.kinds with
  | nil =>
    rw [hkinds, List.append_nil] at hus
    exact absurd (hus ▸ List.mem_concat_self) heof
  | cons k ks =>
    have hk : k = .eof := (t.current_of_kinds hkinds).symm.trans ht
    rw [hkinds, hk] at hus
    obtain ⟨rfl, _⟩ := (List.append_cons_inj_of_notMem hts List.not_mem_nil).mp hus
    exact hderives

theorem accepts_whole (h : Derives .action ts tree) (hlen : ts.length ≤ depth) :
    Accepts (whole depth) ts [.eof] (·.tree = tree) := by
  intro s hs
  obtain ⟨e, t, hrun, ht, he⟩ := complete_of_derives h depth [.eof] hlen ⟨_, _, rfl, rfl⟩ s hs
  refine ⟨e, t, run_whole_eq_ok_iff.mpr ⟨?_, hrun, t.current_of_kinds ht⟩, ht, he⟩
  obtain ⟨k, ks, rfl, hk⟩ := Expr.derives_starts h
  rw [s.current_of_kinds hs]
  rintro rfl
  exact hk

theorem same_whole {n depth' : Nat} (h : n ≤ depth) (h' : n ≤ depth') :
    Same n (whole depth) (whole depth') := by
  intro s hs hn
  unfold whole
  refine sameAt_current hs ?_
  dsimp only
  split
  · rw [if_pos rfl, if_pos rfl]
    exact sameAt_of_run_error rfl
  · rw [if_neg Bool.false_ne_true, if_neg Bool.false_ne_true]
    refine (same_action (same_assignment h h') s hs hn).bind fun e t ht => ?_
    refine sameAt_current ht.closed ?_
    split
    · exact sameAt_pure ht.closed e
    · exact sameAt_fail _

end Reader

namespace Expr

variable {source : String} {tree tree' : Tree} {depth : Nat}

theorem derives_unique {ts : List TokenKind} (h : Derives .action ts tree)
    (h' : Derives .action ts tree') : tree = tree' := by
  have hs : ReaderState.kinds ⟨(ts ++ [TokenKind.eof]).map (⟨·, .default⟩), .default⟩ =
      ts ++ [.eof] := by
    simp [ReaderState.kinds, Function.comp_def]
  obtain ⟨e, t, hrun, _, rfl⟩ := Reader.accepts_whole h (Nat.le_refl _) _ hs
  obtain ⟨e', t', hrun', _, rfl⟩ := Reader.accepts_whole h' (Nat.le_refl _) _ hs
  cases hrun.symm.trans hrun'
  rfl

theorem parseWithin_eq_ok_iff {e : Expr} : parseWithin depth source = .ok e ↔
    ∃ t, (Reader.whole depth).run ⟨Token.scan source, .default⟩ = .ok (e, t) := by
  unfold parseWithin
  split
  next e' t hrun =>
    rw [hrun]
    simp
  next hrun =>
    rw [hrun]
    simp

theorem parseWithin_eq_of_run_eq {depth' : Nat}
    (h : (Reader.whole depth).run ⟨Token.scan source, .default⟩ =
      (Reader.whole depth').run ⟨Token.scan source, .default⟩) :
    parseWithin depth source = parseWithin depth' source := by
  unfold parseWithin
  rw [h]

/-- A text is read exactly if its tokens derive a tree, which is that of its expression and the only one.
What is read does not depend on the bound on the depth, if it is at least the number of tokens. -/
theorem parse_iff_derives (source : String) :
    (∀ tree, (∃ e, parse source = .ok e ∧ e.tree = tree) ↔
      (∀ message, .error message ∉ Token.kinds source) ∧
        Derives .action (Token.kinds source) tree) ∧
    (∀ tree tree', Derives .action (Token.kinds source) tree →
      Derives .action (Token.kinds source) tree' → tree = tree') ∧
    ∀ depth, (Token.scan source).length ≤ depth → parseWithin depth source = parse source := by
  obtain ⟨hkinds, heof⟩ := Token.map_kind_scan source
  have hstart : ReaderState.kinds ⟨Token.scan source, .default⟩ = Token.kinds source ++ [.eof] :=
    hkinds
  refine ⟨fun tree => ⟨?_, ?_⟩, fun _ _ => derives_unique, fun depth hdepth => ?_⟩
  · rintro ⟨e, hparse, rfl⟩
    obtain ⟨t, hrun⟩ := parseWithin_eq_ok_iff.mp hparse
    have hderives := Reader.derives_of_whole hstart heof hrun
    exact ⟨fun message hmem => derives_terminal hderives _ hmem, hderives⟩
  · rintro ⟨_, hderives⟩
    have hlen : (Token.kinds source).length ≤ (Token.scan source).length := by
      rw [← List.length_map Token.kind, hkinds, List.length_append]
      exact Nat.le_add_right _ _
    obtain ⟨e, t, hrun, _, htree⟩ := Reader.accepts_whole hderives hlen _ hstart
    exact ⟨e, parseWithin_eq_ok_iff.mpr ⟨t, hrun⟩, htree⟩
  · refine parseWithin_eq_of_run_eq (Reader.same_whole hdepth (Nat.le_refl _) _ ?_ (Nat.le_refl _)).1
    exact ⟨Token.kinds source, hstart⟩

end Expr

end TextAdventure
