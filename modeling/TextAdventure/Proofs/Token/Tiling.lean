import Mathlib.Data.List.Induction
import TextAdventure.Proofs.Token.Slices

/-! # Tokens tile the source

A text consists of gaps and tokens in turn, and ends with a gap. Each token carries the place of its
characters in the text: bytes before and after it, lines begun and characters of the line before it. No
character is lost or read twice, whatever the text is.
-/
namespace TextAdventure

open Position

/-- The place of some characters that follow others: where they are in bytes, and the line and the column
of the first of them. -/
def Span.ofPiece (before piece : List Char) : Span where
  start := byteSize before
  stop := byteSize (before ++ piece)
  line := before.count '\n' + 1
  column := (before.reverse.takeWhile (· ≠ '\n')).length + 1

namespace Position

theorem byteSize_pos {cs : List Char} (h : cs ≠ []) : 0 < byteSize cs := by
  cases cs with
  | nil => exact absurd rfl h
  | cons c cs => exact Nat.add_pos_left c.utf8Size_pos _

theorem after_concat (p : Position) (cs : List Char) (c : Char) : p.after (cs ++ [c]) = (p.after cs).next c :=
  after_append p cs [c]

theorem after_start (cs : List Char) : start.after cs =
    ⟨byteSize cs, cs.count '\n' + 1, (cs.reverse.takeWhile (· ≠ '\n')).length + 1⟩ := by
  induction cs using List.reverseRecOn with
  | nil => rfl
  | append_singleton cs c ih =>
    rw [after_concat, ih, next]
    split
    next hc => simp [hc]
    next hc => simp [hc]

end Position

theorem Span.between_after (before piece : List Char) :
    Span.between (Position.start.after before) ((Position.start.after before).after piece) =
      .ofPiece before piece := by
  rw [← after_append, after_start, after_start]
  rfl

namespace Token

/-- White space and comments. A comment runs from `//` to the end of its line, or to the end of the text
if the gap is at that end. -/
inductive Gap (atEnd : Prop) : List Char → Prop
  | nil : Gap atEnd []
  | space {c : Char} {cs : List Char} (hc : Text.isBlank c = true) (h : Gap atEnd cs) : Gap atEnd (c :: cs)
  | comment {text cs : List Char} (htext : '\n' ∉ text) (h : Gap atEnd cs) :
      Gap atEnd ('/' :: '/' :: (text ++ '\n' :: cs))
  | openComment {text : List Char} (hend : atEnd) (htext : '\n' ∉ text) : Gap atEnd ('/' :: '/' :: text)

/-- The characters after `before` are gaps and the pieces of text that the tokens stand for, in turn. -/
inductive Tiles : List Char → List Char → List Token → Prop
  | eof {before gap : List Char} (hgap : Gap True gap) :
      Tiles before gap [⟨.eof, .ofPiece (before ++ gap) []⟩]
  | token {before gap piece rest : List Char} {kind : TokenKind} {tokens : List Token}
      (hgap : Gap False gap) (hpiece : piece ≠ []) (hkind : kind ≠ .eof)
      (h : Tiles (before ++ gap ++ piece) rest tokens) :
      Tiles before (gap ++ piece ++ rest) (⟨kind, .ofPiece (before ++ gap) piece⟩ :: tokens)

variable {cs : List Char}

theorem Gap.imp {p q : Prop} (hpq : p → q) (h : Gap p cs) : Gap q cs := by
  induction h with
  | nil => exact .nil
  | space hc _ ih => exact .space hc ih
  | comment htext _ ih => exact .comment htext ih
  | openComment hend htext => exact .openComment (hpq hend) htext

theorem gap_blankSize (cs : List Char) :
    Gap (cs.drop (blankSize false cs) = []) (cs.take (blankSize false cs)) ∧
      ∀ opening, '\n' ∉ opening → ['/', '/'] <+: opening ++ cs →
        Gap (cs.drop (blankSize true cs) = []) (opening ++ cs.take (blankSize true cs)) := by
  induction cs with
  | nil =>
    refine ⟨.nil, fun opening hopening hslashes => ?_⟩
    obtain ⟨text, htext⟩ := hslashes
    rw [List.append_nil] at htext
    subst htext
    rw [List.take_nil, List.append_nil]
    exact .openComment rfl fun hmem => hopening (List.mem_append_right _ hmem)
  | cons c cs ih =>
    obtain ⟨hskip, hcomment⟩ := ih
    constructor
    · unfold blankSize
      rw [if_neg Bool.false_ne_true]
      split
      next hblank =>
        rw [Nat.add_comm, List.take_succ_cons, List.drop_succ_cons]
        exact .space hblank hskip
      split
      next hslash =>
        obtain ⟨rfl, hhead⟩ : c = '/' ∧ cs.head? = some '/' := by simpa using hslash
        obtain ⟨rest, rfl⟩ := List.head?_eq_some_iff.mp hhead
        rw [Nat.add_comm, List.take_succ_cons, List.drop_succ_cons]
        exact hcomment ['/'] (by decide) ⟨rest, rfl⟩
      next => exact .nil
    · intro opening hopening hslashes
      unfold blankSize
      rw [if_pos rfl, Nat.add_comm, List.take_succ_cons, List.drop_succ_cons]
      by_cases hc : c = '\n'
      · subst hc
        rcases opening with _ | ⟨first, _ | ⟨second, text⟩⟩
        · simp at hslashes
        · simp at hslashes
        · obtain ⟨rest, hrest⟩ := hslashes
          obtain ⟨rfl, rfl, -⟩ : '/' = first ∧ '/' = second ∧ _ := by simpa using hrest
          have htext : '\n' ∉ text := fun hmem => hopening (by simp [hmem])
          simpa using Gap.comment htext hskip
      · have := hcomment (opening ++ [c]) (by simp [hopening, Ne.symm hc]) (by simpa using hslashes)
        simpa [hc] using this

/-- The tokens of the characters after `before` tile them. -/
theorem tiles_scanFrom (before cs : List Char) :
    Tiles before cs (scanFrom (Position.start.after before) cs) := by
  generalize hp : Position.start.after before = p
  fun_induction scanFrom p cs generalizing before with
  | case1 p cs blanks first hdrop =>
    subst hp
    have hgap : Gap True (cs.take blanks) := (gap_blankSize cs).1.imp fun _ => trivial
    have hall : cs.take blanks = cs := List.take_of_length_le (List.drop_eq_nil_iff.mp hdrop)
    have hspan : Span.between first first = .ofPiece (before ++ cs.take blanks) [] := by
      rw [← Span.between_after, after_append]
      rfl
    rw [hspan, hall]
    exact .eof (hall ▸ hgap)
  | case2 p cs blanks first c rest hdrop kind size hlexeme last ih =>
    subst hp
    have hgap : Gap False (cs.take blanks) :=
      (gap_blankSize cs).1.imp fun hend => List.cons_ne_nil c rest (hdrop.symm.trans hend)
    have hcs : cs = cs.take blanks ++ c :: rest.take (size - 1) ++ rest.drop (size - 1) := by
      rw [List.append_assoc, List.cons_append, List.take_append_drop, ← hdrop, List.take_append_drop]
    have hkind : kind ≠ .eof := by
      have h := lexeme_ne_eof c rest
      rwa [hlexeme] at h
    have hspan : Span.between first last =
        .ofPiece (before ++ cs.take blanks) (c :: rest.take (size - 1)) := by
      rw [← Span.between_after, after_append]
      rfl
    have htiles := Tiles.token hgap (List.cons_ne_nil c _) hkind
      (ih (before ++ cs.take blanks ++ c :: rest.take (size - 1)) (by rw [after_append, after_append]; rfl))
    rw [← hcs] at htiles
    rwa [hspan]

variable {before : List Char} {tokens : List Token}

theorem Tiles.exists_eof (h : Tiles before cs tokens) :
    ∃ ts, tokens = ts ++ [⟨.eof, .ofPiece (before ++ cs) []⟩] ∧
      ∀ t ∈ ts, t.kind ≠ .eof ∧ t.span.start < t.span.stop := by
  induction h with
  | eof => exact ⟨[], rfl, by simp⟩
  | @token before gap piece rest kind tokens _ hpiece hkind _ ih =>
    obtain ⟨ts, rfl, hts⟩ := ih
    refine ⟨⟨kind, .ofPiece (before ++ gap) piece⟩ :: ts, by simp,
      List.forall_mem_cons.mpr ⟨⟨hkind, ?_⟩, hts⟩⟩
    simp only [Span.ofPiece, byteSize_append _ piece]
    exact Nat.lt_add_of_pos_right (byteSize_pos hpiece)

theorem Tiles.byteSize_le_start (h : Tiles before cs tokens) :
    ∀ t ∈ tokens, byteSize before ≤ t.span.start := by
  induction h with
  | eof => simp [Span.ofPiece]
  | token _ _ _ _ ih =>
    refine List.forall_mem_cons.mpr ⟨?_, fun t ht => Nat.le_trans ?_ (ih t ht)⟩
    · simp [Span.ofPiece]
    · simp

theorem Tiles.pairwise (h : Tiles before cs tokens) :
    tokens.Pairwise fun t u => t.span.stop ≤ u.span.start := by
  induction h with
  | eof => exact List.pairwise_singleton _ _
  | token _ _ _ h ih => exact List.pairwise_cons.mpr ⟨h.byteSize_le_start, ih⟩

theorem Tiles.exists_ofPiece (h : Tiles before cs tokens) : ∀ t ∈ tokens, ∃ earlier piece later,
    before ++ cs = earlier ++ piece ++ later ∧ t.span = .ofPiece earlier piece ∧
      (t.kind = .eof → piece ++ later = []) := by
  induction h with
  | @eof before gap _ =>
    exact List.forall_mem_singleton.mpr ⟨before ++ gap, [], [], by simp, rfl, fun _ => rfl⟩
  | @token before gap piece rest _ _ _ _ hkind _ ih =>
    refine List.forall_mem_cons.mpr ⟨?_, fun t ht => ?_⟩
    · exact ⟨before ++ gap, piece, rest, by simp, rfl, fun hkind' => absurd hkind' hkind⟩
    · obtain ⟨earlier, piece', later, hsplit, hspan, hend⟩ := ih t ht
      exact ⟨earlier, piece', later, by rw [← hsplit]; simp, hspan, hend⟩

/-- Every text has tokens that tile it: a last one, which is the only end of the source, and before it
tokens of some characters each, one after the other. -/
theorem scan_tiles (source : String) :
    (∃ tokens, scan source = tokens ++ [⟨.eof, .ofPiece source.toList []⟩] ∧
      ∀ t ∈ tokens, t.kind ≠ .eof ∧ t.span.start < t.span.stop) ∧
    (scan source).Pairwise (fun t u => t.span.stop ≤ u.span.start) ∧
    Tiles [] source.toList (scan source) := by
  have h : Tiles [] source.toList (scan source) := tiles_scanFrom [] source.toList
  exact ⟨h.exists_eof, h.pairwise, h⟩

end Token

end TextAdventure
