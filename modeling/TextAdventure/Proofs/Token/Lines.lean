import TextAdventure.Proofs.Token.Tiling

/-! # Lines of a text

A text is cut into lines where one ends. A place in it is a line and a column: so many characters of that
line, after all the lines before it with their ends.
-/
namespace TextAdventure

open Position

namespace Text

def lines (source : String) : List (List Char) :=
  source.toList.splitOn '\n'

/-- The characters of a text before the one at a line and a column, which both start at one. -/
def charsBefore (source : String) (line column : Nat) : List Char :=
  ((lines source).take (line - 1)).flatMap (· ++ ['\n']) ++
    ((lines source).getD (line - 1) []).take (column - 1)

theorem splitOn_eq_takeWhile_cons (cs : List Char) :
    ∃ later, cs.splitOn '\n' = cs.takeWhile (· ≠ '\n') :: later := by
  induction cs with
  | nil => exact ⟨[], rfl⟩
  | cons c cs ih =>
    obtain ⟨later, hlater⟩ := ih
    rw [List.splitOn_cons_eq_if_modifyHead]
    by_cases hc : c = '\n'
    · exact ⟨cs.splitOn '\n', by simp [hc]⟩
    · exact ⟨later, by simp [hc, hlater]⟩

/-- What comes before a place is whole lines with their ends and the beginning of a line, what comes after it
is the rest of that line and whole lines. -/
theorem exists_splitOn_append (before after : List Char) : ∃ earlier head later,
    (before ++ after).splitOn '\n' = earlier ++ (head ++ after.takeWhile (· ≠ '\n')) :: later ∧
      before = earlier.flatMap (· ++ ['\n']) ++ head ∧ '\n' ∉ head ∧ earlier.length = before.count '\n' := by
  induction before with
  | nil =>
    obtain ⟨later, hlater⟩ := splitOn_eq_takeWhile_cons after
    exact ⟨[], [], later, hlater, rfl, List.not_mem_nil, rfl⟩
  | cons c before ih =>
    obtain ⟨earlier, head, later, hsplit, hbefore, hhead, hlength⟩ := ih
    rw [List.cons_append, List.splitOn_cons_eq_if_modifyHead, hsplit]
    by_cases hc : c = '\n'
    · subst hc
      refine ⟨[] :: earlier, head, later, rfl, ?_, hhead, by simp [hlength]⟩
      rw [List.flatMap_cons, List.append_assoc, ← hbefore]
      rfl
    · have hcount : (c :: before).count '\n' = before.count '\n' := List.count_cons_of_ne hc
      rw [if_neg (by simpa using hc), hcount]
      cases earlier with
      | nil =>
        refine ⟨[], c :: head, later, rfl, ?_, ?_, hlength⟩
        · rw [hbefore]
          rfl
        · simpa using ⟨Ne.symm hc, hhead⟩
      | cons first earlier =>
        refine ⟨(c :: first) :: earlier, head, later, rfl, ?_, hhead, hlength⟩
        rw [hbefore]
        rfl

theorem takeWhile_reverse_lines (earlier : List (List Char)) {head : List Char} (hhead : '\n' ∉ head) :
    (earlier.flatMap (· ++ ['\n']) ++ head).reverse.takeWhile (· ≠ '\n') = head.reverse := by
  have hall : ∀ c ∈ head.reverse, (c ≠ '\n' : Bool) = true := by
    intro c hc
    have hne : c ≠ '\n' := fun h => hhead (h ▸ List.mem_reverse.mp hc)
    simpa using hne
  have hnone : (earlier.flatMap (· ++ ['\n'])).reverse.takeWhile (· ≠ '\n') = [] := by
    cases earlier using List.reverseRecOn with
    | nil => rfl
    | append_singleton earlier last => simp
  rw [List.reverse_append, List.takeWhile_append_of_pos hall, hnone, List.append_nil]

end Text

/-- The line and the column that a span carries lead to the place where it starts, and the line of the text
that is shown for it is the one with that number. -/
structure Span.Points (span : Span) (source : String) : Prop where
  inside : (splitBytes span.start source.toList).isSome = true
  line_pos : 1 ≤ span.line
  column_pos : 1 ≤ span.column
  line : (Text.lines source)[span.line - 1]? = some (span.lineText source).toList
  column : span.column - 1 ≤ (span.lineText source).toList.length
  before : Text.charsBefore source span.line span.column <+: source.toList
  start : span.start = byteSize (Text.charsBefore source span.line span.column)

open Text in
theorem Span.points_of_ofPiece {span : Span} {source : String} {before piece after : List Char}
    (hsource : source.toList = before ++ after)
    (hspan : span = { Span.ofPiece before piece with stop := span.stop }) :
    span.Points source ∧ charsBefore source span.line span.column = before := by
  obtain ⟨earlier, head, later, hsplit, hbefore, hhead, hlength⟩ := exists_splitOn_append before after
  have hbeginning : before.reverse.takeWhile (· ≠ '\n') = head.reverse := by
    rw [hbefore]
    exact takeWhile_reverse_lines earlier hhead
  have hlines : lines source = earlier ++ (head ++ after.takeWhile (· ≠ '\n')) :: later := by
    rw [lines, hsource, hsplit]
  have hstart : span.start = byteSize before := congrArg Span.start hspan
  have hline : span.line = earlier.length + 1 := by
    rw [hlength]
    exact congrArg Span.line hspan
  have hcolumn : span.column = head.length + 1 := by
    rw [← head.length_reverse, ← hbeginning]
    exact congrArg Span.column hspan
  have hinside : splitBytes span.start source.toList = some (before, after) := by
    rw [hsource, hstart]
    exact splitBytes_append before after
  have htext : (span.lineText source).toList = head ++ after.takeWhile (· ≠ '\n') := by
    rw [Span.lineText, hinside, String.toList_ofList, Option.getD_some, hbeginning, List.reverse_reverse]
  have hchars : charsBefore source span.line span.column = before := by
    rw [charsBefore, hlines, hline, hcolumn, hbefore]
    simp
  refine ⟨⟨by rw [hinside]; rfl, by omega, by omega, ?_, ?_, ?_, by rw [hchars, hstart]⟩, hchars⟩
  · rw [hline, hlines, htext]
    simp
  · rw [hcolumn, htext]
    simp
  · rw [hchars, hsource]
    exact List.prefix_append before after

end TextAdventure
