import TextAdventure.Proofs.Dictionary.Sharing

/-! # Writing to blocks

A write to a map makes the blocks on the way to its entry anew, all with one mark, and keeps the other
blocks with their entries. So a property of blocks that every new block with the mark has is one of all
blocks after the write if it was one of all before.
-/
namespace TextAdventure

universe u v

namespace Dictionary

variable {α : Type u} {d : Dictionary α} {key : String}

theorem rank_cons (key k : String) (w : α) (d : Dictionary α) :
    rank key ((k, w) :: d) = rank key d + if k < key then 1 else 0 := by
  simp [rank, List.countP_cons]

theorem rank_le_length (key : String) (d : Dictionary α) : rank key d ≤ d.length :=
  List.countP_le_length

theorem rank_eq_zero {k : String} {w : α} (h : Sorted ((k, w) :: d)) (hk : ¬k < key) :
    rank key d = 0 := by
  rw [rank, List.countP_eq_zero]
  intro entry hentry
  have hlt : k < entry.1 := List.rel_of_pairwise_cons h hentry
  simpa using fun hentry' : entry.1 < key => hk (Std.lt_trans hlt hentry')

theorem contains_cons (key k : String) (w : α) (d : Dictionary α) :
    contains key ((k, w) :: d) = (decide (k = key) || contains key d) := by
  by_cases hk : k = key <;> simp [contains, get?, hk]

theorem insert_eq (h : Sorted d) (key : String) (v : α) :
    if contains key d then rank key d < d.length ∧ insert key v d = d.set (rank key d) (key, v)
    else insert key v d = d.insertIdx (rank key d) (key, v) := by
  induction d with
  | nil => rfl
  | cons entry d ih =>
    obtain ⟨k, w⟩ := entry
    have hd : Sorted d := (List.pairwise_cons.mp h).2
    rw [contains_cons, rank_cons]
    rcases Std.lt_trichotomy k key with hlt | rfl | hgt
    · have hne : k ≠ key := fun heq => Std.lt_irrefl (heq ▸ hlt)
      have hnot : ¬key < k := fun hgt => Std.lt_irrefl (Std.lt_trans hlt hgt)
      have ih := ih hd
      rw [if_pos hlt, insert, if_neg hne, if_neg hnot, decide_eq_false hne, Bool.false_or]
      split
      next hc =>
        rw [if_pos hc] at ih
        exact ⟨Nat.succ_lt_succ ih.1, by rw [List.set_cons_succ, ← ih.2]⟩
      next hc =>
        rw [if_neg hc] at ih
        rw [List.insertIdx_succ_cons, ← ih]
    · rw [if_neg Std.lt_irrefl, rank_eq_zero h Std.lt_irrefl, insert, if_pos rfl]
      simp
    · have hne : k ≠ key := fun heq => Std.lt_irrefl (heq ▸ hgt)
      have hnot : ¬k < key := fun hlt => Std.lt_irrefl (Std.lt_trans hlt hgt)
      have hc : contains key d = false := by
        cases hget : get? key d with
        | none => rw [contains, hget, Option.isSome_none]
        | some v => exact absurd (List.rel_of_pairwise_cons h (mem_of_get? hget)) hnot
      rw [if_neg hnot, rank_eq_zero h hnot, insert, if_neg hne, if_pos hgt, decide_eq_false hne, hc]
      simp

theorem nodup_keys (h : Sorted d) : (keys d).Nodup := by
  rw [keys, List.nodup_iff_pairwise_ne, List.pairwise_map]
  refine List.Pairwise.imp ?_ h
  intro a b hlt heq
  rw [heq] at hlt
  exact Std.lt_irrefl hlt

variable {β : Type v} {d' : Dictionary β}

theorem rank_eq_countP_keys (key : String) (d : Dictionary α) : rank key d = (keys d).countP (· < key) := by
  rw [keys, List.countP_map]
  rfl

theorem rank_congr (h : keys d = keys d') (key : String) : rank key d = rank key d' := by
  rw [rank_eq_countP_keys, rank_eq_countP_keys, h]

theorem contains_congr (h : keys d = keys d') (key : String) : contains key d = contains key d' := by
  induction d generalizing d' with
  | nil =>
    cases d' with
    | nil => rfl
    | cons => cases h
  | cons entry d ih =>
    cases d' with
    | nil => cases h
    | cons entry' d' =>
      obtain ⟨hkey, h⟩ := List.cons.inj h
      rw [contains_cons, contains_cons, hkey, ih h]

theorem keys_insert_congr (h : keys d = keys d') (key : String) (v : α) (w : β) :
    keys (insert key v d) = keys (insert key w d') := by
  induction d generalizing d' with
  | nil =>
    cases d' with
    | nil => rfl
    | cons => cases h
  | cons entry d ih =>
    cases d' with
    | nil => cases h
    | cons entry' d' =>
      obtain ⟨hkey, hrest⟩ := List.cons.inj h
      obtain ⟨k, x⟩ := entry
      obtain ⟨l, y⟩ := entry'
      obtain rfl : k = l := hkey
      rw [insert, insert]
      split
      next => exact congrArg (key :: ·) hrest
      split
      next => exact congrArg (key :: ·) h
      next => exact congrArg (k :: ·) (ih hrest)

end Dictionary

namespace Layout
open Dictionary (keys)

/-- A block that has other blocks in it has two of them at least. -/
def Solid : Layout → Prop
  | leaf .. => True
  | branch _ blocks => 2 ≤ blocks.length

/-- The pieces of a row of blocks. -/
def rowPieces (blocks : List Layout) : List Piece :=
  (blocks.map .block).intersperse .entry

variable {α : Type u} {K : Layout → Dictionary α → Prop} {b c : Layout} {blocks row : List Layout}
  {ps qs : List Piece} {es fs gs : Dictionary α} {mark : Option Nat} {i n : Nat} {e : String × α}

theorem rowPieces_cons (b : Layout) (h : blocks ≠ []) :
    rowPieces (b :: blocks) = .block b :: .entry :: rowPieces blocks := by
  obtain ⟨c, blocks, rfl⟩ := List.exists_cons_of_ne_nil h
  rfl

theorem rowPieces_append (hrow : row ≠ []) (h : blocks ≠ []) :
    rowPieces (row ++ blocks) = rowPieces row ++ .entry :: rowPieces blocks := by
  induction row with
  | nil => exact absurd rfl hrow
  | cons b row ih =>
    cases row with
    | nil => exact rowPieces_cons b h
    | cons c row =>
      rw [List.cons_append, rowPieces_cons b (by simp), ih (by simp), rowPieces_cons b (by simp)]
      rfl

@[simp] theorem spread_replicate_iff : Spread K (List.replicate n .entry) es ↔ es.length = n := by
  induction n generalizing es with
  | zero => exact ⟨fun h => by cases h; rfl, fun h => List.eq_nil_of_length_eq_zero h ▸ .nil⟩
  | succ n ih =>
    constructor
    · rintro (_ | ⟨e, h⟩)
      exact congrArg Nat.succ (ih.mp h)
    · intro h
      obtain ⟨e, es, rfl⟩ := List.exists_cons_of_length_eq_add_one h
      exact .entry e (ih.mpr (Nat.succ.inj h))

theorem spread_leaf_iff : Spread K (leaf mark n).pieces es ↔ es.length = n :=
  spread_replicate_iff

theorem spread_block_iff : Spread K [.block b] es ↔ Spread K b.pieces es ∧ K b es := by
  constructor
  · intro h
    cases h with
    | block hopen hblock h =>
      cases h
      rw [List.append_nil]
      exact ⟨hopen, hblock⟩
  · rintro ⟨hopen, hblock⟩
    simpa using Spread.block hopen hblock .nil

theorem Spread.imp {K' : Layout → Dictionary α → Prop} (hK : ∀ b es, K b es → K' b es)
    (h : Spread K ps es) : Spread K' ps es := by
  induction h with
  | nil => exact .nil
  | entry e _ ih => exact .entry e ih
  | block _ hblock _ ihopen ih => exact .block ihopen (hK _ _ hblock) ih

theorem Spread.append_inv (h : Spread K (ps ++ qs) es) :
    ∃ fs gs, es = fs ++ gs ∧ Spread K ps fs ∧ Spread K qs gs := by
  induction ps generalizing es with
  | nil => exact ⟨[], es, rfl, .nil, h⟩
  | cons p ps ih =>
    cases h with
    | entry e h =>
      obtain ⟨fs, gs, rfl, hps, hqs⟩ := ih h
      exact ⟨e :: fs, gs, rfl, .entry e hps, hqs⟩
    | @block _ _ es _ hopen hblock h =>
      obtain ⟨fs, gs, rfl, hps, hqs⟩ := ih h
      exact ⟨es ++ fs, gs, (List.append_assoc ..).symm, .block hopen hblock hps, hqs⟩

theorem Spread.row_inv (h : Spread K (rowPieces (row ++ blocks)) es) (hrow : row ≠ []) (hne : blocks ≠ []) :
    ∃ fs e gs, es = fs ++ e :: gs ∧ Spread K (rowPieces row) fs ∧ Spread K (rowPieces blocks) gs := by
  rw [rowPieces_append hrow hne] at h
  obtain ⟨fs, _, rfl, hfs, hgs⟩ := h.append_inv
  cases hgs with
  | entry e hgs => exact ⟨fs, e, _, rfl, hfs, hgs⟩

theorem Spread.join_rows (hfs : Spread K (rowPieces row) fs) (e : String × α)
    (hgs : Spread K (rowPieces blocks) gs) (hrow : row ≠ []) (hne : blocks ≠ []) :
    Spread K (rowPieces (row ++ blocks)) (fs ++ e :: gs) := by
  rw [rowPieces_append hrow hne]
  exact hfs.append (.entry e hgs)

theorem Spread.cons_row_inv (h : Spread K (rowPieces (b :: blocks)) es) (hne : blocks ≠ []) :
    ∃ fs e gs, es = fs ++ e :: gs ∧ fs.length = b.size ∧ Spread K [.block b] fs ∧
      Spread K (rowPieces blocks) gs := by
  obtain ⟨fs, e, gs, rfl, hfs, hgs⟩ := Spread.row_inv (List.singleton_append ▸ h) (List.cons_ne_nil b []) hne
  exact ⟨fs, e, gs, rfl, (spread_block_iff.mp hfs).1.length_block, hfs, hgs⟩

/-- The property is one of solid blocks, and every solid block with the mark has it. -/
structure Admits (K : Layout → Dictionary α → Prop) (mark : Option Nat) : Prop where
  solid {b : Layout} {es : Dictionary α} : K b es → b.Solid
  new {b : Layout} {es : Dictionary α} : b.mark = mark → b.Solid → K b es

@[simp] theorem mark_replaceAt (mark : Option Nat) (i : Nat) (b : Layout) : (b.replaceAt mark i).mark = mark := by
  cases b <;> rw [replaceAt, Layout.mark]

theorem length_rowReplaceAt (mark : Option Nat) (i : Nat) (blocks : List Layout) :
    (rowReplaceAt mark i blocks).length = blocks.length := by
  induction blocks generalizing i with
  | nil => rw [rowReplaceAt]
  | cons b blocks ih =>
    rw [rowReplaceAt]
    split
    · rfl
    split
    · rfl
    · rw [List.length_cons, ih, List.length_cons]

theorem rowReplaceAt_ne_nil (h : blocks ≠ []) : rowReplaceAt mark i blocks ≠ [] := by
  rw [← List.length_pos_iff, length_rowReplaceAt]
  exact List.length_pos_iff.mpr h

theorem Solid.replaceAt (h : b.Solid) : (b.replaceAt mark i).Solid := by
  cases b with
  | leaf => rw [Layout.replaceAt]; trivial
  | branch _ blocks =>
    rw [Layout.replaceAt, Solid, length_rowReplaceAt]
    exact h

mutual

theorem Spread.replaceAt (hK : Admits K mark) : ∀ (b : Layout) {es : Dictionary α} {i : Nat}, Spread K b.pieces es →
    i < es.length → ∀ e, Spread K (b.replaceAt mark i).pieces (es.set i e)
  | leaf _ n, es, i, h, _, e => by
    rw [Layout.replaceAt, spread_leaf_iff, List.length_set]
    exact spread_leaf_iff.mp h
  | branch _ blocks, es, i, h, hi, e => by
    rw [Layout.replaceAt]
    exact Spread.rowReplaceAt hK blocks h hi e

theorem Spread.rowReplaceAt (hK : Admits K mark) : ∀ (blocks : List Layout) {es : Dictionary α} {i : Nat},
    Spread K (rowPieces blocks) es → i < es.length →
      ∀ e, Spread K (rowPieces (rowReplaceAt mark i blocks)) (es.set i e)
  | [], es, i, h, hi, e => by
    cases h
    cases hi
  | b :: blocks, es, i, h, hi, e => by
    have hblock : ∀ {fs : Dictionary α} {i : Nat}, Spread K [.block b] fs → i < b.size →
        Spread K [.block (b.replaceAt mark i)] (fs.set i e) := by
      intro fs i hfs hib
      obtain ⟨hopen, hb⟩ := spread_block_iff.mp hfs
      refine spread_block_iff.mpr ⟨Spread.replaceAt hK b hopen (hopen.length_block ▸ hib) e, ?_⟩
      exact hK.new (mark_replaceAt ..) (hK.solid hb).replaceAt
    cases blocks with
    | nil =>
      have hsize := (spread_block_iff.mp h).1.length_block
      rw [Layout.rowReplaceAt, if_pos (hsize ▸ hi)]
      exact hblock h (hsize ▸ hi)
    | cons c blocks =>
      have hne := List.cons_ne_nil c blocks
      obtain ⟨fs, x, gs, rfl, hsize, hfs, hgs⟩ := h.cons_row_inv hne
      rw [Layout.rowReplaceAt]
      split
      next hlt =>
        rw [List.set_append_left i e (hsize ▸ hlt)]
        exact (hblock hfs hlt).join_rows x hgs (List.cons_ne_nil _ []) hne
      next hnlt =>
        rw [List.set_append_right i e (by omega), hsize]
        split
        next heq =>
          rw [heq, Nat.sub_self]
          exact hfs.join_rows e hgs (List.cons_ne_nil b []) hne
        next hne' =>
          obtain ⟨k, hk⟩ : ∃ k, i - b.size = k + 1 := ⟨i - b.size - 1, by omega⟩
          have hklt : k < gs.length := by
            rw [List.length_append, List.length_cons] at hi
            omega
          rw [hk, List.set_cons_succ, Nat.add_sub_cancel]
          exact hfs.join_rows x (Spread.rowReplaceAt hK (c :: blocks) hgs hklt e) (List.cons_ne_nil b [])
            (rowReplaceAt_ne_nil hne)

end

theorem insertAt_ne_nil (mark : Option Nat) (i : Nat) (b : Layout) : b.insertAt mark i ≠ [] := by
  cases b with
  | leaf => rw [insertAt]; split <;> simp
  | branch =>
    rw [insertAt]
    split <;> simp

theorem length_le_rowInsertAt (mark : Option Nat) (i : Nat) (blocks : List Layout) :
    blocks.length ≤ (rowInsertAt mark i blocks).length := by
  induction blocks generalizing i with
  | nil => exact Nat.zero_le _
  | cons b blocks ih =>
    rw [rowInsertAt]
    split
    · have := List.length_pos_iff.mpr (insertAt_ne_nil mark i b)
      rw [List.length_append, List.length_cons]
      omega
    · exact Nat.succ_le_succ (ih _)

theorem insertIdx_append_left (h : i ≤ fs.length) (gs : Dictionary α) (e : String × α) :
    (fs ++ gs).insertIdx i e = fs.insertIdx i e ++ gs := by
  induction fs generalizing i with
  | nil =>
    cases h
    rfl
  | cons f fs ih =>
    cases i with
    | zero => rfl
    | succ i => simpa using ih (Nat.le_of_succ_le_succ h)

theorem insertIdx_append_right (fs gs : Dictionary α) (i : Nat) (e : String × α) :
    (fs ++ gs).insertIdx (fs.length + i) e = fs ++ gs.insertIdx i e := by
  induction fs with
  | nil => simp
  | cons f fs ih => simpa [Nat.add_right_comm] using ih

mutual

theorem Spread.insertAt (hK : Admits K mark) : ∀ (b : Layout) {es : Dictionary α} {i : Nat}, b.Solid →
    Spread K b.pieces es → i ≤ es.length → ∀ e, Spread K (rowPieces (b.insertAt mark i)) (es.insertIdx i e)
  | leaf _ n, es, i, _, h, hi, e => by
    have hlength := List.length_insertIdx_of_le_length hi e
    rw [spread_leaf_iff.mp h] at hlength
    have hleaf : ∀ {n : Nat} {es : Dictionary α}, es.length = n → Spread K [.block (leaf mark n)] es :=
      fun hn => spread_block_iff.mpr ⟨spread_leaf_iff.mpr hn, hK.new rfl trivial⟩
    rw [Layout.insertAt]
    split
    next => exact hleaf hlength
    next =>
      generalize es.insertIdx i e = es' at hlength
      obtain ⟨x, gs, hx⟩ : ∃ x gs, es'.drop (n / 2) = x :: gs := by
        apply List.exists_cons_of_length_pos
        rw [List.length_drop]
        omega
      have hgs := congrArg List.length hx
      rw [List.length_drop, List.length_cons] at hgs
      rw [← List.take_append_drop (n / 2) es', hx]
      refine Spread.join_rows (hleaf ?_) x (hleaf ?_) (List.cons_ne_nil _ []) (List.cons_ne_nil _ [])
      · rw [List.length_take]
        omega
      · omega
  | branch _ blocks, es, i, hb, h, hi, e => by
    have hne : blocks ≠ [] := List.length_pos_iff.mp (Nat.lt_of_lt_of_le Nat.two_pos hb)
    have hrow := Spread.rowInsertAt hK blocks hne h hi e
    have hlength := Nat.le_trans hb (length_le_rowInsertAt mark i blocks)
    have hbranch : ∀ {row : List Layout} {es : Dictionary α}, 2 ≤ row.length → Spread K (rowPieces row) es →
        Spread K [.block (branch mark row)] es :=
      fun hrow h => spread_block_iff.mpr ⟨h, hK.new rfl hrow⟩
    rw [Layout.insertAt]
    generalize Layout.rowInsertAt mark i blocks = row at hrow hlength
    split
    next => exact hbranch hlength hrow
    next hlarge =>
      have hcapacity : capacity = 64 := rfl
      have htake : 2 ≤ (row.take (row.length / 2)).length := by
        rw [List.length_take]
        omega
      have hdrop : 2 ≤ (row.drop (row.length / 2)).length := by
        rw [List.length_drop]
        omega
      have htake' := List.length_pos_iff.mp (Nat.lt_of_lt_of_le Nat.two_pos htake)
      have hdrop' := List.length_pos_iff.mp (Nat.lt_of_lt_of_le Nat.two_pos hdrop)
      rw [← List.take_append_drop (row.length / 2) row] at hrow
      obtain ⟨fs, x, gs, hes, hfs, hgs⟩ := hrow.row_inv htake' hdrop'
      rw [List.splitAt_eq, hes]
      exact (hbranch htake hfs).join_rows x (hbranch hdrop hgs) (List.cons_ne_nil _ []) (List.cons_ne_nil _ [])

theorem Spread.rowInsertAt (hK : Admits K mark) : ∀ (blocks : List Layout) {es : Dictionary α} {i : Nat},
    blocks ≠ [] → Spread K (rowPieces blocks) es → i ≤ es.length →
      ∀ e, Spread K (rowPieces (rowInsertAt mark i blocks)) (es.insertIdx i e)
  | [], es, i, hne, h, hi, e => absurd rfl hne
  | b :: blocks, es, i, _, h, hi, e => by
    have hblock : ∀ {fs : Dictionary α} {i : Nat}, Spread K [.block b] fs → i ≤ b.size →
        Spread K (rowPieces (b.insertAt mark i)) (fs.insertIdx i e) := by
      intro fs i hfs hib
      obtain ⟨hopen, hb⟩ := spread_block_iff.mp hfs
      exact Spread.insertAt hK b (hK.solid hb) hopen (hopen.length_block ▸ hib) e
    rw [Layout.rowInsertAt]
    cases blocks with
    | nil =>
      have hsize := (spread_block_iff.mp h).1.length_block
      rw [if_pos (hsize ▸ hi), List.append_nil]
      exact hblock h (hsize ▸ hi)
    | cons c blocks =>
      have hne := List.cons_ne_nil c blocks
      obtain ⟨fs, x, gs, rfl, hsize, hfs, hgs⟩ := h.cons_row_inv hne
      split
      next hle =>
        rw [insertIdx_append_left (hsize ▸ hle)]
        exact (hblock hfs hle).join_rows x hgs (insertAt_ne_nil mark i b) hne
      next hnle =>
        obtain ⟨k, rfl⟩ : ∃ k, i = fs.length + (k + 1) := ⟨i - b.size - 1, by omega⟩
        have hk : k ≤ gs.length := by
          rw [List.length_append, List.length_cons] at hi
          omega
        rw [insertIdx_append_right, List.insertIdx_succ_cons,
          show fs.length + (k + 1) - b.size - 1 = k by omega]
        refine hfs.join_rows x (Spread.rowInsertAt hK (c :: blocks) hne hgs hk e) (List.cons_ne_nil b []) ?_
        exact List.length_pos_iff.mp (Nat.lt_of_lt_of_le (List.length_pos_iff.mpr hne) (length_le_rowInsertAt ..))

end

theorem length_rowWithMark (m : Nat) (blocks : List Layout) :
    (rowWithMark m blocks).length = blocks.length := by
  induction blocks with
  | nil => rw [rowWithMark]
  | cons b blocks ih => rw [rowWithMark, List.length_cons, ih, List.length_cons]

theorem Solid.withMark (h : b.Solid) (m : Nat) : (b.withMark m).Solid := by
  cases b with
  | leaf => rw [Layout.withMark]; trivial
  | branch _ blocks =>
    rw [Layout.withMark, Solid, length_rowWithMark]
    exact h

mutual

theorem Spread.withMark {K' : Layout → Dictionary α → Prop} {m : Nat} (hsolid : ∀ b es, K b es → b.Solid)
    (hK' : Admits K' (some m)) : ∀ (b : Layout) {es fs : Dictionary α}, Spread K b.pieces es →
      fs.length = es.length → Spread K' (b.withMark m).pieces fs
  | leaf _ n, es, fs, h, hlength => by
    rw [Layout.withMark]
    exact spread_leaf_iff.mpr (hlength.trans (spread_leaf_iff.mp h))
  | branch _ blocks, es, fs, h, hlength => by
    rw [Layout.withMark]
    exact Spread.rowWithMark hsolid hK' blocks h hlength

theorem Spread.rowWithMark {K' : Layout → Dictionary α → Prop} {m : Nat} (hsolid : ∀ b es, K b es → b.Solid)
    (hK' : Admits K' (some m)) : ∀ (blocks : List Layout) {es fs : Dictionary α},
      Spread K (rowPieces blocks) es → fs.length = es.length →
      Spread K' (rowPieces (rowWithMark m blocks)) fs
  | [], es, fs, h, hlength => by
    cases h
    rw [List.eq_nil_of_length_eq_zero hlength, Layout.rowWithMark]
    exact .nil
  | b :: blocks, es, fs, h, hlength => by
    have hblock : ∀ {es fs : Dictionary α}, Spread K [.block b] es → fs.length = es.length →
        Spread K' [.block (b.withMark m)] fs := by
      intro es fs h hlength
      obtain ⟨hopen, hb⟩ := spread_block_iff.mp h
      refine spread_block_iff.mpr ⟨Spread.withMark hsolid hK' b hopen hlength, ?_⟩
      exact hK'.new (mark_withMark m b) ((hsolid b es hb).withMark m)
    rw [Layout.rowWithMark]
    cases blocks with
    | nil =>
      rw [Layout.rowWithMark]
      exact hblock h hlength
    | cons c blocks =>
      have hne := List.cons_ne_nil c blocks
      obtain ⟨es, x, gs, rfl, hsize, hes, hgs⟩ := h.cons_row_inv hne
      rw [List.length_append, List.length_cons] at hlength
      obtain ⟨y, fs', hfs⟩ : ∃ y fs', fs.drop es.length = y :: fs' := by
        apply List.exists_cons_of_length_pos
        rw [List.length_drop]
        omega
      have hfs' := congrArg List.length hfs
      rw [List.length_drop, List.length_cons] at hfs'
      rw [← List.take_append_drop es.length fs, hfs]
      refine Spread.join_rows (hblock hes ?_) y (Spread.rowWithMark hsolid hK' (c :: blocks) hgs ?_)
        (List.cons_ne_nil _ []) ?_
      · rw [List.length_take]
        omega
      · omega
      · rw [← List.length_pos_iff, length_rowWithMark]
        exact Nat.succ_pos _

end

/-- A write keeps a property that is one of solid blocks and that all new ones have. -/
theorem Spread.write (hK : Admits K mark) {d : Dictionary α} (hd : Dictionary.Sorted d)
    (h : Spread K [.block b] d) (key : String) (v : α) :
    Spread K [.block (b.write mark key d)] (Dictionary.insert key v d) := by
  obtain ⟨hopen, hb⟩ := spread_block_iff.mp h
  have hinsert := Dictionary.insert_eq hd key v
  rw [Layout.write]
  split
  next hc =>
    rw [if_pos hc] at hinsert
    rw [hinsert.2]
    exact spread_block_iff.mpr ⟨Spread.replaceAt hK b hopen hinsert.1 _,
      hK.new (mark_replaceAt ..) (hK.solid hb).replaceAt⟩
  next hc =>
    rw [if_neg hc] at hinsert
    have hrow := Spread.insertAt hK b (hK.solid hb) hopen (Dictionary.rank_le_length key d) (key, v)
    have hne := insertAt_ne_nil mark (Dictionary.rank key d) b
    rw [← hinsert] at hrow
    split
    next c heq => rwa [heq] at hrow
    next hmany =>
      refine spread_block_iff.mpr ⟨hrow, hK.new rfl ?_⟩
      generalize b.insertAt mark (Dictionary.rank key d) = row at hne hmany
      match row with
      | [] => exact absurd rfl hne
      | [c] => exact absurd rfl (hmany c)
      | _ :: _ :: row => exact Nat.le_add_left 2 row.length

theorem write_congr {β : Type v} {d : Dictionary α} {d' : Dictionary β} (h : keys d = keys d')
    (mark : Option Nat) (key : String) (b : Layout) : b.write mark key d = b.write mark key d' := by
  rw [write, write, Dictionary.rank_congr h, Dictionary.contains_congr h]

theorem Spread.foldl_write (hK : Admits K none) (entries : List (String × α)) {d : Dictionary α}
    {written : Dictionary Unit} (h : Spread K [.block b] d) (hd : Dictionary.Sorted d)
    (hkeys : keys d = keys written) :
    Spread K [.block ((entries.map Prod.fst).foldl (fun (b, written) key =>
      (b.write none key written, Dictionary.insert key () written)) (b, written)).1]
      (Dictionary.insertAll entries d) := by
  induction entries generalizing b d written with
  | nil => exact h
  | cons entry entries ih =>
    obtain ⟨key, v⟩ := entry
    have hwrite := h.write hK hd key v
    rw [write_congr hkeys] at hwrite
    exact ih hwrite (Dictionary.sorted_insert hd key v) (Dictionary.keys_insert_congr hkeys key v ())

theorem Spread.ofKeys (hK : Admits K none) (entries : List (String × α)) :
    Spread K [.block (ofKeys (entries.map Prod.fst))] (Dictionary.ofList entries) :=
  Spread.foldl_write hK entries (spread_block_iff.mpr ⟨.nil, hK.new rfl trivial⟩) .nil rfl

end Layout

end TextAdventure
