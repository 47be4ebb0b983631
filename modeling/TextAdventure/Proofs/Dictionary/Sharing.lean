import Mathlib.Data.List.Basic
import Mathlib.Order.Nat
import TextAdventure.Dictionary.Layout

/-! # Shared blocks

A block with a mark is known by its mark and the keys in it: wherever a map has such a block, it is the
same one, with the same entries. So a comparison passes over entries unseen only where the two maps have
the same entry. Whether it does so at a position is symmetric, and transitive among maps with the same
keys, although what is opened first depends on both maps.
-/
namespace TextAdventure

universe u

open Dictionary (keys)

/-- The blocks that maps share: at most one for a mark and the keys in it. -/
def Memory (α : Type u) := Nat → List String → Option (Layout × Dictionary α)

/-- If the block has a mark, then it is the one of the memory. -/
def Memory.Has {α : Type u} (M : Memory α) (b : Layout) (es : Dictionary α) : Prop :=
  ∀ mark, b.mark = some mark → M mark (keys es) = some (b, es)

namespace Layout

/-- How many entries there are in a piece. -/
def Piece.size : Piece → Nat
  | entry => 1
  | block b => b.size

def totalSize : List Piece → Nat
  | [] => 0
  | p :: ps => p.size + totalSize ps

/-- Whether a comparison that comes to both pieces at the same time passes over them. -/
def Piece.isShared : Piece → Piece → Bool
  | block a, block b => Layout.isShared a b
  | _, _ => false

/-- The pieces have these entries in them, and every block with its entries has the property. -/
inductive Spread {α : Type u} (K : Layout → Dictionary α → Prop) : List Piece → Dictionary α → Prop
  | nil : Spread K [] []
  | entry {ps : List Piece} {es : Dictionary α} (e : String × α) (h : Spread K ps es) :
      Spread K (.entry :: ps) (e :: es)
  | block {b : Layout} {ps : List Piece} {es fs : Dictionary α} (hopen : Spread K b.pieces es)
      (hblock : K b es) (h : Spread K ps fs) : Spread K (.block b :: ps) (es ++ fs)

variable {α : Type u} {K : Layout → Dictionary α → Prop} {M : Memory α} {a b : Layout} {p q r : Piece}
  {ps qs rs : List Piece} {es fs as bs cs : Dictionary α} {i m : Nat}

theorem totalSize_replicate (n : Nat) : totalSize (List.replicate n .entry) = n := by
  induction n with
  | zero => rfl
  | succ n ih => rw [List.replicate_succ, totalSize, ih, Piece.size, Nat.add_comm]

theorem totalSize_row (blocks : List Layout) :
    totalSize ((blocks.map .block).intersperse .entry) = rowSize blocks := by
  induction blocks with
  | nil => rfl
  | cons b blocks ih =>
    cases blocks with
    | nil => rfl
    | cons c blocks =>
      simp only [List.map_cons, List.intersperse_cons_cons, totalSize, rowSize, Piece.size] at ih ⊢
      omega

theorem totalSize_pieces (b : Layout) : totalSize b.pieces = b.size := by
  cases b with
  | leaf mark n => simp only [pieces, totalSize_replicate, size]
  | branch mark blocks => exact totalSize_row blocks

theorem Spread.length_eq (h : Spread K ps es) : es.length = totalSize ps := by
  induction h with
  | nil => rfl
  | entry e h ih => rw [List.length_cons, ih, totalSize, Piece.size, Nat.add_comm]
  | block hopen hblock h ihopen ih =>
    rw [List.length_append, ihopen, ih, totalSize_pieces, totalSize, Piece.size]

theorem Spread.length_block (h : Spread K b.pieces es) : es.length = b.size :=
  h.length_eq.trans (totalSize_pieces b)

theorem Spread.append (hp : Spread K ps es) (hq : Spread K qs fs) : Spread K (ps ++ qs) (es ++ fs) := by
  induction hp with
  | nil => exact hq
  | entry e h ih => exact .entry e ih
  | block hopen hblock h _ ih =>
    rw [List.append_assoc]
    exact .block hopen hblock ih

theorem Spread.opened (h : Spread K (.block b :: ps) es) : Spread K (b.pieces ++ ps) es := by
  cases h with
  | block hopen hblock h => exact hopen.append h

/-- The first piece alone, opened if no more than `m` entries come before its first own one. -/
def expand (m : Nat) : Piece → List Piece
  | .entry => [.entry]
  | .block b => if b.lead ≤ m then b.pieces else [.block b]

theorem Spread.expand (h : Spread K (p :: ps) es) (m : Nat) : Spread K (expand m p ++ ps) es := by
  cases p with
  | entry => exact h
  | block b =>
    rw [Layout.expand]
    split
    · exact h.opened
    · exact h

theorem totalWeight_opened (b : Layout) (ps : List Piece) :
    totalWeight (b.pieces ++ ps) < totalWeight (.block b :: ps) := by
  rw [totalWeight_append, totalWeight, Piece.weight]
  exact Nat.add_lt_add_right (totalWeight_pieces b) _

theorem totalWeight_lt_cons (p : Piece) (ps : List Piece) : totalWeight ps < totalWeight (p :: ps) := by
  have hp : 0 < p.weight := by
    cases p with
    | entry => exact Nat.one_pos
    | block b => exact Nat.lt_of_le_of_lt (Nat.zero_le _) (totalWeight_pieces b)
  rw [totalWeight]
  omega

theorem totalWeight_expand_le (m : Nat) (p : Piece) (ps : List Piece) :
    totalWeight (expand m p ++ ps) ≤ totalWeight (p :: ps) := by
  cases p with
  | entry => exact Nat.le_refl _
  | block b =>
    rw [expand]
    split
    · exact (totalWeight_opened b ps).le
    · exact Nat.le_refl _

theorem totalWeight_expand_lt (h : b.lead ≤ m) (ps : List Piece) :
    totalWeight (expand m (.block b) ++ ps) < totalWeight (.block b :: ps) := by
  rw [expand, if_pos h]
  exact totalWeight_opened b ps

@[simp] theorem sharedPieces_nil_right (ps : List Piece) : sharedPieces ps [] = [] := by
  cases ps <;> simp [sharedPieces]

theorem isShared_comm (a b : Layout) : a.isShared b = b.isShared a := by
  rw [Bool.eq_iff_iff]
  simp only [isShared, Bool.and_eq_true, beq_iff_eq]
  constructor
  · rintro ⟨⟨h, hm⟩, hs⟩
    exact ⟨⟨hm ▸ h, hm.symm⟩, hs.symm⟩
  · rintro ⟨⟨h, hm⟩, hs⟩
    exact ⟨⟨hm ▸ h, hm.symm⟩, hs.symm⟩

theorem Piece.isShared_comm (p q : Piece) : p.isShared q = q.isShared p := by
  cases p <;> cases q <;> first | rfl | exact Layout.isShared_comm _ _

theorem sharedPieces_comm (ps qs : List Piece) : sharedPieces ps qs = sharedPieces qs ps := by
  fun_induction sharedPieces ps qs with
  | case1 qs => simp
  | case2 ps => simp [sharedPieces]
  | case3 ps qs ih => simp [sharedPieces, ih]
  | case4 a ps qs ih => rw [ih, sharedPieces]
  | case5 ps b qs ih => rw [ih, sharedPieces]
  | case6 a ps b qs h ih =>
    have hsize : a.size = b.size := by simp only [isShared, Bool.and_eq_true, beq_iff_eq] at h; exact h.2
    rw [sharedPieces, if_pos (isShared_comm a b ▸ h), ih, hsize]
  | case7 a ps b qs h hlt ih =>
    rw [sharedPieces, if_neg (isShared_comm a b ▸ h), if_neg (by omega), if_pos hlt, ih]
  | case8 a ps b qs h hlt hgt ih =>
    rw [sharedPieces, if_neg (isShared_comm a b ▸ h), if_pos hgt, ih]
  | case9 a ps b qs h hlt hgt ih =>
    rw [sharedPieces, if_neg (isShared_comm a b ▸ h), if_neg (by omega), if_neg (by omega), ih]

theorem sharedPieces_expand (hpq : ¬p.isShared q) (hp : ∀ b, p = .block b → m ≤ b.lead)
    (hq : ∀ b, q = .block b → m ≤ b.lead) (ps qs : List Piece) :
    sharedPieces (p :: ps) (q :: qs) = sharedPieces (expand m p ++ ps) (expand m q ++ qs) := by
  cases p with
  | entry =>
    cases q with
    | entry => rfl
    | block b =>
      rw [expand, expand]
      split
      · exact sharedPieces.eq_def ..
      · rfl
  | block a =>
    have ha := hp a rfl
    cases q with
    | entry =>
      rw [expand, expand]
      split
      · exact sharedPieces.eq_def ..
      · rfl
    | block b =>
      have hb := hq b rfl
      have hab : ¬a.isShared b := hpq
      rw [expand, expand]
      by_cases ham : a.lead ≤ m <;> by_cases hbm : b.lead ≤ m
      · rw [if_pos ham, if_pos hbm, sharedPieces, if_neg hab, if_neg (by omega), if_neg (by omega)]
      · rw [if_pos ham, if_neg hbm, sharedPieces, if_neg hab, if_pos (by omega)]
        rfl
      · rw [if_neg ham, if_pos hbm, sharedPieces, if_neg hab, if_neg (by omega), if_pos (by omega)]
        rfl
      · rw [if_neg ham, if_neg hbm]
        rfl

/-- Blocks that a comparison passes over are one block, with the same entries. -/
theorem Spread.of_shared (hp : Spread M.Has (.block a :: ps) as) (hq : Spread M.Has (.block b :: qs) bs)
    (hkeys : keys as = keys bs) (h : a.isShared b) :
    a = b ∧ ∃ es fs gs, es.length = a.size ∧ as = es ++ fs ∧ bs = es ++ gs ∧ Spread M.Has [.block a] es ∧
      Spread M.Has ps fs ∧ Spread M.Has qs gs := by
  cases hp with
  | @block _ _ es fs hopena hmarka hp =>
    cases hq with
    | @block _ _ es' gs hopenb hmarkb hq =>
      simp only [isShared, Bool.and_eq_true, beq_iff_eq] at h
      obtain ⟨⟨hsome, hmark⟩, hsize⟩ := h
      obtain ⟨mark, ha⟩ := Option.isSome_iff_exists.mp hsome
      have hlength : es.length = es'.length := by rw [hopena.length_block, hopenb.length_block, hsize]
      have hkeyse : keys es = keys es' := by
        simp only [keys, List.map_append] at hkeys
        exact List.append_inj_left hkeys (by simp [keys, hlength])
      have hone := hmarkb mark (hmark ▸ ha)
      rw [← hkeyse, hmarka mark ha, Option.some.injEq, Prod.mk.injEq] at hone
      obtain ⟨rfl, rfl⟩ := hone
      refine ⟨rfl, es, fs, gs, hopena.length_block, rfl, rfl, ?_, hp, hq⟩
      simpa using Spread.block hopena hmarka .nil

theorem getElem?_eq_of_shared (hp : Spread M.Has ps as) (hq : Spread M.Has qs bs) (hkeys : keys as = keys bs)
    (h : (sharedPieces ps qs)[i]? = some true) : as[i]? = bs[i]? := by
  fun_induction sharedPieces ps qs generalizing as bs i with
  | case1 | case2 => cases h
  | case3 ps qs ih =>
    cases hp with
    | entry e hp =>
      cases hq with
      | entry f hq =>
        cases i with
        | zero => cases h
        | succ i =>
          rw [List.getElem?_cons_succ, List.getElem?_cons_succ]
          exact ih hp hq (List.tail_eq_of_cons_eq hkeys) h
  | case4 a ps qs ih => exact ih hp.opened hq hkeys h
  | case5 ps b qs ih => exact ih hp hq.opened hkeys h
  | case6 a ps b qs hab ih =>
    obtain ⟨rfl, es, fs, gs, hlength, rfl, rfl, _, hp, hq⟩ := hp.of_shared hq hkeys hab
    rcases Nat.lt_or_ge i es.length with hi | hi
    · rw [List.getElem?_append_left hi, List.getElem?_append_left hi]
    · rw [List.getElem?_append_right (by simpa [← hlength] using hi)] at h
      rw [List.getElem?_append_right hi, List.getElem?_append_right hi]
      refine ih hp hq ?_ (by simpa [hlength] using h)
      simpa [keys] using hkeys
  | case7 a ps b qs hab hlt ih => exact ih hp.opened hq hkeys h
  | case8 a ps b qs hab hlt hgt ih => exact ih hp hq.opened hkeys h
  | case9 a ps b qs hab hlt hgt ih => exact ih hp.opened hq.opened hkeys h

/-- What a comparison finds for the first pieces of one side does not depend on the pieces after them. -/
theorem exists_cut (hp : Spread M.Has ps es) (hr : Spread M.Has rs cs) (hle : es.length ≤ cs.length) :
    ∃ found rest, found.length = es.length ∧ Spread M.Has rest (cs.drop es.length) ∧
      totalWeight rest ≤ totalWeight rs ∧
      ∀ qs, sharedPieces (ps ++ qs) rs = found ++ sharedPieces qs rest := by
  fun_induction sharedPieces ps rs generalizing es cs with
  | case1 rs =>
    cases hp
    exact ⟨[], rs, rfl, hr, Nat.le_refl _, fun qs => rfl⟩
  | case2 ps =>
    cases hr
    obtain rfl := List.eq_nil_of_length_eq_zero (Nat.le_zero.mp hle)
    exact ⟨[], [], rfl, .nil, Nat.le_refl _, fun qs => by simp⟩
  | case3 ps rs ih =>
    cases hp with
    | entry e hp =>
      cases hr with
      | entry c hr =>
        obtain ⟨found, rest, hlength, hrest, hweight, heq⟩ := ih hp hr (Nat.le_of_succ_le_succ hle)
        refine ⟨false :: found, rest, by simp [hlength], hrest, ?_, fun qs => ?_⟩
        · rw [totalWeight]
          omega
        · rw [List.cons_append, sharedPieces, heq, List.cons_append]
  | case4 a ps rs ih =>
    obtain ⟨found, rest, hlength, hrest, hweight, heq⟩ := ih hp.opened hr hle
    refine ⟨found, rest, hlength, hrest, hweight, fun qs => ?_⟩
    rw [List.cons_append, sharedPieces, ← List.append_assoc, heq]
  | case5 ps b rs ih =>
    obtain ⟨found, rest, hlength, hrest, hweight, heq⟩ := ih hp hr.opened hle
    refine ⟨found, rest, hlength, hrest, hweight.trans (totalWeight_opened b rs).le, fun qs => ?_⟩
    rw [List.cons_append, sharedPieces, ← List.cons_append, heq]
  | case6 a ps b rs hab ih =>
    cases hp with
    | @block _ _ es es' hopena _ hp =>
      cases hr with
      | @block _ _ cs cs' hopenb _ hr =>
        have hsize : a.size = b.size := by
          simp only [isShared, Bool.and_eq_true, beq_iff_eq] at hab
          exact hab.2
        have ha := hopena.length_block
        have hb := hopenb.length_block
        rw [List.length_append, List.length_append] at hle
        obtain ⟨found, rest, hlength, hrest, hweight, heq⟩ := ih hp hr (by omega)
        refine ⟨List.replicate a.size true ++ found, rest, by simp [hlength, ha], ?_, ?_, fun qs => ?_⟩
        · rwa [List.length_append, List.drop_append, List.drop_eq_nil_of_le (by omega), List.nil_append,
            show es.length + es'.length - cs.length = es'.length by omega]
        · rw [totalWeight]
          omega
        · rw [List.cons_append, sharedPieces, if_pos hab, heq, List.append_assoc]
  | case7 a ps b rs hab hlt ih =>
    obtain ⟨found, rest, hlength, hrest, hweight, heq⟩ := ih hp.opened hr hle
    refine ⟨found, rest, hlength, hrest, hweight, fun qs => ?_⟩
    rw [List.cons_append, sharedPieces, if_neg hab, if_pos hlt, ← List.append_assoc, heq]
  | case8 a ps b rs hab hlt hgt ih =>
    obtain ⟨found, rest, hlength, hrest, hweight, heq⟩ := ih hp hr.opened hle
    refine ⟨found, rest, hlength, hrest, hweight.trans (totalWeight_opened b rs).le, fun qs => ?_⟩
    rw [List.cons_append, sharedPieces, if_neg hab, if_neg hlt, if_pos hgt, ← List.cons_append, heq]
  | case9 a ps b rs hab hlt hgt ih =>
    obtain ⟨found, rest, hlength, hrest, hweight, heq⟩ := ih hp.opened hr.opened hle
    refine ⟨found, rest, hlength, hrest, hweight.trans (totalWeight_opened b rs).le, fun qs => ?_⟩
    rw [List.cons_append, sharedPieces, if_neg hab, if_neg hlt, if_neg hgt, ← List.append_assoc, heq]

theorem Piece.exists_of_isShared (h : p.isShared q) :
    ∃ a b, p = .block a ∧ q = .block b ∧ a.isShared b := by
  cases p with
  | entry => cases h
  | block a =>
    cases q with
    | entry => cases h
    | block b => exact ⟨a, b, rfl, rfl, h⟩

theorem getElem?_shared (hab : a.isShared b) (ps qs : List Piece) :
    (sharedPieces (.block a :: ps) (.block b :: qs))[i]? =
      if i < a.size then some true else (sharedPieces ps qs)[i - a.size]? := by
  rw [sharedPieces, if_pos hab, List.getElem?_append, List.length_replicate]
  split
  next hi => rw [List.getElem?_replicate, if_pos hi]
  next => rfl

theorem keys_right_inj (h : keys (es ++ fs) = keys (es ++ as)) : keys fs = keys as := by
  simpa [keys] using h

theorem exists_cut_block (hp : Spread M.Has [.block a] es) (hr : Spread M.Has rs cs)
    (hkeys : keys (es ++ fs) = keys cs) :
    ∃ (found : List Bool) (rest : List Piece) (ds : Dictionary α), Spread M.Has rest ds ∧ keys fs = keys ds ∧
      totalWeight rest ≤ totalWeight rs ∧
      ∀ qs (i : Nat), (sharedPieces (.block a :: qs) rs)[i]? =
        if i < a.size then found[i]? else (sharedPieces qs rest)[i - a.size]? := by
  have hlength : es.length = a.size := by simpa [totalSize, Piece.size] using hp.length_eq
  have hle : es.length ≤ cs.length := by
    have := congrArg List.length hkeys
    simp only [keys, List.length_map, List.length_append] at this
    omega
  have hfs : keys fs = keys (cs.drop es.length) := by
    rw [keys, keys, List.map_drop, ← keys, ← keys, ← hkeys]
    simp [keys]
  obtain ⟨found, rest, hfound, hrest, hweight, heq⟩ := exists_cut hp hr hle
  refine ⟨found, rest, _, hrest, hfs, hweight, fun qs i => ?_⟩
  rw [← List.singleton_append, heq, List.getElem?_append, hfound, hlength]

/-- Three rows of pieces with the same keys in them. -/
structure Aligned (M : Memory α) (ps qs rs : List Piece) (as bs cs : Dictionary α) : Prop where
  left : Spread M.Has ps as
  middle : Spread M.Has qs bs
  right : Spread M.Has rs cs
  keys_left : keys as = keys bs
  keys_right : keys bs = keys cs

/-- What the first shares with the second and the second with the third, the first shares with the third. -/
def Chained (ps qs rs : List Piece) : Prop :=
  ∀ i : Nat, (sharedPieces ps qs)[i]? = some true → (sharedPieces qs rs)[i]? = some true →
    (sharedPieces ps rs)[i]? = some true

theorem Aligned.symm (h : Aligned M ps qs rs as bs cs) : Aligned M rs qs ps cs bs as :=
  ⟨h.right, h.middle, h.left, h.keys_right.symm, h.keys_left.symm⟩

theorem Chained.symm (h : Chained ps qs rs) : Chained rs qs ps := by
  intro i hrq hqp
  rw [sharedPieces_comm] at hrq hqp ⊢
  exact h i hqp hrq

theorem Aligned.entries (h : Aligned M (.entry :: ps) (.entry :: qs) (.entry :: rs) as bs cs) :
    (∃ as bs cs, Aligned M ps qs rs as bs cs) ∧
      (Chained ps qs rs → Chained (.entry :: ps) (.entry :: qs) (.entry :: rs)) := by
  obtain ⟨hp, hq, hr, hab, hbc⟩ := h
  cases hp with | entry _ hp =>
  cases hq with | entry _ hq =>
  cases hr with | entry _ hr =>
  refine ⟨⟨_, _, _, hp, hq, hr, List.tail_eq_of_cons_eq hab, List.tail_eq_of_cons_eq hbc⟩, ?_⟩
  intro hchained i hpq hqr
  rw [sharedPieces] at hpq hqr ⊢
  cases i with
  | zero => cases hpq
  | succ i => exact hchained i hpq hqr

theorem Aligned.past_left (h : Aligned M (p :: ps) (q :: qs) rs as bs cs) (hpq : p.isShared q) :
    ∃ rest, totalWeight rest ≤ totalWeight rs ∧ (∃ as bs cs, Aligned M ps qs rest as bs cs) ∧
      (Chained ps qs rest → Chained (p :: ps) (q :: qs) rs) := by
  obtain ⟨hp, hq, hr, hab, hbc⟩ := h
  obtain ⟨a, _, rfl, rfl, hshared⟩ := Piece.exists_of_isShared hpq
  obtain ⟨rfl, es, fs, gs, _, rfl, rfl, hblock, hp, hq⟩ := hp.of_shared hq hab hshared
  obtain ⟨found, rest, ds, hrest, hkeys, hweight, heq⟩ := exists_cut_block hblock hr hbc
  refine ⟨rest, hweight, ⟨fs, gs, ds, hp, hq, hrest, keys_right_inj hab, hkeys⟩, ?_⟩
  intro hchained i hpq hqr
  rw [getElem?_shared hshared] at hpq
  rw [heq] at hqr ⊢
  split
  next hi => rwa [if_pos hi] at hqr
  next hi =>
    rw [if_neg hi] at hpq hqr
    exact hchained _ hpq hqr

theorem Aligned.past_outer (h : Aligned M (p :: ps) qs (r :: rs) as bs cs) (hpr : p.isShared r) :
    ∃ rest, totalWeight rest ≤ totalWeight qs ∧ (∃ as bs cs, Aligned M ps rest rs as bs cs) ∧
      (Chained ps rest rs → Chained (p :: ps) qs (r :: rs)) := by
  obtain ⟨hp, hq, hr, hab, hbc⟩ := h
  have hac := hab.trans hbc
  obtain ⟨a, _, rfl, rfl, hshared⟩ := Piece.exists_of_isShared hpr
  obtain ⟨rfl, es, fs, gs, _, rfl, rfl, hblock, hp, hr⟩ := hp.of_shared hr hac hshared
  obtain ⟨found, rest, ds, hrest, hkeys, hweight, heq⟩ := exists_cut_block hblock hq hab
  refine ⟨rest, hweight, ⟨fs, ds, gs, hp, hrest, hr, hkeys, ?_⟩, ?_⟩
  · exact hkeys.symm.trans (keys_right_inj hac)
  intro hchained i hpq hqr
  rw [heq] at hpq
  rw [sharedPieces_comm, heq] at hqr
  rw [getElem?_shared hshared]
  split
  next => rfl
  next hi =>
    rw [if_neg hi] at hpq hqr
    exact hchained _ hpq (sharedPieces_comm rs rest ▸ hqr)

theorem exists_first_lead (h : p ≠ .entry ∨ q ≠ .entry ∨ r ≠ .entry) :
    ∃ m, (∀ b, p = .block b ∨ q = .block b ∨ r = .block b → m ≤ b.lead) ∧
      ∃ b, b.lead ≤ m ∧ (p = .block b ∨ q = .block b ∨ r = .block b) := by
  classical
  have hblock : ∃ m b, b.lead = m ∧ (p = .block b ∨ q = .block b ∨ r = .block b) := by
    cases p <;> cases q <;> cases r <;> simp_all
  obtain ⟨b, hb, hfirst⟩ := Nat.find_spec hblock
  exact ⟨Nat.find hblock, fun b hb => Nat.find_min' hblock ⟨b, rfl, hb⟩, b, hb.le, hfirst⟩

/-- Where no two share the next block, what is opened of all three does not depend on the comparison. -/
theorem Aligned.past_lead (h : Aligned M (p :: ps) (q :: qs) (r :: rs) as bs cs) (hpq : ¬p.isShared q)
    (hqr : ¬q.isShared r) (hpr : ¬p.isShared r)
    (hm : ∀ b, p = .block b ∨ q = .block b ∨ r = .block b → m ≤ b.lead) :
    Aligned M (expand m p ++ ps) (expand m q ++ qs) (expand m r ++ rs) as bs cs ∧
      (Chained (expand m p ++ ps) (expand m q ++ qs) (expand m r ++ rs) →
        Chained (p :: ps) (q :: qs) (r :: rs)) := by
  have hp := fun b hb => hm b (.inl hb)
  have hq := fun b hb => hm b (.inr (.inl hb))
  have hr := fun b hb => hm b (.inr (.inr hb))
  constructor
  · exact ⟨h.left.expand m, h.middle.expand m, h.right.expand m, h.keys_left, h.keys_right⟩
  · intro hchained i
    rw [sharedPieces_expand hpq hp hq, sharedPieces_expand hqr hq hr, sharedPieces_expand hpr hp hr]
    exact hchained i

/-- Among maps with the same keys, sharing an entry is transitive. -/
theorem Aligned.chained (h : Aligned M ps qs rs as bs cs) : Chained ps qs rs := by
  induction hn : totalWeight ps + totalWeight qs + totalWeight rs using Nat.strongRecOn
    generalizing ps qs rs as bs cs with | _ n ih
  subst hn
  rcases ps with _ | ⟨p, ps⟩
  · intro i hpq
    simp [sharedPieces] at hpq
  rcases qs with _ | ⟨q, qs⟩
  · intro i hpq
    simp at hpq
  rcases rs with _ | ⟨r, rs⟩
  · intro i hpq hqr
    simp at hqr
  have hps := totalWeight_lt_cons p ps
  have hqs := totalWeight_lt_cons q qs
  have hrs := totalWeight_lt_cons r rs
  by_cases hpq : p.isShared q
  · obtain ⟨rest, hrest, ⟨as, bs, cs, hpast⟩, hchained⟩ := h.past_left hpq
    exact hchained (ih _ (by omega) hpast rfl)
  by_cases hqr : q.isShared r
  · obtain ⟨rest, hrest, ⟨cs, bs, as, hpast⟩, hchained⟩ := h.symm.past_left (Piece.isShared_comm q r ▸ hqr)
    exact (hchained (ih _ (by omega) hpast.symm rfl).symm).symm
  by_cases hpr : p.isShared r
  · obtain ⟨rest, hrest, ⟨as, bs, cs, hpast⟩, hchained⟩ := h.past_outer hpr
    exact hchained (ih _ (by omega) hpast rfl)
  by_cases hentries : p = .entry ∧ q = .entry ∧ r = .entry
  · obtain ⟨rfl, rfl, rfl⟩ := hentries
    obtain ⟨⟨as, bs, cs, hpast⟩, hchained⟩ := h.entries
    exact hchained (ih _ (by omega) hpast rfl)
  · obtain ⟨m, hleast, b, hb, hfirst⟩ := exists_first_lead (by simpa only [not_and_or] using hentries)
    obtain ⟨hpast, hchained⟩ := h.past_lead hpq hqr hpr hleast
    have hpm := totalWeight_expand_le m p ps
    have hqm := totalWeight_expand_le m q qs
    have hrm := totalWeight_expand_le m r rs
    refine hchained (ih _ ?_ hpast rfl)
    rcases hfirst with rfl | rfl | rfl
    · have := totalWeight_expand_lt hb ps
      omega
    · have := totalWeight_expand_lt hb qs
      omega
    · have := totalWeight_expand_lt hb rs
      omega

end Layout

end TextAdventure
