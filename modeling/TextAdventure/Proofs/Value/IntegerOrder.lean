import TextAdventure.Function.Builtin
import TextAdventure.Proofs.Number.Double

/-! # The order of integers

Integers are compared as the doubles nearest to them, while equality compares the integers themselves. So
the comparison operators, and with them the least and the greatest of several integers, respect the order
of the integers as far as rounding keeps them apart.
-/
namespace TextAdventure
open Number

/-- What a comparison of two integers gives if it decides how they are ordered. -/
structure DecidesOrder (a b : Int64) : Prop where
  lt : BinaryOp.lt.apply (.int a) (.int b) = .ok (.bool (a.toInt < b.toInt))
  le : BinaryOp.le.apply (.int a) (.int b) = .ok (.bool (a.toInt ≤ b.toInt))
  gt : BinaryOp.gt.apply (.int a) (.int b) = .ok (.bool (b.toInt < a.toInt))
  ge : BinaryOp.ge.apply (.int a) (.int b) = .ok (.bool (b.toInt ≤ a.toInt))
  exactlyOne : ∃! op, op ∈ [BinaryOp.lt, .eq, .gt] ∧ op.apply (.int a) (.int b) = .ok (.bool true)

variable {a b : Int64}

theorem BinaryOp.compareWith_int (op : BinaryOp) (a b : Int64) :
    op.compareWith (.int a) (.int b) =
      .ok (.bool (op.holds (compare (nearest a.toInt) (nearest b.toInt)))) := by
  have h := (standsFor_ofInt64 a).compareFloats_eq (standsFor_ofInt64 b)
  simp only [compareWith, Value.compareValues, Value.number?, h]
  rfl

theorem comparisons_int (a b : Int64) :
    let x := nearest a.toInt
    let y := nearest b.toInt
    BinaryOp.lt.apply (.int a) (.int b) = .ok (.bool (x < y)) ∧
      BinaryOp.le.apply (.int a) (.int b) = .ok (.bool (x ≤ y)) ∧
      BinaryOp.gt.apply (.int a) (.int b) = .ok (.bool (y < x)) ∧
      BinaryOp.ge.apply (.int a) (.int b) = .ok (.bool (y ≤ x)) := by
  simp only [BinaryOp.apply, BinaryOp.compareWith_int]
  rcases Int.lt_trichotomy (nearest a.toInt) (nearest b.toInt) with h | h | h
  · rw [compare_lt_iff_lt.mpr h]
    simp [BinaryOp.holds, h, h.le, h.not_gt, h.not_ge]
  · rw [compare_eq_iff_eq.mpr h]
    simp [BinaryOp.holds, h]
  · rw [compare_gt_iff_gt.mpr h]
    simp [BinaryOp.holds, h, h.le, h.not_gt, h.not_ge]

theorem equality_int (a b : Int64) : BinaryOp.eq.apply (.int a) (.int b) = .ok (.bool (a = b)) := by
  simp [BinaryOp.apply, Value.same, Bool.beq_eq_decide_eq]

theorem nearest_lt_iff_of_distinguished (h : nearest a.toInt = nearest b.toInt → a = b) :
    nearest a.toInt < nearest b.toInt ↔ a.toInt < b.toInt := by
  rw [nearest_lt_iff, and_iff_left_iff_imp]
  intro hlt heq
  exact hlt.ne (congrArg Int64.toInt (h heq))

theorem decidesOrder_iff : DecidesOrder a b ↔ (nearest a.toInt = nearest b.toInt → a = b) := by
  obtain ⟨hlt, hle, hgt, hge⟩ := comparisons_int a b
  constructor
  · intro h heq
    have hab := hlt.symm.trans h.lt
    have hba := hgt.symm.trans h.gt
    simp [heq] at hab hba
    exact Int64.toInt_inj.mp (Int.le_antisymm hba hab)
  · intro h
    have hab := nearest_lt_iff_of_distinguished h
    have hba := nearest_lt_iff_of_distinguished fun heq => (h heq.symm).symm
    have heq := equality_int a b
    simp only [hab] at hlt
    simp only [hba] at hgt
    simp only [← Int64.toInt_inj] at heq
    refine ⟨hlt, ?_, hgt, ?_, ?_⟩
    · rw [hle, decide_eq_decide.mpr (by rw [← not_lt, hba, not_lt])]
    · rw [hge, decide_eq_decide.mpr (by rw [← not_lt, hab, not_lt])]
    rcases Int.lt_trichotomy a.toInt b.toInt with h | h | h
    · exact ⟨.lt, by simp [hlt, h], by simp [heq, hgt, h.ne, h.not_gt]⟩
    · exact ⟨.eq, by simp [heq, h], by simp [hlt, hgt, h]⟩
    · exact ⟨.gt, by simp [hgt, h], by simp [hlt, heq, h.ne', h.not_gt]⟩

theorem extreme_int {beats : Float → Float → Bool} {r : Int64 → Int64 → Prop} [DecidableRel r]
    (hbeats : ∀ a b, beats (ofInt64 a) (ofInt64 b) = decide (r a b)) (ns : List Int64)
    (best : Option Int64) :
    Builtin.extreme beats (best.map fun n => (ofInt64 n, .int n)) (ns.map .int) =
      .ok (((ns.foldl (List.argAux r) best).map Value.int).getD .nil) := by
  induction ns generalizing best with
  | nil => cases best <;> rfl
  | cons n ns ih =>
    cases best with
    | none => exact ih (some n)
    | some m =>
      have hstep : Builtin.extreme beats (some (ofInt64 m, .int m)) (Value.int n :: ns.map .int) =
          Builtin.extreme beats ((List.argAux r (some m) n).map fun k => (ofInt64 k, .int k))
            (ns.map .int) := by
        change Builtin.extreme beats (if beats (ofInt64 n) (ofInt64 m) then some (ofInt64 n, .int n)
          else some (ofInt64 m, .int m)) _ = _
        simp only [hbeats, List.argAux, decide_eq_true_iff]
        split <;> rfl
      exact hstep.trans (ih _)

/-- A builtin finds an integer among integers, given to it one by one or as a list. -/
def Builtin.Finds (b : Builtin) (ns : List Int64) (m : Int64) : Prop :=
  m ∈ ns ∧ ∀ s, Eval.runOn (b.run (ns.map .int)) s = (.ok (.int m), s) ∧
    Eval.runOn (b.run [.list (ns.map .int)]) s = (.ok (.int m), s)

theorem spread_int (ns : List Int64) : Builtin.spread (ns.map .int) = ns.map .int := by
  rcases ns with _ | ⟨n, _ | ⟨m, ns⟩⟩ <;> rfl

theorem Builtin.finds_of_search {builtin : Builtin} {beats : Float → Float → Bool}
    {r : Int64 → Int64 → Prop} [DecidableRel r]
    (hbeats : ∀ a b, beats (ofInt64 a) (ofInt64 b) = decide (r a b))
    (hrun : ∀ args, builtin.run args = Eval.ofExcept (extreme beats none (spread args)))
    {ns : List Int64} {m : Int64} (hmem : m ∈ ns) (hm : m ∈ ns.foldl (List.argAux r) none) :
    builtin.Finds ns m := by
  have hsearch : extreme beats none (ns.map .int) = .ok (.int m) := by
    rw [Option.mem_def] at hm
    simpa [hm] using extreme_int hbeats ns none
  refine ⟨hmem, fun s => ⟨?_, ?_⟩⟩
  · rw [hrun, spread_int, hsearch]
    rfl
  · rw [hrun, spread, hsearch]
    rfl

theorem min_finds (n : Int64) (ns : List Int64) :
    ∃ m ∈ List.argmin (fun k : Int64 => nearest k.toInt) (n :: ns), Builtin.min.Finds (n :: ns) m := by
  cases h : List.argmin (fun k : Int64 => nearest k.toInt) (n :: ns) with
  | none => exact absurd (List.argmin_eq_none.mp h) (List.cons_ne_nil n ns)
  | some m =>
    refine ⟨m, rfl, Builtin.finds_of_search (fun a b => ?_) (fun _ => rfl) (List.argmin_mem h) h⟩
    exact decide_eq_decide.mpr ((standsFor_ofInt64 a).lt_iff (standsFor_ofInt64 b))

theorem max_finds (n : Int64) (ns : List Int64) :
    ∃ m ∈ List.argmax (fun k : Int64 => nearest k.toInt) (n :: ns), Builtin.max.Finds (n :: ns) m := by
  cases h : List.argmax (fun k : Int64 => nearest k.toInt) (n :: ns) with
  | none => exact absurd (List.argmax_eq_none.mp h) (List.cons_ne_nil n ns)
  | some m =>
    refine ⟨m, rfl, Builtin.finds_of_search (fun a b => ?_) (fun _ => rfl) (List.argmax_mem h) h⟩
    exact decide_eq_decide.mpr ((standsFor_ofInt64 b).lt_iff (standsFor_ofInt64 a))

/-- An integer whose double is as small as any is the least, if it is so among those with its double. -/
theorem least_iff_of_nearest_le {m : Int64} {ns : List Int64}
    (h : ∀ k ∈ ns, nearest m.toInt ≤ nearest k.toInt) :
    (∀ k ∈ ns, m.toInt ≤ k.toInt) ↔
      ∀ k ∈ ns, nearest k.toInt = nearest m.toInt → m.toInt ≤ k.toInt := by
  refine ⟨fun hm k hk _ => hm k hk, fun hm k hk => ?_⟩
  rcases (h k hk).lt_or_eq with hlt | heq
  · exact (nearest_lt_iff.mp hlt).1.le
  · exact hm k hk heq.symm

theorem greatest_iff_of_nearest_le {m : Int64} {ns : List Int64}
    (h : ∀ k ∈ ns, nearest k.toInt ≤ nearest m.toInt) :
    (∀ k ∈ ns, k.toInt ≤ m.toInt) ↔
      ∀ k ∈ ns, nearest k.toInt = nearest m.toInt → k.toInt ≤ m.toInt := by
  refine ⟨fun hm k hk _ => hm k hk, fun hm k hk => ?_⟩
  rcases (h k hk).lt_or_eq with hlt | heq
  · exact (nearest_lt_iff.mp hlt).1.le
  · exact hm k hk heq

/-- Comparison decides the order of two integers, and `min` and `max` find the least and the greatest of
several, exactly as far as different integers do not become one double. -/
theorem integers_ordered_iff_distinguished (a b n : Int64) (ns : List Int64) :
    (DecidesOrder a b ↔ (nearest a.toInt = nearest b.toInt → a = b)) ∧
    (∃ m, Builtin.min.Finds (n :: ns) m ∧
      ((∀ k ∈ n :: ns, m.toInt ≤ k.toInt) ↔
        ∀ k ∈ n :: ns, nearest k.toInt = nearest m.toInt → m.toInt ≤ k.toInt)) ∧
    ∃ m, Builtin.max.Finds (n :: ns) m ∧
      ((∀ k ∈ n :: ns, k.toInt ≤ m.toInt) ↔
        ∀ k ∈ n :: ns, nearest k.toInt = nearest m.toInt → k.toInt ≤ m.toInt) := by
  let double : Int64 → Int := fun k => nearest k.toInt
  refine ⟨decidesOrder_iff, ?_, ?_⟩
  · obtain ⟨m, hm, hfinds⟩ := min_finds n ns
    have hleast := fun k hk => List.le_of_mem_argmin (f := double) (a := k) hk hm
    exact ⟨m, hfinds, least_iff_of_nearest_le hleast⟩
  · obtain ⟨m, hm, hfinds⟩ := max_finds n ns
    have hgreatest := fun k hk => List.le_of_mem_argmax (f := double) (a := k) hk hm
    exact ⟨m, hfinds, greatest_iff_of_nearest_le hgreatest⟩

/-- From `2 ^ 53` on, an integer and the next one may be neither less, nor equal, nor greater. -/
theorem not_decidesOrder_beyond_doubles :
    ¬DecidesOrder 9007199254740992 9007199254740993 ∧
      Builtin.min.Finds [9007199254740993, 9007199254740992] 9007199254740993 := by
  refine ⟨fun h => ?_, by simp, fun s => ⟨rfl, rfl⟩⟩
  have := decidesOrder_iff.mp h (by decide +kernel)
  exact absurd this (by decide)

end TextAdventure
