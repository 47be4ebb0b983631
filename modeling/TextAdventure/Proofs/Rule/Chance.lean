import TextAdventure.Proofs.Rule.Stateful

/-! # Chance

An index that is drawn is below the number that it is drawn for, whatever the generator has come to. So an
integer that is drawn is within its bounds, what is picked from a list is in it, and a rule that runs one
of its items by chance has the item that it runs. Nothing of the store but the generator changes by a draw.
-/
namespace TextAdventure

variable {s : Store} {n : Nat}

theorem Store.randomIndex_lt (h : 0 < n) (s : Store) : (s.randomIndex n).1 < n := by
  simp only [randomIndex, Random.Generator.index, if_neg (Nat.ne_of_gt h)]
  exact Random.Generator.accept_lt h _ _ _

/-- The computation gives a value with some property, and changes nothing but the generator. -/
def Draws (m : Eval Value) (s : Store) (holds : Value → Prop) : Prop :=
  ∃ v g, Eval.runOn m s = (.ok v, { s with random := g }) ∧ holds v

theorem draws_of_randomIndex {m : Eval Value} {f : Nat → Value} {holds : Value → Prop}
    (hm : Eval.runOn m s = (.ok (f (s.randomIndex n).1), (s.randomIndex n).2))
    (hf : holds (f (s.randomIndex n).1)) : Draws m s holds :=
  ⟨_, _, hm, hf⟩

namespace Builtin

/-- There are as many integers between two bounds as are drawn for, unless 64 bits do not hold that
number. -/
theorem rangeSize_eq {lo hi : Int64} (h : lo.toInt ≤ hi.toInt) :
    (rangeSize lo.toInt hi.toInt : Int) =
      Min.min (hi.toInt - lo.toInt + 1) Int64.maxValue.toInt := by
  have hmin : Int64.minValue.toInt ≤ 0 := by decide
  have hmax : 1 ≤ Int64.maxValue.toInt := by decide
  simp only [rangeSize, Number.toInt_clampInt64]
  omega

theorem draws_below {n : Int64} (h : 1 ≤ n.toInt) (s : Store) :
    Draws (random.run [.int n]) s fun v =>
      ∃ r : Int64, v = .int r ∧ 0 ≤ r.toInt ∧ r.toInt < n.toInt := by
  have hlt : (s.randomIndex n.toInt.toNat).1 < n.toInt.toNat := Store.randomIndex_lt (by omega) s
  have hle := n.toInt_le
  have hmin : Int64.minValue.toInt ≤ 0 := by decide
  refine draws_of_randomIndex (n := n.toInt.toNat) (f := .ofNat) rfl ⟨_, rfl, ?_⟩
  rw [Number.toInt_clampInt64]
  omega

theorem draws_between {lo hi : Int64} (h : lo.toInt ≤ hi.toInt) (s : Store) :
    Draws (random.run [.int lo, .int hi]) s fun v =>
      ∃ r : Int64, v = .int r ∧ lo.toInt ≤ r.toInt ∧ r.toInt ≤ hi.toInt ∧
        r.toInt = lo.toInt + (s.randomIndex (rangeSize lo.toInt hi.toInt)).1 := by
  have hsize := rangeSize_eq h
  have hmax : 1 ≤ Int64.maxValue.toInt := by decide
  have hlt := Store.randomIndex_lt (n := rangeSize lo.toInt hi.toInt) (by omega) s
  have hlo := lo.minValue_le_toInt
  have hhi := hi.toInt_le
  refine draws_of_randomIndex (n := rangeSize lo.toInt hi.toInt)
    (f := fun offset => .int (Number.clampInt64 (lo.toInt + offset))) rfl ⟨_, rfl, ?_⟩
  -- the sum is at most the upper bound, so it is not clamped
  rw [Number.toInt_clampInt64]
  omega

theorem draws_member {items : List Value} (h : items ≠ []) (s : Store) :
    Draws (pick.run [.list items]) s (· ∈ items) := by
  have hlt := Store.randomIndex_lt (List.length_pos_iff.mpr h) s
  refine draws_of_randomIndex (n := items.length) (f := fun i => items[i]?.getD .nil) ?_ ?_
  · cases items with
    | nil => exact absurd rfl h
    | cons item items => rfl
  · rw [List.getElem?_eq_getElem hlt]
    exact List.getElem_mem hlt

end Builtin

namespace Rule

theorem resolveAt_eq {rules : List Rule} {i : Nat} (h : i < rules.length) :
    resolveAt rules i = rules[i].resolve := by
  induction rules generalizing i with
  | nil => exact absurd h (Nat.not_lt_zero i)
  | cons rule rules ih =>
    cases i with
    | zero => rw [resolveAt, List.getElem_cons_zero]
    | succ i => rw [resolveAt, List.getElem_cons_succ, ih (Nat.lt_of_succ_lt_succ h)]

theorem runOn_choice {rules : List Rule} (h : rules ≠ []) (s : Store) :
    ∃ item ∈ rules, ∃ g, Eval.runOn (choice rules).resolve s =
      Eval.runOn item.resolve { s with random := g } := by
  have hlt := Store.randomIndex_lt (List.length_pos_iff.mpr h) s
  refine ⟨_, List.getElem_mem hlt, (s.random.index rules.length).2, ?_⟩
  rw [resolve, Eval.runOn_bind, Eval.runOn_modifyGet]
  exact congrArg (Eval.runOn · (s.randomIndex rules.length).2) (resolveAt_eq hlt)

theorem componentOf_random {path : String} {v : Value} {component : Rule}
    (h : componentOf "random" path v = .ok component) :
    ∃ rule, ofValue path v = .ok rule ∧ component = choice rule.items ∧ rule.items ≠ [] := by
  obtain ⟨rule, hrule, hcomponent⟩ := Error.bind_eq_ok_iff.mp h
  obtain ⟨rules, hitems, rfl⟩ := Error.map_eq_ok_iff.mp hcomponent
  obtain ⟨rfl, hne⟩ := someItems_eq_ok_iff.mp hitems
  exact ⟨rule, hrule, rfl, hne⟩

end Rule

open Builtin (rangeSize)

/-- Whatever the state of the generator, what is drawn stays in range: an integer below a bound, an integer
between two bounds, an item of a list and the item of a random rule, of which no other item is run. Between
two bounds the integer is the sum of the lower one and the index that was drawn, so nothing is clamped. -/
theorem draws_stay_in_range (s : Store) :
    (∀ n : Int64, 1 ≤ n.toInt → Draws (Builtin.random.run [.int n]) s fun v =>
      ∃ r : Int64, v = .int r ∧ 0 ≤ r.toInt ∧ r.toInt < n.toInt) ∧
    (∀ lo hi : Int64, lo.toInt ≤ hi.toInt →
      (rangeSize lo.toInt hi.toInt : Int) = min (hi.toInt - lo.toInt + 1) Int64.maxValue.toInt ∧
      Draws (Builtin.random.run [.int lo, .int hi]) s fun v =>
        ∃ r : Int64, v = .int r ∧ lo.toInt ≤ r.toInt ∧ r.toInt ≤ hi.toInt ∧
          r.toInt = lo.toInt + (s.randomIndex (rangeSize lo.toInt hi.toInt)).1) ∧
    (∀ items : List Value, items ≠ [] → Draws (Builtin.pick.run [.list items]) s (· ∈ items)) ∧
    ∀ (path : String) (v : Value) (component : Rule),
      Rule.componentOf "random" path v = .ok component →
      ∃ rule, Rule.ofValue path v = .ok rule ∧ component = .choice rule.items ∧
        ∃ item ∈ rule.items, ∃ g, Eval.runOn component.resolve s =
          Eval.runOn item.resolve { s with random := g } := by
  refine ⟨fun n hn => Builtin.draws_below hn s,
    fun lo hi h => ⟨Builtin.rangeSize_eq h, Builtin.draws_between h s⟩,
    fun items h => Builtin.draws_member h s, ?_⟩
  intro path v component h
  obtain ⟨rule, hrule, rfl, hne⟩ := Rule.componentOf_random h
  exact ⟨rule, hrule, rfl, Rule.runOn_choice hne s⟩

/-- Two lines, one of which is to be written. -/
def tossed : Value :=
  .list [.string "$Heads.", .string "$Tails."]

/-- There is one integer of 64 bits that has to be drawn below `1`, and there are more between the least
and the greatest than can be drawn for. -/
theorem draws_stay_in_range_extremes :
    (1 ≤ (1 : Int64).toInt ∧
      Draws (Builtin.random.run [.int 1]) (.new 7 64) fun v => ∃ r : Int64, v = .int r ∧ r.toInt = 0) ∧
    (Int64.minValue.toInt ≤ Int64.maxValue.toInt ∧
      (rangeSize Int64.minValue.toInt Int64.maxValue.toInt : Int) = Int64.maxValue.toInt ∧
      Draws (Builtin.random.run [.int Int64.minValue, .int Int64.maxValue]) (.new 7 64) fun v =>
        ∃ r : Int64, v = .int r ∧ r.toInt < Int64.maxValue.toInt) ∧
    ([.nil, .bool true] ≠ ([] : List Value) ∧
      Draws (Builtin.pick.run [.list [.nil, .bool true]]) (.new 7 64) (· ∈ [.nil, .bool true])) ∧
    Rule.componentOf "random" "coin/random" tossed = .ok (.choice [.line "Heads.", .line "Tails."]) ∧
      ∃ text ∈ ["Heads.", "Tails."], ∃ g,
        Eval.runOn (Rule.choice [.line "Heads.", .line "Tails."]).resolve (.new 7 64) =
          Eval.runOn (Rule.line text).resolve { Store.new 7 64 with random := g } := by
  obtain ⟨hbelow, hbetween, hpick, hrule⟩ := draws_stay_in_range (.new 7 64)
  have hcompiled : Rule.componentOf "random" "coin/random" tossed =
      .ok (.choice [.line "Heads.", .line "Tails."]) := rfl
  obtain ⟨hsize, v, g, hrun, r, rfl, hlo, hhi, hr⟩ :=
    hbetween Int64.minValue Int64.maxValue (by decide)
  have hmin : Int64.minValue.toInt < -1 := by decide
  have hmax : 0 < Int64.maxValue.toInt := by decide
  refine ⟨⟨by decide, ?_⟩, ⟨by decide, by omega, _, g, hrun, r, rfl, ?_⟩,
    ⟨nofun, hpick _ nofun⟩, hcompiled, ?_⟩
  · obtain ⟨v, g, hrun, r, rfl, hlo, hhi⟩ := hbelow 1 (by decide)
    have hone : (1 : Int64).toInt = 1 := rfl
    exact ⟨_, g, hrun, r, rfl, by omega⟩
  · have hlt := Store.randomIndex_lt (n := rangeSize Int64.minValue.toInt Int64.maxValue.toInt)
      (by omega) (.new 7 64)
    omega
  · obtain ⟨rule, hvalue, hchoice, item, hitem, g, hrun⟩ := hrule _ _ _ hcompiled
    cases hvalue
    cases hitem with
    | head => exact ⟨"Heads.", by decide, g, hrun⟩
    | tail _ hitem =>
      cases List.mem_singleton.mp hitem
      exact ⟨"Tails.", by decide, g, hrun⟩

end TextAdventure
