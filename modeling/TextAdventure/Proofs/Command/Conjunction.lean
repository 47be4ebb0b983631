import Mathlib.Algebra.GroupWithZero.Nat
import Mathlib.Algebra.Order.BigOperators.Group.List
import Mathlib.Algebra.Order.Group.Nat
import TextAdventure.Proofs.Command.Acceptance

/-! # Conjunctions

A conjunction asks its members one after the other and adds up what they say, so it does not matter how
they are grouped into conjunctions of their own. The main statement is `all_flattens`, about tests that
report in full and with scores as machine words.
-/
namespace TextAdventure

namespace Dictionary

variable {α : Type u}

theorem insertAll_insert_of_not_mem {key : String} {entries : List (String × α)}
    (h : ∀ entry ∈ entries, entry.1 ≠ key) (value : α) (d : Dictionary α) :
    insertAll entries (insert key value d) = insert key value (insertAll entries d) := by
  induction entries generalizing d with
  | nil => rfl
  | cons entry rest ih =>
    have hrest := ih fun e he => h e (List.mem_cons_of_mem _ he)
    have hkey : entry.1 ≠ key := h entry List.mem_cons_self
    calc insertAll (entry :: rest) (insert key value d)
        = insertAll rest (insert entry.1 entry.2 (insert key value d)) := rfl
      _ = insertAll rest (insert key value (insert entry.1 entry.2 d)) := by
          rw [insert_comm hkey]
      _ = insert key value (insertAll (entry :: rest) d) := hrest _

theorem insertAll_insert {e : Dictionary α} (h : Sorted e) (key : String) (value : α)
    (d : Dictionary α) : insertAll (insert key value e) d = insert key value (insertAll e d) := by
  unfold Sorted at h
  induction e generalizing d with
  | nil => rfl
  | cons entry rest ih =>
    obtain ⟨k, v⟩ := entry
    obtain ⟨hlt, hrest⟩ := List.pairwise_cons.mp h
    have hne : ∀ a : String, ¬ k < a → ∀ other ∈ rest, other.1 ≠ a := by
      intro a hnot other hother heq
      exact hnot (heq ▸ hlt other hother)
    by_cases hk : k = key
    · subst hk
      have hcomm := fun value => insertAll_insert_of_not_mem (hne k Std.lt_irrefl) value d
      calc insertAll (insert k value ((k, v) :: rest)) d
          = insertAll rest (insert k value d) := by rw [insert, if_pos rfl]; rfl
        _ = insert k value (insert k v (insertAll rest d)) := by rw [hcomm, insert_insert]
        _ = insert k value (insertAll ((k, v) :: rest) d) := by rw [← hcomm]; rfl
    · by_cases hkey : key < k
      · have hfresh : ∀ other ∈ (k, v) :: rest, other.1 ≠ key := by
          intro other hother
          rcases List.mem_cons.mp hother with rfl | hother
          · exact hk
          · exact hne key (fun hgt => Std.lt_irrefl (Std.lt_trans hkey hgt)) other hother
        rw [insert, if_neg hk, if_pos hkey]
        exact insertAll_insert_of_not_mem hfresh value d
      · rw [insert, if_neg hk, if_neg hkey]
        exact ih hrest (insert k v d)

theorem insertAll_insertAll {e : Dictionary α} (h : Sorted e) (entries : List (String × α))
    (d : Dictionary α) : insertAll (insertAll entries e) d = insertAll entries (insertAll e d) := by
  induction entries generalizing e with
  | nil => rfl
  | cons entry rest ih =>
    have hrest := ih (sorted_insert h entry.1 entry.2)
    rw [insertAll_insert h] at hrest
    exact hrest

theorem get?_insertAll {e : Dictionary α} (h : Sorted e) (key : String) (d : Dictionary α) :
    get? key (insertAll e d) = (get? key e).or (get? key d) := by
  unfold Sorted at h
  induction e generalizing d with
  | nil => rfl
  | cons entry rest ih =>
    obtain ⟨k, v⟩ := entry
    obtain ⟨hlt, hrest⟩ := List.pairwise_cons.mp h
    have hinsert : get? key (insertAll ((k, v) :: rest) d) =
        (get? key rest).or (get? key (insert k v d)) := ih hrest _
    rw [hinsert, get?_insert, get?]
    by_cases hk : k = key
    · have hnone : get? key rest = none := by
        cases hget : get? key rest with
        | none => rfl
        | some w =>
          have hself := hlt (key, w) (mem_of_get? hget)
          rw [hk] at hself
          exact absurd hself Std.lt_irrefl
      rw [if_pos hk, if_pos hk.symm, hnone]
      rfl
    · rw [if_neg hk, if_neg (Ne.symm hk)]

end Dictionary

open Dictionary (Sorted)

namespace Hit

theorem sorted_ofScore (score : Nat) : Sorted (ofScore score).captures :=
  List.Pairwise.nil

theorem merge_assoc {b : Hit} (h : Sorted b.captures) (a c : Hit) :
    (a.merge b).merge c = a.merge (b.merge c) := by
  simp only [merge, Nat.add_assoc, Dictionary.insertAll_insertAll h]

theorem sorted_merge {a : Hit} (h : Sorted a.captures) (b : Hit) : Sorted (a.merge b).captures :=
  Dictionary.sorted_insertAll h b.captures

end Hit

namespace Matcher

variable {c : Command} {owner : String} {ms : List Matcher} {hit whole : Hit}

/-- A hit with what further matchers add to it, if they all accept the command. -/
def extend (c : Command) (owner : String) (ms : List Matcher) (hit : Hit) : Option Hit :=
  ms.foldlM (fun hit m => (m c owner).map hit.merge) hit

theorem extend_cons (m : Matcher) (ms : List Matcher) (hit : Hit) :
    extend c owner (m :: ms) hit = ((m c owner).map hit.merge).bind (extend c owner ms) :=
  rfl

theorem extend_append (ms ns : List Matcher) (hit : Hit) :
    extend c owner (ms ++ ns) hit = (extend c owner ms hit).bind (extend c owner ns) :=
  List.foldlM_append

theorem extend_cons_eq_some_iff {m : Matcher} : extend c owner (m :: ms) hit = some whole ↔
    ∃ first, m c owner = some first ∧ extend c owner ms (hit.merge first) = some whole := by
  rw [extend_cons]
  cases m c owner <;> simp

theorem map_merge_extend (ms : List Matcher) (hit : Hit) {acc : Hit} (h : Sorted acc.captures) :
    (extend c owner ms acc).map hit.merge = extend c owner ms (hit.merge acc) := by
  induction ms generalizing acc with
  | nil => rfl
  | cons m ms ih =>
    rw [extend_cons, extend_cons]
    cases m c owner with
    | none => rfl
    | some first =>
      simp only [Option.map_some, Option.bind_some, Hit.merge_assoc h]
      exact ih (Hit.sorted_merge h first)

theorem map_merge_all (ms : List Matcher) (hit : Hit) :
    (all ms c owner).map hit.merge = extend c owner ms hit :=
  map_merge_extend ms hit (Hit.sorted_ofScore 0)

/-- Members that are conjunctions may be replaced by their members. -/
theorem all_map_all (groups : List (List Matcher)) : all (groups.map all) = all groups.flatten := by
  have hextend : ∀ c owner hit,
      extend c owner (groups.map all) hit = extend c owner groups.flatten hit := by
    intro c owner
    induction groups with
    | nil => exact fun _ => rfl
    | cons group groups ih =>
      intro hit
      rw [List.map_cons, List.flatten_cons, extend_cons, extend_append, map_merge_all]
      congr 1
      funext hit
      exact ih hit
  funext c owner
  exact hextend c owner (.ofScore 0)

theorem sorted_extend (hhit : Sorted hit.captures) (h : extend c owner ms hit = some whole) :
    Sorted whole.captures := by
  induction ms generalizing hit with
  | nil =>
    cases h
    exact hhit
  | cons m ms ih =>
    obtain ⟨first, -, h⟩ := extend_cons_eq_some_iff.mp h
    exact ih (Hit.sorted_merge hhit first) h

theorem sorted_all (h : all ms c owner = some whole) : Sorted whole.captures :=
  sorted_extend (Hit.sorted_ofScore 0) h

/-- The score of a matcher for a command, zero if it does not accept the command. -/
def score (m : Matcher) (c : Command) (owner : String) : Nat :=
  ((m c owner).map Hit.score).getD 0

theorem score_of_eq_some {m : Matcher} (h : m c owner = some hit) : m.score c owner = hit.score := by
  rw [score, h]
  rfl

theorem score_extend (h : extend c owner ms hit = some whole) :
    whole.score = hit.score + (ms.map fun m => m.score c owner).sum := by
  induction ms generalizing hit with
  | nil =>
    cases h
    rfl
  | cons m ms ih =>
    obtain ⟨first, hfirst, h⟩ := extend_cons_eq_some_iff.mp h
    rw [ih h, List.map_cons, List.sum_cons, score_of_eq_some hfirst, Hit.merge, Nat.add_assoc]

theorem score_all (h : all ms c owner = some whole) :
    whole.score = (ms.map fun m => m.score c owner).sum := by
  have hsum := score_extend h
  rwa [Hit.ofScore, Nat.zero_add] at hsum

/-- The value that a matcher captures under a name, if any. -/
def capture? (name : String) (m : Matcher) (c : Command) (owner : String) : Option Value :=
  (m c owner).bind fun hit => Dictionary.get? name hit.captures

theorem capture?_extend (hsorted : ∀ m ∈ ms, ∀ h ∈ m c owner, Sorted h.captures)
    (h : extend c owner ms hit = some whole) (name : String) :
    Dictionary.get? name whole.captures =
      (ms.filterMap fun m => m.capture? name c owner).getLast?.or
        (Dictionary.get? name hit.captures) := by
  rw [List.getLast?_filterMap]
  induction ms generalizing hit with
  | nil =>
    cases h
    rfl
  | cons m ms ih =>
    obtain ⟨first, hfirst, h⟩ := extend_cons_eq_some_iff.mp h
    have hcapture : m.capture? name c owner = Dictionary.get? name first.captures := by
      rw [capture?, hfirst]
      rfl
    have hmerge := Dictionary.get?_insertAll (hsorted m List.mem_cons_self first hfirst) name
    rw [ih (fun m hm => hsorted m (List.mem_cons_of_mem _ hm)) h, Hit.merge, hmerge,
      List.reverse_cons, List.findSome?_append, List.findSome?_singleton, hcapture, Option.or_assoc]

theorem capture?_all (hsorted : ∀ m ∈ ms, ∀ h ∈ m c owner, Sorted h.captures)
    (h : all ms c owner = some whole) (name : String) :
    Dictionary.get? name whole.captures =
      (ms.filterMap fun m => m.capture? name c owner).getLast? := by
  rw [capture?_extend hsorted h name]
  exact Option.or_none

theorem all_eq_none_iff : all ms c owner = none ↔ ∃ m ∈ ms, m c owner = none := by
  have haccepts : (all ms c owner).isSome = ms.all fun m => accepts m c owner := accepts_all ms
  rw [← Option.not_isSome_iff_eq_none, haccepts, List.all_eq_true]
  simp [accepts]

end Matcher

/-- What a test says of a command: whether it accepts it, and a score and captures, which may be there
even if it does not. -/
structure Report where
  accepted : Bool
  score : UInt32
  captures : Bindings
  sorted : Sorted captures

/-- A matcher that reports in full. -/
abbrev Test := Command → String → Report

namespace Report

def miss : Report :=
  ⟨false, 0, [], List.Pairwise.nil⟩

/-- What counts of a report. -/
def hit? (r : Report) : Option Hit :=
  if r.accepted then some ⟨r.score.toNat, r.captures⟩ else none

def ofHit? : (hit : Option Hit) → (∀ h ∈ hit, Sorted h.captures) → Report
  | none, _ => miss
  | some hit, h => ⟨true, .ofNat hit.score, hit.captures, h hit rfl⟩

theorem ofHit?_congr {a b : Option Hit} (h : a = b) (ha : ∀ h ∈ a, Sorted h.captures)
    (hb : ∀ h ∈ b, Sorted h.captures) : ofHit? a ha = ofHit? b hb := by
  subst h
  rfl

theorem hit?_ofHit? {hit : Option Hit} (hfits : ∀ h ∈ hit, h.score < 2 ^ 32)
    (hsorted : ∀ h ∈ hit, Sorted h.captures) : (ofHit? hit hsorted).hit? = hit := by
  cases hit with
  | none => rfl
  | some h => simp [ofHit?, hit?, UInt32.toNat_ofNat_of_lt' (hfits h rfl)]

end Report

namespace Test

def matcher (t : Test) : Matcher := fun c owner =>
  (t c owner).hit?

def all (tests : List Test) : Test := fun c owner =>
  .ofHit? (Matcher.all (tests.map matcher) c owner) fun _ => Matcher.sorted_all

/-- The sum of the scores that tests report, those of rejections included. -/
def total (tests : List Test) (c : Command) (owner : String) : Nat :=
  (tests.map fun t => (t c owner).score.toNat).sum

variable {c : Command} {owner : String} {tests : List Test}

theorem matcher_eq_none_iff {t : Test} : t.matcher c owner = none ↔ (t c owner).accepted = false := by
  simp [matcher, Report.hit?]

theorem sorted_matcher {t : Test} {hit : Hit} (h : t.matcher c owner = some hit) :
    Sorted hit.captures := by
  unfold matcher Report.hit? at h
  split at h
  · cases h
    exact (t c owner).sorted
  · cases h

theorem score_matcher_le (t : Test) (c : Command) (owner : String) :
    t.matcher.score c owner ≤ (t c owner).score.toNat := by
  unfold Matcher.score matcher Report.hit?
  split
  · exact Nat.le_refl _
  · exact Nat.zero_le _

theorem score_all_le {whole : Hit} (h : Matcher.all (tests.map matcher) c owner = some whole) :
    whole.score ≤ total tests c owner := by
  rw [Matcher.score_all h, total, List.map_map]
  exact List.sum_le_sum fun t _ => score_matcher_le t c owner

end Test

/-- A test, or a conjunction of conjunctions nested in any way. -/
inductive Nesting where
  | one (t : Test)
  | all (members : List Nesting)

namespace Nesting

mutual

def test : Nesting → Test
  | one t => t
  | all members => Test.all (tests members)

def tests : List Nesting → List Test
  | [] => []
  | n :: ns => test n :: tests ns

end

mutual

/-- The tests that a nesting is made of, in order. -/
def leaves : Nesting → List Test
  | one t => [t]
  | all members => leavesOf members

def leavesOf : List Nesting → List Test
  | [] => []
  | n :: ns => leaves n ++ leavesOf ns

end

variable {c : Command} {owner : String}

theorem total_leavesOf_cons (n : Nesting) (ns : List Nesting) :
    Test.total (leavesOf (n :: ns)) c owner =
      Test.total (leaves n) c owner + Test.total (leavesOf ns) c owner := by
  rw [leavesOf, Test.total, List.map_append, List.sum_append]
  rfl

mutual

theorem map_merge_test (n : Nesting) (hit : Hit) (hfits : Test.total (leaves n) c owner < 2 ^ 32) :
    ((test n).matcher c owner).map hit.merge =
      Matcher.extend c owner ((leaves n).map Test.matcher) hit := by
  cases n with
  | one t =>
    rw [test, leaves, List.map_singleton, Matcher.extend_cons]
    cases (t.matcher c owner).map hit.merge <;> rfl
  | all members =>
    rw [leaves] at hfits ⊢
    have hwhole : Matcher.all ((tests members).map Test.matcher) c owner =
        Matcher.all ((leavesOf members).map Test.matcher) c owner :=
      extend_tests members (.ofScore 0) hfits
    have hword : ∀ h ∈ Matcher.all ((tests members).map Test.matcher) c owner, h.score < 2 ^ 32 := by
      intro h hmem
      exact Nat.lt_of_le_of_lt (Test.score_all_le (hwhole.symm.trans hmem)) hfits
    have hmatcher : (test (all members)).matcher c owner =
        Matcher.all ((tests members).map Test.matcher) c owner := by
      rw [test]
      exact Report.hit?_ofHit? hword _
    rw [hmatcher, hwhole, Matcher.map_merge_all]

theorem extend_tests (ns : List Nesting) (hit : Hit)
    (hfits : Test.total (leavesOf ns) c owner < 2 ^ 32) :
    Matcher.extend c owner ((tests ns).map Test.matcher) hit =
      Matcher.extend c owner ((leavesOf ns).map Test.matcher) hit := by
  cases ns with
  | nil => rfl
  | cons n ns =>
    rw [total_leavesOf_cons] at hfits
    have hn := map_merge_test n hit (by omega)
    rw [tests, leavesOf, List.map_cons, List.map_append, Matcher.extend_cons, Matcher.extend_append, hn]
    congr 1
    funext hit
    exact extend_tests ns hit (by omega)

end

/-- The nesting of groups, each a conjunction of its tests. -/
def ofGroups (groups : List (List Test)) : List Nesting :=
  groups.map fun group => all (group.map one)

theorem tests_eq_map (ns : List Nesting) : tests ns = ns.map test := by
  induction ns with
  | nil => rfl
  | cons n ns ih => rw [tests, ih, List.map_cons]

theorem leavesOf_eq_flatMap (ns : List Nesting) : leavesOf ns = ns.flatMap leaves := by
  induction ns with
  | nil => rfl
  | cons n ns ih => rw [leavesOf, ih, List.flatMap_cons]

theorem tests_ofGroups (groups : List (List Test)) : (ofGroups groups).map test = groups.map Test.all := by
  rw [ofGroups, List.map_map]
  refine List.map_congr_left fun group _ => ?_
  have htests : tests (group.map one) = group := by
    rw [tests_eq_map, List.map_map]
    exact List.map_id'' (fun t => by rw [Function.comp_apply, test]) group
  rw [Function.comp_apply, test, htests]

theorem leavesOf_ofGroups (groups : List (List Test)) : leavesOf (ofGroups groups) = groups.flatten := by
  have hgroup : ∀ group : List Test, leaves (all (group.map one)) = group := by
    intro group
    rw [leaves, leavesOf_eq_flatMap, List.flatMap_map]
    simp only [leaves, List.flatMap_singleton']
  rw [leavesOf_eq_flatMap, ofGroups, List.flatMap_map]
  simp only [hgroup, List.flatMap_id']

/-- A conjunction of nestings is that of the tests that they are made of. -/
theorem all_tests {ns : List Nesting} (hfits : Test.total (leavesOf ns) c owner < 2 ^ 32) :
    Test.all (ns.map test) c owner = Test.all (leavesOf ns) c owner := by
  refine Report.ofHit?_congr ?_ _ _
  rw [← tests_eq_map]
  exact extend_tests ns (.ofScore 0) hfits

end Nesting

namespace Test

variable {c : Command} {owner : String} {tests : List Test}

theorem all_of_all_accept (h : ∀ t ∈ tests, (t c owner).accepted = true)
    (hfits : total tests c owner < 2 ^ 32) :
    (all tests c owner).accepted = true ∧ (all tests c owner).score.toNat = total tests c owner ∧
      ∀ name, Dictionary.get? name (all tests c owner).captures =
        (tests.filterMap fun t => Dictionary.get? name (t c owner).captures).getLast? := by
  have hhit : ∀ t ∈ tests, t.matcher c owner =
      some ⟨(t c owner).score.toNat, (t c owner).captures⟩ := by
    intro t ht
    simp [matcher, Report.hit?, h t ht]
  cases hall : Matcher.all (tests.map matcher) c owner with
  | none =>
    obtain ⟨m, hm, hnone⟩ := Matcher.all_eq_none_iff.mp hall
    obtain ⟨t, ht, rfl⟩ := List.mem_map.mp hm
    cases (hhit t ht).symm.trans hnone
  | some whole =>
    have hreport : all tests c owner =
        .ofHit? (some whole) fun _ hmem => Matcher.sorted_all (hall.trans hmem) :=
      Report.ofHit?_congr hall _ _
    have hscore : whole.score = total tests c owner := by
      rw [Matcher.score_all hall, total, List.map_map]
      congr 1
      exact List.map_congr_left fun t ht => Matcher.score_of_eq_some (hhit t ht)
    have hsorted : ∀ m ∈ tests.map matcher, ∀ hit ∈ m c owner, Sorted hit.captures := by
      intro m hm hit hhit
      obtain ⟨t, _, rfl⟩ := List.mem_map.mp hm
      exact sorted_matcher hhit
    rw [hreport]
    refine ⟨rfl, ?_, fun name => ?_⟩
    · rw [← hscore] at hfits ⊢
      exact UInt32.toNat_ofNat_of_lt' hfits
    · rw [Report.ofHit?, Matcher.capture?_all hsorted hall name, List.filterMap_map]
      congr 1
      refine List.filterMap_congr fun t ht => ?_
      rw [Function.comp_apply, Matcher.capture?, hhit t ht]
      rfl

theorem all_of_rejects (h : ∃ t ∈ tests, (t c owner).accepted = false) :
    all tests c owner = .miss := by
  obtain ⟨t, ht, hrejects⟩ := h
  have hnone : Matcher.all (tests.map matcher) c owner = none :=
    Matcher.all_eq_none_iff.mpr ⟨t.matcher, List.mem_map_of_mem ht, matcher_eq_none_iff.mpr hrejects⟩
  exact Report.ofHit?_congr hnone _ nofun

/-- However tests are grouped into conjunctions, and conjunctions into conjunctions again, the report is
that of the conjunction of all of them: if all accept the command, it accepts it with the sum of their
scores, and of the values that they capture under a name it captures the last; if one rejects the
command, it is the plain rejection. Matchers, whose scores have no bound, may always be regrouped. -/
theorem all_flattens (groups : List (List Test)) (c : Command) (owner : String)
    (hfits : total groups.flatten c owner < 2 ^ 32) :
    (∀ parts : List (List Matcher), Matcher.all (parts.map Matcher.all) = Matcher.all parts.flatten) ∧
    all (groups.map all) c owner = all groups.flatten c owner ∧
    (∀ ns : List Nesting, Nesting.leavesOf ns = groups.flatten →
      all (ns.map Nesting.test) c owner = all groups.flatten c owner) ∧
    ((∀ t ∈ groups.flatten, (t c owner).accepted = true) →
      (all groups.flatten c owner).accepted = true ∧
      (all groups.flatten c owner).score.toNat = total groups.flatten c owner ∧
      ∀ name, Dictionary.get? name (all groups.flatten c owner).captures =
        (groups.flatten.filterMap fun t => Dictionary.get? name (t c owner).captures).getLast?) ∧
    ((∃ t ∈ groups.flatten, (t c owner).accepted = false) → all groups.flatten c owner = .miss) := by
  have hnested : ∀ ns : List Nesting, Nesting.leavesOf ns = groups.flatten →
      all (ns.map Nesting.test) c owner = all groups.flatten c owner := by
    intro ns hleaves
    rw [← hleaves] at hfits ⊢
    exact Nesting.all_tests hfits
  refine ⟨Matcher.all_map_all, ?_, hnested, fun h => all_of_all_accept h hfits, all_of_rejects⟩
  rw [← Nesting.tests_ofGroups]
  exact hnested _ (Nesting.leavesOf_ofGroups groups)

/-- Accepts every command with a score and one capture. -/
def capturing (score : UInt32) (name : String) (v : Value) : Test := fun _ _ =>
  ⟨true, score, [(name, v)], List.pairwise_singleton _ _⟩

/-- The later of two captures under one name stays, in whichever group it is. -/
theorem all_flattens_pots : all ([[capturing 5 "x" (.int 1), capturing 10 "y" .nil], [],
      [capturing 5 "x" (.int 2)]].map all) .empty "pot" =
    all [capturing 5 "x" (.int 1), capturing 10 "y" .nil, capturing 5 "x" (.int 2)] .empty "pot" ∧
    (all [capturing 5 "x" (.int 1), capturing 10 "y" .nil, capturing 5 "x" (.int 2)] .empty
      "pot").score.toNat = 20 ∧
    Dictionary.get? "x" (all [capturing 5 "x" (.int 1), capturing 10 "y" .nil,
      capturing 5 "x" (.int 2)] .empty "pot").captures = some (.int 2) := by
  obtain ⟨-, hgroups, -, haccept, -⟩ := all_flattens [[capturing 5 "x" (.int 1), capturing 10 "y" .nil],
    [], [capturing 5 "x" (.int 2)]] .empty "pot" (by decide)
  obtain ⟨-, hscore, hcaptures⟩ := haccept (by simp [capturing])
  exact ⟨hgroups, hscore, hcaptures "x"⟩

end Test

end TextAdventure
