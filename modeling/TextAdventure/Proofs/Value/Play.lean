import TextAdventure.Proofs.Eval.Staying
import TextAdventure.Proofs.Value.Memory

/-! # The values of a play

Values come about in a play in a few ways. They are made, put together, read and held, and scripts, calls and
rules run in between. All of this stays within one memory that grows. So whether values of a play are the
same does not depend on how they came about: equality of them is symmetric, and it is transitive but where
rounding makes different integers the same.
-/
namespace TextAdventure
open Eval (runOn)

/-- The store that a play has come to, and values that were come by on the way. -/
inductive Play : Store → List Value → Prop
  | new (seed : UInt64) (maxCalls : Nat) : Play (.new seed maxCalls) []
  | plain {s : Store} {seen : List Value} {v : Value} (h : Play s seen) (hv : v.isPlain = true) :
    Play s (v :: seen)
  | function {s : Store} {seen : List Value} (h : Play s seen) (callable : Callable) :
    Play s.freshIdentity.2 (.function ⟨s.freshIdentity.1, callable⟩ :: seen)
  | list {s : Store} {seen items : List Value} (h : Play s seen) (hitems : ∀ v ∈ items, v ∈ seen) :
    Play s (.list items :: seen)
  | record {s : Store} {seen : List Value} {entries : Bindings} (h : Play s seen)
    (hentries : ∀ entry ∈ entries, entry.2 ∈ seen) : Play s (.ofEntries entries :: seen)
  | hold {s : Store} {seen : List Value} {v : Value} (h : Play s seen) (hv : v ∈ seen) :
    Play (s.hold v).2 ((s.hold v).1 :: seen)
  | read {s : Store} {seen : List Value} {path : String} {v : Value} (h : Play s seen)
    (hv : s.getPath path = .ok v) : Play s (v :: seen)
  | define {s : Store} {seen : List Value} {v : Value} (h : Play s seen) (name : String) (hv : v ∈ seen) :
    Play (s.define name v) seen
  | setPath {s t : Store} {seen : List Value} {path : String} {v : Value} (h : Play s seen) (hv : v ∈ seen)
    (ht : s.setPath path v = .ok t) : Play t seen
  | insertEntity {s : Store} {seen : List Value} {properties : Bindings} (h : Play s seen) (id : String)
    (hproperties : ∀ entry ∈ properties, entry.2 ∈ seen) : Play (s.insertEntity id properties) seen
  | openScope {s : Store} {seen : List Value} {scope : Scope} (h : Play s seen)
    (hscope : ∀ bindings, scope = .block bindings → ∀ entry ∈ bindings, entry.2 ∈ seen) :
    Play (s.openScope scope) seen
  | closeScope {s : Store} {seen : List Value} (h : Play s seen) : Play s.closeScope seen
  | script {s : Store} {seen : List Value} (h : Play s seen) (script : Script) :
    Play (runOn script.resolve s).2 (((runOn script.resolve s).1.map Resolved.get).toOption.toList ++ seen)
  | call {s : Store} {seen args : List Value} (h : Play s seen) (f : Function)
    (hargs : ∀ v ∈ args, v ∈ seen) :
    Play (runOn (f.call args) s).2 ((runOn (f.call args) s).1.toOption.toList ++ seen)
  | rule {s : Store} {seen : List Value} (h : Play s seen) (rule : Rule) :
    Play (runOn rule.resolve s).2 seen

namespace Value

variable {M M₁ : Memory Value} {s t : Store} {seen : List Value} {v x y z : Value}

/-- All values in the store and the values seen live in the memory, and marks are left for more. -/
structure Housed (M : Memory Value) (s : Store) (seen : List Value) : Prop where
  store : s.At memoryRealm M
  seen : ∀ v ∈ seen, v.LivesIn M

namespace Housed

theorem grown (h : Housed M s seen) (hM : M.Extends M₁) (ht : t.At memoryRealm M₁) : Housed M₁ t seen :=
  ⟨ht, fun v hv => LivesIn.mono hM (h.seen v hv)⟩

theorem cons (h : Housed M s seen) (hv : v.LivesIn M) : Housed M s (v :: seen) :=
  ⟨h.store, List.forall_mem_cons.mpr ⟨hv, h.seen⟩⟩

theorem exists_ran {α : Type} {φ : Eval.Post memoryRealm α} {m : Eval α} (h : Housed M s seen)
    (hm : Eval.Stays φ M m) :
    ∃ M₁, Housed M₁ (runOn m s).2 seen ∧ ∀ a, (runOn m s).1 = .ok a → φ.holds M₁ a := by
  obtain ⟨M₁, hM, ht, ha⟩ := hm s h.store
  exact ⟨M₁, h.grown hM ht, ha⟩

theorem append_toList {r : Except Error Value} (h : Housed M s seen) (hr : ∀ v, r = .ok v → v.LivesIn M) :
    Housed M s (r.toOption.toList ++ seen) := by
  cases r with
  | error e => exact h
  | ok v => exact h.cons (hr v rfl)

end Housed

/-- All values of a play live in one memory. -/
theorem exists_housed (h : Play s seen) : ∃ M, Housed M s seen := by
  induction h with
  | new seed maxCalls => exact ⟨fun _ _ => none, ⟨⟨nofun, nofun, nofun⟩, fun _ _ _ => rfl⟩, nofun⟩
  | plain _ hv ih =>
    obtain ⟨M, ih⟩ := ih
    exact ⟨M, ih.cons (eachMap_of_isPlain hv)⟩
  | @function s seen _ callable ih =>
    obtain ⟨M, ih⟩ := ih
    have hstore : s.freshIdentity.2.At memoryRealm M := ⟨ih.store.within.of_same rfl rfl rfl,
      fun mark hmark => ih.store.free mark (Nat.le_of_succ_le hmark)⟩
    exact ⟨M, Housed.cons ⟨hstore, ih.seen⟩ (eachMap_function _)⟩
  | list _ hitems ih =>
    obtain ⟨M, ih⟩ := ih
    exact ⟨M, ih.cons (eachMap_list_iff.mpr fun v hv => ih.seen v (hitems v hv))⟩
  | record _ hentries ih =>
    obtain ⟨M, ih⟩ := ih
    exact ⟨M, ih.cons (livesIn_ofEntries fun entry hentry => ih.seen _ (hentries entry hentry))⟩
  | hold _ hv ih =>
    obtain ⟨M, ih⟩ := ih
    obtain ⟨M₁, hM, ht, hheld⟩ := ih.store.hold (ih.seen _ hv)
    exact ⟨M₁, (ih.grown hM ht).cons hheld⟩
  | read _ hv ih =>
    obtain ⟨M, ih⟩ := ih
    exact ⟨M, ih.cons (ih.store.within.getPath hv)⟩
  | define _ name hv ih =>
    obtain ⟨M, ih⟩ := ih
    exact ⟨M, ih.store.bindAt 0 name (ih.seen _ hv), ih.seen⟩
  | setPath _ hv ht ih =>
    obtain ⟨M, ih⟩ := ih
    obtain ⟨M₁, hM, ht⟩ := ih.store.setKeys (ih.seen _ hv) ht
    exact ⟨M₁, ih.grown hM ht⟩
  | insertEntity _ id hproperties ih =>
    obtain ⟨M, ih⟩ := ih
    have hstore := ih.store.within.insertEntity id fun entry hentry => ih.seen _ (hproperties entry hentry)
    exact ⟨M, ⟨hstore, ih.store.free⟩, ih.seen⟩
  | openScope _ hscope ih =>
    obtain ⟨M, ih⟩ := ih
    exact ⟨M, ih.store.openScope fun bindings hb entry hentry => ih.seen _ (hscope bindings hb entry hentry),
      ih.seen⟩
  | closeScope _ ih =>
    obtain ⟨M, ih⟩ := ih
    exact ⟨M, ih.store.closeScope, ih.seen⟩
  | script _ script ih =>
    obtain ⟨M, ih⟩ := ih
    obtain ⟨M₁, hran, hgiven⟩ := ih.exists_ran (Eval.stays_script script)
    refine ⟨M₁, hran.append_toList fun v hv => ?_⟩
    obtain ⟨r, hr, rfl⟩ := Error.map_eq_ok_iff.mp hv
    exact hgiven r hr
  | call _ f hargs ih =>
    obtain ⟨M, ih⟩ := ih
    obtain ⟨M₁, hran, hgiven⟩ := ih.exists_ran (Eval.stays_call f fun v hv => ih.seen v (hargs v hv))
    exact ⟨M₁, hran.append_toList hgiven⟩
  | rule _ rule ih =>
    obtain ⟨M, ih⟩ := ih
    obtain ⟨M₁, hran, _⟩ := ih.exists_ran (Eval.stays_rule rule)
    exact ⟨M₁, hran⟩

/-- Equality is symmetric. Among values that share the blocks of one memory, as all values of a play do, it
is transitive exactly where rounding does not make different integers the same. -/
theorem same_comm_and_trans_iff :
    (∀ v w : Value, v.same w = w.same v) ∧
      (∀ (M : Memory Value) (x y z : Value), x.DrawnFrom M → y.DrawnFrom M → z.DrawnFrom M →
        x.same y → y.same z → (x.same z ↔ ¬Merges x y z)) ∧
      ∀ (s : Store) (seen : List Value), Play s seen → ∀ x ∈ seen, ∀ y ∈ seen, ∀ z ∈ seen,
        x.same y → y.same z → (x.same z ↔ ¬Merges x y z) := by
  refine ⟨same_comm, fun M x y z => same_iff_not_merges M x, fun s seen h x hx y hy z hz => ?_⟩
  obtain ⟨M, hM⟩ := exists_housed h
  exact same_iff_not_merges M x (hM.seen x hx).drawnFrom (hM.seen y hy).drawnFrom (hM.seen z hz).drawnFrom

/-- Three lists that share a map with a NaN in it. -/
theorem same_trans_of_shared_nan :
    let v := map (.leaf (some 0) 1) [("score", float (0.0 / 0.0))]
    let x := list [v, int 2, entity "key"]
    let y := list [v, float (Number.ofInt64 2), string "key"]
    let z := list [v, int 2, string "key"]
    (∃ s seen, Play s seen ∧ x ∈ seen ∧ y ∈ seen ∧ z ∈ seen) ∧ x.same y ∧ y.same z ∧ x.same z := by
  intro v x y z
  have hnan : Play _ [float (0.0 / 0.0)] := (Play.new 0 64).plain rfl
  have hrecord : Play _ (.ofEntries [("score", float (0.0 / 0.0))] :: _) := hnan.record (by simp)
  have hmap : Play _ (v :: _) := hrecord.hold List.mem_cons_self
  have hparts : Play _ (string "key" :: float (Number.ofInt64 2) :: entity "key" :: int 2 :: v :: _) :=
    (((hmap.plain rfl).plain rfl).plain rfl).plain rfl
  have hx : Play _ (x :: _) := hparts.list (by simp)
  have hy : Play _ (y :: x :: _) := hx.list (by simp)
  have hz : Play _ (z :: y :: x :: _) := hy.list (by simp)
  have htrans := same_comm_and_trans_iff.2.2 _ _ hz x (by simp) y (by simp) z (by simp)
  have hvv : v.same v := same_map_self rfl rfl
  have htwo : (int 2).same (float (Number.ofInt64 2)) :=
    ((Number.standsFor_ofInt64 2).beq_iff (Number.standsFor_ofInt64 2)).mpr rfl
  have hxy : x.same y := by simpa [x, y, same, sameAll, hvv] using htwo
  have hyz : y.same z := by simpa [y, z, same, sameAll, hvv] using htwo
  refine ⟨⟨_, _, hz, by simp, by simp, by simp⟩, hxy, hyz, (htrans hxy hyz).mpr fun hmerges => ?_⟩
  change Merges (list _) (list _) (list _) at hmerges
  cases hmerges with
  | list i ha hb hc h =>
    match i with
    | 0 =>
      cases ha
      cases hb
      exact h.ne.1 rfl
    | 1 =>
      cases ha
      cases hb
      cases hc
      exact merges_int_iff.mp h rfl
    | 2 =>
      cases ha
      cases hb
      cases h
    | i + 3 => cases ha

/-- From `2 ^ 53` on, two different integers may be the same as one float. -/
theorem not_same_trans_beyond_doubles :
    let x := Number.ofInt64 9007199254740992
    (int 9007199254740992).same (float x) ∧ (float x).same (int 9007199254740993) ∧
      ¬(int 9007199254740992).same (int 9007199254740993) := by
  have h := Number.standsFor_ofInt64 9007199254740992
  refine ⟨(h.beq_iff h).mpr rfl, ?_, by decide⟩
  exact ((Number.standsFor_ofInt64 9007199254740993).beq_iff h).mpr (by decide +kernel)

end TextAdventure.Value
