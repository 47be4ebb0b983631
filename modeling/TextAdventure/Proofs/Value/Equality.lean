import TextAdventure.Proofs.Number.Double
import TextAdventure.Proofs.Dictionary.Sharing

/-! # Equality of values

Equality is symmetric at every depth. It is transitive but for one thing: two integers may both be the same
as a float although they differ, since an integer is rounded when it is compared to a float. So if a first
value is the same as a second and that the same as a third, then the first is the same as the third exactly
if it has nowhere an integer where the second has a float and the third another integer.
-/
namespace TextAdventure.Value
open Dictionary (keys)

/-- Somewhere the first and the third have different integers and the second has a float. -/
inductive Merges : Value → Value → Value → Prop
  | int {a b : Int64} (x : Float) (h : a ≠ b) : Merges (.int a) (.float x) (.int b)
  | list {as bs cs : List Value} {a b c : Value} (i : Nat) (ha : as[i]? = some a) (hb : bs[i]? = some b)
      (hc : cs[i]? = some c) (h : Merges a b c) : Merges (.list as) (.list bs) (.list cs)
  | map {l m n : Layout} {as bs cs : List (String × Value)} {a b c : String × Value} (i : Nat)
      (ha : as[i]? = some a) (hb : bs[i]? = some b) (hc : cs[i]? = some c) (h : Merges a.2 b.2 c.2) :
      Merges (.map l as) (.map m bs) (.map n cs)

/-- A map with these blocks and entries occurs in the value. -/
inductive HasMap (layout : Layout) (entries : List (String × Value)) : Value → Prop
  | self : HasMap layout entries (.map layout entries)
  | list {items : List Value} {v : Value} (hv : v ∈ items) (h : HasMap layout entries v) :
      HasMap layout entries (.list items)
  | map {outer : Layout} {fields : List (String × Value)} {field : String × Value}
      (hfield : field ∈ fields) (h : HasMap layout entries field.2) :
      HasMap layout entries (.map outer fields)

/-- Every map that occurs in the value has the property, as blocks with entries. -/
def EachMap (P : Layout → List (String × Value) → Prop) (v : Value) : Prop :=
  ∀ layout entries, v.HasMap layout entries → P layout entries

/-- The maps in the value consist of blocks of the memory. -/
abbrev DrawnFrom (M : Memory Value) (v : Value) : Prop :=
  v.EachMap fun layout entries => Layout.Spread M.Has [.block layout] entries

variable {M : Memory Value} {x y z u v w : Value} {items as bs cs : List Value} {l m n : Layout}
  {entries es fs gs : List (String × Value)} {shared : List Bool} {a b : Int64} {s t : String} {i : Nat}

section
variable {P : Layout → List (String × Value) → Prop}

@[simp] theorem eachMap_function (f : Function) : EachMap P (.function f) := nofun

@[simp] theorem eachMap_list_iff : EachMap P (.list items) ↔ ∀ v ∈ items, v.EachMap P := by
  refine ⟨fun h v hv layout entries hmap => h layout entries (.list hv hmap), ?_⟩
  rintro h layout entries (_ | ⟨hv, hmap⟩)
  exact h _ hv layout entries hmap

@[simp] theorem eachMap_map_iff : EachMap P (.map l es) ↔ P l es ∧ ∀ e ∈ es, e.2.EachMap P := by
  refine ⟨fun h => ⟨h l es .self, fun e he layout entries hmap => h layout entries (.map he hmap)⟩, ?_⟩
  rintro ⟨hP, h⟩ layout entries (_ | _ | ⟨he, hmap⟩)
  · exact hP
  · exact h _ he layout entries hmap

theorem EachMap.imp {Q : Layout → List (String × Value) → Prop} (hPQ : ∀ l es, P l es → Q l es)
    (h : v.EachMap P) : v.EachMap Q :=
  fun layout entries hmap => hPQ layout entries (h layout entries hmap)

end

theorem merges_int_iff {x : Float} : Merges (.int a) (.float x) (.int b) ↔ a ≠ b := by
  refine ⟨?_, .int x⟩
  rintro ⟨_, h⟩
  exact h

theorem Merges.ne (h : Merges u v w) : u ≠ v ∧ v ≠ w ∧ u ≠ w := by
  induction h with
  | int x h => exact ⟨nofun, nofun, fun heq => h (by injection heq)⟩
  | list i ha hb hc h ih =>
    refine ⟨fun heq => ih.1 ?_, fun heq => ih.2.1 ?_, fun heq => ih.2.2 ?_⟩ <;> cases heq
    · exact Option.some.inj (ha.symm.trans hb)
    · exact Option.some.inj (hb.symm.trans hc)
    · exact Option.some.inj (ha.symm.trans hc)
  | map i ha hb hc h ih =>
    refine ⟨fun heq => ih.1 ?_, fun heq => ih.2.1 ?_, fun heq => ih.2.2 ?_⟩ <;> cases heq
    · exact congrArg Prod.snd (Option.some.inj (ha.symm.trans hb))
    · exact congrArg Prod.snd (Option.some.inj (hb.symm.trans hc))
    · exact congrArg Prod.snd (Option.some.inj (ha.symm.trans hc))

theorem same_nil_iff : same .nil y ↔ .nil = y := by
  cases y <;> simp [same]

theorem same_bool_iff {b : Bool} : same (.bool b) y ↔ .bool b = y := by
  cases y <;> simp [same]

theorem same_int_iff : same (.int a) y ↔ .int a = y ∨ ∃ x, .float x = y ∧ Number.ofInt64 a == x := by
  cases y <;> simp [same]

theorem same_float_iff {x : Float} :
    same (.float x) y ↔ (∃ x', .float x' = y ∧ x == x') ∨ ∃ a, .int a = y ∧ Number.ofInt64 a == x := by
  cases y <;> simp [same]

theorem same_string_iff : same (.string s) y ↔ .string s = y ∨ .entity s = y := by
  cases y with
  | entity t => simpa [same] using eq_comm
  | _ => simp [same]

theorem same_entity_iff : same (.entity s) y ↔ .string s = y ∨ .entity s = y := by
  cases y <;> simp [same]

theorem same_function_iff {f : Function} :
    same (.function f) y ↔ ∃ g, .function g = y ∧ f.identity = g.identity := by
  cases y <;> simp [same]

theorem same_list_iff : same (.list as) y ↔ ∃ bs, .list bs = y ∧ sameAll as bs := by
  cases y <;> simp [same]

theorem same_map_iff : same (.map l es) y ↔ ∃ m fs, .map m fs = y ∧ sameEntries (l.shared m) es fs := by
  cases y <;> simp [same]

theorem sameAll_iff : sameAll as bs ↔ as.length = bs.length ∧
    ∀ (i : Nat) a b, as[i]? = some a → bs[i]? = some b → same a b := by
  induction as generalizing bs with
  | nil => cases bs <;> simp [sameAll]
  | cons a as ih =>
    cases bs with
    | nil => simp [sameAll]
    | cons b bs =>
      rw [sameAll, Bool.and_eq_true, ih, List.length_cons, List.length_cons, Nat.succ_inj]
      constructor
      · rintro ⟨hab, hlength, hrest⟩
        refine ⟨hlength, fun i c d hc hd => ?_⟩
        cases i with
        | zero =>
          cases hc
          cases hd
          exact hab
        | succ i => exact hrest i c d hc hd
      · rintro ⟨hlength, hall⟩
        exact ⟨hall 0 a b rfl rfl, hlength, fun i => hall (i + 1)⟩

theorem sameEntries_iff : sameEntries shared es fs ↔ keys es = keys fs ∧
    ∀ (i : Nat) (e f : String × Value), es[i]? = some e → fs[i]? = some f →
      shared[i]? = some true ∨ same e.2 f.2 := by
  induction es generalizing shared fs with
  | nil => cases fs <;> simp [sameEntries, keys]
  | cons e es ih =>
    cases fs with
    | nil => simp [sameEntries, keys]
    | cons f fs =>
      have hhead : shared.headD false = true ↔ shared[0]? = some true := by cases shared <;> simp
      have htail : ∀ i : Nat, shared.tail[i]? = shared[i + 1]? := fun i => List.getElem?_tail
      have hkeys : keys (e :: es) = keys (f :: fs) ↔ e.1 = f.1 ∧ keys es = keys fs := List.cons_eq_cons
      rw [sameEntries, Bool.and_eq_true, Bool.and_eq_true, Bool.or_eq_true, beq_iff_eq, ih, hhead, hkeys]
      constructor
      · rintro ⟨⟨hkey, hfirst⟩, hrest, hall⟩
        refine ⟨⟨hkey, hrest⟩, fun i c d hc hd => ?_⟩
        cases i with
        | zero =>
          cases hc
          cases hd
          exact hfirst
        | succ i => exact htail i ▸ hall i c d hc hd
      · rintro ⟨⟨hkey, hrest⟩, hall⟩
        exact ⟨⟨hkey, hall 0 e f rfl rfl⟩, hrest, fun i => htail i ▸ hall (i + 1)⟩

mutual

theorem same_comm : ∀ x y : Value, same x y = same y x
  | .nil, y => by cases y <;> rfl
  | .bool b, y => by
    cases y with
    | bool b' => exact BEq.comm
    | _ => rfl
  | .int a, y => by
    cases y with
    | int b => exact BEq.comm
    | _ => rfl
  | .float x, y => by
    cases y with
    | float y => exact Number.beq_comm x y
    | _ => rfl
  | .string s, y => by
    cases y with
    | string t => exact BEq.comm
    | _ => rfl
  | .list as, y => by
    cases y with
    | list bs => exact sameAll_comm as bs
    | _ => rfl
  | .map l es, y => by
    cases y with
    | map m fs =>
      rw [same, same, Layout.shared, Layout.shared, Layout.sharedPieces_comm, sameEntries_comm _ es fs]
    | _ => rfl
  | .entity s, y => by
    cases y with
    | entity t => exact BEq.comm
    | _ => rfl
  | .function f, y => by
    cases y with
    | function g => exact BEq.comm
    | _ => rfl

theorem sameAll_comm : ∀ as bs : List Value, sameAll as bs = sameAll bs as
  | [], [] | [], _ :: _ | _ :: _, [] => rfl
  | a :: as, b :: bs => by rw [sameAll, sameAll, same_comm a b, sameAll_comm as bs]

theorem sameEntries_comm (shared : List Bool) :
    ∀ es fs : List (String × Value), sameEntries shared es fs = sameEntries shared fs es
  | [], [] | [], _ :: _ | _ :: _, [] => rfl
  | (k, a) :: es, (l, b) :: fs => by
    rw [sameEntries, sameEntries, same_comm a b, sameEntries_comm shared.tail es fs, BEq.comm]

end

theorem exists_getElem?_of_length_eq {α : Type} {ps qs : List α} {p : α} (hp : ps[i]? = some p)
    (h : ps.length = qs.length) : ∃ q, qs[i]? = some q := by
  obtain ⟨hi, _⟩ := List.getElem?_eq_some_iff.mp hp
  exact ⟨qs.get ⟨i, h ▸ hi⟩, List.getElem?_eq_getElem (h ▸ hi)⟩

theorem sameAll_iff_not_merges (hab : sameAll as bs) (hbc : sameAll bs cs)
    (h : ∀ (i : Nat) a b c, as[i]? = some a → bs[i]? = some b → cs[i]? = some c → same a b → same b c →
      (same a c ↔ ¬Merges a b c)) :
    sameAll as cs ↔ ¬Merges (.list as) (.list bs) (.list cs) := by
  rw [sameAll_iff] at hab hbc ⊢
  have hitem : ∀ i a b c, as[i]? = some a → bs[i]? = some b → cs[i]? = some c →
      (same a c ↔ ¬Merges a b c) :=
    fun i a b c ha hb hc => h i a b c ha hb hc (hab.2 i a b ha hb) (hbc.2 i b c hb hc)
  constructor
  · rintro ⟨_, hac⟩ (_ | ⟨i, ha, hb, hc, hmerges⟩)
    exact (hitem i _ _ _ ha hb hc).mp (hac i _ _ ha hc) hmerges
  · refine fun hmerges => ⟨hab.1.trans hbc.1, fun i a c ha hc => ?_⟩
    obtain ⟨b, hb⟩ := exists_getElem?_of_length_eq ha hab.1
    exact (hitem i a b c ha hb hc).mpr fun hm => hmerges (.list i ha hb hc hm)

/-- At one position of three maps, where an entry counts as the same if it is shared. What is shared is
equal, and nothing merges with equal values. -/
theorem shared_or_same_iff_not_merges {p q r : Prop} (hp : p → u = v) (hq : q → v = w) (hr : r → u = w)
    (hpqr : p → q → r) (huv : p ∨ same u v) (hvw : q ∨ same v w)
    (h : same u v → same v w → (same u w ↔ ¬Merges u v w)) : r ∨ same u w ↔ ¬Merges u v w := by
  by_cases hm : Merges u v w
  · obtain ⟨hne, hne', hne''⟩ := hm.ne
    have hsame := h (huv.resolve_left fun hs => hne (hp hs)) (hvw.resolve_left fun hs => hne' (hq hs))
    simp only [hm, not_true, iff_false, not_or] at hsame ⊢
    exact ⟨fun hs => hne'' (hr hs), hsame⟩
  · refine iff_of_true ?_ hm
    rcases huv with hs | hsame
    · rcases hvw with hs' | hsame'
      · exact .inl (hpqr hs hs')
      · exact .inr (hp hs ▸ hsame')
    · rcases hvw with hs' | hsame'
      · exact .inr (hq hs' ▸ hsame)
      · exact .inr ((h hsame hsame').mpr hm)

theorem eq_of_shared {e f : String × Value} (hes : Layout.Spread M.Has [.block l] es)
    (hfs : Layout.Spread M.Has [.block m] fs) (hkeys : keys es = keys fs) (he : es[i]? = some e)
    (hf : fs[i]? = some f) (hs : (l.shared m)[i]? = some true) : e.2 = f.2 := by
  have heq := Layout.getElem?_eq_of_shared hes hfs hkeys hs
  rw [he, hf, Option.some.injEq] at heq
  rw [heq]

theorem sameEntries_iff_not_merges (hes : Layout.Spread M.Has [.block l] es)
    (hfs : Layout.Spread M.Has [.block m] fs) (hgs : Layout.Spread M.Has [.block n] gs) (hef : sameEntries (l.shared m) es fs)
    (hfg : sameEntries (m.shared n) fs gs)
    (h : ∀ (i : Nat) e f g, es[i]? = some e → fs[i]? = some f → gs[i]? = some g →
      same e.2 f.2 → same f.2 g.2 → (same e.2 g.2 ↔ ¬Merges e.2 f.2 g.2)) :
    sameEntries (l.shared n) es gs ↔ ¬Merges (.map l es) (.map m fs) (.map n gs) := by
  rw [sameEntries_iff] at hef hfg ⊢
  have haligned : Layout.Aligned M _ _ _ es fs gs := ⟨hes, hfs, hgs, hef.1, hfg.1⟩
  have hentry : ∀ (i : Nat) e f g, es[i]? = some e → fs[i]? = some f → gs[i]? = some g →
      ((l.shared n)[i]? = some true ∨ same e.2 g.2 ↔ ¬Merges e.2 f.2 g.2) := fun i e f g he hf hg =>
    shared_or_same_iff_not_merges (eq_of_shared hes hfs hef.1 he hf) (eq_of_shared hfs hgs hfg.1 hf hg)
      (eq_of_shared hes hgs (hef.1.trans hfg.1) he hg) (haligned.chained i) (hef.2 i e f he hf)
      (hfg.2 i f g hf hg) (h i e f g he hf hg)
  constructor
  · rintro ⟨_, hall⟩ (_ | _ | ⟨i, he, hf, hg, hmerges⟩)
    exact (hentry i _ _ _ he hf hg).mp (hall i _ _ he hg) hmerges
  · refine fun hmerges => ⟨hef.1.trans hfg.1, fun i e g he hg => ?_⟩
    obtain ⟨f, hf⟩ := exists_getElem?_of_length_eq he (by simpa [keys] using congrArg List.length hef.1)
    exact (hentry i e f g he hf hg).mpr fun hm => hmerges (.map i he hf hg hm)

theorem same_iff_not_merges (M : Memory Value) (x : Value) {y z : Value} (hx : x.DrawnFrom M)
    (hy : y.DrawnFrom M) (hz : z.DrawnFrom M) (hxy : same x y) (hyz : same y z) :
    same x z ↔ ¬Merges x y z := by
  match x with
  | .nil =>
    cases same_nil_iff.mp hxy
    exact iff_of_true hyz nofun
  | .bool b =>
    cases same_bool_iff.mp hxy
    exact iff_of_true hyz nofun
  | .int a =>
    rcases same_int_iff.mp hxy with rfl | ⟨x, rfl, hax⟩
    · exact iff_of_true hyz nofun
    rcases same_float_iff.mp hyz with ⟨x', rfl, hxx⟩ | ⟨b, rfl, hbx⟩
    · exact iff_of_true (Number.beq_trans hax hxx) nofun
    · simp [same, merges_int_iff]
  | .float x =>
    rcases same_float_iff.mp hxy with ⟨x', rfl, hxx⟩ | ⟨a, rfl, hax⟩
    · rcases same_float_iff.mp hyz with ⟨x'', rfl, hxx'⟩ | ⟨b, rfl, hbx⟩
      · exact iff_of_true (Number.beq_trans hxx hxx') nofun
      · exact iff_of_true (Number.beq_trans hbx (Number.beq_comm _ _ ▸ hxx)) nofun
    · rcases same_int_iff.mp hyz with rfl | ⟨x', rfl, hax'⟩
      · exact iff_of_true hxy nofun
      · exact iff_of_true (Number.beq_trans (Number.beq_comm _ _ ▸ hax) hax') nofun
  | .string s =>
    rcases same_string_iff.mp hxy with rfl | rfl
    · exact iff_of_true hyz nofun
    · exact iff_of_true (same_string_iff.mpr (same_entity_iff.mp hyz)) nofun
  | .entity s =>
    rcases same_entity_iff.mp hxy with rfl | rfl
    · exact iff_of_true (same_entity_iff.mpr (same_string_iff.mp hyz)) nofun
    · exact iff_of_true hyz nofun
  | .function f =>
    obtain ⟨g, rfl, hfg⟩ := same_function_iff.mp hxy
    obtain ⟨k, rfl, hgk⟩ := same_function_iff.mp hyz
    exact iff_of_true (same_function_iff.mpr ⟨k, rfl, hfg.trans hgk⟩) nofun
  | .list as =>
    obtain ⟨bs, rfl, hab⟩ := same_list_iff.mp hxy
    obtain ⟨cs, rfl, hbc⟩ := same_list_iff.mp hyz
    refine sameAll_iff_not_merges hab hbc fun i a b c ha hb hc hsame hsame' => ?_
    have ha' := List.mem_of_getElem? ha
    rw [DrawnFrom, eachMap_list_iff] at hx hy hz
    exact same_iff_not_merges M a (hx a ha') (hy b (List.mem_of_getElem? hb)) (hz c (List.mem_of_getElem? hc))
      hsame hsame'
  | .map l es =>
    obtain ⟨m, fs, rfl, hef⟩ := same_map_iff.mp hxy
    obtain ⟨n, gs, rfl, hfg⟩ := same_map_iff.mp hyz
    rw [DrawnFrom, eachMap_map_iff] at hx hy hz
    refine sameEntries_iff_not_merges hx.1 hy.1 hz.1 hef hfg fun i e f g he hf hg hsame hsame' => ?_
    have he' := List.mem_of_getElem? he
    exact same_iff_not_merges M e.2 (hx.2 e he') (hy.2 f (List.mem_of_getElem? hf))
      (hz.2 g (List.mem_of_getElem? hg)) hsame hsame'
termination_by x
decreasing_by
  · have := List.sizeOf_lt_of_mem ha'
    simp only [list.sizeOf_spec]
    omega
  · have := List.sizeOf_lt_of_mem he'
    obtain ⟨key, v⟩ := e
    simp only [map.sizeOf_spec, Prod.mk.sizeOf_spec] at this ⊢
    omega

end TextAdventure.Value
