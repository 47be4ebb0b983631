import TextAdventure.Proofs.Dictionary.Growing
import TextAdventure.Proofs.Store.Realm
import TextAdventure.Proofs.Value.Equality

/-! # Maps share one memory

There are three ways to a new map: a literal, whose blocks have no mark; a name or a container that comes to
hold a map, which marks all of its blocks; and a write below a map, which marks the blocks on its way. With
fresh marks each of them adds blocks to a memory and takes none away. So all values that come about share
the blocks of one memory.
-/
namespace TextAdventure.Value
open Dictionary (keys Sorted)
open Layout (Spread)

/-- The block is a solid one and, if it has a mark, the one of the memory. -/
def IsBlock (M : Memory Value) (b : Layout) (es : Bindings) : Prop :=
  b.Solid ∧ M.Has b es

/-- The maps in the value are sorted and consist of solid blocks of the memory. -/
abbrev LivesIn (M : Memory Value) (v : Value) : Prop :=
  v.EachMap fun layout entries => Sorted entries ∧ Spread (IsBlock M) [.block layout] entries

variable {M M₁ : Memory Value} {v : Value} {layout : Layout} {entries : Bindings} {key : String}
  {next next₁ : Nat}

theorem eachMap_of_isPlain {P : Layout → Bindings → Prop} (h : v.isPlain = true) : v.EachMap P := by
  intro layout entries hmap
  cases hmap <;> cases h

theorem LivesIn.drawnFrom (h : v.LivesIn M) : v.DrawnFrom M :=
  h.imp fun _ _ hmap => hmap.2.imp fun _ _ hb => hb.2

theorem LivesIn.mono (hM : M.Extends M₁) (h : v.LivesIn M) : v.LivesIn M₁ :=
  h.imp fun _ _ hmap => ⟨hmap.1, hmap.2.imp fun _ _ hb => ⟨hb.1, hM.has hb.2⟩⟩

theorem admits_isBlock_none (M : Memory Value) : Layout.Admits (IsBlock M) none where
  solid := And.left
  new hmark hsolid := ⟨hsolid, fun mark heq => by rw [hmark] at heq; cases heq⟩

theorem livesIn_ofEntries (h : ∀ entry ∈ entries, entry.2.LivesIn M) : (ofEntries entries).LivesIn M := by
  refine eachMap_map_iff.mpr ⟨⟨Dictionary.sorted_ofList entries, ?_⟩, fun entry hentry => ?_⟩
  · exact Spread.ofKeys (admits_isBlock_none M) entries
  · exact h entry (Dictionary.mem_ofList hentry)

/-- Blocks of the memory and those with a new mark. -/
def IsBlockOrNew (M : Memory Value) (mark : Nat) (b : Layout) (es : Bindings) : Prop :=
  b.Solid ∧ (b.mark = some mark ∨ M.Has b es)

theorem admits_isBlockOrNew (M : Memory Value) (mark : Nat) :
    Layout.Admits (IsBlockOrNew M mark) (some mark) where
  solid := And.left
  new hmark hsolid := ⟨hsolid, .inl hmark⟩

theorem exists_livesIn_mapWith (hfresh : M.Fresh next) (h : (map layout entries).LivesIn M)
    (hv : v.LivesIn M) (key : String) :
    ∃ M₁, M.Grows next M₁ (next + 1) ∧ (mapWith (some next) key v layout entries).LivesIn M₁ := by
  obtain ⟨⟨hsorted, hspread⟩, hentries⟩ := eachMap_map_iff.mp h
  have hinsert := Dictionary.sorted_insert hsorted key v
  have hwrite := (hspread.imp fun b es hb => show IsBlockOrNew M next b es from ⟨hb.1, .inr hb.2⟩).write
    (admits_isBlockOrNew M next) hsorted key v
  obtain ⟨M₁, hgrows, hspread₁⟩ := Memory.exists_grows hfresh (Dictionary.nodup_keys hinsert) hwrite
  have hextends := hgrows.extends hfresh
  refine ⟨M₁, hgrows, eachMap_map_iff.mpr ⟨⟨hinsert, hspread₁⟩, fun entry hentry => ?_⟩⟩
  rcases Dictionary.mem_insert hentry with rfl | hentry
  · exact LivesIn.mono hextends hv
  · exact LivesIn.mono hextends (hentries entry hentry)

theorem keys_holdEntries (entries : Bindings) (next : Nat) :
    keys (holdEntries entries next).1 = keys entries := by
  induction entries generalizing next with
  | nil => rw [holdEntries]
  | cons entry entries ih =>
    obtain ⟨key, v⟩ := entry
    rw [holdEntries]
    exact congrArg (key :: ·) (ih _)

theorem sorted_holdEntries (h : Sorted entries) (next : Nat) : Sorted (holdEntries entries next).1 := by
  have hkeys : ∀ {d : Bindings}, Sorted d ↔ (keys d).Pairwise (· < ·) := List.pairwise_map.symm
  rw [hkeys, keys_holdEntries, ← hkeys]
  exact h

theorem length_holdEntries (entries : Bindings) (next : Nat) :
    (holdEntries entries next).1.length = entries.length := by
  simpa [keys] using congrArg List.length (keys_holdEntries entries next)

/-- A map whose entries have been held with later marks gets the mark before them. -/
theorem exists_livesIn_withMark {entries₁ : Bindings} (hfresh : M.Fresh next)
    (hgrows : M.Grows (next + 1) M₁ next₁) (hsorted : Sorted entries₁)
    (hspread : Spread (IsBlock M) [.block layout] entries) (hlength : entries₁.length = entries.length)
    (hentries : ∀ entry ∈ entries₁, entry.2.LivesIn M₁) :
    ∃ M₂, M.Grows next M₂ next₁ ∧ (map (layout.withMark next) entries₁).LivesIn M₂ := by
  have hle := hgrows.le
  obtain ⟨hopen, hblock⟩ := Layout.spread_block_iff.mp hspread
  have hadmits := admits_isBlockOrNew M₁ next
  have hmarked : Spread (IsBlockOrNew M₁ next) [.block (layout.withMark next)] entries₁ :=
    Layout.spread_block_iff.mpr ⟨Spread.withMark (fun _ _ hb => hb.1) hadmits layout hopen hlength,
      hadmits.new (Layout.mark_withMark next layout) (hblock.1.withMark next)⟩
  obtain ⟨M₂, hagrees, hspread₂⟩ := Memory.exists_added (Dictionary.nodup_keys hsorted) hmarked
  refine ⟨M₂, ⟨Nat.le_of_succ_le hle, fun mark hmark => ?_, fun mark hmark => ?_⟩,
    eachMap_map_iff.mpr ⟨⟨hsorted, hspread₂⟩, fun entry hentry => LivesIn.mono ?_ (hentries entry hentry)⟩⟩
  · rw [hagrees mark (by omega), hgrows.agrees mark (by omega)]
  · rw [hagrees mark (by omega)]
    exact hgrows.fresh mark hmark
  · intro mark ks block hblock
    by_cases heq : mark = next
    · rw [heq, hgrows.agrees next (Nat.lt_succ_self next), hfresh next (Nat.le_refl next)] at hblock
      cases hblock
    · rw [hagrees mark heq, hblock]

mutual

theorem exists_livesIn_hold : ∀ (v : Value) {M : Memory Value} {next : Nat}, M.Fresh next → v.LivesIn M →
    ∃ M₁, M.Grows next M₁ (v.hold next).2 ∧ (v.hold next).1.LivesIn M₁
  | .nil, M, next, hfresh, h | .bool _, M, next, hfresh, h | .int _, M, next, hfresh, h
  | .float _, M, next, hfresh, h | .string _, M, next, hfresh, h | .entity _, M, next, hfresh, h
  | .function _, M, next, hfresh, h => by
    rw [Value.hold]
    · exact ⟨M, .refl hfresh, h⟩
    all_goals nofun
  | .list items, M, next, hfresh, h => by
    obtain ⟨M₁, hgrows, hitems⟩ := exists_livesIn_holdAll items hfresh (eachMap_list_iff.mp h)
    rw [Value.hold]
    exact ⟨M₁, hgrows, eachMap_list_iff.mpr hitems⟩
  | .map layout entries, M, next, hfresh, h => by
    rw [Value.hold]
    split
    · exact ⟨M, .refl hfresh, h⟩
    obtain ⟨⟨hsorted, hspread⟩, hentries⟩ := eachMap_map_iff.mp h
    have hfresh' : M.Fresh (next + 1) := fun mark hmark => hfresh mark (by omega)
    obtain ⟨M₁, hgrows, hentries₁⟩ := exists_livesIn_holdEntries entries hfresh' hentries
    exact exists_livesIn_withMark hfresh hgrows (sorted_holdEntries hsorted (next + 1)) hspread
      (length_holdEntries entries (next + 1)) hentries₁

theorem exists_livesIn_holdAll : ∀ (vs : List Value) {M : Memory Value} {next : Nat}, M.Fresh next →
    (∀ v ∈ vs, v.LivesIn M) →
    ∃ M₁, M.Grows next M₁ (holdAll vs next).2 ∧ ∀ v ∈ (holdAll vs next).1, v.LivesIn M₁
  | [], M, next, hfresh, h => by
    rw [holdAll]
    exact ⟨M, .refl hfresh, nofun⟩
  | v :: vs, M, next, hfresh, h => by
    obtain ⟨hv, hvs⟩ := List.forall_mem_cons.mp h
    obtain ⟨M₁, hgrows, hv⟩ := exists_livesIn_hold v hfresh hv
    obtain ⟨M₂, hgrows', hvs⟩ := exists_livesIn_holdAll vs hgrows.fresh fun w hw =>
      LivesIn.mono (hgrows.extends hfresh) (hvs w hw)
    rw [holdAll]
    refine ⟨M₂, hgrows.trans hgrows', List.forall_mem_cons.mpr ⟨?_, hvs⟩⟩
    exact LivesIn.mono (hgrows'.extends hgrows.fresh) hv

theorem exists_livesIn_holdEntries : ∀ (entries : Bindings) {M : Memory Value} {next : Nat}, M.Fresh next →
    (∀ entry ∈ entries, entry.2.LivesIn M) →
    ∃ M₁, M.Grows next M₁ (holdEntries entries next).2 ∧
      ∀ entry ∈ (holdEntries entries next).1, entry.2.LivesIn M₁
  | [], M, next, hfresh, h => by
    rw [holdEntries]
    exact ⟨M, .refl hfresh, nofun⟩
  | (key, v) :: rest, M, next, hfresh, h => by
    obtain ⟨hv, hrest⟩ := List.forall_mem_cons.mp h
    obtain ⟨M₁, hgrows, hv⟩ := exists_livesIn_hold v hfresh hv
    obtain ⟨M₂, hgrows', hrest⟩ := exists_livesIn_holdEntries rest hgrows.fresh fun entry hentry =>
      LivesIn.mono (hgrows.extends hfresh) (hrest entry hentry)
    rw [holdEntries]
    refine ⟨M₂, hgrows.trans hgrows', List.forall_mem_cons.mpr ⟨?_, hrest⟩⟩
    exact LivesIn.mono (hgrows'.extends hgrows.fresh) hv

end

/-- The values that live in a memory, in one that has more of the blocks at each later stage. -/
def memoryRealm : Realm where
  Stage := Memory Value
  Le := Memory.Extends
  Has M v := v.LivesIn M
  Free := Memory.Fresh
  refl _ _ _ h := h
  trans hM hM₁ mark ks block h := hM₁ mark ks block (hM mark ks block h)
  mono hM h := LivesIn.mono hM h
  plain := eachMap_of_isPlain
  list_iff := eachMap_list_iff
  entry h := (eachMap_map_iff.mp h).2
  ofEntries := livesIn_ofEntries
  hold hfresh h := by
    obtain ⟨M₁, hgrows, hheld⟩ := exists_livesIn_hold _ hfresh h
    exact ⟨M₁, hgrows.extends hfresh, hgrows.fresh, hheld⟩
  mapWith hfresh hm hv := by
    obtain ⟨M₁, hgrows, hwritten⟩ := exists_livesIn_mapWith hfresh hm hv _
    exact ⟨M₁, hgrows.extends hfresh, hgrows.fresh, hwritten⟩

end TextAdventure.Value
