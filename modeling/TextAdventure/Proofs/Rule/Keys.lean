import Mathlib.Data.List.Nodup
import TextAdventure.Proofs.Rule.Running

/-! # Keys of progress

Keys are paths. The step that a key takes after the path of a list or a map can be read off the key, so
the components of different items and of different entries have different keys, and with the nesting of
the value no two components in it have the same one.
-/
namespace TextAdventure

namespace Rule

variable {path part key : String} {v : Value} {rule : Rule}

/-- A part of a path that is a single step. -/
def IsStep (part : String) : Prop :=
  '/' ∉ part.toList

theorem isStep_naturalText (n : Nat) : IsStep (Number.naturalText n) := by
  intro h
  rw [Number.naturalText, String.toList_ofList] at h
  have hdigit := Nat.isDigit_of_mem_toDigits (by decide) (by decide) h
  cases hdigit

theorem isStep_of_mem_keys {slot : Slot} (h : part ∈ slot.keys) : IsStep part := by
  have hsteps : ∀ name ∈ slot.keys, IsStep name := by
    unfold IsStep
    cases slot <;> decide
  exact hsteps part h

theorem naturalText_injective : Function.Injective Number.naturalText := by
  intro m n h
  have hdigits := String.ofList_injective h
  rw [← Nat.ofDigitChars_ten_toDigits (n := m), hdigits, Nat.ofDigitChars_ten_toDigits]

/-- The step that a key takes after a path. -/
def stepAfter (path key : String) : String :=
  String.ofList ((key.toList.drop (path.toList.length + 1)).takeWhile (· ≠ '/'))

theorem stepAfter_eq {rest : List Char} (h : IsStep part) (hrest : ∀ c ∈ rest.head?, c = '/')
    (hkey : key.toList = path.toList ++ '/' :: (part.toList ++ rest)) :
    stepAfter path key = part := by
  have hdrop : key.toList.drop (path.toList.length + 1) = part.toList ++ rest := by
    rw [hkey, ← List.drop_drop, List.drop_left, List.drop_one, List.tail_cons]
  have hpart : ∀ c ∈ part.toList, decide (c ≠ '/') = true := by
    intro c hc
    exact decide_eq_true (ne_of_mem_of_not_mem hc h)
  have hend : rest.takeWhile (· ≠ '/') = [] := by
    cases rest with
    | nil => rfl
    | cons c rest =>
      cases hrest c rfl
      rfl
  rw [stepAfter, hdrop, List.takeWhile_append_of_pos hpart, hend, List.append_nil,
    String.ofList_toList]

theorem stepAfter_partPath (h : IsStep part) : stepAfter path (partPath path part) = part := by
  have hkey : (partPath path part).toList = path.toList ++ '/' :: (part.toList ++ []) := by
    simp [partPath, String.toList_append]
  exact stepAfter_eq h (by simp) hkey

theorem Below.stepAfter_eq (hkey : Below (partPath path part) key) (h : IsStep part) :
    stepAfter path key = part := by
  obtain ⟨last, rfl⟩ := hkey
  have hkey : (partPath (partPath path part) last).toList =
      path.toList ++ '/' :: (part.toList ++ '/' :: last.toList) := by
    simp [partPath, String.toList_append]
  have hslash : ∀ c ∈ ('/' :: last.toList).head?, c = '/' := by
    intro c hc
    cases hc
    rfl
  exact Rule.stepAfter_eq h hslash hkey

mutual

/-- The keys of the components in a value that keep progress, one for each component. -/
def progressKeys (path : String) : Value → List String
  | .list values => itemKeys path 0 values
  | .map _ entries => entryKeys path entries
  | _ => []

def itemKeys (path : String) (i : Nat) : List Value → List String
  | [] => []
  | v :: vs => progressKeys (partPath path (Number.naturalText i)) v ++ itemKeys path (i + 1) vs

def entryKeys (path : String) : List (String × Value) → List String
  | [] => []
  | (name, v) :: rest =>
    (if name ∈ ["repeat", "once"] then [partPath path name] else []) ++
      (progressKeys (partPath path name) v ++ entryKeys path rest)

end

mutual

theorem below_of_mem_progressKeys {path key : String} :
    ∀ v : Value, key ∈ progressKeys path v → Below path key
  | .list values, h => by
    rw [progressKeys] at h
    exact below_of_mem_itemKeys 0 values h
  | .map _ entries, h => by
    rw [progressKeys] at h
    exact below_of_mem_entryKeys entries h
  | .nil, h | .bool _, h | .int _, h | .float _, h | .string _, h | .entity _, h
  | .function _, h => by
    simp only [progressKeys] at h
    cases h

theorem below_of_mem_itemKeys {path key : String} (i : Nat) :
    ∀ vs : List Value, key ∈ itemKeys path i vs → Below path key
  | [], h => by
    rw [itemKeys] at h
    cases h
  | v :: vs, h => by
    rw [itemKeys] at h
    rcases List.mem_append.mp h with h | h
    · exact (below_of_mem_progressKeys v h).of_part
    · exact below_of_mem_itemKeys (i + 1) vs h

theorem below_of_mem_entryKeys {path key : String} :
    ∀ entries : List (String × Value), key ∈ entryKeys path entries → Below path key
  | [], h => by
    rw [entryKeys] at h
    cases h
  | (name, v) :: rest, h => by
    rw [entryKeys, List.mem_append, List.mem_append] at h
    rcases h with h | h | h
    · split at h
      · exact ⟨name, List.mem_singleton.mp h⟩
      · cases h
    · exact (below_of_mem_progressKeys v h).of_part
    · exact below_of_mem_entryKeys rest h

end

theorem stepAfter_of_mem_itemKeys {values : List Value} {i : Nat} (h : key ∈ itemKeys path i values) :
    ∃ j, i ≤ j ∧ stepAfter path key = Number.naturalText j := by
  induction values generalizing i with
  | nil =>
    rw [itemKeys] at h
    cases h
  | cons v vs ih =>
    rw [itemKeys] at h
    rcases List.mem_append.mp h with h | h
    · exact ⟨i, Nat.le_refl i, (below_of_mem_progressKeys v h).stepAfter_eq (isStep_naturalText i)⟩
    · obtain ⟨j, hle, hstep⟩ := ih h
      exact ⟨j, Nat.le_of_succ_le hle, hstep⟩

theorem stepAfter_of_mem_entryKeys {entries : List (String × Value)}
    (hsteps : ∀ entry ∈ entries, IsStep entry.1) (h : key ∈ entryKeys path entries) :
    ∃ entry ∈ entries, stepAfter path key = entry.1 := by
  induction entries with
  | nil =>
    rw [entryKeys] at h
    cases h
  | cons entry rest ih =>
    obtain ⟨name, v⟩ := entry
    have hname := hsteps _ List.mem_cons_self
    rw [entryKeys, List.mem_append, List.mem_append] at h
    rcases h with h | h | h
    · split at h
      · cases List.mem_singleton.mp h
        exact ⟨_, List.mem_cons_self, stepAfter_partPath hname⟩
      · cases h
    · exact ⟨_, List.mem_cons_self, (below_of_mem_progressKeys v h).stepAfter_eq hname⟩
    · obtain ⟨entry, hentry, hstep⟩ := ih (fun e he => hsteps e (List.mem_cons_of_mem _ he)) h
      exact ⟨entry, List.mem_cons_of_mem _ hentry, hstep⟩

theorem nodup_itemKeys {values : List Value}
    (h : ∀ v ∈ values, ∀ path, (progressKeys path v).Nodup) (path : String) (i : Nat) :
    (itemKeys path i values).Nodup := by
  induction values generalizing i with
  | nil =>
    rw [itemKeys]
    exact List.nodup_nil
  | cons v vs ih =>
    rw [itemKeys]
    have hv := h v List.mem_cons_self (partPath path (Number.naturalText i))
    have hvs := ih (fun w hw => h w (List.mem_cons_of_mem v hw)) (i + 1)
    apply hv.append hvs
    -- a key takes the number of its item as a step, and later items have greater numbers
    intro key hkey hlater
    have hstep := (below_of_mem_progressKeys v hkey).stepAfter_eq (isStep_naturalText i)
    obtain ⟨j, hle, hlater⟩ := stepAfter_of_mem_itemKeys hlater
    have hij : i = j := naturalText_injective (hstep.symm.trans hlater)
    omega

theorem nodup_entryKeys {entries : List (String × Value)}
    (h : ∀ entry ∈ entries, ∀ path, (progressKeys path entry.2).Nodup)
    (hsteps : ∀ entry ∈ entries, IsStep entry.1) (hnames : (entries.map Prod.fst).Nodup)
    (path : String) : (entryKeys path entries).Nodup := by
  induction entries with
  | nil =>
    rw [entryKeys]
    exact List.nodup_nil
  | cons entry rest ih =>
    obtain ⟨name, v⟩ := entry
    obtain ⟨hname, hnames⟩ := List.nodup_cons.mp hnames
    have hstep := hsteps _ List.mem_cons_self
    have hsteps := fun e he => hsteps e (List.mem_cons_of_mem _ he)
    have hv := h _ List.mem_cons_self (partPath path name)
    have hrest := ih (fun e he => h e (List.mem_cons_of_mem _ he)) hsteps hnames
    -- a key takes the name of its entry as a step, and later entries have other names
    have hlater : ∀ key ∈ entryKeys path rest, stepAfter path key ≠ name := by
      intro key hkey heq
      obtain ⟨other, hother, hname'⟩ := stepAfter_of_mem_entryKeys hsteps hkey
      apply hname
      rw [← heq, hname']
      exact List.mem_map.mpr ⟨other, hother, rfl⟩
    have htail : (progressKeys (partPath path name) v ++ entryKeys path rest).Nodup := by
      apply hv.append hrest
      intro key hkey hlate
      exact hlater key hlate ((below_of_mem_progressKeys v hkey).stepAfter_eq hstep)
    rw [entryKeys]
    split
    · rw [List.singleton_append, List.nodup_cons, List.mem_append]
      refine ⟨?_, htail⟩
      rintro (hown | hlate)
      · exact (below_of_mem_progressKeys v hown).ne rfl
      · exact hlater _ hlate (stepAfter_partPath hstep)
    · exact htail

theorem MakesRule.nodup_names {entries : List (String × Value)} (h : MakesRule entries) :
    (entries.map Prod.fst).Nodup := by
  apply List.nodup_iff_count_le_one.mpr
  intro name
  by_cases hname : ∃ entry ∈ entries, entry.1 = name
  · obtain ⟨entry, hentry, rfl⟩ := hname
    obtain ⟨slot, hslot⟩ := h.known entry hentry
    apply Nat.le_trans _ (h.atMostOne slot)
    rw [List.count, List.countP_map]
    apply List.countP_mono_left
    intro other _ heq
    simp only [Function.comp_apply, beq_iff_eq] at heq
    rw [heq]
    exact decide_eq_true hslot
  · rw [List.count_eq_zero.mpr]
    · exact Nat.zero_le 1
    · simpa using hname

theorem WellFormed.nodup_progressKeys (h : WellFormed v) : ∀ path, (progressKeys path v).Nodup := by
  induction h with
  | list _ ih =>
    intro path
    rw [progressKeys]
    exact nodup_itemKeys ih path 0
  | @map layout entries hparts _ ih =>
    intro path
    have hsteps : ∀ entry ∈ entries, IsStep entry.1 := by
      intro entry hentry
      obtain ⟨slot, hslot⟩ := hparts.known entry hentry
      exact isStep_of_mem_keys hslot
    rw [progressKeys]
    exact nodup_entryKeys ih hsteps hparts.nodup_names path
  | line | script | nil | bool | int | float | entity | function =>
    intro path
    simp only [progressKeys]
    exact List.nodup_nil

mutual

/-- A compiled rule keeps progress under the keys of its value. -/
theorem perm_keys_ofValue {path : String} {rule : Rule} :
    ∀ v : Value, ofValue path v = .ok rule →
      (rule.stateful.map Prod.fst).Perm (progressKeys path v)
  | .string text, h => by
    rw [ofValue] at h
    rw [stateful_ofString (Error.reportAt_eq_ok_iff.mp h)]
    simp only [progressKeys]
    exact .nil
  | .list values, h => by
    rw [ofValue] at h
    obtain ⟨rules, hrules, h⟩ := Error.bind_eq_ok_iff.mp h
    cases h
    rw [progressKeys]
    exact perm_keys_ofValues 0 values hrules
  | .map _ entries, h => by
    rw [ofValue] at h
    obtain ⟨parts, hparts, h⟩ := Error.bind_eq_ok_iff.mp h
    have hperm := Components.perm_stateful_rule (Error.reportAt_eq_ok_iff.mp h)
    rw [progressKeys]
    exact (hperm.map Prod.fst).trans (perm_keys_ofEntries .empty entries hparts)
  | .function f, h => by
    rw [ofValue] at h
    cases h
    simp only [progressKeys]
    exact .nil
  | .nil, h | .bool _, h | .int _, h | .float _, h | .entity _, h => by
    simp only [ofValue] at h
    cases h
    simp only [progressKeys]
    exact .nil

theorem perm_keys_ofValues {path : String} {rules : List Rule} (i : Nat) :
    ∀ vs : List Value, ofValues path i vs = .ok rules →
      ((statefulIn rules).map Prod.fst).Perm (itemKeys path i vs)
  | [], h => by
    rw [ofValues] at h
    cases h
    rw [itemKeys]
    exact .nil
  | v :: vs, h => by
    rw [ofValues] at h
    obtain ⟨rule, hrule, h⟩ := Error.bind_eq_ok_iff.mp h
    obtain ⟨rest, hrest, h⟩ := Error.bind_eq_ok_iff.mp h
    cases h
    rw [itemKeys, statefulIn, List.map_append]
    exact (perm_keys_ofValue v hrule).append (perm_keys_ofValues (i + 1) vs hrest)

theorem perm_keys_ofEntries {path : String} {whole : Components} (parts : Components) :
    ∀ entries : List (String × Value), ofEntries path parts entries = .ok whole →
      (whole.stateful.map Prod.fst).Perm (parts.stateful.map Prod.fst ++ entryKeys path entries)
  | [], h => by
    rw [ofEntries] at h
    cases h
    rw [entryKeys, List.append_nil]
  | (name, v) :: rest, h => by
    obtain ⟨slot, rule, component, ⟨_, hfree⟩, hrule, hcomponent, hrest⟩ :=
      ofEntries_cons_eq_ok_iff.mp h
    have hset := (Components.perm_stateful_set hfree name component).map Prod.fst
    have hown : component.stateful.map Prod.fst =
        (if name ∈ ["repeat", "once"] then [partPath path name] else []) ++
          rule.stateful.map Prod.fst := by
      rw [stateful_ofComponent hcomponent, List.map_append]
      split <;> rfl
    rw [List.map_append, hown] at hset
    have hbody := perm_keys_ofValue v hrule
    apply (perm_keys_ofEntries _ rest hrest).trans
    rw [entryKeys]
    apply (hset.append_right _).trans
    simp only [List.append_assoc]
    exact (hbody.append_right _).append_left _ |>.append_left _

end

theorem nodup_keys_ofValue (h : ofValue path v = .ok rule) : (rule.stateful.map Prod.fst).Nodup := by
  rw [(perm_keys_ofValue v h).nodup_iff]
  exact (wellFormed_of_ofValue v h).nodup_progressKeys path

theorem Below.ne_progressName (h : Below path key) : key ≠ progressName := by
  obtain ⟨part, rfl⟩ := h
  intro heq
  have hslash : '/' ∈ (partPath path part).toList := by simp [partPath, String.toList_append]
  rw [heq] at hslash
  exact absurd hslash (by decide)

theorem ne_of_not_mem_stateful (h : ofValue path v = .ok rule) {p q : String × Rule}
    (hp : p ∈ rule.stateful) (hq : q ∈ rule.stateful) (hapart : q ∉ p.2.stateful) :
    ∀ r ∈ p.2.stateful, r.1 ≠ q.1 := by
  intro r hr heq
  have hmem : r ∈ rule.stateful := (stateful_of_mem rule hp).2.mem hr
  have hsame : r = q := List.inj_on_of_nodup_map (nodup_keys_ofValue h) hmem hq heq
  exact hapart (hsame ▸ hr)

/-- The components of a value keep their progress apart. A compiled rule has one key for each component
of its value, no two of them the same. So what a component notes changes nothing of the progress of a
component that is not part of it, in any store; and as long as no script and no function that is called
defines or assigns the name that progress is bound to, neither does a run of the component. -/
theorem components_keep_apart {path : String} {v : Value} {rule : Rule}
    (h : ofValue path v = .ok rule) :
    (rule.stateful.map Prod.fst).Perm (progressKeys path v) ∧ (rule.stateful.map Prod.fst).Nodup ∧
      ∀ p ∈ rule.stateful, ∀ q ∈ rule.stateful, q ∉ p.2.stateful →
        (∀ n s, progress q.1 (Eval.runOn (setProgress p.1 n) s).2 = progress q.1 s) ∧
        ∀ s : Store, s.KeepsProgress → p.2.Spares s →
          progress q.1 (Eval.runOn p.2.resolve s).2 = progress q.1 s := by
  have hperm := perm_keys_ofValue v h
  have hnodup := nodup_keys_ofValue h
  refine ⟨hperm, hnodup, ?_⟩
  intro p hp q hq hapart
  have hkeys := ne_of_not_mem_stateful h hp hq hapart
  have hself : p ∈ p.2.stateful := (stateful_of_mem rule hp).1
  have hbelow : Below path p.1 := (compiledBelow_ofValue v h p hp).1
  constructor
  · intro n s
    exact Store.progress_setProgress_of_ne (hkeys p hself).symm hbelow.ne_progressName n s
  · intro s hs hspares
    exact ((concerns_progress q.1 (progress q.1 s)).run_of_ne ⟨hs, rfl⟩ hspares hkeys).2

/-- A cycle in a rule that runs once, and a cycle beside it. -/
def clocks : Value :=
  .list [.map .empty [("once", .map .empty [("repeat", .list [.string "$Ding.", .string "$Dong."])])],
    .map .empty [("repeat", .list [.string "$Tick.", .string "$Tock."])]]

def clockChime : Rule :=
  .once "clock/0/once" (.branch (.constant (.bool true))
    (.cycle "clock/0/once/repeat" [.line "Ding.", .line "Dong."]) skip)

def clockTick : Rule :=
  .cycle "clock/1/repeat" [.line "Tick.", .line "Tock."]

/-- The store after the first run of the second cycle. -/
def clockTicked : Store :=
  (Eval.runOn clockTick.resolve (.new 0 64)).2

theorem keepsProgress_clockTicked : clockTicked.KeepsProgress := by
  constructor
  · intro scope hscope
    cases hscope
  · intro v hv
    cases hv
    exact ⟨_, _, rfl⟩

/-- The first cycle moves on with the rule that it is part of, and the second stays where it is. -/
theorem components_keep_apart_clocks :
    progressKeys "clock" clocks = ["clock/0/once", "clock/0/once/repeat", "clock/1/repeat"] ∧
      progress "clock/1/repeat" clockTicked = 1 ∧
      progress "clock/0/once/repeat" (Eval.runOn clockChime.resolve clockTicked).2 = 1 ∧
      progress "clock/1/repeat" (Eval.runOn clockChime.resolve clockTicked).2 = 1 := by
  have hcompiled : ofValue "clock" clocks = .ok (.sequence
      [.branch (.constant (.bool true)) clockChime skip,
        .branch (.constant (.bool true)) clockTick skip]) := rfl
  have hother : ("clock/1/repeat", clockTick) ∉ clockChime.stateful := by
    intro h
    have hkeys : clockChime.stateful.map Prod.fst = ["clock/0/once", "clock/0/once/repeat"] := rfl
    have hkey := List.mem_map_of_mem (f := Prod.fst) h
    rw [hkeys] at hkey
    exact absurd hkey (by decide)
  have hspares : clockChime.Spares clockTicked := by
    intro _
    refine ⟨trivial, ?_⟩
    intro r t hrun
    cases hrun
    exact trivial
  have hone : progress "clock/1/repeat" clockTicked = 1 := rfl
  obtain ⟨_, _, hapart⟩ := components_keep_apart hcompiled
  have hrun := (hapart ("clock/0/once", clockChime) (.head _) ("clock/1/repeat", clockTick)
    (.tail _ (.tail _ (.head _))) hother).2 clockTicked keepsProgress_clockTicked hspares
  exact ⟨rfl, hone, rfl, hrun.trans hone⟩

/-- A function that makes all rules start over. -/
def reset : Function :=
  ⟨0, .script ⟨"reset", [], "__rule_state = nil", .assignName .set progressName [] (.constant .nil)⟩⟩

/-- A call of that function beside the second cycle. -/
def resetting : Value :=
  .list [.map .empty [("once", .function reset)],
    .map .empty [("repeat", .list [.string "$Tick.", .string "$Tock."])]]

/-- A rule that assigns the name that progress is bound to changes the progress of other rules. -/
theorem resetting_changes_other :
    ofValue "clock" resetting = .ok (.sequence
      [.branch (.constant (.bool true)) (.once "clock/0/once" (.call reset)) skip,
        .branch (.constant (.bool true)) clockTick skip]) ∧
      (once "clock/0/once" (.call reset)).stateful =
        [("clock/0/once", .once "clock/0/once" (.call reset))] ∧
      clockTicked.KeepsProgress ∧ progress "clock/1/repeat" clockTicked = 1 ∧
      progress "clock/1/repeat"
        (Eval.runOn (once "clock/0/once" (.call reset)).resolve clockTicked).2 = 0 := by
  have hkeeps := keepsProgress_clockTicked
  exact ⟨rfl, rfl, hkeeps, rfl, rfl⟩

end Rule

end TextAdventure
