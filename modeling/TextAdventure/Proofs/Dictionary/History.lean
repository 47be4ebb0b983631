import Mathlib.Data.List.Induction
import Mathlib.Data.List.Sort
import Mathlib.Data.String.Basic
import TextAdventure.MultiDict

/-! # Insertion histories

A dictionary with several values under a key is what was inserted into it, sorted by key, where the entries
under one key keep the order in which they were inserted. Of all lists only one is sorted by key and has
given entries under each key, so everything that is read from such a dictionary is known from its history.
-/
namespace TextAdventure

variable {α : Type u}

/-- Whether an entry comes no later than another by its key. -/
def keyLe (a b : String × α) : Bool :=
  a.1 ≤ b.1

/-- The entries under a key, in their order. -/
def under (key : String) (entries : List (String × α)) : List (String × α) :=
  entries.filter fun entry => entry.1 = key

/-- The same entries, each as often, by increasing key and in the same order under each key. -/
structure SortsStably (entries sorted : List (String × α)) : Prop where
  perm : sorted.Perm entries
  ordered : sorted.Pairwise fun a b => a.1 ≤ b.1
  stable : ∀ key, under key sorted = under key entries

variable {key : String} {entry : String × α} {as bs entries sorted : List (String × α)}

theorem mem_under : entry ∈ under key entries ↔ entry ∈ entries ∧ entry.1 = key := by
  simp [under]

theorem under_cons_self (entry : String × α) (entries : List (String × α)) :
    under entry.1 (entry :: entries) = entry :: under entry.1 entries := by
  simp [under]

theorem under_cons_of_ne (h : entry.1 ≠ key) (entries : List (String × α)) :
    under key (entry :: entries) = under key entries := by
  simp [under, h]

theorem under_append (key : String) (as bs : List (String × α)) :
    under key (as ++ bs) = under key as ++ under key bs :=
  List.filter_append as bs

theorem mem_of_under_eq (h : ∀ key, under key as = under key bs) (hm : entry ∈ as) : entry ∈ bs := by
  have hunder : entry ∈ under entry.1 as := mem_under.mpr ⟨hm, rfl⟩
  rw [h] at hunder
  exact (mem_under.mp hunder).1

theorem head_le (h : (entry :: entries).Pairwise fun a b => a.1 ≤ b.1) {other : String × α}
    (hm : other ∈ entry :: entries) : entry.1 ≤ other.1 := by
  rcases List.mem_cons.mp hm with rfl | hm
  · exact le_refl _
  · exact List.rel_of_pairwise_cons h hm

theorem eq_of_under_eq (has : as.Pairwise fun a b => a.1 ≤ b.1)
    (hbs : bs.Pairwise fun a b => a.1 ≤ b.1) (h : ∀ key, under key as = under key bs) : as = bs := by
  have hsymm : ∀ key, under key bs = under key as := fun key => (h key).symm
  induction as generalizing bs with
  | nil =>
    cases bs with
    | nil => rfl
    | cons b bs => exact absurd (mem_of_under_eq hsymm List.mem_cons_self) List.not_mem_nil
  | cons a as ih =>
    cases bs with
    | nil => exact absurd (mem_of_under_eq h List.mem_cons_self) List.not_mem_nil
    | cons b bs =>
      -- both heads have the least key, and the first entry under it is the head of either list
      have hab : a.1 ≤ b.1 := head_le has (mem_of_under_eq hsymm List.mem_cons_self)
      have hba : b.1 ≤ a.1 := head_le hbs (mem_of_under_eq h List.mem_cons_self)
      have hkey : a.1 = b.1 := le_antisymm hab hba
      have hunder := h a.1
      rw [under_cons_self, hkey, under_cons_self] at hunder
      obtain ⟨rfl, hsame⟩ := List.cons.inj hunder
      have hrest : ∀ key, under key as = under key bs := by
        intro key
        by_cases hk : a.1 = key
        · rw [← hk, hsame]
        · have hall := h key
          rwa [under_cons_of_ne hk, under_cons_of_ne hk] at hall
      rw [ih (List.pairwise_cons.mp has).2 (List.pairwise_cons.mp hbs).2 hrest fun key => (hrest key).symm]

theorem SortsStably.unique (has : SortsStably entries as) (hbs : SortsStably entries bs) : as = bs :=
  eq_of_under_eq has.ordered hbs.ordered fun key => (has.stable key).trans (hbs.stable key).symm

theorem keyLe_trans (a b c : String × α) (hab : keyLe a b) (hbc : keyLe b c) : keyLe a c := by
  simp only [keyLe, decide_eq_true_eq] at hab hbc ⊢
  exact hab.trans hbc

theorem keyLe_total (a b : String × α) : keyLe a b || keyLe b a := by
  simpa [keyLe] using le_total a.1 b.1

theorem sortsStably_mergeSort (entries : List (String × α)) :
    SortsStably entries (entries.mergeSort keyLe) where
  perm := List.mergeSort_perm entries keyLe
  ordered := by
    simpa [keyLe] using List.pairwise_mergeSort keyLe_trans keyLe_total entries
  stable key := by
    have hequal : (under key entries).Pairwise fun a b => keyLe a b = true := by
      refine List.pairwise_of_forall_mem_list fun a ha b hb => ?_
      simp [keyLe, (mem_under.mp ha).2, (mem_under.mp hb).2]
    have hsub : (under key entries).Sublist (entries.mergeSort keyLe) :=
      List.sublist_mergeSort keyLe_trans keyLe_total hequal List.filter_sublist
    have hunder : (under key entries).Sublist (under key (entries.mergeSort keyLe)) := by
      simpa [under] using hsub.filter fun entry => entry.1 = key
    have hperm := (List.mergeSort_perm entries keyLe).filter fun entry => entry.1 = key
    exact (hunder.eq_of_length hperm.length_eq.symm).symm

theorem SortsStably.of_under (ho : sorted.Pairwise fun a b => a.1 ≤ b.1)
    (hu : ∀ key, under key sorted = under key entries) : SortsStably entries sorted := by
  have hsort := sortsStably_mergeSort entries
  rwa [eq_of_under_eq ho hsort.ordered fun key => (hu key).trans (hsort.stable key).symm]

theorem SortsStably.self (h : entries.Pairwise fun a b => a.1 ≤ b.1) : SortsStably entries entries :=
  .of_under h fun _ => rfl

namespace MultiDict

variable {d : MultiDict α}

/-- Keys strictly increase, and no key stands for nothing. -/
structure WellFormed (d : MultiDict α) : Prop where
  sorted : Dictionary.Sorted d.groups
  nonempty : ∀ group ∈ d.groups, group.2 ≠ []

theorem WellFormed.insert (h : d.WellFormed) (key : String) (value : α) :
    (d.insert key value).WellFormed where
  sorted := Dictionary.sorted_insert h.sorted key _
  nonempty group hg := by
    rcases Dictionary.mem_insert hg with rfl | hg
    · simp
    · exact h.nonempty group hg

theorem ofHistory_append (history : List (String × α)) (entry : String × α) :
    ofHistory (history ++ [entry]) = (ofHistory history).insert entry.1 entry.2 := by
  simp [ofHistory]

theorem wellFormed_ofHistory (history : List (String × α)) : (ofHistory history).WellFormed := by
  induction history using List.reverseRecOn with
  | nil => exact ⟨List.Pairwise.nil, nofun⟩
  | append_singleton history entry ih =>
    rw [ofHistory_append]
    exact ih.insert entry.1 entry.2

theorem get_ofHistory (key : String) (history : List (String × α)) :
    (ofHistory history).get key = (under key history).map Prod.snd := by
  induction history using List.reverseRecOn with
  | nil => rfl
  | append_singleton history entry ih =>
    rw [ofHistory_append, under_append, List.map_append, ← ih]
    by_cases h : entry.1 = key
    · subst h
      simp [under]
    · rw [get_insert_of_ne (Ne.symm h), under_cons_of_ne h]
      simp [under]

theorem toList_cons (key : String) (values : List α) (rest : Dictionary (List α)) :
    toList ⟨(key, values) :: rest⟩ = values.map (fun value => (key, value)) ++ toList ⟨rest⟩ :=
  List.flatMap_cons

theorem under_map (key other : String) (values : List α) :
    under key (values.map fun value => (other, value)) =
      if other = key then values.map fun value => (other, value) else [] := by
  split
  next h => simp [under, List.filter_map, Function.comp_def, h]
  next h => simp [under, h]

theorem under_toList (h : Dictionary.Sorted d.groups) (key : String) :
    under key d.toList = (d.get key).map fun value => (key, value) := by
  obtain ⟨groups⟩ := d
  unfold Dictionary.Sorted at h
  induction groups with
  | nil => rfl
  | cons group rest ih =>
    obtain ⟨k, values⟩ := group
    rw [toList_cons, under_append, under_map, ih (List.pairwise_cons.mp h).2]
    by_cases hk : k = key
    · have hnone : Dictionary.get? key rest = none := by
        refine Option.eq_none_iff_forall_ne_some.mpr fun values' hsome => ?_
        have hlt := List.rel_of_pairwise_cons h (Dictionary.mem_of_get? hsome)
        exact lt_irrefl key (hk ▸ hlt)
      simp [get, Dictionary.get?, hk, hnone]
    · simp [get, Dictionary.get?, hk]

theorem pairwise_toList (h : Dictionary.Sorted d.groups) : d.toList.Pairwise fun a b => a.1 ≤ b.1 := by
  refine List.pairwise_flatMap.mpr ⟨fun group _ => ?_, h.imp fun hlt => ?_⟩
  · rw [List.pairwise_map]
    exact List.pairwise_of_forall fun _ _ => le_refl _
  · simp only [List.mem_map]
    rintro _ ⟨_, _, rfl⟩ _ ⟨_, _, rfl⟩
    exact le_of_lt hlt

/-- What a dictionary lists is its history, sorted by key. -/
theorem sortsStably_ofHistory (history : List (String × α)) :
    SortsStably history (ofHistory history).toList := by
  have hsorted := (wellFormed_ofHistory history).sorted
  refine .of_under (pairwise_toList hsorted) fun key => ?_
  rw [under_toList hsorted, get_ofHistory, List.map_map]
  refine (List.map_congr_left fun entry hm => ?_).trans (List.map_id _)
  rw [Function.comp_apply, ← (mem_under.mp hm).2]
  rfl

theorem values_eq (d : MultiDict α) : d.values = d.toList.map Prod.snd := by
  simp [values, Dictionary.values, toList, List.flatMap_def, Function.comp_def]

theorem size_eq (d : MultiDict α) : d.size = d.toList.length := by
  rw [← List.length_map Prod.snd, ← values_eq]
  rfl

theorem contains_iff (key : String) (d : MultiDict α) : d.contains key = true ↔ d.get key ≠ [] := by
  simp [contains]

theorem WellFormed.mem_keys_iff (h : d.WellFormed) : key ∈ d.keys ↔ d.get key ≠ [] := by
  rw [keys, ← Dictionary.isSome_get?_iff, get]
  cases hg : Dictionary.get? key d.groups with
  | none => simp
  | some values => simpa using h.nonempty _ (Dictionary.mem_of_get? hg)

/-- A dictionary is its history sorted by key: this is what it lists, and its keys, its values, what it
reads under a key and how many values it counts are read from that list. Inserting what it lists into
an empty dictionary gives the same list again. -/
theorem ofHistory_sorts_history (history : List (String × α)) :
    SortsStably history (ofHistory history).toList ∧
    (ofHistory history).keys.Pairwise (· < ·) ∧
    (∀ key, key ∈ (ofHistory history).keys ↔ (ofHistory history).contains key = true) ∧
    (ofHistory history).values = (ofHistory history).toList.map Prod.snd ∧
    (∀ key, (ofHistory history).get key = (under key history).map Prod.snd) ∧
    (∀ key, (ofHistory history).contains key = true ↔ (ofHistory history).get key ≠ []) ∧
    (ofHistory history).size = history.length ∧
    (ofHistory (ofHistory history).toList).toList = (ofHistory history).toList := by
  have hd : (ofHistory history).WellFormed := wellFormed_ofHistory history
  have hlist : SortsStably history (ofHistory history).toList := sortsStably_ofHistory history
  refine ⟨hlist, ?_, fun key => ?_, values_eq _, fun key => get_ofHistory key history,
    fun key => contains_iff key _, ?_, ?_⟩
  · exact List.pairwise_map.mpr hd.sorted
  · rw [hd.mem_keys_iff, contains_iff]
  · rw [size_eq, hlist.perm.length_eq]
  · exact (sortsStably_ofHistory (ofHistory history).toList).unique (.self hlist.ordered)

/-- Flavours of a dish, named between two of its colours. -/
example : (ofHistory [("flavor", 1), ("color", 2), ("flavor", 3)]).toList =
    [("color", 2), ("flavor", 1), ("flavor", 3)] := by
  decide +kernel

end MultiDict

end TextAdventure
