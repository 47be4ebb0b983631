/-! # Dictionaries

Entries sorted by key, in the order of code points. Insertion replaces the entry of an equal key and
otherwise puts the new entry before the first greater key, so the laws of reading after writing hold
for every list of entries, sorted or not.
-/
namespace TextAdventure

abbrev Dictionary (α : Type u) := List (String × α)

namespace Dictionary

variable {α : Type u} {β : Type v}

def get? (key : String) : Dictionary α → Option α
  | [] => none
  | (k, v) :: rest => if k = key then some v else get? key rest

def contains (key : String) (d : Dictionary α) : Bool :=
  (get? key d).isSome

def insert (key : String) (value : α) : Dictionary α → Dictionary α
  | [] => [(key, value)]
  | (k, v) :: rest =>
    if k = key then (key, value) :: rest
    else if key < k then (key, value) :: (k, v) :: rest
    else (k, v) :: insert key value rest

/-- Inserts entries one after the other; of equal keys the last one stays. -/
def insertAll (entries : List (String × α)) (d : Dictionary α) : Dictionary α :=
  entries.foldl (fun d entry => insert entry.1 entry.2 d) d

def ofList (entries : List (String × α)) : Dictionary α :=
  insertAll entries []

/-- How many entries have a smaller key. -/
def rank (key : String) (d : Dictionary α) : Nat :=
  d.countP fun entry => entry.1 < key

def keys (d : Dictionary α) : List String :=
  d.map Prod.fst

def values (d : Dictionary α) : List α :=
  d.map Prod.snd

/-- Keys strictly increase; every dictionary built by `insert` is of this form. -/
def Sorted (d : Dictionary α) : Prop :=
  d.Pairwise fun a b => a.1 < b.1

@[simp] theorem get?_nil (key : String) : get? key ([] : Dictionary α) = none := rfl

@[simp] theorem get?_insert_self (key : String) (value : α) (d : Dictionary α) :
    get? key (insert key value d) = some value := by
  induction d with
  | nil => simp [insert, get?]
  | cons entry rest ih =>
    obtain ⟨k, v⟩ := entry
    by_cases hk : k = key
    · simp [insert, get?, hk]
    · by_cases hlt : key < k <;> simp [insert, get?, hk, hlt, ih]

@[simp] theorem get?_insert_of_ne {key other : String} (h : other ≠ key) (value : α)
    (d : Dictionary α) : get? other (insert key value d) = get? other d := by
  induction d with
  | nil => simp [insert, get?, Ne.symm h]
  | cons entry rest ih =>
    obtain ⟨k, v⟩ := entry
    by_cases hk : k = key
    · simp [insert, get?, hk, Ne.symm h]
    · by_cases hlt : key < k <;> simp [insert, get?, hk, hlt, ih, Ne.symm h]

theorem get?_insert (key other : String) (value : α) (d : Dictionary α) :
    get? other (insert key value d) = if other = key then some value else get? other d := by
  by_cases h : other = key
  · simp [h]
  · simp [h]

theorem insert_insert (key : String) (a b : α) (d : Dictionary α) :
    insert key b (insert key a d) = insert key b d := by
  induction d with
  | nil => simp [insert]
  | cons entry rest ih =>
    obtain ⟨k, v⟩ := entry
    by_cases hk : k = key
    · simp [insert, hk]
    · by_cases hlt : key < k <;> simp [insert, hk, hlt, ih]

theorem insert_comm {key other : String} (h : key ≠ other) (a b : α) (d : Dictionary α) :
    insert key a (insert other b d) = insert other b (insert key a d) := by
  have hor : key < other ∨ other < key := by
    rcases Std.lt_trichotomy key other with hlt | heq | hlt
    · exact .inl hlt
    · exact absurd heq h
    · exact .inr hlt
  have hasymm : ∀ {x y : String}, x < y → ¬ y < x :=
    fun hxy hyx => Std.lt_irrefl (Std.lt_trans hxy hyx)
  induction d with
  | nil => rcases hor with hlt | hlt <;> simp [insert, h, Ne.symm h, hlt, hasymm hlt]
  | cons entry rest ih =>
    obtain ⟨k, v⟩ := entry
    -- Where `k` stands among the two new keys decides all three comparisons.
    grind [insert, Std.lt_trans, Std.lt_irrefl]

theorem mem_of_get? {key : String} {value : α} {d : Dictionary α} (h : get? key d = some value) :
    (key, value) ∈ d := by
  induction d with
  | nil => cases h
  | cons entry rest ih =>
    obtain ⟨k, v⟩ := entry
    by_cases hk : k = key
    · simp only [get?, if_pos hk, Option.some.injEq] at h
      rw [hk, h]
      exact List.mem_cons_self
    · simp only [get?, if_neg hk] at h
      exact List.mem_cons_of_mem _ (ih h)

theorem isSome_get?_iff {key : String} {d : Dictionary α} : (get? key d).isSome ↔ key ∈ keys d := by
  induction d with
  | nil => simp [keys]
  | cons entry rest ih =>
    obtain ⟨k, v⟩ := entry
    by_cases hk : k = key
    · simp [get?, keys, hk]
    · rw [get?, if_neg hk, ih]
      simp [keys, Ne.symm hk]

theorem mem_values_of_get? {key : String} {value : α} {d : Dictionary α}
    (h : get? key d = some value) : value ∈ values d :=
  List.mem_map.mpr ⟨(key, value), mem_of_get? h, rfl⟩

theorem mem_insert {key : String} {value : α} {d : Dictionary α} {entry : String × α}
    (h : entry ∈ insert key value d) : entry = (key, value) ∨ entry ∈ d := by
  fun_induction insert key value d <;> grind

theorem mem_insertAll {entries : List (String × α)} {d : Dictionary α} {entry : String × α}
    (h : entry ∈ insertAll entries d) : entry ∈ entries ∨ entry ∈ d := by
  induction entries generalizing d with
  | nil => exact .inr h
  | cons first rest ih =>
    rcases ih h with hrest | hd
    · exact .inl (List.mem_cons_of_mem first hrest)
    · rcases mem_insert hd with rfl | hd
      · exact .inl List.mem_cons_self
      · exact .inr hd

theorem mem_ofList {entries : List (String × α)} {entry : String × α} (h : entry ∈ ofList entries) :
    entry ∈ entries := by
  rcases mem_insertAll h with h | h
  · exact h
  · cases h

theorem isSome_get?_insertAll {key : String} {entries : List (String × α)} {d : Dictionary α}
    (h : key ∈ keys entries ∨ (get? key d).isSome) : (get? key (insertAll entries d)).isSome := by
  induction entries generalizing d with
  | nil => exact h.resolve_left List.not_mem_nil
  | cons entry rest ih =>
    apply ih
    rw [keys, List.map_cons, List.mem_cons] at h
    rw [get?_insert]
    by_cases hkey : key = entry.1
    · exact .inr (by rw [if_pos hkey]; rfl)
    · rw [if_neg hkey]
      exact h.imp_left fun hm => hm.resolve_left hkey

theorem isSome_get?_ofList {key : String} {entries : List (String × α)} (h : key ∈ keys entries) :
    (get? key (ofList entries)).isSome :=
  isSome_get?_insertAll (.inl h)

theorem sorted_insert {d : Dictionary α} (h : Sorted d) (key : String) (value : α) :
    Sorted (insert key value d) := by
  unfold Sorted at h ⊢
  fun_induction insert key value d with
  | case1 => simp
  | case2 => exact List.pairwise_cons.mpr (List.pairwise_cons.mp h)
  | case3 k v rest hk hlt =>
    refine List.pairwise_cons.mpr ⟨fun entry hentry => ?_, h⟩
    rcases List.mem_cons.mp hentry with rfl | hrest
    · exact hlt
    · exact Std.lt_trans hlt (List.rel_of_pairwise_cons h hrest)
  | case4 k v rest hk hlt ih =>
    have hk' : k < key := by
      rcases Std.lt_trichotomy key k with h1 | h1 | h1
      · exact absurd h1 hlt
      · exact absurd h1.symm hk
      · exact h1
    refine List.pairwise_cons.mpr ⟨fun entry hentry => ?_, ih (List.pairwise_cons.mp h).2⟩
    rcases mem_insert hentry with rfl | hrest
    · exact hk'
    · exact List.rel_of_pairwise_cons h hrest

theorem sorted_insertAll {d : Dictionary α} (h : Sorted d) (entries : List (String × α)) :
    Sorted (insertAll entries d) := by
  induction entries generalizing d with
  | nil => exact h
  | cons entry rest ih => exact ih (sorted_insert h entry.1 entry.2)

theorem sorted_ofList (entries : List (String × α)) : Sorted (ofList entries) :=
  sorted_insertAll List.Pairwise.nil entries

theorem get?_of_mem {d : Dictionary α} (h : Sorted d) {key : String} {value : α}
    (hm : (key, value) ∈ d) : get? key d = some value := by
  unfold Sorted at h
  induction d with
  | nil => cases hm
  | cons entry rest ih =>
    obtain ⟨k, v⟩ := entry
    rcases List.mem_cons.mp hm with heq | hm
    · cases heq
      simp [get?]
    · have hlt := List.rel_of_pairwise_cons h hm
      have hne : k ≠ key := fun he => Std.lt_irrefl (he ▸ hlt)
      rw [get?, if_neg hne]
      exact ih (List.pairwise_cons.mp h).2 hm

theorem exists_get?_of_mem_values {d : Dictionary α} (h : Sorted d) {value : α}
    (hv : value ∈ values d) : ∃ key, get? key d = some value := by
  obtain ⟨⟨key, v⟩, hm, rfl⟩ := List.mem_map.mp hv
  exact ⟨key, get?_of_mem h hm⟩

end Dictionary

end TextAdventure
