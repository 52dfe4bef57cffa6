import Mathlib.Data.List.Nodup
import ProtoSdl.Table

/-! Look-ups in tables against their entries. A table filled under pairwise distinct keys lists its
entries as they were given, so that a look-up finds exactly the entry of its key. -/
namespace ProtoSdl.Table

variable {α β : Type}

@[simp] theorem get?_new (key : String) : ({} : Table α).get? key = none := rfl

private theorem mem_of_found {key : String} {value : α} {entries : List (String × α)}
    (h : getEntry? key entries = some value) : (key, value) ∈ entries := by
  induction entries with
  | nil => simp [ getEntry?] at h
  | cons entry entries ih =>
    obtain ⟨k, v⟩ := entry
    by_cases hk : k = key
    · simp only [ getEntry?, hk, if_true, Option.some.injEq] at h
      simp [hk, h]
    · simp only [ getEntry?, hk, if_false] at h
      exact List.mem_cons_of_mem _ (ih h)

private theorem getEntry?_of_mem {key : String} {value : α} {entries : List (String × α)}
    (hn : (entries.map (·.1)).Nodup) (h : (key, value) ∈ entries) :
    getEntry? key entries = some value := by
  induction entries with
  | nil => simp at h
  | cons entry entries ih =>
    obtain ⟨k, v⟩ := entry
    obtain ⟨hk, hr⟩ := List.nodup_cons.mp hn
    rcases List.mem_cons.mp h with he | he
    · obtain ⟨rfl, rfl⟩ := Prod.mk.inj he
      simp [ getEntry?]
    · have hne : k ≠ key := fun heq => hk (List.mem_map.mpr ⟨(key, value), he, heq.symm⟩)
      simpa [ getEntry?, hne] using ih hr he

theorem mem_entries_of_get? {table : Table α} {key : String} {value : α}
    (h : table.get? key = some value) : (key, value) ∈ table.entries :=
  mem_of_found h

theorem get?_eq_some_iff {table : Table α} (hn : table.keys.Nodup) {key : String} {value : α} :
    table.get? key = some value ↔ (key, value) ∈ table.entries :=
  ⟨mem_of_found, getEntry?_of_mem hn⟩

theorem mem_keys_iff {table : Table α} {key : String} :
    key ∈ table.keys ↔ ∃ value, table.get? key = some value := by
  constructor
  · intro h
    obtain ⟨entries⟩ := table
    change key ∈ entries.map (·.1) at h
    change ∃ value, getEntry? key entries = some value
    induction entries with
    | nil => simp at h
    | cons entry entries ih =>
      by_cases hk : entry.1 = key
      · exact ⟨entry.2, by simp [ getEntry?, hk]⟩
      · have hm : key ∈ entries.map (·.1) := by simpa [Ne.symm hk] using h
        obtain ⟨value, hv⟩ := ih hm
        exact ⟨value, by simp [ getEntry?, hk, hv]⟩
  · rintro ⟨value, h⟩
    exact List.mem_map.mpr ⟨_, mem_entries_of_get? h, rfl⟩

theorem get?_eq_none_iff {table : Table α} {key : String} :
    table.get? key = none ↔ key ∉ table.keys := by
  rw [mem_keys_iff, Option.eq_none_iff_forall_ne_some]
  simp

theorem contains_iff {table : Table α} {key : String} :
    table.contains key = true ↔ key ∈ table.keys := by
  rw [contains, Option.isSome_iff_exists, mem_keys_iff]

theorem mem_values_of_get? {table : Table α} {key : String} {value : α}
    (h : table.get? key = some value) : value ∈ table.values :=
  List.mem_map.mpr ⟨_, mem_entries_of_get? h, rfl⟩

theorem exists_get?_of_mem_values {table : Table α} (hn : table.keys.Nodup) {value : α}
    (h : value ∈ table.values) : ∃ key, table.get? key = some value := by
  obtain ⟨entry, hentry, rfl⟩ := List.mem_map.mp h
  exact ⟨entry.1, (get?_eq_some_iff hn).mpr hentry⟩

/-- A value under a new key is appended. -/
theorem entries_insert_of_not_mem {table : Table α} {key : String} {value : α}
    (h : key ∉ table.keys) :
    (table.insert key value).entries = table.entries ++ [(key, value)] := by
  obtain ⟨entries⟩ := table
  change key ∉ entries.map (·.1) at h
  change insertEntry key value entries = _
  induction entries with
  | nil => rfl
  | cons entry entries ih =>
    have hk : entry.1 ≠ key := fun heq => h (by simp [heq])
    have hr : key ∉ entries.map (·.1) := fun hm => h (List.mem_cons_of_mem _ hm)
    simp [insertEntry, hk, ih hr]

/-- The keys of a table after insertions are the old ones and those of the items. -/
theorem mem_keys_foldl_insert {key : β → String} {value : β → α} {items : List β} {table : Table α}
    {name : String} :
    name ∈ (items.foldl (fun table item => table.insert (key item) (value item)) table).keys ↔
      name ∈ table.keys ∨ ∃ item ∈ items, key item = name := by
  induction items generalizing table with
  | nil => simp
  | cons item items ih =>
    have hkeys : name ∈ (table.insert (key item) (value item)).keys ↔
        name ∈ table.keys ∨ key item = name := by
      rw [keys_insert]
      split
      · rename_i hm
        exact ⟨.inl, fun h => h.elim id fun heq => heq ▸ hm⟩
      · simp [eq_comm]
    rw [List.foldl_cons, ih, hkeys]
    simp [or_assoc]

/-- After insertions a look-up finds the last item of a key, or else what was there before. -/
theorem get?_foldl_insert {key : β → String} {value : β → α} {items : List β} {table : Table α}
    {name : String} :
    (items.foldl (fun table item => table.insert (key item) (value item)) table).get? name =
      ((items.filter (key · = name)).getLast?.map value).or (table.get? name) := by
  induction items generalizing table with
  | nil => rfl
  | cons item items ih =>
    rw [List.foldl_cons, ih, get?_insert, List.filter_cons]
    by_cases hname : key item = name
    · have hlater := List.getLast?_cons (a := item) (l := items.filter (key · = name))
      cases hlast : (items.filter (key · = name)).getLast? <;> simp [hname, hlater, hlast]
    · simp [hname, Ne.symm hname]

/-- A value of a table after insertions was there before or comes from an item. -/
theorem of_get?_foldl_insert {key : β → String} {value : β → α} {items : List β} {table : Table α}
    {name : String} {found : α}
    (h : (items.foldl (fun table item => table.insert (key item) (value item)) table).get? name =
      some found) :
    table.get? name = some found ∨ ∃ item ∈ items, key item = name ∧ value item = found := by
  rw [get?_foldl_insert, Option.or_eq_some_iff] at h
  rcases h with hlast | ⟨-, hold⟩
  · obtain ⟨item, hitem, hvalue⟩ := Option.map_eq_some_iff.mp hlast
    obtain ⟨hm, hname⟩ := List.mem_filter.mp (List.mem_of_getLast? hitem)
    exact .inr ⟨item, hm, of_decide_eq_true hname, hvalue⟩
  · exact .inl hold

/-- Inserting items under pairwise distinct new keys appends them in order. -/
theorem entries_foldl_insert (key : β → String) (value : β → α) (items : List β) (table : Table α)
    (hn : (items.map key).Nodup) (hnew : ∀ item ∈ items, key item ∉ table.keys) :
    (items.foldl (fun table item => table.insert (key item) (value item)) table).entries =
      table.entries ++ items.map fun item => (key item, value item) := by
  induction items generalizing table with
  | nil => simp
  | cons item items ih =>
    obtain ⟨hi, hr⟩ := List.nodup_cons.mp hn
    have he : (table.insert (key item) (value item)).entries =
        table.entries ++ [(key item, value item)] :=
      entries_insert_of_not_mem (hnew item List.mem_cons_self)
    have hnext : ∀ other ∈ items, key other ∉ (table.insert (key item) (value item)).keys := by
      intro other hm
      have hold := hnew other (List.mem_cons_of_mem _ hm)
      have hne : key other ≠ key item := fun heq => hi (heq ▸ List.mem_map_of_mem hm)
      simp only [keys] at hold ⊢
      simp [he, hold, hne]
    simp [ih _ hr hnext, he]

theorem entries_ofList {entries : List (String × α)} (h : (entries.map (·.1)).Nodup) :
    (ofList entries).entries = entries := by
  rw [ofList, entries_foldl_insert (·.1) (·.2) entries empty h (by simp [keys, empty])]
  exact List.map_id entries

theorem nodup_keys_insert {table : Table α} (h : table.keys.Nodup) (key : String) (value : α) :
    (table.insert key value).keys.Nodup := by
  rw [keys_insert]
  split
  · exact h
  · rename_i hnew
    refine List.nodup_append.mpr ⟨h, by simp, ?_⟩
    rintro a ha b hb rfl
    exact hnew (List.mem_singleton.mp hb ▸ ha)

theorem nodup_keys_foldl_insert {key : β → String} {value : β → α} {items : List β}
    {table : Table α} (h : table.keys.Nodup) :
    (items.foldl (fun table item => table.insert (key item) (value item)) table).keys.Nodup := by
  induction items generalizing table with
  | nil => exact h
  | cons item items ih => exact ih (nodup_keys_insert h _ _)

/-- An entry of a table filled with items is that of an item. -/
theorem of_mem_entries_foldl_insert {key : β → String} {value : β → α} {items : List β}
    {entry : String × α} (h : entry ∈ (items.foldl (fun table item =>
      table.insert (key item) (value item)) ({} : Table α)).entries) :
    ∃ item ∈ items, key item = entry.1 ∧ value item = entry.2 := by
  have hnew : ({} : Table α).keys.Nodup := List.nodup_nil
  have hfound := (get?_eq_some_iff (nodup_keys_foldl_insert hnew)).mpr h
  exact (of_get?_foldl_insert hfound).resolve_left (by simp)

/-- Values that tell their keys are told apart by them. -/
theorem nodup_values_map {table : Table α} (h : table.keys.Nodup) {name : α → String}
    (hname : ∀ entry ∈ table.entries, name entry.2 = entry.1) : (table.values.map name).Nodup := by
  have hkeys : table.values.map name = table.keys := by
    rw [values, keys, List.map_map]
    exact List.map_congr_left hname
  rwa [hkeys]

end ProtoSdl.Table
