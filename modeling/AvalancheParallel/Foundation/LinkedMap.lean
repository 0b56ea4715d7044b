import Mathlib.Data.List.Nodup

/-!
# Maps in insertion order

A map that remembers the order in which its keys were written. Writing a key that is
present moves it to the end. A value behind a pointer can be changed in place, which
leaves the order alone.
-/

namespace AvalancheParallel

universe u v

/-- The entries from the oldest to the newest, with one entry for each key. -/
structure LinkedMap (K : Type u) (V : Type v) where
  entries : List (K × V)
  distinct : (entries.map Prod.fst).Nodup

namespace LinkedMap

variable {K : Type u} {V : Type v}

def empty : LinkedMap K V := ⟨[], List.nodup_nil⟩

variable [DecidableEq K]

/-- Read a key. -/
def get (key : K) (table : LinkedMap K V) : Option V :=
  (table.entries.find? (fun entry => decide (entry.1 = key))).map Prod.snd

/-- Delete a key. -/
def delete (key : K) (table : LinkedMap K V) : LinkedMap K V where
  entries := table.entries.filter (fun entry => decide (entry.1 ≠ key))
  distinct := table.distinct.sublist (List.filter_sublist.map Prod.fst)

/-- Write a key as the newest one. -/
def put (key : K) (value : V) (table : LinkedMap K V) : LinkedMap K V where
  entries := (table.delete key).entries ++ [(key, value)]
  distinct := by
    rw [List.map_append, List.nodup_append]
    refine ⟨(table.delete key).distinct, List.nodup_singleton key, ?_⟩
    intro first inside second last
    obtain ⟨entry, kept, rfl⟩ := List.mem_map.mp inside
    have different := (List.mem_filter.mp kept).2
    rw [List.map_singleton, List.mem_singleton] at last
    rw [last]
    simpa using different

/-- Change the value of a key in place. -/
def modify (key : K) (change : V → V) (table : LinkedMap K V) : LinkedMap K V where
  entries := table.entries.map (fun entry =>
    if entry.1 = key then (entry.1, change entry.2) else entry)
  distinct := by
    have keys : (table.entries.map (fun entry =>
        if entry.1 = key then (entry.1, change entry.2) else entry)).map Prod.fst =
          table.entries.map Prod.fst := by
      rw [List.map_map]
      refine List.map_congr_left ?_
      intro entry _
      change (if entry.1 = key then (entry.1, change entry.2) else entry).1 = entry.1
      split <;> rfl
    rw [keys]
    exact table.distinct

variable {table : LinkedMap K V} {key : K} {value : V}

/-- A value that is read is in an entry. -/
theorem mem_of_get (found : table.get key = some value) : (key, value) ∈ table.entries := by
  obtain ⟨entry, first, rfl⟩ := Option.map_eq_some_iff.mp found
  have own : entry.1 = key := by simpa using List.find?_some first
  rw [← own]
  exact List.mem_of_find?_eq_some first

/-- An entry under a key holds the value that is read. -/
theorem eq_of_get (found : table.get key = some value) {entry : K × V}
    (member : entry ∈ table.entries) (own : entry.1 = key) : entry = (key, value) :=
  List.inj_on_of_nodup_map table.distinct member (mem_of_get found) own

/-- A new key is appended. -/
theorem put_entries_of_absent (absent : table.get key = none) (value : V) :
    (table.put key value).entries = table.entries ++ [(key, value)] := by
  change table.entries.filter _ ++ _ = _
  congr 1
  rw [List.filter_eq_self]
  intro entry inside
  have missing := List.find?_eq_none.mp (Option.map_eq_none_iff.mp absent) entry inside
  simpa using missing

/-- Values that a change keeps, seen through a function, are the same after it. -/
theorem map_modify_entries {β : Type*} (seen : V → β) (change : V → V)
    (kept : ∀ value, seen (change value) = seen value) :
    (table.modify key change).entries.map (fun entry => seen entry.2) =
      table.entries.map (fun entry => seen entry.2) := by
  change (table.entries.map _).map _ = _
  rw [List.map_map]
  refine List.map_congr_left ?_
  intro entry _
  change seen (if entry.1 = key then (entry.1, change entry.2) else entry).2 = seen entry.2
  split
  · exact kept entry.2
  · rfl

/-- The entries after a change are those before it, or changed. -/
theorem mem_modify_entries {change : V → V} {entry : K × V}
    (member : entry ∈ (table.modify key change).entries) :
    entry ∈ table.entries ∨ ∃ before ∈ table.entries, before.1 = key ∧
      entry = (before.1, change before.2) := by
  obtain ⟨before, inside, rfl⟩ := List.mem_map.mp member
  split
  · rename_i same
    exact .inr ⟨before, inside, same, rfl⟩
  · exact .inl inside

omit [DecidableEq K] in
/-- No later entry has the key of the oldest. -/
theorem ne_of_mem_tail {rest : List (K × V)} (oldest : table.entries = (key, value) :: rest)
    {entry : K × V} (later : entry ∈ rest) : entry.1 ≠ key := by
  have distinct := table.distinct
  rw [oldest, List.map_cons, List.nodup_cons] at distinct
  rintro rfl
  exact distinct.1 (List.mem_map.mpr ⟨entry, later, rfl⟩)

/-- Deleting the oldest key. -/
theorem delete_oldest {rest : List (K × V)} (oldest : table.entries = (key, value) :: rest) :
    (table.delete key).entries = rest := by
  change table.entries.filter _ = _
  rw [oldest, List.filter_cons_of_neg (by simp), List.filter_eq_self]
  intro entry later
  simpa using ne_of_mem_tail oldest later

/-- Changing the oldest value. -/
theorem modify_oldest {rest : List (K × V)} (oldest : table.entries = (key, value) :: rest)
    (change : V → V) : (table.modify key change).entries = (key, change value) :: rest := by
  change table.entries.map _ = _
  rw [oldest, List.map_cons, if_pos rfl]
  congr 1
  have unchanged : ∀ entry ∈ rest,
      (if entry.1 = key then (entry.1, change entry.2) else entry) = id entry := by
    intro entry later
    exact if_neg (ne_of_mem_tail oldest later)
  rw [List.map_congr_left unchanged, List.map_id]

end LinkedMap

end AvalancheParallel
