import Mathlib.Data.List.Basic

/-!
# Ordered key sets and bounded caches

Two stores with an order of their own, as lists. In an ordered key set a new key
becomes the first one, and writing a key that is present changes nothing. A cache of
bounded size, with the oldest entry first, makes room for a new entry by dropping the
oldest; reading an entry makes it the newest.
-/

namespace AvalancheParallel.OrderedStore

universe u v
variable {K : Type u} {V : Type v} [DecidableEq K]

/-- Write a key. -/
def putKey (key : K) (keys : List K) : List K := if key ∈ keys then keys else key :: keys

/-- Membership after a key is written. -/
@[simp] theorem mem_putKey {key other : K} {keys : List K} :
    other ∈ putKey key keys ↔ other = key ∨ other ∈ keys := by
  unfold putKey
  split
  · rename_i present
    constructor
    · exact Or.inr
    · rintro (rfl | member)
      · exact present
      · exact member
  · exact List.mem_cons

/-- Keys are not repeated. -/
theorem nodup_putKey {key : K} {keys : List K} (distinct : keys.Nodup) :
    (putKey key keys).Nodup := by
  unfold putKey
  split
  · exact distinct
  · rename_i absent
    exact List.nodup_cons.mpr ⟨absent, distinct⟩

/-- The cache without the entry of a key. -/
def dropKey (key : K) (entries : List (K × V)) : List (K × V) :=
  entries.filter (fun entry => decide (entry.1 ≠ key))

/-- Write an entry; a full cache drops its oldest entry first. -/
def cachePut (size : ℕ) (key : K) (value : V) (entries : List (K × V)) : List (K × V) :=
  dropKey key (if entries.length = size then entries.tail else entries) ++ [(key, value)]

/-- Read an entry, with the cache after the access. -/
def cacheGet (key : K) (entries : List (K × V)) : List (K × V) × Option V :=
  match entries.find? (fun entry => decide (entry.1 = key)) with
  | none => (entries, none)
  | some entry => (dropKey key entries ++ [(key, entry.2)], some entry.2)

/-- The entries after a write are the new one and earlier ones. -/
theorem mem_cachePut {size : ℕ} {key : K} {value : V} {entries : List (K × V)} {entry : K × V}
    (member : entry ∈ cachePut size key value entries) :
    entry = (key, value) ∨ entry ∈ entries := by
  unfold cachePut dropKey at member
  rcases List.mem_append.mp member with kept | new
  · have earlier := (List.mem_filter.mp kept).1
    split at earlier
    · exact Or.inr (List.mem_of_mem_tail earlier)
    · exact Or.inr earlier
  · exact Or.inl (List.mem_singleton.mp new)

/-- An entry that is read was there. -/
theorem cacheGet_some {key : K} {entries : List (K × V)} {value : V}
    (found : (cacheGet key entries).2 = some value) : (key, value) ∈ entries := by
  unfold cacheGet at found
  split at found
  · cases found
  · rename_i entry first
    obtain rfl := Option.some.inj found
    have own : entry.1 = key := by simpa using List.find?_some first
    rw [← own]
    exact List.mem_of_find?_eq_some first

/-- Reading adds no entry. -/
theorem mem_cacheGet {key : K} {entries : List (K × V)} {entry : K × V}
    (member : entry ∈ (cacheGet key entries).1) : entry ∈ entries := by
  unfold cacheGet at member
  split at member
  · exact member
  · rename_i found first
    rcases List.mem_append.mp member with kept | moved
    · exact (List.mem_filter.mp kept).1
    · obtain rfl := List.mem_singleton.mp moved
      have own : found.1 = key := by simpa using List.find?_some first
      rw [← own]
      exact List.mem_of_find?_eq_some first

end AvalancheParallel.OrderedStore
