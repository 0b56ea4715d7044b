import Mathlib.Order.Lattice
import Mathlib.Data.List.Sort

/-!
# Key-value stores in key order, and logs of writes

A store is the list of its entries in the strict order of their keys. It is
determined by what it answers for each key, and a scan lists the entries that meet a
condition in key order.

A log of writes and deletions leaves under each key what the last operation on that key
left there, whatever was there before. Replaying a log over a store to which a front
of it was already applied therefore gives what replaying it once gives.
-/

namespace AvalancheParallel.SortedStore

universe u v
variable {K : Type u} {V : Type v} [LinearOrder K]

/-- The entries are in the strict order of their keys. -/
def Ascending (entries : List (K × V)) : Prop :=
  entries.Pairwise (fun first second => first.1 < second.1)

/-- The value under a key. -/
def find (key : K) (entries : List (K × V)) : Option V :=
  (entries.find? (fun entry => decide (entry.1 = key))).map Prod.snd

/-- Write an entry at the place of its key. -/
def putEntry (key : K) (value : V) : List (K × V) → List (K × V)
  | [] => [(key, value)]
  | entry :: rest =>
    if key < entry.1 then (key, value) :: entry :: rest
    else if key = entry.1 then (key, value) :: rest
    else entry :: putEntry key value rest

/-- Take out the entry of a key. -/
def deleteEntry (key : K) (entries : List (K × V)) : List (K × V) :=
  entries.filter (fun entry => decide (entry.1 ≠ key))

/-- The entries of ascending lists are determined by their members. -/
theorem Ascending.ext {first second : List (K × V)} (ordered : Ascending first)
    (alsoOrdered : Ascending second) (same : ∀ entry, entry ∈ first ↔ entry ∈ second) :
    first = second := by
  have irreflexive : Std.Irrefl (fun first second : K × V => first.1 < second.1) :=
    ⟨fun entry => lt_irrefl entry.1⟩
  have transitive : IsTrans (K × V) (fun first second => first.1 < second.1) :=
    ⟨fun _ _ _ => lt_trans⟩
  have antisymmetric : Std.Antisymm (fun first second : K × V => first.1 < second.1) :=
    ⟨fun _ _ below above => absurd above (lt_asymm below)⟩
  exact List.Pairwise.eq_of_mem_iff ordered alsoOrdered same

/-- A key has one entry. -/
theorem Ascending.unique {entries : List (K × V)} (ordered : Ascending entries) {key : K}
    {value other : V} (present : (key, value) ∈ entries) (alsoPresent : (key, other) ∈ entries) :
    value = other := by
  induction entries with
  | nil => exact absurd present List.not_mem_nil
  | cons entry rest inductionHypothesis =>
    obtain ⟨before, later⟩ := List.pairwise_cons.mp ordered
    rcases List.mem_cons.mp present with rfl | inside
    · rcases List.mem_cons.mp alsoPresent with same | alsoInside
      · exact ((Prod.mk.injEq _ _ _ _).mp same).2.symm
      · exact absurd (before _ alsoInside) (lt_irrefl key)
    · rcases List.mem_cons.mp alsoPresent with rfl | alsoInside
      · exact absurd (before _ inside) (lt_irrefl key)
      · exact inductionHypothesis later inside alsoInside

/-- In ascending order, the search finds the entry of a key. -/
theorem Ascending.find_eq_some_iff {entries : List (K × V)} (ordered : Ascending entries)
    (key : K) (value : V) : find key entries = some value ↔ (key, value) ∈ entries := by
  constructor
  · intro found
    obtain ⟨entry, first, rfl⟩ := Option.map_eq_some_iff.mp found
    have own : entry.1 = key := by simpa using List.find?_some first
    rw [← own]
    exact List.mem_of_find?_eq_some first
  · intro member
    cases first : entries.find? (fun entry => decide (entry.1 = key)) with
    | none =>
      have absent := List.find?_eq_none.mp first (key, value) member
      simp at absent
    | some entry =>
      have own : entry.1 = key := by simpa using List.find?_some first
      have present : (key, entry.2) ∈ entries := by
        rw [← own]
        exact List.mem_of_find?_eq_some first
      have same : entry.2 = value := ordered.unique present member
      unfold find
      rw [first, Option.map_some, same]

/-- Writing replaces the entry of the key. -/
theorem mem_putEntry {key : K} {value : V} {entries : List (K × V)}
    (ordered : Ascending entries) (entry : K × V) :
    entry ∈ putEntry key value entries ↔
      entry = (key, value) ∨ entry ∈ entries ∧ entry.1 ≠ key := by
  induction entries with
  | nil => simp [putEntry]
  | cons first rest inductionHypothesis =>
    obtain ⟨before, later⟩ := List.pairwise_cons.mp ordered
    unfold putEntry
    split
    · rename_i below
      have others : ∀ other ∈ first :: rest, other.1 ≠ key := by
        intro other member
        rcases List.mem_cons.mp member with rfl | inside
        · exact ne_of_gt below
        · exact ne_of_gt (lt_trans below (before other inside))
      rw [List.mem_cons]
      exact or_congr_right ⟨fun member => ⟨member, others entry member⟩, And.left⟩
    · split
      · rename_i same
        rw [List.mem_cons, List.mem_cons]
        refine or_congr_right ⟨fun inside => ⟨Or.inr inside, ?_⟩, ?_⟩
        · rw [same]
          exact ne_of_gt (before entry inside)
        · rintro ⟨rfl | inside, different⟩
          · exact absurd same.symm different
          · exact inside
      · rename_i notSame
        rw [List.mem_cons, inductionHypothesis later, List.mem_cons]
        constructor
        · rintro (rfl | new | ⟨inside, different⟩)
          · exact Or.inr ⟨Or.inl rfl, Ne.symm notSame⟩
          · exact Or.inl new
          · exact Or.inr ⟨Or.inr inside, different⟩
        · rintro (new | ⟨rfl | inside, different⟩)
          · exact Or.inr (Or.inl new)
          · exact Or.inl rfl
          · exact Or.inr (Or.inr ⟨inside, different⟩)

/-- Writing an entry keeps the order. -/
theorem ascending_putEntry {key : K} {value : V} {entries : List (K × V)}
    (ordered : Ascending entries) : Ascending (putEntry key value entries) := by
  induction entries with
  | nil => exact List.pairwise_singleton _ _
  | cons first rest inductionHypothesis =>
    obtain ⟨before, later⟩ := List.pairwise_cons.mp ordered
    unfold putEntry
    split
    · rename_i below
      apply List.pairwise_cons.mpr
      refine ⟨?_, ordered⟩
      intro other member
      rcases List.mem_cons.mp member with rfl | inside
      · exact below
      · exact lt_trans below (before other inside)
    · rename_i notBelow
      split
      · rename_i same
        apply List.pairwise_cons.mpr
        refine ⟨?_, later⟩
        intro other inside
        change key < other.1
        rw [same]
        exact before other inside
      · rename_i notSame
        apply List.pairwise_cons.mpr
        refine ⟨?_, inductionHypothesis later⟩
        intro other member
        rcases (mem_putEntry later other).mp member with rfl | ⟨inside, _⟩
        · exact lt_of_le_of_ne (not_lt.mp notBelow) (Ne.symm notSame)
        · exact before other inside

/-- A store of entries in key order. -/
structure Store (K : Type u) (V : Type v) [LinearOrder K] where
  entries : List (K × V)
  ascending : Ascending entries

namespace Store

/-- The empty store. -/
def empty : Store K V := ⟨[], List.Pairwise.nil⟩

/-- What the store answers for a key. -/
def get (store : Store K V) (key : K) : Option V := find key store.entries

def put (store : Store K V) (key : K) (value : V) : Store K V :=
  ⟨putEntry key value store.entries, ascending_putEntry store.ascending⟩

def delete (store : Store K V) (key : K) : Store K V :=
  ⟨deleteEntry key store.entries, List.Pairwise.filter _ store.ascending⟩

/-- The entries whose keys meet the condition, in key order. -/
def scan (store : Store K V) (condition : K → Bool) : List (K × V) :=
  store.entries.filter (fun entry => condition entry.1)

/-- A lookup finds what is stored. -/
theorem get_eq_some_iff (store : Store K V) (key : K) (value : V) :
    store.get key = some value ↔ (key, value) ∈ store.entries :=
  store.ascending.find_eq_some_iff key value

/-- Stores that answer alike are the same. -/
theorem ext_get {first second : Store K V} (same : ∀ key, first.get key = second.get key) :
    first = second := by
  obtain ⟨entries, ascending⟩ := first
  obtain ⟨others, alsoAscending⟩ := second
  have equal : entries = others := by
    apply ascending.ext alsoAscending
    rintro ⟨key, value⟩
    rw [← ascending.find_eq_some_iff, ← alsoAscending.find_eq_some_iff]
    exact iff_of_eq (congrArg (· = some value) (same key))
  subst equal
  rfl

/-- The empty store has no entries. -/
@[simp] theorem get_empty (key : K) : (empty : Store K V).get key = none := rfl

/-- What is put is found. -/
@[simp] theorem get_put_self (store : Store K V) (key : K) (value : V) :
    (store.put key value).get key = some value :=
  (get_eq_some_iff _ _ _).mpr ((mem_putEntry store.ascending _).mpr (Or.inl rfl))

/-- A put leaves the other keys. -/
theorem get_put_of_ne (store : Store K V) {key other : K} (value : V) (different : other ≠ key) :
    (store.put key value).get other = store.get other := by
  apply Option.ext
  intro found
  rw [get_eq_some_iff, get_eq_some_iff]
  change (other, found) ∈ putEntry key value store.entries ↔ _
  rw [mem_putEntry store.ascending]
  constructor
  · rintro (same | ⟨inside, _⟩)
    · exact absurd (congrArg Prod.fst same) different
    · exact inside
  · exact fun inside => Or.inr ⟨inside, different⟩

/-- The entries after a deletion. -/
theorem mem_delete (store : Store K V) (key : K) (entry : K × V) :
    entry ∈ (store.delete key).entries ↔ entry ∈ store.entries ∧ entry.1 ≠ key := by
  change entry ∈ deleteEntry key store.entries ↔ _
  rw [deleteEntry, List.mem_filter, decide_eq_true_iff]

/-- What is deleted is not found. -/
@[simp] theorem get_delete_self (store : Store K V) (key : K) :
    (store.delete key).get key = none := by
  apply Option.eq_none_iff_forall_not_mem.mpr
  intro value found
  have member := (get_eq_some_iff _ _ _).mp found
  rw [mem_delete] at member
  exact member.2 rfl

/-- A deletion leaves the other keys. -/
theorem get_delete_of_ne (store : Store K V) {key other : K} (different : other ≠ key) :
    (store.delete key).get other = store.get other := by
  apply Option.ext
  intro found
  rw [get_eq_some_iff, get_eq_some_iff, mem_delete]
  exact and_iff_left different

/-- A scan lists what the store answers for the keys that meet the condition. -/
theorem mem_scan (store : Store K V) (condition : K → Bool) (key : K) (value : V) :
    (key, value) ∈ store.scan condition ↔ condition key = true ∧ store.get key = some value := by
  unfold scan
  rw [List.mem_filter, get_eq_some_iff]
  exact and_comm

/-- A scan is in ascending order. -/
theorem ascending_scan (store : Store K V) (condition : K → Bool) :
    Ascending (store.scan condition) := store.ascending.filter _

end Store

/-- An operation of a log of writes. -/
inductive Op (K : Type u) (V : Type v)
  | put (key : K) (value : V)
  | delete (key : K)
  deriving DecidableEq

/-- Perform one operation. -/
def Op.apply (store : Store K V) : Op K V → Store K V
  | .put key value => store.put key value
  | .delete key => store.delete key

/-- The key an operation is about. -/
def Op.key : Op K V → K
  | .put key _ => key
  | .delete key => key

/-- What an operation leaves under its key. -/
def Op.left : Op K V → Option V
  | .put _ value => some value
  | .delete _ => none

/-- Perform a log in order. -/
def replay (ops : List (Op K V)) (store : Store K V) : Store K V := ops.foldl Op.apply store

/-- No operations change nothing. -/
@[simp] theorem replay_nil (store : Store K V) : replay [] store = store := rfl

/-- The first operation is applied first. -/
@[simp] theorem replay_cons (op : Op K V) (ops : List (Op K V)) (store : Store K V) :
    replay (op :: ops) store = replay ops (op.apply store) := rfl

/-- Two lists of operations, one after the other. -/
@[simp] theorem replay_append (first second : List (Op K V)) (store : Store K V) :
    replay (first ++ second) store = replay second (replay first store) := List.foldl_append ..

/-- A lookup after one operation. -/
theorem get_apply (store : Store K V) (op : Op K V) (key : K) :
    (op.apply store).get key = if key = op.key then op.left else store.get key := by
  cases op with
  | put written value =>
    change (store.put written value).get key = if key = written then some value else _
    split
    · rename_i same
      rw [same, Store.get_put_self]
    · rename_i different
      exact store.get_put_of_ne value different
  | delete removed =>
    change (store.delete removed).get key = if key = removed then none else _
    split
    · rename_i same
      rw [same, Store.get_delete_self]
    · rename_i different
      exact store.get_delete_of_ne different

/-- A log that does not touch a key leaves what is there. -/
theorem get_replay_of_untouched (ops : List (Op K V)) (store : Store K V) (key : K)
    (untouched : ∀ op ∈ ops, op.key ≠ key) : (replay ops store).get key = store.get key := by
  induction ops generalizing store with
  | nil => rfl
  | cons op rest inductionHypothesis =>
    rw [replay_cons, inductionHypothesis _ (fun later member => untouched later (by simp [member])),
      get_apply, if_neg (Ne.symm (untouched op (by simp)))]

/-- Under a key on which stores agree, or which the log touches, a log leaves the same. -/
theorem get_replay_congr (ops : List (Op K V)) (first second : Store K V) (key : K)
    (settled : (∃ op ∈ ops, op.key = key) ∨ first.get key = second.get key) :
    (replay ops first).get key = (replay ops second).get key := by
  induction ops generalizing first second with
  | nil =>
    rcases settled with ⟨op, member, _⟩ | same
    · exact absurd member List.not_mem_nil
    · exact same
  | cons op rest inductionHypothesis =>
    rw [replay_cons, replay_cons]
    apply inductionHypothesis
    by_cases touched : key = op.key
    · right
      rw [get_apply, get_apply, if_pos touched, if_pos touched]
    · rcases settled with ⟨last, member, own⟩ | same
      · rcases List.mem_cons.mp member with rfl | inside
        · exact absurd own.symm touched
        · exact Or.inl ⟨last, inside, own⟩
      · right
        rw [get_apply, get_apply, if_neg touched, if_neg touched, same]

/-- Replaying a log over a store that already took a front of it changes nothing more than
replaying it once. -/
theorem replay_again (first second : List (Op K V)) (store : Store K V) :
    replay (first ++ second) (replay first store) = replay (first ++ second) store := by
  apply Store.ext_get
  intro key
  apply get_replay_congr
  by_cases touched : ∃ op ∈ first ++ second, op.key = key
  · exact Or.inl touched
  · right
    apply get_replay_of_untouched
    intro op member own
    exact touched ⟨op, List.mem_append_left second member, own⟩

end AvalancheParallel.SortedStore
