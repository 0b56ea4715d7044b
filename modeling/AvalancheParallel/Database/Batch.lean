import AvalancheParallel.Foundation.ByteOrder
import AvalancheParallel.Foundation.SortedStore

/-!
# Databases and batches of writes

An open `memdb.Database` is a map from byte strings to byte strings whose iterators visit
the keys in their order. A batch records writes and deletions in order and performs them
together when it is written. `BatchOps.Reset` sets the recorded size back and leaves the
recorded operations in place, so a batch that is written again performs them again.
-/

namespace AvalancheParallel.Database

open AvalancheParallel.Encoding
open AvalancheParallel.ByteOrder
open AvalancheParallel.SortedStore

/-- A Go `[]byte`. -/
abbrev Bytes := List UInt8

/-- An open `memdb.Database`. -/
abbrev MemDb := Store Bytes Bytes

/-- The errors of the helpers below. -/
inductive DbError
  | notFound
  | wrongSize
  deriving DecidableEq, Repr

/-- `Database.Get`. -/
def MemDb.read (db : MemDb) (key : Bytes) : Except DbError Bytes :=
  match db.get key with
  | some value => .ok value
  | none => .error .notFound

/-- `Database.NewIteratorWithStartAndPrefix`: the entries an iterator visits. They are read when
the iterator is made; later writes do not change them. -/
def newIteratorWithStartAndPrefix (db : MemDb) (start front : Bytes) : List (Bytes × Bytes) :=
  db.scan (fun key => front.isPrefixOf key && decide (start ≤ key))

/-- `Database.NewIteratorWithPrefix`. -/
def newIteratorWithPrefix (db : MemDb) (front : Bytes) : List (Bytes × Bytes) :=
  newIteratorWithStartAndPrefix db [] front

/-- `database.PackUInt64`. -/
def packUInt64 (value : UInt64) : Bytes := bigEndian64 value

/-- `database.ParseUInt64`. -/
def parseUInt64 (bytes : Bytes) : Except DbError UInt64 :=
  if bytes.length ≠ 8 then .error .wrongSize else .ok (readBigEndian64 bytes)

/-- A packed number is parsed back. -/
@[simp] theorem parseUInt64_packUInt64 (value : UInt64) :
    parseUInt64 (packUInt64 value) = .ok value := by
  simp [parseUInt64, packUInt64]

/-- Different numbers are packed differently. -/
theorem packUInt64_injective : Function.Injective packUInt64 := bigEndian64_injective

/-- `database.BatchOps`. -/
structure BatchOps where
  ops : List (Op Bytes Bytes)
  size : ℕ
  deriving DecidableEq

namespace BatchOps

/-- A new batch. -/
def new : BatchOps := ⟨[], 0⟩

/-- `BatchOps.Put`. -/
def put (batch : BatchOps) (key value : Bytes) : BatchOps :=
  ⟨batch.ops ++ [.put key value], batch.size + (key.length + value.length)⟩

/-- `BatchOps.Delete`. -/
def delete (batch : BatchOps) (key : Bytes) : BatchOps :=
  ⟨batch.ops ++ [.delete key], batch.size + key.length⟩

/-- `BatchOps.Reset`: the operations stay. -/
def reset (batch : BatchOps) : BatchOps := { batch with size := 0 }

/-- `batch.Write` of `memdb`. -/
def write (batch : BatchOps) (db : MemDb) : MemDb := replay batch.ops db

/-- The new batch writes nothing. -/
@[simp] theorem write_new (db : MemDb) : new.write db = db := rfl

/-- A batch that is reset still writes all of its operations. -/
@[simp] theorem write_reset (batch : BatchOps) (db : MemDb) :
    batch.reset.write db = batch.write db := rfl

/-- Writing a batch again after a write changes nothing. -/
@[simp] theorem write_write (batch : BatchOps) (db : MemDb) :
    batch.write (batch.write db) = batch.write db := by
  have again := replay_again batch.ops [] db
  rwa [List.append_nil] at again

end BatchOps

/-- A value recorded under a key is what the key holds after the write. -/
theorem get_write_put (batch : BatchOps) (db : MemDb) (key value other : Bytes) :
    ((batch.put key value).write db).get other =
      if other = key then some value else (batch.write db).get other := by
  change (replay (batch.ops ++ [.put key value]) db).get other = _
  rw [replay_append, replay_cons, replay_nil, get_apply]
  by_cases same : other = key
  · exact (if_pos same).trans (if_pos same).symm
  · exact (if_neg same).trans (if_neg same).symm

/-- A lookup after a deletion is written. -/
theorem get_write_delete (batch : BatchOps) (db : MemDb) (key other : Bytes) :
    ((batch.delete key).write db).get other =
      if other = key then none else (batch.write db).get other := by
  change (replay (batch.ops ++ [.delete key]) db).get other = _
  rw [replay_append, replay_cons, replay_nil, get_apply]
  by_cases same : other = key
  · exact (if_pos same).trans (if_pos same).symm
  · exact (if_neg same).trans (if_neg same).symm

/-- Iterators visit the keys in order. -/
theorem ascending_newIteratorWithStartAndPrefix (db : MemDb) (start front : Bytes) :
    Ascending (newIteratorWithStartAndPrefix db start front) := Store.ascending_scan _ _

/-- An iterator visits its keys in ascending order. -/
theorem ascending_newIteratorWithPrefix (db : MemDb) (front : Bytes) :
    Ascending (newIteratorWithPrefix db front) :=
  ascending_newIteratorWithStartAndPrefix db [] front

/-- The entries of a prefix iterator. -/
theorem mem_newIteratorWithPrefix (db : MemDb) (front key value : Bytes) :
    (key, value) ∈ newIteratorWithPrefix db front ↔
      front <+: key ∧ db.get key = some value := by
  have least : [] ≤ key := not_lt.mp (List.not_lt_nil key)
  unfold newIteratorWithPrefix newIteratorWithStartAndPrefix
  rw [Store.mem_scan]
  simp [least]

/-- An iterator visits the entries under its keys from the start on. -/
theorem mem_newIteratorWithStartAndPrefix (db : MemDb) (start front key value : Bytes) :
    (key, value) ∈ newIteratorWithStartAndPrefix db start front ↔
      (front <+: key ∧ start ≤ key) ∧ db.get key = some value := by
  unfold newIteratorWithStartAndPrefix
  rw [Store.mem_scan]
  simp

end AvalancheParallel.Database
