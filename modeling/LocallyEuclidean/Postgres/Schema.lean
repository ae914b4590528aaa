import LocallyEuclidean.Interact.Patch
import LocallyEuclidean.Postgres.Time
import Mathlib.Data.List.Sort

/-! The two tables of the initial schema and the large objects beside them.
Rows keep the columns that the program reads. Tables are lists, so that the
unique indexes and the foreign key are facts to be proved, not types. -/

namespace LocallyEuclidean.Postgres

abbrev Bytes := List UInt8

/-- Object identifier of a large object. -/
abbrev Oid := ℕ

structure BucketId where
  uuid : ℕ
  deriving DecidableEq, Repr

structure FileId where
  uuid : ℕ
  deriving DecidableEq, Repr

structure BucketRow where
  id : BucketId
  name : String
  defaultTtl : Option Interval
  deriving DecidableEq, Repr

structure FileRow where
  id : FileId
  bucketId : BucketId
  filename : String
  blob : Oid
  deleteAfter : Option Timestamp
  updatedAt : Timestamp
  deriving DecidableEq, Repr

/-- A committed database state. `nextOid` and `nextUuid` are never used before;
`clock` is what `now()` reads. -/
structure Db where
  buckets : List BucketRow
  files : List FileRow
  objects : Oid → Option Bytes
  nextOid : Oid
  nextUuid : ℕ
  clock : Timestamp

namespace Db

/-- The database as the migration leaves it. -/
def migrated (clock : Timestamp) : Db :=
  ⟨[], [], fun _ => none, 16384, 0, clock⟩

def findBucket (db : Db) (name : String) : Option BucketRow :=
  db.buckets.find? fun b => b.name = name

def findFile (db : Db) (bucket : BucketId) (filename : String) : Option FileRow :=
  db.files.find? fun f => f.bucketId = bucket ∧ f.filename = filename

def findFileById (db : Db) (id : FileId) : Option FileRow :=
  db.files.find? fun f => f.id = id

/-- The committed bytes of an object; an unlinked one has no pages to read. -/
def bytes (db : Db) (oid : Oid) : Bytes := (db.objects oid).getD []

/-- The bytes of a file named by its bucket's name and its own. -/
def content (db : Db) (bucket filename : String) : Option Bytes := do
  let b ← db.findBucket bucket
  let f ← db.findFile b.id filename
  db.objects f.blob

end Db

/-! Deletion of expired files. -/

/-- `delete_after is not null and delete_after < now()`. -/
def FileRow.expired (f : FileRow) (now : Timestamp) : Bool :=
  match f.deleteAfter with
  | some t => t < now
  | none => false

/-- The order of `delete_after asc`; `tie` is any order Postgres picks among equals. -/
def FileRow.expiresBefore (tie : FileId → ℕ) (f g : FileRow) : Prop :=
  f.deleteAfter.getD 0 < g.deleteAfter.getD 0 ∨
    f.deleteAfter.getD 0 = g.deleteAfter.getD 0 ∧ tie f.id ≤ tie g.id

instance (tie : FileId → ℕ) (f g : FileRow) : Decidable (f.expiresBefore tie g) :=
  inferInstanceAs (Decidable (_ ∨ _))

def batchLimit : ℕ := 1000

namespace Db

def expiredFiles (db : Db) : List FileRow := db.files.filter fun f => f.expired db.clock

/-- The common table expression `deletion_batch`. -/
def deletionBatch (db : Db) (tie : FileId → ℕ) : List FileRow :=
  (db.expiredFiles.insertionSort (FileRow.expiresBefore tie)).take batchLimit

/-- The delete joins the batch on `id`; trigger `files_delete` unlinks the blob of
each row it removes. -/
def deleteBatch (db : Db) (tie : FileId → ℕ) : Db :=
  let batch := db.deletionBatch tie
  { db with
    files := db.files.filter fun f => f.id ∉ batch.map FileRow.id
    objects := fun oid =>
      if oid ∈ (db.files.filter fun f => f.id ∈ batch.map FileRow.id).map FileRow.blob then none
      else db.objects oid }

end Db

end LocallyEuclidean.Postgres
