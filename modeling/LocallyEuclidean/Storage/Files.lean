import LocallyEuclidean.Storage.Blob

/-! `storage::postgres`: buckets, files and their handles. -/

namespace LocallyEuclidean.Storage
open Interact Postgres

/-- `BucketError::QueryFailed`. -/
structure BucketError where
  sql : String
  error : SqlxError
  deriving DecidableEq, Repr

/-- What is boxed in `OtherError` of the two errors below. -/
inductive StorageError where
  | handle (error : FileHandleError)
  | bucket (error : BucketError)
  deriving DecidableEq, Repr

inductive FileOpenError where
  | doesNotExist
  | invalidName
  | otherError (error : StorageError)
  deriving DecidableEq, Repr

inductive FileCreateError where
  | fileExists
  | invalidName
  | otherError (error : StorageError)
  deriving DecidableEq, Repr

def FileOpenError.ofHandle (e : FileHandleError) : FileOpenError := .otherError (.handle e)
def FileOpenError.ofBucket (e : BucketError) : FileOpenError := .otherError (.bucket e)
def FileCreateError.ofHandle (e : FileHandleError) : FileCreateError := .otherError (.handle e)
def FileCreateError.ofBucket (e : BucketError) : FileCreateError := .otherError (.bucket e)

/-- The boxed errors that reach a request handler. -/
inductive BoxError where
  | io (error : IoError)
  | handle (error : FileHandleError)
  | fileOpen (error : FileOpenError)
  | fileCreate (error : FileCreateError)
  | body
  deriving DecidableEq, Repr

structure PostgresFileHandle where
  blob : BlobHandle
  id : FileId
  deriving DecidableEq, Repr

namespace PostgresFileHandle

def new (blobOid : Oid) (id : FileId) : DbProg FileHandleError PostgresFileHandle := do
  let blob ← BlobHandle.open blobOid .readWrite
  return ⟨blob, id⟩

def append (h : PostgresFileHandle) (data : Bytes) : DbProg BoxError Unit := do
  let _ ← (h.blob.seek (.fromEnd 0)).mapErr .io
  (h.blob.writeAll data).mapErr .io

/-- `last_modified_at`; the query runs in the handle's own transaction, and
`TransactionWrapper` panics on a handle that has been shut down. -/
def metadata (h : PostgresFileHandle) : DbProg BoxError Timestamp := do
  match h.blob.inner with
  | none => .panic "tried to access a closed blob handle"
  | some _ =>
    fetch (.updatedAt h.id) fun e =>
      .handle (.queryFailed "select updated_at from files where id = $1" e)

def commit (h : PostgresFileHandle) : DbProg BoxError Unit := h.blob.shutdown.mapErr .io

end PostgresFileHandle

structure PostgresBucket where
  id : BucketId
  defaultTtl : Option TimeDelta
  deriving DecidableEq, Repr

namespace PostgresBucket

def byNameSql : String := "select id as \"id: BucketId\", default_ttl from buckets where name = $1"

/-- Finds a bucket with the given name. -/
def byName (name : String) : DbProg BucketError (Option PostgresBucket) := do
  match ← fetch (.bucketByName name) (BucketError.mk byNameSql) with
  | none => return none
  | some (id, none) => return some ⟨id, none⟩
  | some (id, some ttl) =>
    match ttl.toTimeDelta with
    | some delta => return some ⟨id, some delta⟩
    | none => .panic "TimeDelta out of bounds"

def list (order : BucketId → ℕ) : DbProg BucketError (List String) :=
  fetch (.listBuckets order) (BucketError.mk "select name from buckets")

def fileSql : String :=
  "select id as \"id: FileId\", blob from files where bucket_id = $1 and filename = $2"

def file (b : PostgresBucket) (fileName : String) : DbProg FileOpenError PostgresFileHandle := do
  match ← fetch (.fileByName b.id fileName) fun e => .ofBucket ⟨fileSql, e⟩ with
  | some (id, blob) => (PostgresFileHandle.new blob id).mapErr .ofHandle
  | none => .err .doesNotExist

def createFileSql : String :=
  "insert into files (bucket_id, filename, delete_after, blob) values ($1, $2, $3, lo_create(0)) " ++
    "returning id as \"id: FileId\", blob"

/-- `Utc::now() + ttl`, which panics past chrono's dates. -/
def deleteAfter (b : PostgresBucket) (now : DateTime) :
    DbProg FileCreateError (Option Timestamp) :=
  match b.defaultTtl with
  | none => .ret none
  | some ttl =>
    match now.add ttl with
    | some t => .ret (some t.toTimestamp)
    | none => .panic "DateTime + TimeDelta overflowed"

/-- Creates the given file and gives a handle to it; `now` is what `Utc::now()` returns. -/
def createFile (b : PostgresBucket) (fileName : String) (now : DateTime) :
    DbProg FileCreateError PostgresFileHandle := do
  let deleteAfter ← b.deleteAfter now
  match ← send (.insertFile b.id fileName deleteAfter) with
  | .ok (id, blob) => (PostgresFileHandle.new blob id).mapErr .ofHandle
  | .error .uniqueViolation => .err .fileExists
  | .error e => .err (.ofBucket ⟨createFileSql, e⟩)

def createSql : String :=
  "insert into buckets (name, default_ttl) values ($1, $2) returning id as \"id: BucketId\""

/-- Creates a bucket. -/
def create (name : String) (defaultTtl : Option TimeDelta) :
    DbProg FileCreateError PostgresBucket := do
  let ttl ← match defaultTtl with
    | none => .ret none
    | some ttl =>
      match Interval.ofTimeDelta ttl with
      | some interval => .ret (some interval)
      | none => .err (.ofBucket ⟨createSql, .database⟩)
  match ← send (.insertBucket name ttl) with
  | .ok id => return ⟨id, defaultTtl⟩
  | .error .uniqueViolation => .err .fileExists
  | .error e => .err (.ofBucket ⟨createSql, e⟩)

end PostgresBucket

namespace PostgresBackend

def createBucket (name : String) (defaultTtl : Option TimeDelta) :
    DbProg FileCreateError PostgresBucket :=
  PostgresBucket.create name defaultTtl

/-- Lists all the bucket names on the system. -/
def listBuckets (order : BucketId → ℕ) : DbProg BucketError (List String) :=
  PostgresBucket.list order

/-- Deletes up to 1000 expired files. -/
def deleteOldFilesBatch (tie : FileId → ℕ) : DbProg SqlxError Unit := do
  let _ ← fetch (.deleteOldFilesBatch tie) id
  return ()

def bucket (name : String) : DbProg FileOpenError PostgresBucket := do
  match ← (PostgresBucket.byName name).mapErr .ofBucket with
  | some b => return b
  | none => .err .doesNotExist

end PostgresBackend

end LocallyEuclidean.Storage
