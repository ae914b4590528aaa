import LocallyEuclidean.Postgres.Schema

/-! The statements the program sends, and how Postgres serves them.
A statement on the pool commits by itself; the large-object calls and `updatedAt`
run in the transaction that the caller holds. A read-write descriptor sees what
is committed at each call, with its own transaction's writes on top. -/

namespace LocallyEuclidean.Postgres
open Interact

/-- What the code tells apart among sqlx errors. `writeConflict` is Postgres's
refusal of a write to a page that a concurrent transaction has committed. -/
inductive SqlxError where
  | uniqueViolation
  | rowNotFound
  | writeConflict
  | database
  deriving DecidableEq, Repr

inductive Whence where
  | seekSet
  | seekCur
  | seekEnd
  deriving DecidableEq, Repr

/-- What a descriptor is open for. -/
inductive DescriptorMode where
  | read
  | readWrite
  deriving DecidableEq, Repr

/-- `INV_WRITE` and `INV_READ`: one may read what one may write. -/
def DescriptorMode.ofFlags (flags : ℕ) : Option DescriptorMode :=
  if flags &&& 0x0002_0000 ≠ 0 then some .readWrite
  else if flags &&& 0x0004_0000 ≠ 0 then some .read
  else none

/-- The largest large object: `INT_MAX` pages of 2 KiB. -/
def maxObjectSize : ℕ := 2147483647 * 2048

def pageSize : ℕ := 2048

/-- An uncommitted write of `data` at `pos` of an object. -/
structure Write where
  oid : Oid
  pos : ℕ
  data : Bytes
  deriving DecidableEq, Repr

/-- Two writes lock a common page. -/
def Write.overlaps (v w : Write) : Bool :=
  v.oid = w.oid ∧ v.data ≠ [] ∧ w.data ≠ [] ∧
    v.pos / pageSize ≤ (w.pos + w.data.length - 1) / pageSize ∧
    w.pos / pageSize ≤ (v.pos + v.data.length - 1) / pageSize

def Write.apply (w : Write) (oid : Oid) (c : Bytes) : Bytes :=
  if w.oid = oid then patch 0 c w.pos w.data else c

/-- A large-object descriptor. A read-only one reads the snapshot of its opening. -/
structure Descriptor where
  oid : Oid
  mode : DescriptorMode
  pos : ℕ
  snapshot : Bytes
  deriving DecidableEq, Repr

/-- An open transaction: its one descriptor, number 0, and what it has written. -/
structure Tx where
  descriptor : Option Descriptor
  writes : List Write
  deriving DecidableEq, Repr

/-- The connection a caller holds. After an error inside a transaction Postgres
refuses every further statement of it. -/
inductive Conn where
  | idle
  | inTx (tx : Tx)
  | failed
  deriving DecidableEq, Repr

/-- What the connection has written and not committed. -/
def Conn.writes : Conn → List Write
  | .inTx tx => tx.writes
  | _ => []

namespace Tx

def apply (tx : Tx) (oid : Oid) (c : Bytes) : Bytes :=
  tx.writes.foldl (fun c w => w.apply oid c) c

/-- What a descriptor reads. -/
def view (tx : Tx) (db : Db) (d : Descriptor) : Bytes :=
  match d.mode with
  | .readWrite => tx.apply d.oid (db.bytes d.oid)
  | .read => d.snapshot

def find (tx : Tx) (fd : ℤ) : Except SqlxError Descriptor :=
  match tx.descriptor with
  | some d => if fd = 0 then .ok d else .error .database
  | none => .error .database

def lo_open (tx : Tx) (db : Db) (oid : Oid) (flags : ℕ) :
    Except SqlxError (Option ℤ × Tx) :=
  match db.objects oid, DescriptorMode.ofFlags flags with
  | some c, some mode => .ok (some 0, { tx with descriptor := some ⟨oid, mode, 0, c⟩ })
  | _, _ => .error .database

def lo_lseek64 (tx : Tx) (db : Db) (fd offset : ℤ) (whence : Whence) :
    Except SqlxError (Option ℤ × Tx) := do
  let d ← tx.find fd
  let target : ℤ :=
    match whence with
    | .seekSet => offset
    | .seekCur => d.pos + offset
    | .seekEnd => (tx.view db d).length + offset
  if 0 ≤ target ∧ target ≤ maxObjectSize then
    .ok (some target, { tx with descriptor := some { d with pos := target.toNat } })
  else .error .database

def loread (tx : Tx) (db : Db) (fd count : ℤ) : Except SqlxError (Option Bytes × Tx) := do
  let d ← tx.find fd
  if 0 ≤ count then
    let data := window (tx.view db d) d.pos count.toNat
    .ok (some data, { tx with descriptor := some { d with pos := d.pos + data.length } })
  else .error .database

def lowrite (tx : Tx) (fd : ℤ) (data : Bytes) : Except SqlxError (Write × Option ℤ × Tx) := do
  let d ← tx.find fd
  if d.mode = .readWrite ∧ d.pos + data.length ≤ maxObjectSize then
    let w : Write := ⟨d.oid, d.pos, data⟩
    .ok (w, some data.length,
      ⟨some { d with pos := d.pos + data.length }, if data = [] then tx.writes else tx.writes ++ [w]⟩)
  else .error .database

def lo_close (tx : Tx) (fd : ℤ) : Except SqlxError (Option ℤ × Tx) := do
  let _ ← tx.find fd
  .ok (some 0, { tx with descriptor := none })

end Tx

namespace Db

/-- Writes to an unlinked object do not bring it back. -/
def commit (db : Db) (tx : Tx) : Db :=
  { db with objects := fun oid => (db.objects oid).map (tx.apply oid) }

/-- The row with its `lo_create(0)`; a failing insert undoes its own object. -/
def insertFile (db : Db) (bucket : BucketId) (filename : String)
    (deleteAfter : Option Timestamp) : Except SqlxError (FileRow × Db) :=
  if deleteAfter.any (· < minTimestamp) then .error .database
  else if (db.findFile bucket filename).isSome then .error .uniqueViolation
  else if db.buckets.all (·.id ≠ bucket) then .error .database
  else
    let row : FileRow := ⟨⟨db.nextUuid⟩, bucket, filename, db.nextOid, deleteAfter, db.clock⟩
    .ok (row, { db with
      files := db.files ++ [row]
      objects := Function.update db.objects db.nextOid (some [])
      nextOid := db.nextOid + 1
      nextUuid := db.nextUuid + 1 })

def insertBucket (db : Db) (name : String) (defaultTtl : Option Interval) :
    Except SqlxError (BucketId × Db) :=
  if (db.findBucket name).isSome then .error .uniqueViolation
  else
    .ok (⟨db.nextUuid⟩, { db with
      buckets := db.buckets ++ [⟨⟨db.nextUuid⟩, name, defaultTtl⟩]
      nextUuid := db.nextUuid + 1 })

/-- Without an `order by` the order of the rows is Postgres's. -/
def listBuckets (db : Db) (order : BucketId → ℕ) : List String :=
  (db.buckets.insertionSort fun a b => order a.id ≤ order b.id).map BucketRow.name

/-- `lo_unlink` of an object that is not there fails, and with it the whole delete. -/
def deleteOldFilesBatch (db : Db) (tie : FileId → ℕ) : Except SqlxError (ℕ × Db) :=
  let ids := (db.deletionBatch tie).map FileRow.id
  let gone := db.files.filter fun f => f.id ∈ ids
  if gone.all fun f => (db.objects f.blob).isSome then .ok (gone.length, db.deleteBatch tie)
  else .error .database

end Db

inductive Query where
  | bucketByName (name : String)
  | listBuckets (order : BucketId → ℕ)
  | insertBucket (name : String) (defaultTtl : Option Interval)
  | fileByName (bucket : BucketId) (filename : String)
  | insertFile (bucket : BucketId) (filename : String) (deleteAfter : Option Timestamp)
  | deleteOldFilesBatch (tie : FileId → ℕ)
  | beginTx
  | loOpen (oid : Oid) (flags : ℕ)
  | loLseek64 (fd offset : ℤ) (whence : Whence)
  | loRead (fd count : ℤ)
  | loWrite (fd : ℤ) (data : Bytes)
  | loClose (fd : ℤ)
  | updatedAt (id : FileId)
  | commitTx

/-- The row a statement returns; a column sqlx calls nullable is an `Option`. -/
abbrev Query.Row : Query → Type
  | .bucketByName _ => Option (BucketId × Option Interval)
  | .listBuckets _ => List String
  | .insertBucket _ _ => BucketId
  | .fileByName _ _ => Option (FileId × Oid)
  | .insertFile _ _ _ => FileId × Oid
  | .deleteOldFilesBatch _ => ℕ
  | .beginTx => Unit
  | .loOpen _ _ => Option ℤ
  | .loLseek64 _ _ _ => Option ℤ
  | .loRead _ _ => Option Bytes
  | .loWrite _ _ => Option ℤ
  | .loClose _ => Option ℤ
  | .updatedAt _ => Timestamp
  | .commitTx => Unit

abbrev Query.Reply (q : Query) : Type := Except SqlxError q.Row

/-- The database and the connection of one caller. -/
structure Session where
  db : Db
  conn : Conn

namespace Session

/-- A statement of the open transaction; an error aborts the transaction. -/
def onTx {α : Type} (s : Session) (f : Tx → Except SqlxError (α × Tx)) :
    Except SqlxError α × Session :=
  match s.conn with
  | .inTx tx =>
    match f tx with
    | .ok (a, tx') => (.ok a, { s with conn := .inTx tx' })
    | .error e => (.error e, { s with conn := .failed })
  | _ => (.error .database, s)

/-- A statement on the pool: an error leaves the database as it was. -/
def onPool {α : Type} (s : Session) (r : Except SqlxError (α × Db)) :
    Except SqlxError α × Session :=
  match r with
  | .ok (a, db) => (.ok a, { s with db := db })
  | .error e => (.error e, s)

/-- `select updated_at from files where id = $1`, fetching exactly one row. -/
def updatedAt (s : Session) (id : FileId) : Except SqlxError Timestamp :=
  match s.conn with
  | .inTx _ =>
    match s.db.findFileById id with
    | some f => .ok f.updatedAt
    | none => .error .rowNotFound
  | _ => .error .database

/-- `COMMIT` of an aborted transaction rolls back and reports no error. -/
def commit (s : Session) : Except SqlxError Unit × Session :=
  match s.conn with
  | .inTx tx => (.ok (), ⟨s.db.commit tx, .idle⟩)
  | .failed => (.ok (), { s with conn := .idle })
  | .idle => (.error .database, s)

/-- `none`: the write must wait for another transaction, which has written one of
its pages. -/
def lowrite (s : Session) (busy : Write → Bool) (fd : ℤ) (data : Bytes) :
    Option (Except SqlxError (Option ℤ) × Session) :=
  match s.conn with
  | .inTx tx =>
    match tx.lowrite fd data with
    | .ok (w, n, tx') => if busy w then none else some (.ok n, { s with conn := .inTx tx' })
    | .error e => some (.error e, { s with conn := .failed })
  | _ => some (.error .database, s)

/-- How one statement is served while `busy` tells the pages other transactions
have written. -/
def serve (busy : Write → Bool) : (q : Query) → Session → Option (q.Reply × Session)
  | .bucketByName name, s =>
    some (.ok ((s.db.findBucket name).map fun b => (b.id, b.defaultTtl)), s)
  | .listBuckets order, s => some (.ok (s.db.listBuckets order), s)
  | .insertBucket name ttl, s => some (s.onPool (s.db.insertBucket name ttl))
  | .fileByName bucket filename, s =>
    some (.ok ((s.db.findFile bucket filename).map fun f => (f.id, f.blob)), s)
  | .insertFile bucket filename deleteAfter, s =>
    some (s.onPool ((s.db.insertFile bucket filename deleteAfter).map
      fun (f, db) => ((f.id, f.blob), db)))
  | .deleteOldFilesBatch tie, s => some (s.onPool (s.db.deleteOldFilesBatch tie))
  | .beginTx, s => some (.ok (), { s with conn := .inTx ⟨none, []⟩ })
  | .loOpen oid flags, s => some (s.onTx fun tx => tx.lo_open s.db oid flags)
  | .loLseek64 fd offset whence, s => some (s.onTx fun tx => tx.lo_lseek64 s.db fd offset whence)
  | .loRead fd count, s => some (s.onTx fun tx => tx.loread s.db fd count)
  | .loWrite fd data, s => s.lowrite busy fd data
  | .loClose fd, s => some (s.onTx fun tx => tx.lo_close fd)
  | .updatedAt id, s => some (s.updatedAt id, s)
  | .commitTx, s => some s.commit

end Session

end LocallyEuclidean.Postgres
