import LocallyEuclidean.Postgres.Session
import LocallyEuclidean.Storage.Files

/-! The statements that change a table, and the storage code that sends none. -/

namespace LocallyEuclidean.Postgres

/-- The statements that write to `buckets` or `files`. -/
def Query.onTables : Query → Bool
  | .insertBucket _ _ | .insertFile _ _ _ | .deleteOldFilesBatch _ => true
  | _ => false

/-- The statements that a handle sends after it is opened and before it is committed. -/
def Query.onHandle : Query → Bool
  | .loLseek64 _ _ _ | .loRead _ _ | .loWrite _ _ | .updatedAt _ => true
  | _ => false

/-- The same, and those that commit it. -/
def Query.byHandle : Query → Bool
  | .loClose _ | .commitTx => true
  | q => q.onHandle

/-- Two databases with the same rows. -/
def Db.SameTables (db db' : Db) : Prop := db'.buckets = db.buckets ∧ db'.files = db.files

theorem Session.serve_tables {q : Query} (hq : q.onTables = false) {busy : Write → Bool}
    {s s' : Session} {a : q.Reply} (h : s.serve busy q = some (a, s')) :
    s.db.SameTables s'.db := by
  have same : s'.db = s.db → s.db.SameTables s'.db := fun hd => by rw [hd]; exact ⟨rfl, rfl⟩
  cases q with
  | insertBucket | insertFile | deleteOldFilesBatch => cases hq
  | bucketByName | listBuckets | fileByName | updatedAt | beginTx =>
    obtain ⟨-, rfl⟩ := Prod.mk.inj (Option.some.inj h)
    exact ⟨rfl, rfl⟩
  | loOpen => exact same (onTx_effect Tx.lo_open_writes (Option.some.inj h)).1
  | loLseek64 => exact same (onTx_effect Tx.lo_lseek64_writes (Option.some.inj h)).1
  | loRead => exact same (onTx_effect Tx.loread_writes (Option.some.inj h)).1
  | loWrite => exact same (lowrite_effect h).1
  | loClose => exact same (onTx_effect Tx.lo_close_writes (Option.some.inj h)).1
  | commitTx =>
    have h : s.commit = (a, s') := Option.some.inj h
    unfold commit at h
    split at h <;> obtain ⟨-, rfl⟩ := Prod.mk.inj h <;> exact ⟨rfl, rfl⟩

end LocallyEuclidean.Postgres

namespace LocallyEuclidean.Storage
open Interact Postgres

variable {ε α : Type}

theorem uses_fetch {allowed : Query → Prop} {q : Query} (hq : allowed q) (wrap : SqlxError → ε) :
    (fetch q wrap).Uses allowed := by
  refine ⟨hq, fun a => ?_⟩
  cases a <;> trivial

theorem uses_okOr {allowed : Query → Prop} (x : Option α) (e : ε) :
    (okOr x e : DbProg ε α).Uses allowed := by
  cases x <;> trivial

/-- A program that writes to no table. -/
def OffTables (p : DbProg ε α) : Prop := p.Uses fun q => q.onTables = false

/-- A program that only goes on with the handle that is open. -/
def OnHandle (p : DbProg ε α) : Prop := p.Uses fun q => q.onHandle = true

/-- A program that goes on with it to its commit. -/
def ByHandle (p : DbProg ε α) : Prop := p.Uses fun q => q.byHandle = true

theorem OnHandle.byHandle {p : DbProg ε α} (hp : OnHandle p) : ByHandle p := by
  refine hp.mono fun q hq => ?_
  cases q <;> first | exact hq | cases hq

theorem OnHandle.fetch {q : Query} (hq : q.onHandle = true) (wrap : SqlxError → ε) :
    OnHandle (Storage.fetch q wrap) :=
  uses_fetch hq wrap

theorem OffTables.fetch {q : Query} (hq : q.onTables = false) (wrap : SqlxError → ε) :
    OffTables (Storage.fetch q wrap) :=
  uses_fetch hq wrap

theorem OnHandle.offTables {p : DbProg ε α} (hp : OnHandle p) : OffTables p := by
  refine hp.mono fun q hq => ?_
  cases q <;> trivial

theorem OnHandle.within {p : DbProg ε α} (hp : OnHandle p) (N : Oid → Prop) :
    p.Uses (Query.Within N) := by
  refine hp.mono fun q hq => ?_
  cases q <;> trivial

namespace BlobHandle

theorem open_uses {allowed : Query → Prop} {oid : Oid} {mode : OpenMode} (hb : allowed .beginTx)
    (ho : allowed (.loOpen oid mode.bits)) : (BlobHandle.open oid mode).Uses allowed := by
  refine .bind (.bind (uses_fetch hb _) fun _ => .bind (uses_fetch ho _) fun _ => ?_) fun _ => trivial
  exact .bind (uses_okOr _ _) fun _ => trivial

theorem seek_onHandle (h : BlobHandle) (position : SeekFrom) : OnHandle (h.seek position) := by
  refine .bind (.mapErr _ (.bind (uses_okOr _ _) fun _ => .bind (OnHandle.fetch rfl _) fun _ =>
    uses_okOr _ _)) fun offset => ?_
  split <;> trivial

theorem read_onHandle (h : BlobHandle) (remaining : ℕ) : OnHandle (h.read remaining) := by
  unfold BlobHandle.read
  dsimp only
  split
  · refine .bind (.mapErr _ (.bind (uses_okOr _ _) fun _ => .bind (OnHandle.fetch rfl _) fun _ =>
      uses_okOr _ _)) fun data => ?_
    split <;> trivial
  · trivial

theorem write_onHandle (h : BlobHandle) (data : Bytes) : OnHandle (h.write data) := by
  refine .bind (.mapErr _ (.bind (uses_okOr _ _) fun _ => .bind (OnHandle.fetch rfl _) fun _ =>
    uses_okOr _ _)) fun written => ?_
  split <;> trivial

theorem shutdown_uses {allowed : Query → Prop} (hc : ∀ fd, allowed (.loClose fd))
    (ht : allowed .commitTx) (h : BlobHandle) : h.shutdown.Uses allowed :=
  .mapErr _ (.bind (uses_okOr _ _) fun _ => .bind (uses_fetch (hc _) _) fun _ =>
    .bind (uses_okOr _ _) fun _ => uses_fetch ht _)

theorem readExact_onHandle (h : BlobHandle) (len : ℕ) : OnHandle (h.readExact len) := by
  suffices ∀ turns buf, OnHandle (h.readExactLoop len turns buf) from this len []
  intro turns
  induction turns with
  | zero =>
    intro buf
    unfold readExactLoop
    split <;> trivial
  | succ turns ih =>
    intro buf
    unfold readExactLoop
    split
    · trivial
    · refine .bind (h.read_onHandle _) fun data => ?_
      split
      · trivial
      · exact ih _

theorem readU8_onHandle (h : BlobHandle) : OnHandle h.readU8 := by
  refine .bind (h.read_onHandle 1) fun data => ?_
  cases data <;> trivial

theorem writeAll_onHandle (h : BlobHandle) (data : Bytes) : OnHandle (h.writeAll data) := by
  suffices ∀ turns buf, OnHandle (h.writeAllLoop turns buf) from this _ data
  intro turns
  induction turns with
  | zero =>
    intro buf
    unfold writeAllLoop
    split <;> trivial
  | succ turns ih =>
    intro buf
    unfold writeAllLoop
    split
    · trivial
    · refine .bind (h.write_onHandle _) fun n => ?_
      split
      · trivial
      · split
        · trivial
        · exact ih _

end BlobHandle

namespace PostgresFileHandle

theorem new_uses {allowed : Query → Prop} {oid : Oid} (hb : allowed .beginTx)
    (ho : allowed (.loOpen oid (OpenMode.bits .readWrite))) (id : FileId) :
    (PostgresFileHandle.new oid id).Uses allowed :=
  .bind (BlobHandle.open_uses hb ho) fun _ => trivial

theorem append_onHandle (h : PostgresFileHandle) (data : Bytes) : OnHandle (h.append data) :=
  .bind (.mapErr _ (h.blob.seek_onHandle _)) fun _ => .mapErr _ (h.blob.writeAll_onHandle _)

theorem metadata_onHandle (h : PostgresFileHandle) : OnHandle h.metadata := by
  unfold PostgresFileHandle.metadata
  split
  · trivial
  · exact .fetch rfl _

theorem commit_uses {allowed : Query → Prop} (hc : ∀ fd, allowed (.loClose fd))
    (ht : allowed .commitTx) (h : PostgresFileHandle) : h.commit.Uses allowed :=
  .mapErr _ (h.blob.shutdown_uses hc ht)

theorem commit_byHandle (h : PostgresFileHandle) : ByHandle h.commit := by
  refine h.commit_uses (fun _ => ?_) ?_ <;> rfl

theorem new_offTables (oid : Oid) (id : FileId) : OffTables (PostgresFileHandle.new oid id) := by
  refine new_uses ?_ ?_ id <;> rfl

theorem commit_offTables (h : PostgresFileHandle) : OffTables h.commit := by
  refine h.commit_uses (fun _ => ?_) ?_ <;> rfl

end PostgresFileHandle

theorem PostgresBucket.file_offTables (b : PostgresBucket) (fileName : String) :
    OffTables (b.file fileName) := by
  refine .bind (OffTables.fetch rfl _) fun row => ?_
  cases row with
  | none => trivial
  | some row => exact .mapErr _ (PostgresFileHandle.new_offTables _ _)

theorem PostgresBackend.bucket_uses {allowed : Query → Prop} {name : String}
    (hb : allowed (.bucketByName name)) : (PostgresBackend.bucket name).Uses allowed := by
  refine .bind (.mapErr _ (.bind (uses_fetch hb _) fun row => ?_)) fun b => ?_
  · match row with
    | none => trivial
    | some (_, none) => trivial
    | some (_, some ttl) =>
      dsimp only
      split <;> trivial
  · cases b <;> trivial

theorem PostgresBackend.bucket_offTables (name : String) :
    OffTables (PostgresBackend.bucket name) := by
  refine bucket_uses ?_
  rfl

end LocallyEuclidean.Storage
