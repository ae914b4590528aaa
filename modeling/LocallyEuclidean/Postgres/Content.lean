import LocallyEuclidean.Postgres.Session

/-! The bytes of a file by its names, and how an insert or a commit changes them. -/

namespace LocallyEuclidean.Postgres
open Interact

namespace Db

variable {db : Db}

/-- The object `oid` with new bytes. -/
def store (db : Db) (oid : Oid) (c : Bytes) : Db :=
  { db with objects := Function.update db.objects oid (some c) }

@[simp] theorem store_findBucket (oid : Oid) (c : Bytes) (name : String) :
    (db.store oid c).findBucket name = db.findBucket name := rfl

@[simp] theorem store_findFile (oid : Oid) (c : Bytes) (bucket : BucketId) (filename : String) :
    (db.store oid c).findFile bucket filename = db.findFile bucket filename := rfl

@[simp] theorem store_objects_self (oid : Oid) (c : Bytes) :
    (db.store oid c).objects oid = some c := by
  simp [store]

theorem store_objects_of_ne {oid o : Oid} (h : o ≠ oid) (c : Bytes) :
    (db.store oid c).objects o = db.objects o := by
  simp [store, Function.update_of_ne h]

theorem store_eq_self {oid : Oid} {c : Bytes} (h : db.objects oid = some c) :
    db.store oid c = db := by
  simp [store, ← h]

theorem bytes_of_objects {oid : Oid} {c : Bytes} (h : db.objects oid = some c) :
    db.bytes oid = c := by
  simp [bytes, h]

theorem content_eq_some {bucket filename : String} {c : Bytes} :
    db.content bucket filename = some c ↔ ∃ b f, db.findBucket bucket = some b ∧
      db.findFile b.id filename = some f ∧ db.objects f.blob = some c := by
  simp [content, Option.bind_eq_some_iff]

theorem content_of_find {bucket filename : String} {b : BucketRow} {f : FileRow}
    (hb : db.findBucket bucket = some b) (hf : db.findFile b.id filename = some f) :
    db.content bucket filename = db.objects f.blob := by
  simp [content, hb, hf]

theorem content_of_absent {bucket filename : String} {b : BucketRow}
    (hb : db.findBucket bucket = some b) (hf : db.findFile b.id filename = none) :
    db.content bucket filename = none := by
  simp [content, hb, hf]

/-- A linked database has bytes for every row. -/
theorem Linked.objects_of_find (h : db.Linked) {bucket : BucketId} {filename : String}
    {f : FileRow} (hf : db.findFile bucket filename = some f) : ∃ c, db.objects f.blob = some c :=
  Option.isSome_iff_exists.mp (h.hasBlob f (findFile_some hf).1)

theorem Linked.length_content_le (h : db.Linked) {bucket filename : String} {c : Bytes}
    (hc : db.content bucket filename = some c) : c.length ≤ maxObjectSize := by
  obtain ⟨b, f, -, -, hc⟩ := content_eq_some.mp hc
  exact h.sizes _ c hc

theorem Linked.length_bytes_le (h : db.Linked) (oid : Oid) :
    (db.bytes oid).length ≤ maxObjectSize := by
  rw [bytes]
  cases ho : db.objects oid with
  | none => exact Nat.zero_le _
  | some c => exact h.sizes oid c ho

/-- Two ways to name one blob are one. -/
theorem Linked.names_eq (h : db.Linked) {bucket bucket' filename filename' : String}
    {b b' : BucketRow} {f f' : FileRow} (hb : db.findBucket bucket = some b)
    (hf : db.findFile b.id filename = some f) (hb' : db.findBucket bucket' = some b')
    (hf' : db.findFile b'.id filename' = some f') (he : f'.blob = f.blob) :
    bucket' = bucket ∧ filename' = filename := by
  obtain ⟨hm, hbid, hname⟩ := findFile_some hf
  obtain ⟨hm', hbid', hname'⟩ := findFile_some hf'
  obtain rfl := h.blob_inj hm' hm he
  have hbb := h.bucket_eq (findBucket_some hb').1 (findBucket_some hb).1 (hbid'.symm.trans hbid)
  rw [← (findBucket_some hb').2, ← (findBucket_some hb).2, hbb, ← hname', ← hname]
  exact ⟨rfl, rfl⟩

/-- New bytes of a file's blob are new bytes of that file and of no other. -/
theorem Linked.content_store (h : db.Linked) {bucket filename : String} {b : BucketRow}
    {f : FileRow} (hb : db.findBucket bucket = some b)
    (hf : db.findFile b.id filename = some f) (c : Bytes) (bucket' filename' : String) :
    (db.store f.blob c).content bucket' filename' =
      if bucket' = bucket ∧ filename' = filename then some c else db.content bucket' filename' := by
  split
  · rename_i he
    obtain ⟨rfl, rfl⟩ := he
    simp [content, hb, hf]
  · rename_i hne
    cases hb' : db.findBucket bucket' with
    | none => simp [content, hb']
    | some b' =>
      cases hf' : db.findFile b'.id filename' with
      | none => simp [content, hb', hf']
      | some f' =>
        have hblob : f'.blob ≠ f.blob := fun he => hne (h.names_eq hb hf hb' hf' he)
        simp [content, hb', hf', store_objects_of_ne hblob]

/-- The row that `insertFile` makes. -/
def newRow (db : Db) (bucket : BucketId) (filename : String) (deleteAfter : Option Timestamp) :
    FileRow :=
  ⟨⟨db.nextUuid⟩, bucket, filename, db.nextOid, deleteAfter, db.clock⟩

/-- The database with that row and its empty object. -/
def withFile (db : Db) (bucket : BucketId) (filename : String) (deleteAfter : Option Timestamp) :
    Db :=
  { db with
    files := db.files ++ [db.newRow bucket filename deleteAfter]
    objects := Function.update db.objects db.nextOid (some [])
    nextOid := db.nextOid + 1
    nextUuid := db.nextUuid + 1 }

theorem insertFile_eq {bucket : BucketId} {filename : String} {deleteAfter : Option Timestamp}
    (hd : deleteAfter.any (· < minTimestamp) = false) (hf : db.findFile bucket filename = none)
    (hb : ∃ b ∈ db.buckets, b.id = bucket) :
    db.insertFile bucket filename deleteAfter =
      .ok (db.newRow bucket filename deleteAfter, db.withFile bucket filename deleteAfter) := by
  have hall : ¬ (db.buckets.all (·.id ≠ bucket)) = true := by simpa using hb
  rw [insertFile, if_neg (by simp [hd]), if_neg (by simp [hf]), if_neg hall]
  rfl

theorem insertFile_exists {bucket : BucketId} {filename : String} {deleteAfter : Option Timestamp}
    {f : FileRow} (hd : deleteAfter.any (· < minTimestamp) = false)
    (hf : db.findFile bucket filename = some f) :
    db.insertFile bucket filename deleteAfter = .error .uniqueViolation := by
  rw [insertFile, if_neg (by simp [hd]), if_pos (by simp [hf])]

theorem insertFile_deadline {bucket : BucketId} {filename : String}
    {deleteAfter : Option Timestamp} {row : FileRow} {db' : Db}
    (h : db.insertFile bucket filename deleteAfter = .ok (row, db')) :
    deleteAfter.any (· < minTimestamp) = false := by
  unfold insertFile at h
  split at h
  · cases h
  · rename_i hd
    simpa using hd

theorem insertFile_unique {bucket : BucketId} {filename : String} {deleteAfter : Option Timestamp}
    (h : db.insertFile bucket filename deleteAfter = .error .uniqueViolation) :
    (db.findFile bucket filename).isSome := by
  unfold insertFile at h
  split at h
  · cases h
  · split at h
    · assumption
    · split at h <;> cases h

theorem findFile_withFile (bucket : BucketId) (filename : String)
    (deleteAfter : Option Timestamp) (hf : db.findFile bucket filename = none)
    (bucket' : BucketId) (filename' : String) :
    (db.withFile bucket filename deleteAfter).findFile bucket' filename' =
      if bucket' = bucket ∧ filename' = filename then some (db.newRow bucket filename deleteAfter)
      else db.findFile bucket' filename' := by
  rw [findFile, withFile, List.find?_append]
  by_cases he : bucket' = bucket ∧ filename' = filename
  · obtain ⟨rfl, rfl⟩ := he
    rw [findFile] at hf
    rw [hf, Option.none_or, if_pos ⟨rfl, rfl⟩, List.find?_singleton, newRow, if_pos (by simp)]
  · have hn : ¬ (bucket = bucket' ∧ filename = filename') := fun hn => he ⟨hn.1.symm, hn.2.symm⟩
    rw [if_neg he, List.find?_singleton, newRow, if_neg (by simpa using hn), Option.or_none, findFile]

/-- A new file adds its own name and nothing else. -/
theorem Linked.content_withFile (h : db.Linked) {bucket filename : String} {b : BucketRow}
    (hb : db.findBucket bucket = some b) (hf : db.findFile b.id filename = none)
    (deleteAfter : Option Timestamp) (bucket' filename' : String) :
    (db.withFile b.id filename deleteAfter).content bucket' filename' =
      if bucket' = bucket ∧ filename' = filename then some [] else db.content bucket' filename' := by
  have hfb : ∀ name, (db.withFile b.id filename deleteAfter).findBucket name =
    db.findBucket name := fun _ => rfl
  simp only [content, hfb]
  cases hb' : db.findBucket bucket' with
  | none =>
    have : ¬ (bucket' = bucket ∧ filename' = filename) := by
      rintro ⟨rfl, -⟩
      simp [hb] at hb'
    simp [this]
  | some b' =>
    have key : (b'.id = b.id ∧ filename' = filename) ↔ (bucket' = bucket ∧ filename' = filename) := by
      refine and_congr_left fun _ => ⟨fun he => ?_, ?_⟩
      · rw [← (findBucket_some hb').2, ← (findBucket_some hb).2,
          h.bucket_eq (findBucket_some hb').1 (findBucket_some hb).1 he]
      · rintro rfl
        rw [hb] at hb'
        rw [Option.some.inj hb']
    simp only [Option.bind_eq_bind, Option.bind_some, findFile_withFile b.id filename deleteAfter hf,
      key]
    split
    · simp [withFile, newRow]
    · cases hf' : db.findFile b'.id filename' with
      | none => rfl
      | some f' =>
        simp [withFile, Function.update_of_ne (h.blob_ne_nextOid (findFile_some hf').1)]

end Db

/-! Writes at the end of an object. -/

/-- What the writes `ws` make of the bytes `c` of object `oid`. -/
def applyAll (ws : List Write) (oid : Oid) (c : Bytes) : Bytes :=
  ws.foldl (fun c w => w.apply oid c) c

@[simp] theorem applyAll_nil (oid : Oid) (c : Bytes) : applyAll [] oid c = c := rfl

/-- No write shortens an object. -/
theorem length_le_applyAll (ws : List Write) (oid : Oid) (c : Bytes) :
    c.length ≤ (applyAll ws oid c).length := by
  induction ws generalizing c with
  | nil => exact le_refl _
  | cons w ws ih =>
    refine le_trans ?_ (ih (w.apply oid c))
    unfold Write.apply
    split
    · rw [length_patch]
      exact le_max_left _ _
    · exact le_refl _

/-- A write at the end of what the earlier writes leave is an append. -/
theorem applyAll_append_end {ws : List Write} {oid : Oid} {c v : Bytes}
    (h : applyAll ws oid c = v) (data : Bytes) :
    applyAll (ws ++ [⟨oid, v.length, data⟩]) oid c = v ++ data := by
  rw [applyAll] at h
  rw [applyAll, List.foldl_append, h]
  simp [Write.apply]

theorem Tx.view_readWrite (d : Descriptor) (hd : d.mode = .readWrite) (ws : List Write) (db : Db) :
    Tx.view ⟨some d, ws⟩ db d = applyAll ws d.oid (db.bytes d.oid) := by
  rw [Tx.view, hd]
  rfl

/-- The connection of a file handle: its cursor, and what it has written. -/
def Conn.At (oid : Oid) (pos : ℕ) (ws : List Write) (conn : Conn) : Prop :=
  ∃ snapshot, conn = .inTx ⟨some ⟨oid, .readWrite, pos, snapshot⟩, ws⟩

/-- The cursor of the open descriptor. -/
def Conn.cursor : Conn → ℕ
  | .inTx ⟨some d, _⟩ => d.pos
  | _ => 0

namespace Conn.At

variable {oid : Oid} {pos : ℕ} {ws : List Write} {conn : Conn} (busy : Write → Bool) {db : Db}

theorem opened {flags : ℕ} (hm : DescriptorMode.ofFlags flags = some .readWrite) {c : Bytes}
    (h : db.objects oid = some c) :
    ∃ conn', Session.serve busy (.loOpen oid flags) ⟨db, .inTx ⟨none, []⟩⟩ =
      some (.ok (some 0), ⟨db, conn'⟩) ∧ conn'.At oid 0 [] :=
  ⟨_, Session.serve_loOpen hm h, c, rfl⟩

omit busy in
theorem cursor_eq (hc : conn.At oid pos ws) : conn.cursor = pos := by
  obtain ⟨snapshot, rfl⟩ := hc
  rfl

theorem writes_eq (hc : conn.At oid pos ws) : conn.writes = ws := by
  obtain ⟨snapshot, rfl⟩ := hc
  rfl

variable (db) (hc : conn.At oid pos ws)
include hc

theorem seekEnd (hv : (applyAll ws oid (db.bytes oid)).length ≤ maxObjectSize) :
    ∃ conn', Session.serve busy (.loLseek64 0 0 .seekEnd) ⟨db, conn⟩ =
      some (.ok (some ((applyAll ws oid (db.bytes oid)).length : ℤ)), ⟨db, conn'⟩) ∧
        conn'.At oid (applyAll ws oid (db.bytes oid)).length ws := by
  obtain ⟨snapshot, rfl⟩ := hc
  rw [← Tx.view_readWrite ⟨oid, .readWrite, pos, snapshot⟩ rfl] at hv ⊢
  exact ⟨_, Session.serve_seekEnd hv, snapshot, rfl⟩

theorem seekStart {n : ℕ} (hn : n ≤ maxObjectSize) :
    ∃ conn', Session.serve busy (.loLseek64 0 n .seekSet) ⟨db, conn⟩ =
      some (.ok (some (n : ℤ)), ⟨db, conn'⟩) ∧ conn'.At oid n ws := by
  obtain ⟨snapshot, rfl⟩ := hc
  exact ⟨_, Session.serve_seekStart hn, snapshot, rfl⟩

theorem read (n : ℕ) :
    ∃ conn', Session.serve busy (.loRead 0 n) ⟨db, conn⟩ =
      some (.ok (some (window (applyAll ws oid (db.bytes oid)) pos n)), ⟨db, conn'⟩) ∧
        conn'.At oid (pos + (window (applyAll ws oid (db.bytes oid)) pos n).length) ws := by
  obtain ⟨snapshot, rfl⟩ := hc
  rw [← Tx.view_readWrite ⟨oid, .readWrite, pos, snapshot⟩ rfl]
  exact ⟨_, Session.serve_loRead n, snapshot, rfl⟩

theorem write {data : Bytes} (hd : data ≠ []) (hp : pos + data.length ≤ maxObjectSize)
    (hb : busy ⟨oid, pos, data⟩ = false) :
    ∃ conn', Session.serve busy (.loWrite 0 data) ⟨db, conn⟩ =
      some (.ok (some (data.length : ℤ)), ⟨db, conn'⟩) ∧
        conn'.At oid (pos + data.length) (ws ++ [⟨oid, pos, data⟩]) := by
  obtain ⟨snapshot, rfl⟩ := hc
  exact ⟨_, Session.serve_loWrite rfl hd hp hb, snapshot, rfl⟩

theorem write_large {data : Bytes} (hp : maxObjectSize < pos + data.length) :
    Session.serve busy (.loWrite 0 data) ⟨db, conn⟩ =
      some (.error .database, ⟨db, .failed⟩) := by
  obtain ⟨snapshot, rfl⟩ := hc
  exact Session.serve_loWrite_large hp

theorem updatedAt_some {id : FileId} {f : FileRow} (hf : db.findFileById id = some f) :
    Session.serve busy (.updatedAt id) ⟨db, conn⟩ = some (.ok f.updatedAt, ⟨db, conn⟩) := by
  obtain ⟨snapshot, rfl⟩ := hc
  simp [Session.serve, Session.updatedAt, hf]

theorem updatedAt_none {id : FileId} (hf : db.findFileById id = none) :
    Session.serve busy (.updatedAt id) ⟨db, conn⟩ = some (.error .rowNotFound, ⟨db, conn⟩) := by
  obtain ⟨snapshot, rfl⟩ := hc
  simp [Session.serve, Session.updatedAt, hf]

theorem close : Session.serve busy (.loClose 0) ⟨db, conn⟩ =
    some (.ok (some 0), ⟨db, .inTx ⟨none, ws⟩⟩) := by
  obtain ⟨snapshot, rfl⟩ := hc
  exact Session.serve_loClose

end Conn.At

/-- A commit of writes to one object. -/
theorem Db.commit_eq_store {db : Db} {ws : List Write} {oid : Oid} {c : Bytes}
    (hw : ∀ w ∈ ws, w.oid = oid) (hc : db.objects oid = some c) (d : Option Descriptor) :
    db.commit ⟨d, ws⟩ = db.store oid (applyAll ws oid c) := by
  rw [Db.commit, Db.store]
  congr 1
  funext o
  by_cases ho : o = oid
  · subst ho
    simp only [hc, Option.map_some, Function.update_self]
    rfl
  · have hid : Tx.apply ⟨d, ws⟩ o = id := by
      funext c'
      exact Db.apply_of_ne (fun w hm he => ho ((hw w hm).symm.trans he).symm) c'
    rw [Function.update_of_ne ho, hid, Option.map_id, id]

end LocallyEuclidean.Postgres
