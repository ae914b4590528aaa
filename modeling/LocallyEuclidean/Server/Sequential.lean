import LocallyEuclidean.Postgres.Content
import LocallyEuclidean.Server.Archive
import LocallyEuclidean.Server.Service

/-! Requests one at a time, with nothing failing: the service is its archive. -/

namespace LocallyEuclidean.Server
open Interact Postgres Storage

/-- A request whose body stream does not fail. -/
inductive Op where
  | put (bucketName filename : String) (parts : List Bytes) (now : DateTime)
  | post (bucketName filename : String) (writeOffset : ℕ) (parts : List Bytes)
  | get (bucketName filename : String) (rooms : List ℕ+)

def Op.request : Op → Request
  | .put b f parts now => .put b f (frames parts) now
  | .post b f writeOffset parts => .post b f writeOffset (frames parts)
  | .get b f rooms => .get b f rooms

/-- What a client sees of an answer, except for the modification time. -/
abbrev Seen := StatusCode × Option (ℕ × List Bytes × StreamEnd)

instance : DecidableEq Seen :=
  have : DecidableEq (Option (ℕ × List Bytes × StreamEnd)) := inferInstance
  instDecidableEqProd

def seen : Answer → Option Seen
  | .ok r => some (.ok, r.map fun r => (r.contentLength, r.body, r.bodyEnd))
  | .err e => some (e.statusCode, none)
  | .panic _ => none
  | .dropped => none

theorem status_eq_seen (x : Answer) : status x = (seen x).map Prod.fst := by
  cases x <;> rfl

/-- How the content that a download gets is cut for its client. -/
def Op.cut : Op → StatusCode × Option Bytes → Seen
  | .get _ _ rooms, (answer, content) =>
    (answer, content.map fun c => (c.length, download c 0 rooms))
  | _, (answer, _) => (answer, none)

namespace Archive

/-- What the archive answers, and what becomes of it. -/
def serve (a : Archive UInt8) : Op → (StatusCode × Option Bytes) × Archive UInt8
  | .put b f parts _ => (((a.put b f parts.flatten).1, none), (a.put b f parts.flatten).2)
  | .post b f writeOffset parts =>
    (((a.post maxObjectSize b f writeOffset parts.flatten).1, none),
      (a.post maxObjectSize b f writeOffset parts.flatten).2)
  | .get b f _ => (a.get b f, a)

/-- A run from `a` to `a'` in which the answers to `ops` are as `R` says of the archive's. -/
def Runs (R : Op → Answer → StatusCode × Option Bytes → Prop) :
    Archive UInt8 → List Op → List Answer → Archive UInt8 → Prop
  | a, [], [], a' => a' = a
  | a, op :: ops, x :: xs, a' => R op x (a.serve op).1 ∧ Runs R (a.serve op).2 ops xs a'
  | _, _, _, _ => False

theorem Runs.imp {R R' : Op → Answer → StatusCode × Option Bytes → Prop}
    (hR : ∀ op x expected, R op x expected → R' op x expected) {a a' : Archive UInt8}
    {ops : List Op} {xs : List Answer} (h : a.Runs R ops xs a') : a.Runs R' ops xs a' := by
  induction ops generalizing a xs with
  | nil =>
    cases xs with
    | nil => exact h
    | cons => exact h.elim
  | cons op ops ih =>
    cases xs with
    | nil => exact h.elim
    | cons x xs => exact ⟨hR _ _ _ h.1, ih h.2⟩

/-- What every request does to an archive, a run does. -/
theorem Runs.preserves {R : Op → Answer → StatusCode × Option Bytes → Prop}
    {I : Archive UInt8 → Prop} {a a' : Archive UInt8} {ops : List Op} {xs : List Answer}
    (h : a.Runs R ops xs a') (step : ∀ op ∈ ops, ∀ b, I b → I (b.serve op).2) (ha : I a) : I a' := by
  induction ops generalizing a xs with
  | nil =>
    cases xs with
    | nil => exact h ▸ ha
    | cons => exact h.elim
  | cons op ops ih =>
    cases xs with
    | nil => exact h.elim
    | cons x xs =>
      exact ih h.2 (fun o ho => step o (List.mem_cons_of_mem _ ho))
        (step op List.mem_cons_self a ha)

theorem serve_extends (a : Archive UInt8) (op : Op) : a.Extends (a.serve op).2 := by
  cases op with
  | put b f parts now => exact a.put_extends b f _
  | post b f writeOffset parts => exact a.post_extends _ b f _ _
  | get b f rooms => exact .refl a

theorem Runs.extends {R : Op → Answer → StatusCode × Option Bytes → Prop} {a a' : Archive UInt8}
    {ops : List Op} {xs : List Answer} (h : a.Runs R ops xs a') : a.Extends a' :=
  h.preserves (fun op _ b hb => hb.trans (b.serve_extends op)) (.refl a)

end Archive

/-- The archive that a database holds. -/
def archive (db : Db) : Archive UInt8 :=
  ⟨fun name => (db.findBucket name).isSome, db.content⟩

/-- The deadline that `createFile` computes, where it is a date that Postgres has. -/
def Deadline (b : BucketRow) (now : DateTime) (deleteAfter : Option Timestamp) : Prop :=
  PostgresBucket.deleteAfter ⟨b.id, b.defaultTtl.map Interval.delta⟩ now = .ret deleteAfter ∧
    deleteAfter.any (· < minTimestamp) = false

/-- An upload that Postgres can hold and whose deadline exists. -/
def Op.Fits (buckets : List BucketRow) : Op → Prop
  | .put bucketName _ parts now => parts.flatten.length ≤ maxObjectSize ∧
      ∀ b ∈ buckets, b.name = bucketName → ∃ deleteAfter, Deadline b now deleteAfter
  | _ => True

theorem put_fits {buckets : List BucketRow} (hb : ∀ b ∈ buckets, b.defaultTtl = none)
    {bucketName filename : String} {parts : List Bytes} (hl : parts.flatten.length ≤ maxObjectSize)
    (now : DateTime) : (Op.put bucketName filename parts now).Fits buckets := by
  refine ⟨hl, fun b hm _ => ⟨none, ?_, rfl⟩⟩
  rw [hb b hm]
  rfl

theorem put_fits_of_find {db : Db} (h : db.Linked) {bucketName filename : String} {b : BucketRow}
    (hb : db.findBucket bucketName = some b) {parts : List Bytes}
    (hl : parts.flatten.length ≤ maxObjectSize) {now : DateTime}
    (hd : ∃ deleteAfter, Deadline b now deleteAfter) :
    (Op.put bucketName filename parts now).Fits db.buckets := by
  refine ⟨hl, fun b' hm hn => ?_⟩
  have hb' := h.findBucket_of_mem hm
  rw [hn, hb] at hb'
  rwa [← Option.some.inj hb']

/-- The logic of a request that runs alone. -/
abbrev Alone : Logic Query.Reply Session := alone serveAlone fun _ => False

theorem served {q : Query} {a : q.Reply} {s s' : Session}
    (hs : s.serve (fun _ => false) q = some (a, s')) {Φ : q.Reply → Session → Prop} (h : Φ a s') :
    Alone.call q Φ s :=
  alone_call (by rw [serveAlone, hs]) h

theorem runAlone_of_wp {ε α : Type} {p : DbProg ε α} {db : Db} {P : Outcome ε α → Db → Prop}
    (h : Alone.wp p (fun o s => P o s.db) ⟨db, .idle⟩) :
    P (runAlone p db).1 (runAlone p db).2 :=
  wp_alone (fun _ => False.elim) h

/-- Any program that runs alone keeps the database linked. -/
theorem runAlone_linked {ε α : Type} (p : DbProg ε α) {db : Db} (h : db.Linked) :
    (runAlone p db).2.Linked := by
  have keeps : ∀ q (s : Session), True → s.db.Linked ∧ s.conn.Bounded →
      Alone.call q (fun _ s' => s'.db.Linked ∧ s'.conn.Bounded) s := by
    intro q s _ hs
    obtain ⟨r, hr⟩ := Session.serve_free q s
    exact served hr (Session.serve_linked hr hs.1 hs.2)
  refine runAlone_of_wp (P := fun _ db' => db'.Linked) (Logic.wp_mono (fun _ _ hs => hs.1)
    (Alone.wp_of_uses keeps p.uses_any ⟨h, ?_⟩))
  simp [Conn.Bounded, Conn.writes]

theorem serveRequest_linked {db : Db} (h : db.Linked) (r : Request) :
    (serveRequest db r).2.Linked :=
  runAlone_linked r.handler h

section Handle

variable {db : Db} {oid : Oid} {c : Bytes} (hc : db.objects oid = some c)
include hc

/-- A new handle on an object that is there. -/
theorem new_alone {id : FileId} {conn : Conn}
    {post : Outcome FileHandleError PostgresFileHandle → Session → Prop}
    (h : ∀ conn', conn'.At oid 0 [] → post (.ok ⟨.ofFd 0, id⟩) ⟨db, conn'⟩) :
    Alone.wp (PostgresFileHandle.new oid id) post ⟨db, conn⟩ := by
  refine PostgresFileHandle.wp_new (served rfl ⟨rfl, ?_⟩)
  obtain ⟨conn', hs, hat⟩ := Conn.At.opened (fun _ => false) (OpenMode.ofFlags_bits .readWrite) hc
  exact served hs (.inl ⟨0, rfl, h conn' hat⟩)

theorem readsOn_alone (start : ℕ) : BlobHandle.ReadsOn Alone 0
    (fun m s => s.db = db ∧ s.conn.At oid (start + m.length) [] ∧ m <+: c.drop start)
    (fun m s => s.db = db ∧ m = c.drop start) := by
  rintro m ⟨_, conn⟩ room ⟨rfl, hat, hm⟩ hroom -
  obtain ⟨conn', hs, hat'⟩ := hat.read (fun _ => false) _ room
  rw [applyAll_nil, Db.bytes_of_objects hc] at hs hat'
  refine served hs ⟨_, rfl, length_window_le _ _ _, ?_⟩
  by_cases hw : window c (start + m.length) room = []
  · exact .inr ⟨hw, rfl, eq_drop_of_window_nil hroom hm hw⟩
  · refine .inl ⟨hw, rfl, ?_, isPrefix_append_window room hm⟩
    rwa [List.length_append, ← Nat.add_assoc]

/-- The range check of a body from `start` on. -/
theorem checkRangeMatches_alone {start : ℕ} (hn : start ≤ maxObjectSize) {pos : ℕ} {conn : Conn}
    (hat : conn.At oid pos []) (parts : List Bytes) :
    Alone.wp (checkRangeMatches (frames parts) start (.ofFd 0)) (fun o s =>
      ∃ v, o = .ok v ∧ s.db = db ∧ (v = .isMatch ↔ c.drop start = parts.flatten)) ⟨db, conn⟩ := by
  obtain ⟨conn', hs, hat'⟩ := hat.seekStart (fun _ => false) db hn
  refine Logic.wp_mono ?_ (wp_checkRangeMatches (readsOn_alone hc start) hn
    (served hs ⟨start, rfl, rfl, hat', List.nil_prefix⟩))
  rintro _ s ⟨v, rfl, hv⟩
  have hdb : s.db = db := by
    obtain ⟨-, h⟩ | ⟨-, m, ⟨h, -⟩ | ⟨h, -⟩⟩ := hv
    · exact h.1
    · exact h.1
    · exact h.1
  exact ⟨v, rfl, hdb, hv.isMatch_iff (fun m h => h.2.2) (fun m h => h.2)⟩

theorem readerStream_alone {pos : ℕ} {conn : Conn} (hat : conn.At oid pos []) (rooms : List ℕ+) :
    Alone.wp (readerStream (.ofFd 0) rooms) (fun o s =>
      o = .ok (download c pos rooms) ∧ s.db = db) ⟨db, conn⟩ := by
  refine Logic.wp_mono ?_ (wp_readerStream_steady
    (c := c) (R := fun pos (s : Session) => s.db = db ∧ s.conn.At oid pos []) (X := fun _ _ => False) ?_
    (s := ⟨db, conn⟩) ⟨rfl, hat⟩)
  · rintro _ s (⟨rfl, -, hdb, -⟩ | ⟨-, -, hX⟩)
    · exact ⟨rfl, hdb⟩
    · exact hX.elim
  · rintro pos ⟨_, conn⟩ room ⟨rfl, hat⟩ - -
    obtain ⟨conn', hs, hat'⟩ := hat.read (fun _ => false) _ room
    rw [applyAll_nil, Db.bytes_of_objects hc] at hs hat'
    exact served hs (.inl ⟨rfl, rfl, hat'⟩)

/-- The bytes `w` have been appended in the open transaction. -/
def Appending (db : Db) (oid : Oid) (c w : Bytes) (s : Session) : Prop :=
  s.db = db ∧ ∃ pos ws, s.conn.At oid pos ws ∧ (∀ v ∈ ws, v.oid = oid) ∧ applyAll ws oid c = c ++ w

theorem writesOn_alone (body : Bytes) : WritesOn Alone 0 body
      (fun w s => Appending db oid c w s ∧ c.length + w.length ≤ maxObjectSize)
      (fun _ s => s.db = db ∧ maxObjectSize < c.length + body.length) := by
  rintro w data rest ⟨_, conn⟩ rfl ⟨⟨rfl, pos, ws, hat, hw, ha⟩, hle⟩
  obtain ⟨conn₁, hs, hat₁⟩ := hat.seekEnd (fun _ => false) _ (by
    rw [Db.bytes_of_objects hc, ha, List.length_append]
    exact hle)
  rw [Db.bytes_of_objects hc, ha] at hs hat₁
  refine served hs ⟨_, rfl, fun _ => ⟨⟨rfl, _, ws, hat₁, hw, ha⟩, hle⟩, fun hd => ?_⟩
  rcases le_or_gt ((c ++ w).length + data.length) maxObjectSize with hfit | hbig
  · obtain ⟨conn₂, hs₂, hat₂⟩ := hat₁.write (fun _ => false) _ hd hfit rfl
    refine served hs₂ (.inl ⟨rfl, ⟨rfl, _, _, hat₂, ?_, ?_⟩, ?_⟩)
    · intro v hv
      rcases List.mem_append.mp hv with hv | hv
      · exact hw v hv
      · rw [List.mem_singleton.mp hv]
    · rw [applyAll_append_end ha, List.append_assoc]
    · rwa [List.length_append, ← Nat.add_assoc, ← List.length_append]
  · refine served (hat₁.write_large _ _ hbig) (.inr ⟨_, rfl, rfl, ?_⟩)
    rw [List.length_append] at hbig
    simp only [List.length_append]
    omega

/-- What is left of an upload once its handle is open. -/
theorem appendFrames_alone {id : FileId} {pos : ℕ} {conn : Conn} (hat : conn.At oid pos [])
    (hl : c.length ≤ maxObjectSize) (parts : List Bytes) :
    Alone.wp (appendFrames ⟨.ofFd 0, id⟩ (frames parts)) (fun o s =>
      (o = .ok () ∧ Appending db oid c parts.flatten s ∧
        c.length + parts.flatten.length ≤ maxObjectSize) ∨
      ∃ e, o = .err (writeError e) ∧ s.db = db ∧
        maxObjectSize < c.length + parts.flatten.length) ⟨db, conn⟩ :=
  wp_appendFrames (writesOn_alone hc parts.flatten) (List.nil_append _)
    ⟨⟨rfl, pos, [], hat, by simp, (List.append_nil c).symm⟩, by simpa using hl⟩

theorem commit_alone {id : FileId} {w : Bytes} {s : Session} (h : Appending db oid c w s)
    {post : Outcome BoxError Unit → Session → Prop}
    (hp : ∀ s', s'.db = db.store oid (c ++ w) → post (.ok ()) s') :
    Alone.wp (PostgresFileHandle.commit ⟨.ofFd 0, id⟩) post s := by
  obtain ⟨_, conn⟩ := s
  obtain ⟨rfl, pos, ws, hat, hw, ha⟩ := h
  refine PostgresFileHandle.wp_commit (served (hat.close _ _) ⟨⟨_, rfl⟩, served rfl ⟨rfl, hp _ ?_⟩⟩)
  rw [← ha]
  exact Db.commit_eq_store hw hc none

end Handle

/-! The lookups of a handler. -/

section Lookup

variable {db : Db} {bucketName filename : String} {b : BucketRow} {conn : Conn}

theorem bucket_alone_none (hb : db.findBucket bucketName = none)
    {post : Outcome FileOpenError PostgresBucket → Session → Prop}
    (h : post (.err .doesNotExist) ⟨db, conn⟩) :
    Alone.wp (PostgresBackend.bucket bucketName) post ⟨db, conn⟩ :=
  PostgresBackend.wp_bucket (served (by rw [Session.serve, hb]; rfl) (.inl ⟨rfl, h⟩))

theorem bucket_alone (hb : db.findBucket bucketName = some b)
    {post : Outcome FileOpenError PostgresBucket → Session → Prop}
    (h : post (.ok ⟨b.id, b.defaultTtl.map Interval.delta⟩) ⟨db, conn⟩) :
    Alone.wp (PostgresBackend.bucket bucketName) post ⟨db, conn⟩ :=
  PostgresBackend.wp_bucket (served (by rw [Session.serve, hb]; rfl) (.inr ⟨_, _, rfl, h⟩))

theorem file_alone_none {p : PostgresBucket} (hf : db.findFile p.id filename = none)
    {post : Outcome FileOpenError PostgresFileHandle → Session → Prop}
    (h : post (.err .doesNotExist) ⟨db, conn⟩) :
    Alone.wp (p.file filename) post ⟨db, conn⟩ :=
  PostgresBucket.wp_file (served (by rw [Session.serve, hf]; rfl) (.inl ⟨rfl, h⟩))

theorem file_alone {p : PostgresBucket} {f : FileRow} {c : Bytes}
    (hf : db.findFile p.id filename = some f) (hc : db.objects f.blob = some c)
    {post : Outcome FileOpenError PostgresFileHandle → Session → Prop}
    (h : ∀ conn', conn'.At f.blob 0 [] → post (.ok ⟨.ofFd 0, f.id⟩) ⟨db, conn'⟩) :
    Alone.wp (p.file filename) post ⟨db, conn⟩ :=
  PostgresBucket.wp_file (served (by rw [Session.serve, hf]; rfl)
    (.inr ⟨_, _, rfl, new_alone hc h⟩))

/-- Making a file whose deadline exists gives a handle on its empty object, or an error. -/
theorem createFile_wp {p : PostgresBucket} {now : DateTime} {deleteAfter : Option Timestamp}
    (hd : p.deleteAfter now = .ret deleteAfter)
    {post : Outcome FileCreateError PostgresFileHandle → Session → Prop}
    (made : ∀ row db' conn', db.insertFile p.id filename deleteAfter = .ok (row, db') →
      db'.objects row.blob = some [] → conn'.At row.blob 0 [] →
        post (.ok ⟨.ofFd 0, row.id⟩) ⟨db', conn'⟩)
    (failed : ∀ e, post (.err e) ⟨db, conn⟩) : Alone.wp (p.createFile filename now) post ⟨db, conn⟩ := by
  simp only [PostgresBucket.createFile, hd, Prog.bind_eq, Prog.bind, Logic.wp_bind]
  refine served rfl ?_
  cases hr : db.insertFile p.id filename deleteAfter with
  | error e => cases e <;> exact failed _
  | ok r =>
    obtain ⟨row, db'⟩ := r
    have hblob : db'.objects row.blob = some [] := by
      obtain ⟨-, -, rfl, rfl⟩ := Db.insertFile_ok hr
      simp
    simp only [Except.map, Logic.wp_ret, Logic.after_ok, Logic.wp_mapErr]
    exact new_alone hblob fun conn' hat => made row db' conn' hr hblob hat

/-- The TTL of every bucket is found without an overflow. -/
theorem byName_alone (hb : db.findBucket bucketName = some b) :
    (runAlone (PostgresBucket.byName bucketName) db).1 =
      .ok (some ⟨b.id, b.defaultTtl.map Interval.delta⟩) := by
  refine runAlone_of_wp (P := fun o _ => o = .ok _) ?_
  simp only [PostgresBucket.byName, Prog.bind_eq, Logic.wp_bind]
  refine wp_fetch (served rfl ?_)
  rw [hb]
  obtain ⟨id, name, _ | ttl⟩ := b
  · rfl
  · simp only [Option.map_some, fetched, Logic.after_ok, Interval.toTimeDelta_eq, Prog.pure_eq,
      Logic.wp_ret]

end Lookup

/-! The handlers. -/

section Handlers

variable {db : Db} {bucketName filename : String} {b : BucketRow} {f : FileRow} {c : Bytes}

theorem post_alone (h : db.Linked) (hb : db.findBucket bucketName = some b)
    (hf : db.findFile b.id filename = some f) (hc : db.objects f.blob = some c)
    (writeOffset : ℕ) (parts : List Bytes) :
    Alone.wp (postAppendFilename bucketName filename writeOffset (frames parts)) (fun r s =>
      status r = some (appendAt maxObjectSize c writeOffset parts.flatten).1 ∧
        s.db = db.store f.blob (appendAt maxObjectSize c writeOffset parts.flatten).2)
      ⟨db, .idle⟩ := by
  have hl := h.sizes _ _ hc
  refine Logic.wp_then (bucket_alone hb (Logic.wp_then (file_alone hf hc fun conn hat => ?_)))
  obtain ⟨conn₁, hs, hat₁⟩ := hat.seekEnd (fun _ => false) db (by
    rwa [applyAll_nil, Db.bytes_of_objects hc])
  rw [applyAll_nil, Db.bytes_of_objects hc] at hs hat₁
  refine Logic.wp_then (BlobHandle.wp_seekEnd (served hs ⟨_, rfl, ?_⟩))
  simp only [Outcome.mapErr, Logic.after_ok]
  by_cases ho : writeOffset ≤ c.length
  · rw [if_pos ho, appendAt_check ho, Db.store_eq_self hc]
    refine Logic.wp_then (Logic.wp_mono ?_ (checkRangeMatches_alone hc (ho.trans hl) hat₁ parts))
    rintro _ s ⟨v, rfl, hdb, hv⟩
    cases v with
    | isMatch =>
      rw [if_pos (hv.mp rfl)]
      exact ⟨rfl, hdb⟩
    | lengthMismatch | dataMismatch =>
      rw [if_neg fun he => by simpa using hv.mpr he]
      exact ⟨rfl, hdb⟩
  · rw [if_neg ho]
    refine Logic.wp_then (Logic.wp_mono ?_ (appendFrames_alone hc hat₁ hl parts))
    rintro _ s (⟨rfl, happ, hfit⟩ | ⟨e, rfl, hdb, hbig⟩)
    · rw [appendAt_past (not_le.mp ho) hfit]
      simp only [Outcome.mapErr, Logic.after_ok, Logic.wp_mapErr]
      exact commit_alone hc happ fun s' hs' => ⟨rfl, hs'⟩
    · rw [appendAt_full (not_le.mp ho) hbig, Db.store_eq_self hc]
      exact ⟨rfl, hdb⟩

/-- A download of a file that is there. -/
theorem get_alone (h : db.Linked) (hb : db.findBucket bucketName = some b)
    (hf : db.findFile b.id filename = some f) (hc : db.objects f.blob = some c)
    (rooms : List ℕ+) :
    Alone.wp (getExplore bucketName filename rooms) (fun r s =>
      r = .ok ⟨c.length, "application/octet-stream", f.updatedAt, (download c 0 rooms).1,
        (download c 0 rooms).2⟩ ∧ s.db = db) ⟨db, .idle⟩ := by
  have hl := h.sizes _ _ hc
  refine Logic.wp_then (bucket_alone hb (Logic.wp_then (file_alone hf hc fun conn hat => ?_)))
  obtain ⟨conn₁, hs₁, hat₁⟩ := hat.seekEnd (fun _ => false) db (by
    rwa [applyAll_nil, Db.bytes_of_objects hc])
  rw [applyAll_nil, Db.bytes_of_objects hc] at hs₁ hat₁
  refine Logic.wp_then (BlobHandle.wp_seekEnd (served hs₁ ⟨_, rfl, ?_⟩))
  obtain ⟨conn₂, hs₂, hat₂⟩ := hat₁.seekStart (fun _ => false) db (Nat.zero_le _)
  refine Logic.wp_then (BlobHandle.wp_seekStart (Nat.zero_le _) (served hs₂ ⟨0, rfl, ?_⟩))
  have hrow := hat₂.updatedAt_some (fun _ => false) db
    (h.findFileById_of_mem (Db.findFile_some hf).1)
  refine Logic.wp_then (PostgresFileHandle.wp_metadata (served hrow (.inl ⟨_, rfl, ?_⟩)))
  refine (Logic.wp_bind ..).mpr (Logic.wp_mono ?_ (readerStream_alone hc hat₂ rooms))
  rintro _ s ⟨rfl, hdb⟩
  exact ⟨rfl, hdb⟩

/-- The first upload of a name. -/
theorem put_alone_new (hb : db.findBucket bucketName = some b)
    (hf : db.findFile b.id filename = none) {now : DateTime} {deleteAfter : Option Timestamp}
    (hd : Deadline b now deleteAfter) {parts : List Bytes} (hl : parts.flatten.length ≤ maxObjectSize) :
    Alone.wp (putWriteFilename bucketName filename (frames parts) now) (fun r s =>
      r = .ok () ∧ s.db = (db.withFile b.id filename deleteAfter).store db.nextOid parts.flatten)
      ⟨db, .idle⟩ := by
  have hins := Db.insertFile_eq hd.2 hf ⟨b, (Db.findBucket_some hb).1, rfl⟩
  have hnew : (db.withFile b.id filename deleteAfter).objects db.nextOid = some [] := by
    simp [Db.withFile]
  refine Logic.wp_then (bucket_alone hb (Logic.wp_try (PostgresBucket.wp_createFile hd.1
    (served (by rw [Session.serve, hins]; rfl) (.inr (.inr ⟨_, _, rfl, ?_⟩))))))
  refine new_alone hnew fun conn hat => ?_
  refine Logic.wp_then (Logic.wp_mono ?_ (appendFrames_alone hnew hat (Nat.zero_le _) parts))
  rintro _ s (⟨rfl, happ, -⟩ | ⟨e, -, -, hbig⟩)
  · simp only [Outcome.mapErr, Logic.after_ok, Logic.wp_mapErr]
    exact commit_alone hnew happ fun s' hs' => ⟨rfl, hs'⟩
  · simp only [List.length_nil, Nat.zero_add] at hbig
    omega

/-- A later upload of a name compares, and changes nothing. -/
theorem put_alone_again (hb : db.findBucket bucketName = some b)
    (hf : db.findFile b.id filename = some f) (hc : db.objects f.blob = some c) {now : DateTime}
    {deleteAfter : Option Timestamp} (hd : Deadline b now deleteAfter) (parts : List Bytes) :
    Alone.wp (putWriteFilename bucketName filename (frames parts) now) (fun r s =>
      status r = some (if c = parts.flatten then .ok else .conflict) ∧ s.db = db) ⟨db, .idle⟩ := by
  have hins := Db.insertFile_exists hd.2 hf
  refine Logic.wp_then (bucket_alone hb (Logic.wp_try (PostgresBucket.wp_createFile hd.1
    (served (by rw [Session.serve, hins]; rfl) (.inl ⟨rfl, ?_⟩)))))
  refine Logic.wp_then (file_alone hf hc fun conn hat => ?_)
  refine Logic.wp_then (Logic.wp_mono ?_ (checkRangeMatches_alone hc (Nat.zero_le _) hat parts))
  rintro _ s ⟨v, rfl, hdb, hv⟩
  rw [List.drop_zero] at hv
  cases v with
  | isMatch =>
    rw [if_pos (hv.mp rfl)]
    exact ⟨rfl, hdb⟩
  | lengthMismatch | dataMismatch =>
    rw [if_neg fun he => by simpa using hv.mpr he]
    exact ⟨rfl, hdb⟩

end Handlers

/-! The service refines its archive. -/

section Refines

variable {db : Db}

theorem archive_store (h : db.Linked) {bucketName filename : String} {b : BucketRow} {f : FileRow}
    (hb : db.findBucket bucketName = some b) (hf : db.findFile b.id filename = some f) (c : Bytes) :
    archive (db.store f.blob c) = (archive db).store bucketName filename c := by
  ext1
  · rfl
  · funext b' f'
    exact h.content_store hb hf c b' f'

theorem archive_withFile (h : db.Linked) {bucketName filename : String} {b : BucketRow}
    (hb : db.findBucket bucketName = some b) (hf : db.findFile b.id filename = none)
    {deleteAfter : Option Timestamp} (hd : deleteAfter.any (· < minTimestamp) = false) (c : Bytes) :
    archive ((db.withFile b.id filename deleteAfter).store db.nextOid c) =
      (archive db).store bucketName filename c := by
  have hl := h.insertFile (Db.insertFile_eq hd hf ⟨b, (Db.findBucket_some hb).1, rfl⟩)
  have hrow : (db.withFile b.id filename deleteAfter).findFile b.id filename =
      some (db.newRow b.id filename deleteAfter) := by
    rw [Db.findFile_withFile _ _ _ hf, if_pos ⟨rfl, rfl⟩]
  have hnew : archive (db.withFile b.id filename deleteAfter) =
      (archive db).store bucketName filename [] := by
    ext1
    · rfl
    · funext b' f'
      exact h.content_withFile hb hf deleteAfter b' f'
  calc archive ((db.withFile b.id filename deleteAfter).store db.nextOid c)
      = (archive (db.withFile b.id filename deleteAfter)).store bucketName filename c :=
        archive_store hl hb hrow c
    _ = (archive db).store bucketName filename c := by rw [hnew, Archive.store_store]

theorem put_refines (h : db.Linked) {bucketName filename : String} {parts : List Bytes}
    {now : DateTime} (hf : (Op.put bucketName filename parts now).Fits db.buckets) :
    Alone.wp (putWriteFilename bucketName filename (frames parts) now) (fun r s =>
      status r = some ((archive db).put bucketName filename parts.flatten).1 ∧
        archive s.db = ((archive db).put bucketName filename parts.flatten).2 ∧
        s.db.buckets = db.buckets) ⟨db, .idle⟩ := by
  unfold Archive.put
  cases hb : db.findBucket bucketName with
  | none =>
    rw [if_neg (by simp [archive, hb])]
    exact Logic.wp_then (bucket_alone_none hb ⟨rfl, rfl, rfl⟩)
  | some b =>
    rw [if_pos (by simp [archive, hb])]
    obtain ⟨hl, hdead⟩ := hf
    obtain ⟨deleteAfter, hd⟩ := hdead b (Db.findBucket_some hb).1 (Db.findBucket_some hb).2
    cases hrow : db.findFile b.id filename with
    | none =>
      rw [show (archive db).files bucketName filename = none from Db.content_of_absent hb hrow]
      refine Logic.wp_mono ?_ (put_alone_new hb hrow hd hl)
      rintro _ s ⟨rfl, hdb⟩
      rw [hdb]
      exact ⟨rfl, archive_withFile h hb hrow hd.2 _, rfl⟩
    | some f =>
      obtain ⟨c, hc⟩ := h.objects_of_find hrow
      rw [show (archive db).files bucketName filename = some c from
        (Db.content_of_find hb hrow).trans hc]
      refine Logic.wp_mono ?_ (put_alone_again hb hrow hc hd parts)
      rintro r s ⟨hr, hdb⟩
      rw [hdb]
      exact ⟨hr, rfl, rfl⟩

theorem post_refines (h : db.Linked) (bucketName filename : String) (writeOffset : ℕ)
    (parts : List Bytes) :
    Alone.wp (postAppendFilename bucketName filename writeOffset (frames parts)) (fun r s =>
      status r = some ((archive db).post maxObjectSize bucketName filename writeOffset
          parts.flatten).1 ∧
        archive s.db = ((archive db).post maxObjectSize bucketName filename writeOffset
          parts.flatten).2 ∧
        s.db.buckets = db.buckets) ⟨db, .idle⟩ := by
  unfold Archive.post
  cases hb : db.findBucket bucketName with
  | none =>
    rw [if_neg (by simp [archive, hb])]
    exact Logic.wp_then (bucket_alone_none hb ⟨rfl, rfl, rfl⟩)
  | some b =>
    rw [if_pos (by simp [archive, hb])]
    cases hrow : db.findFile b.id filename with
    | none =>
      rw [show (archive db).files bucketName filename = none from Db.content_of_absent hb hrow]
      exact Logic.wp_then (bucket_alone hb (Logic.wp_then (file_alone_none hrow ⟨rfl, rfl, rfl⟩)))
    | some f =>
      obtain ⟨c, hc⟩ := h.objects_of_find hrow
      rw [show (archive db).files bucketName filename = some c from
        (Db.content_of_find hb hrow).trans hc]
      refine Logic.wp_mono ?_ (post_alone h hb hrow hc writeOffset parts)
      rintro r s ⟨hr, hdb⟩
      rw [hdb]
      exact ⟨hr, archive_store h hb hrow _, rfl⟩

theorem get_refines (h : db.Linked) (bucketName filename : String) (rooms : List ℕ+) :
    Alone.wp (getExplore bucketName filename rooms) (fun r s =>
      seen (r.map some) = some (((archive db).get bucketName filename).1,
          ((archive db).get bucketName filename).2.map fun c => (c.length, download c 0 rooms)) ∧
        s.db = db) ⟨db, .idle⟩ := by
  unfold Archive.get
  cases hb : db.findBucket bucketName with
  | none =>
    rw [if_neg (by simp [archive, hb])]
    exact Logic.wp_then (bucket_alone_none hb ⟨rfl, rfl⟩)
  | some b =>
    rw [if_pos (by simp [archive, hb])]
    cases hrow : db.findFile b.id filename with
    | none =>
      rw [show (archive db).files bucketName filename = none from Db.content_of_absent hb hrow]
      exact Logic.wp_then (bucket_alone hb (Logic.wp_then (file_alone_none hrow ⟨rfl, rfl⟩)))
    | some f =>
      obtain ⟨c, hc⟩ := h.objects_of_find hrow
      rw [show (archive db).files bucketName filename = some c from
        (Db.content_of_find hb hrow).trans hc]
      refine Logic.wp_mono ?_ (get_alone h hb hrow hc rooms)
      rintro _ s ⟨rfl, hdb⟩
      exact ⟨rfl, hdb⟩

/-- A request that answers without a body. -/
theorem seen_of_status {r : Outcome ApiError Unit} {answer : StatusCode} {P : Session → Prop}
    {s : Session} (hr : status r = some answer) (hP : P s) :
    Alone.after (fun _ => .ret none)
      (fun (o : Answer) s => seen o = some (answer, none) ∧ P s) r s := by
  cases r with
  | ok => exact ⟨by simpa [status, seen] using hr, hP⟩
  | err e => exact ⟨by simpa [status, seen] using hr, hP⟩
  | panic | dropped => cases hr

/-- What one request does: its answer is the archive's, and so is the database it leaves. -/
theorem serve_refines (h : db.Linked) (op : Op) (hf : op.Fits db.buckets) :
    seen (serveRequest db op.request).1 = some (op.cut ((archive db).serve op).1) ∧
      archive (serveRequest db op.request).2 = ((archive db).serve op).2 ∧
      (serveRequest db op.request).2.buckets = db.buckets := by
  refine runAlone_of_wp (P := fun (o : Answer) db' =>
    seen o = some (op.cut ((archive db).serve op).1) ∧ archive db' = ((archive db).serve op).2 ∧
      db'.buckets = db.buckets) ?_
  cases op with
  | put bucketName filename parts now =>
    refine (Logic.wp_bind ..).mpr (Logic.wp_mono ?_ (put_refines h hf))
    rintro r s ⟨hr, hrest⟩
    exact seen_of_status (P := fun s => archive s.db = _ ∧ s.db.buckets = _) hr hrest
  | post bucketName filename writeOffset parts =>
    refine (Logic.wp_bind ..).mpr (Logic.wp_mono ?_
      (post_refines h bucketName filename writeOffset parts))
    rintro r s ⟨hr, hrest⟩
    exact seen_of_status (P := fun s => archive s.db = _ ∧ s.db.buckets = _) hr hrest
  | get bucketName filename rooms =>
    refine (Logic.wp_bind ..).mpr (Logic.wp_mono ?_ (get_refines h bucketName filename rooms))
    rintro r ⟨_, conn⟩ ⟨hr, rfl⟩
    cases r with
    | ok | err => exact ⟨hr, rfl, rfl⟩
    | panic | dropped => cases hr

/-- The service runs as its archive does. -/
theorem serveAll_runs (h : db.Linked) {ops : List Op} (hf : ∀ op ∈ ops, op.Fits db.buckets) :
    (archive db).Runs (fun op x expected => seen x = some (op.cut expected)) ops
        (serveAll db (ops.map Op.request)).1 (archive (serveAll db (ops.map Op.request)).2) ∧
      (serveAll db (ops.map Op.request)).2.Linked ∧
      (serveAll db (ops.map Op.request)).2.buckets = db.buckets := by
  induction ops generalizing db with
  | nil => exact ⟨rfl, h, rfl⟩
  | cons op ops ih =>
    obtain ⟨hs, ha, hb⟩ := serve_refines h op (hf op List.mem_cons_self)
    have hl := serveRequest_linked h op.request
    obtain ⟨hr, hl', hb'⟩ := ih hl fun o ho => hb ▸ hf o (List.mem_cons_of_mem _ ho)
    refine ⟨⟨hs, ?_⟩, hl', hb'.trans hb⟩
    rw [← ha]
    exact hr

end Refines

end LocallyEuclidean.Server
