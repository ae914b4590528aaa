import LocallyEuclidean.Interact.Protocol
import LocallyEuclidean.Server.Amidst
import LocallyEuclidean.Server.Faults

/-! What a request asks for: its bucket, in it the one file that it names, and that file's
blob. Only an upload makes a file, and a download writes nothing. -/

namespace LocallyEuclidean.Server
open Interact Postgres Storage

/-- What the answers to a request have told it. -/
structure Learnt where
  bucket : Option (BucketId × Option Interval)
  blob : Option Oid

/-- The deadline that an upload gives its file. -/
def Request.Dates (r : Request) (ttl : Option Interval) (due : Option Timestamp) : Prop :=
  ∃ b f body now, r = .put b f body now ∧ Depot.deadline (ttl.map Interval.delta) now = some due

namespace Learnt

def nothing : Learnt := ⟨none, none⟩

def allows (r : Request) (c : Learnt) : Query → Prop
  | .bucketByName name => name = r.name.1
  | .fileByName id filename => filename = r.name.2 ∧ ∃ ttl, c.bucket = some (id, ttl)
  | .insertFile id filename due =>
    filename = r.name.2 ∧ ∃ ttl, c.bucket = some (id, ttl) ∧ r.Dates ttl due
  | .loOpen oid _ => c.blob = some oid
  | .loWrite _ _ | .commitTx => r.writes = true
  | .insertBucket _ _ | .deleteOldFilesBatch _ => False
  | _ => True

def next (c : Learnt) : (q : Query) → q.Reply → Learnt
  | .bucketByName _, .ok bucket => { c with bucket := bucket }
  | .fileByName _ _, .ok (some (_, oid)) => { c with blob := some oid }
  | .insertFile _ _ _, .ok (_, oid) => { c with blob := some oid }
  | _, _ => c

end Learnt

def errand (r : Request) : Protocol Query.Reply Learnt := ⟨Learnt.allows r, Learnt.next⟩

section Steps

variable {ε α : Type} {r : Request} {c : Learnt}

/-- Once its blob is open, a request that writes may do there what it likes. -/
theorem keeps_of_onHandle {p : DbProg ε α} (hw : r.writes = true) (hp : OnHandle p) :
    (errand r).Keeps p c := by
  refine .of_uses (hp.mono fun q hq c => ?_) c
  cases q <;> first | exact hw | trivial

theorem keeps_upload (hw : r.writes = true) (file : PostgresFileHandle) (body : DataStream) :
    (errand r).Keeps (do
      (appendFrames file body).mapErr ApiError.internalError
      file.commit.mapErr ApiError.internalError) c :=
  .bind (.mapErr (keeps_of_onHandle hw (appendFrames_onHandle file body)) _) fun _ c _ =>
    .mapErr (Protocol.Keeps.of_uses (file.commit_uses (fun _ _ => trivial) fun _ => hw) c) _

theorem new_keeps {oid : Oid} (id : FileId) (h : c.blob = some oid) :
    (errand r).Keeps (PostgresFileHandle.new oid id) c := by
  suffices (errand r).Keeps (BlobHandleInner.open oid .readWrite) c from
    .bind (.bind this fun _ _ _ => .ret trivial) fun _ _ (_ : True) => .ret trivial
  refine .bind (fetch_steps (errand r) c .beginTx (K := fun _ c' => c' = c) trivial (fun _ => rfl) _)
    fun _ c' hc => ?_
  subst hc
  exact .bind (fetch_steps (errand r) c' (.loOpen oid (OpenMode.bits .readWrite))
    (K := fun _ _ => True) h (fun _ => trivial) _) fun fd _ _ =>
      .bind (okOr_steps (K := fun _ _ => True) fd _ fun _ _ => trivial) fun _ _ _ => .ret trivial

/-- The request knows this bucket. -/
def Learnt.Has (c : Learnt) (b : PostgresBucket) : Prop :=
  ∃ ttl, c.bucket = some (b.id, ttl) ∧ b.defaultTtl = ttl.map Interval.delta

theorem bucket_keeps (c : Learnt) :
    (errand r).Steps (PostgresBackend.bucket r.name.1) (fun b c' => c'.Has b) c := by
  refine .bind (.mapErr (K := fun x c' => ∀ b, x = some b → c'.Has b) (.bind (fetch_steps (errand r) c
    (.bucketByName r.name.1) (K := fun found c' => c'.bucket = found) rfl (fun _ => rfl) _)
      fun found c' hc => ?_) _) fun b c' hc => ?_
  · obtain _ | ⟨id, _ | ttl⟩ := found
    · exact .ret (by simp)
    · refine .ret fun b hb => ?_
      obtain rfl := Option.some.inj hb
      exact ⟨none, hc, rfl⟩
    · simp only [Interval.toTimeDelta_eq]
      refine .ret fun b hb => ?_
      obtain rfl := Option.some.inj hb
      exact ⟨some ttl, hc, rfl⟩
  · cases b with
    | none => exact .err _
    | some b => exact .ret (hc b rfl)

theorem file_keeps {b : PostgresBucket} (h : c.Has b) : (errand r).Keeps (b.file r.name.2) c := by
  obtain ⟨ttl, hb, -⟩ := h
  refine .bind (fetch_steps (errand r) c (.fileByName b.id r.name.2)
    (K := fun row c' => ∀ x, row = some x → c'.blob = some x.2) ⟨rfl, ttl, hb⟩ ?_ _)
    fun row c' hc => ?_
  · rintro _ x rfl
    rfl
  · cases row with
    | none => exact .err _
    | some row => exact .mapErr (new_keeps row.1 (hc row rfl)) _

/-- A request that finds its file there has still its bucket. -/
theorem createFile_keeps {b : PostgresBucket} (h : c.Has b) {bucketName filename : String}
    {body : DataStream} {now : DateTime} (hr : r = .put bucketName filename body now) :
    (errand r).StepsOr (b.createFile filename now) (fun _ _ => True)
      (fun e c' => e = .fileExists → c'.Has b) c := by
  obtain ⟨ttl, hb, httl⟩ := h
  have hd := deleteAfter_deadline b now
  cases hdue : Depot.deadline b.defaultTtl now with
  | none =>
    rw [hdue] at hd
    rw [PostgresBucket.createFile, hd]
    exact .panic _
  | some due =>
    rw [hdue] at hd
    simp only [PostgresBucket.createFile, hd, Prog.bind_eq, Prog.bind]
    have dates : r.Dates ttl due := ⟨_, _, _, _, hr, httl ▸ hdue⟩
    refine (Logic.wp_bind ..).mpr ⟨⟨by rw [hr]; rfl, ttl, hb, dates⟩, fun a => ?_⟩
    obtain e | ⟨id, oid⟩ := a
    · cases e with
      | uniqueViolation => exact ⟨by simp, fun _ _ _ => ⟨ttl, hb, httl⟩⟩
      | rowNotFound | writeConflict | database =>
        exact ⟨by simp, by simp [FileCreateError.ofBucket]⟩
    · exact Protocol.StepsOr.mapErr (Protocol.Steps.or (new_keeps id rfl)) fun _ _ _ he => by cases he

end Steps

/-! A download sends no write. -/

def Query.reads : Query → Bool
  | .loLseek64 _ _ _ | .loRead _ _ | .updatedAt _ => true
  | _ => false

section Reads

variable {r : Request} {c : Learnt}

def OnlyReads {ε α : Type} (p : DbProg ε α) : Prop := p.Uses fun q => Query.reads q = true

theorem OnlyReads.keeps {ε α : Type} {p : DbProg ε α} (hp : OnlyReads p) : (errand r).Keeps p c := by
  refine .of_uses (hp.mono fun q hq c => ?_) c
  cases q <;> trivial

theorem OnlyReads.fetch {ε : Type} {q : Query} (hq : Query.reads q = true) (wrap : SqlxError → ε) :
    OnlyReads (Storage.fetch q wrap) :=
  uses_fetch hq wrap

theorem seek_onlyReads (h : BlobHandle) (position : SeekFrom) : OnlyReads (h.seek position) := by
  refine .bind (.mapErr _ (.bind (uses_okOr _ _) fun _ => .bind (OnlyReads.fetch rfl _) fun _ =>
    uses_okOr _ _)) fun offset => ?_
  split <;> trivial

theorem read_onlyReads (h : BlobHandle) (remaining : ℕ) : OnlyReads (h.read remaining) := by
  unfold BlobHandle.read
  dsimp only
  split
  · refine .bind (.mapErr _ (.bind (uses_okOr _ _) fun _ => .bind (OnlyReads.fetch rfl _) fun _ =>
      uses_okOr _ _)) fun data => ?_
    split <;> trivial
  · trivial

theorem metadata_onlyReads (h : PostgresFileHandle) : OnlyReads h.metadata := by
  unfold PostgresFileHandle.metadata
  split
  · trivial
  · exact .fetch rfl _

theorem readerStream_onlyReads (file : BlobHandle) (rooms : List ℕ+) :
    OnlyReads (readerStream file rooms) := by
  induction rooms with
  | nil => trivial
  | cons room rooms ih =>
    refine .bind (.attempt (read_onlyReads file _)) fun x => ?_
    cases x with
    | error => trivial
    | ok data =>
      dsimp only
      split
      · trivial
      · exact .bind ih fun _ => trivial

end Reads

/-! The handlers. -/

theorem put_errand (bucketName filename : String) (body : DataStream) (now : DateTime) (c : Learnt) :
    (errand (.put bucketName filename body now)).Keeps
      (putWriteFilename bucketName filename body now) c := by
  refine .bind (.mapErr (bucket_keeps c) _) fun bucket c hc => ?_
  refine .bind (createFile_keeps hc rfl).attempt fun x c hx => ?_
  match x with
  | .ok file => exact keeps_upload rfl file body
  | .error .fileExists =>
    refine .bind (.mapErr (file_keeps (hx.2 _ rfl rfl)) _) fun file c _ => ?_
    refine .bind (.mapErr (keeps_of_onHandle rfl (checkRangeMatches_onHandle _ _ _)) _) fun v _ _ => ?_
    cases v with
    | isMatch => exact .ret trivial
    | lengthMismatch | dataMismatch => exact .err _
  | .error .invalidName | .error (.otherError e) => exact .err _

theorem post_errand (bucketName filename : String) (writeOffset : ℕ) (body : DataStream) (c : Learnt) :
    (errand (.post bucketName filename writeOffset body)).Keeps
      (postAppendFilename bucketName filename writeOffset body) c := by
  refine .bind (.mapErr (bucket_keeps c) _) fun bucket c hc => ?_
  refine .bind (.mapErr (file_keeps hc) _) fun file c _ => ?_
  refine .bind (.mapErr (seek_onlyReads _ _).keeps _) fun size c _ => ?_
  split
  · refine .bind (.mapErr (keeps_of_onHandle rfl (checkRangeMatches_onHandle _ _ _)) _) fun v _ _ => ?_
    cases v with
    | isMatch => exact .ret trivial
    | lengthMismatch | dataMismatch => exact .err _
  · exact keeps_upload rfl file body

theorem get_errand (bucketName filename : String) (rooms : List ℕ+) (c : Learnt) :
    (errand (.get bucketName filename rooms)).Keeps (getExplore bucketName filename rooms) c := by
  refine .bind (.mapErr (bucket_keeps c) _) fun bucket c hc => ?_
  refine .bind (.mapErr (file_keeps hc) _) fun file c _ => ?_
  refine .bind (.mapErr (seek_onlyReads _ _).keeps _) fun length c _ => ?_
  refine .bind (.mapErr (seek_onlyReads _ _).keeps _) fun _ c _ => ?_
  refine .bind (.mapErr (metadata_onlyReads _).keeps _) fun lastModified c _ => ?_
  exact .bind (readerStream_onlyReads _ _).keeps fun _ _ _ => .ret trivial

/-- Every request keeps to its errand. -/
theorem handler_errand (r : Request) : (errand r).Keeps r.handler .nothing := by
  cases r with
  | put b f body now => exact .bind (put_errand b f body now _) fun _ _ _ => .ret trivial
  | post b f writeOffset body => exact .bind (post_errand b f writeOffset body _) fun _ _ _ => .ret trivial
  | get b f rooms => exact .bind (get_errand b f rooms _) fun _ _ _ => .ret trivial

end LocallyEuclidean.Server
