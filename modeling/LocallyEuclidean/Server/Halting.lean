import LocallyEuclidean.Interact.Faulty
import LocallyEuclidean.Server.Faults

/-! A request stops at the first statement that fails, and makes no more of it than an internal
error. The commit of an upload is its last statement. -/

namespace LocallyEuclidean.Server
open Interact Postgres Storage

variable {ε ε' α β : Type}

/-- The statement has failed, and not by what it asks for. -/
def isFailure (q : Query) (a : q.Reply) : Bool :=
  match a with
  | .error .database => true
  | _ => false

def halting : Protocol Query.Reply Course := course isFailure Shared.isCommit

/-- A value of the program comes only where no statement has failed and none has committed. -/
def Goes (p : DbProg ε α) : Prop := halting.Steps p (fun _ c => c = .going) .going

/-- And so does an error of the kind `T`. -/
def GoesOr (p : DbProg ε α) (T : ε → Prop) : Prop :=
  halting.StepsOr p (fun _ c => c = .going) (fun e c => T e → c = .going) .going

namespace Goes

theorem ret (a : α) : Goes (.ret a : DbProg ε α) := Protocol.Steps.ret rfl

theorem err (e : ε) : Goes (.err e : DbProg ε α) := Protocol.Steps.err e

theorem panic (m : String) : Goes (.panic m : DbProg ε α) := Protocol.Steps.panic m

theorem bind {p : DbProg ε α} {f : α → DbProg ε β} (h : Goes p) (hf : ∀ a, Goes (f a)) :
    Goes (p >>= f) := by
  refine Protocol.Steps.bind h fun a c hc => ?_
  subst hc
  exact hf a

theorem mapErr {p : DbProg ε α} (h : Goes p) (f : ε → ε') : Goes (p.mapErr f) :=
  Protocol.Steps.mapErr h f

theorem okOr (x : Option α) (e : ε) : Goes (Storage.okOr x e : DbProg ε α) :=
  okOr_steps x e fun _ _ => rfl

theorem fetch {q : Query} (hq : Shared.isCommit q = false) (wrap : SqlxError → ε) :
    Goes (Storage.fetch q wrap) := by
  refine fetch_steps halting .going q rfl (fun row => ?_) wrap
  simp [halting, course, isFailure, hq]

/-- Where the errors are wrapped into others, none of which is of the kind `T`. -/
theorem or {p : DbProg ε α} (h : Goes p) {f : ε → ε'} {T : ε' → Prop} (hf : ∀ e, ¬ T (f e)) :
    GoesOr (p.mapErr f) T :=
  .mapErr (Protocol.Steps.or h) fun e _ _ he => absurd he (hf e)

end Goes

namespace GoesOr

variable {T : ε → Prop}

theorem ret (a : α) : GoesOr (.ret a : DbProg ε α) T := Protocol.StepsOr.ret rfl

theorem err (e : ε) : GoesOr (.err e : DbProg ε α) T := Protocol.StepsOr.err fun _ => rfl

theorem panic (m : String) : GoesOr (.panic m : DbProg ε α) T := Protocol.StepsOr.panic m

theorem bind {p : DbProg ε α} {f : α → DbProg ε β} (h : GoesOr p T) (hf : ∀ a, GoesOr (f a) T) :
    GoesOr (p >>= f) T := by
  refine Protocol.StepsOr.bind h fun a c hc => ?_
  subst hc
  exact hf a

theorem fetch {q : Query} (hq : Shared.isCommit q = false) {wrap : SqlxError → ε}
    (hw : ∀ e, ¬ T (wrap e)) : GoesOr (Storage.fetch q wrap) T := by
  refine wp_fetch ⟨rfl, fun a => ?_⟩
  cases a with
  | ok row => exact ⟨by simp [halting, course, isFailure, hq], by simp⟩
  | error e =>
    refine ⟨by simp, fun e' he hT => ?_⟩
    rw [← Outcome.err.inj he] at hT
    exact absurd hT (hw e)

/-- Matching on the errors: those of the kind `T` tell that nothing has failed. -/
theorem attempt {E : ε' → Course → Prop} {K : β → Course → Prop} {p : DbProg ε α}
    {f : Except ε α → DbProg ε' β} (h : GoesOr p T) (hok : ∀ a, halting.StepsOr (f (.ok a)) K E .going)
    (he : ∀ e, T e → halting.StepsOr (f (.error e)) K E .going)
    (hf : ∀ e c, ¬ T e → halting.StepsOr (f (.error e)) K E c) :
    halting.StepsOr ((p.attempt : DbProg ε' _) >>= f) K E .going := by
  refine (Logic.wp_bind ..).mpr ((Logic.wp_attempt ..).mpr (Logic.wp_mono ?_ h))
  rintro (a | e | m | _) c ⟨hc, hT⟩
  · obtain rfl := hc a rfl
    exact hok a
  · by_cases h : T e
    · obtain rfl := hT e rfl h
      exact he e h
    · exact hf e c h
  · exact Protocol.StepsOr.panic (R := halting) m
  · exact ⟨by simp, by simp⟩

end GoesOr

/-! The storage code. -/

theorem open_goes (oid : Oid) : Goes (BlobHandle.open oid .readWrite) :=
  .bind (.bind (.fetch rfl _) fun _ => .bind (.fetch rfl _) fun _ => .bind (.okOr _ _) fun _ =>
    .ret _) fun _ => .ret _

theorem new_goes (oid : Oid) (id : FileId) : Goes (PostgresFileHandle.new oid id) :=
  .bind (open_goes oid) fun _ => .ret _

theorem seek_goes (h : BlobHandle) (position : SeekFrom) : Goes (h.seek position) := by
  refine .bind (.mapErr (.bind (.okOr _ _) fun _ => .bind (.fetch rfl _) fun _ => .okOr _ _) _)
    fun offset => ?_
  split
  · exact .ret _
  · exact .panic _

/-- No failed read looks like the end of the file. -/
theorem read_goesOr (h : BlobHandle) (room : ℕ) : GoesOr (h.read room) (· = .unexpectedEof) := by
  unfold BlobHandle.read
  dsimp only
  split
  · refine .bind (Goes.or (.bind (.okOr _ _) fun _ => .bind (.fetch rfl _) fun _ => .okOr _ _)
      fun _ => by simp) fun data => ?_
    split
    · exact .ret _
    · exact .panic _
  · exact .panic _

theorem write_goes (h : BlobHandle) (data : Bytes) : Goes (h.write data) := by
  refine .bind (.mapErr (.bind (.okOr _ _) fun _ => .bind (.fetch rfl _) fun _ => .okOr _ _) _)
    fun written => ?_
  split
  · exact .ret _
  · exact .panic _

theorem writeAll_goes (h : BlobHandle) (data : Bytes) : Goes (h.writeAll data) := by
  suffices ∀ turns buf, Goes (h.writeAllLoop turns buf) from this _ data
  intro turns
  induction turns with
  | zero =>
    intro buf
    unfold BlobHandle.writeAllLoop
    split
    · exact .ret _
    · exact .err _
  | succ turns ih =>
    intro buf
    unfold BlobHandle.writeAllLoop
    split
    · exact .ret _
    · refine .bind (write_goes h buf) fun n => ?_
      split
      · exact .panic _
      · split
        · exact .err _
        · exact ih _

theorem append_goes (h : PostgresFileHandle) (data : Bytes) : Goes (h.append data) :=
  .bind (.mapErr (seek_goes _ _) _) fun _ => .mapErr (writeAll_goes _ _) _

theorem metadata_goes (h : PostgresFileHandle) : Goes h.metadata := by
  unfold PostgresFileHandle.metadata
  split
  · exact .panic _
  · exact .fetch rfl _

theorem readExact_goesOr (h : BlobHandle) (len : ℕ) : GoesOr (h.readExact len) (· = .unexpectedEof) := by
  suffices ∀ turns buf, GoesOr (h.readExactLoop len turns buf) (· = .unexpectedEof) from this len []
  intro turns
  induction turns with
  | zero =>
    intro buf
    unfold BlobHandle.readExactLoop
    split
    · exact .ret _
    · exact .err _
  | succ turns ih =>
    intro buf
    unfold BlobHandle.readExactLoop
    split
    · exact .ret _
    · refine .bind (read_goesOr h _) fun data => ?_
      split
      · exact .err _
      · exact ih _

theorem readU8_goesOr (h : BlobHandle) : GoesOr h.readU8 (· = .unexpectedEof) := by
  refine .bind (read_goesOr h 1) fun data => ?_
  cases data with
  | nil => exact .err _
  | cons => exact .ret _

/-- The error tells of the name, not of a statement. -/
def FileOpenError.Plain (e : FileOpenError) : Prop := ∀ x, e ≠ .otherError x

def FileCreateError.Plain (e : FileCreateError) : Prop := ∀ x, e ≠ .otherError x

/-- A failed lookup is not taken for a name that is not there. -/
theorem bucket_goesOr (name : String) : GoesOr (PostgresBackend.bucket name) FileOpenError.Plain := by
  refine .bind (Goes.or (.bind (.fetch rfl _) fun row => ?_) fun _ h => h _ rfl) fun b => ?_
  · obtain _ | ⟨id, _ | ttl⟩ := row
    · exact .ret _
    · exact .ret _
    · dsimp only
      split
      · exact .ret _
      · exact .panic _
  · cases b with
    | none => exact .err _
    | some b => exact .ret b

theorem file_goesOr (b : PostgresBucket) (fileName : String) :
    GoesOr (b.file fileName) FileOpenError.Plain := by
  refine .bind (GoesOr.fetch rfl fun _ h => h _ rfl) fun row => ?_
  cases row with
  | none => exact .err _
  | some row => exact Goes.or (new_goes _ _) fun _ h => h _ rfl

/-- A failed insert is not taken for a file that exists. -/
theorem createFile_goesOr (b : PostgresBucket) (fileName : String) (now : DateTime) :
    GoesOr (b.createFile fileName now) FileCreateError.Plain := by
  obtain ⟨deleteAfter, hd⟩ | hd := b.deleteAfter_cases now
  · simp only [PostgresBucket.createFile, hd, Prog.bind_eq, Prog.bind]
    refine (Logic.wp_bind ..).mpr ⟨rfl, fun a => ?_⟩
    obtain e | ⟨id, blob⟩ := a
    · cases e with
      | uniqueViolation => exact GoesOr.err _
      | database =>
        refine ⟨by simp, fun e he hT => ?_⟩
        exact absurd (Outcome.err.inj he).symm (hT _)
      | rowNotFound | writeConflict => exact GoesOr.err _
    · exact Goes.or (new_goes blob id) fun _ h => h _ rfl
  · simp only [PostgresBucket.createFile, hd, Prog.bind_eq, Prog.bind]
    exact .panic _

/-! The handlers. -/

theorem matchFrames_goes (file : BlobHandle) (stream : DataStream) :
    GoesOr (matchFrames file stream) fun _ => False := by
  induction stream with
  | nil =>
    refine (readU8_goesOr file).attempt (fun _ => .ret rfl) (fun e he => he ▸ .ret rfl)
      fun e c he => ?_
    cases e with
    | unexpectedEof => exact absurd rfl he
    | writeZero | other => exact .err fun h => h.elim
  | cons frame rest ih =>
    cases frame with
    | error => exact .err _
    | ok data =>
      refine (readExact_goesOr file _).attempt (fun buf => ?_) (fun e he => he ▸ .ret rfl)
        fun e c he => ?_
      · dsimp only
        split
        · exact .ret rfl
        · exact ih
      · cases e with
        | unexpectedEof => exact absurd rfl he
        | writeZero | other => exact .err fun h => h.elim

theorem checkRangeMatches_goes (stream : DataStream) (start : ℕ) (file : BlobHandle) :
    GoesOr (checkRangeMatches stream start file) fun _ => False :=
  .bind (Goes.or (seek_goes _ _) fun _ => id) fun _ => matchFrames_goes file stream

theorem appendFrames_goes (file : PostgresFileHandle) (stream : DataStream) :
    Goes (appendFrames file stream) := by
  induction stream with
  | nil => exact .ret _
  | cons frame rest ih =>
    cases frame with
    | error => exact .err _
    | ok data => exact .bind (append_goes file data) fun _ => ih

/-- A request: a value comes only where `K` holds, and of a failed statement only an internal error. -/
def HaltsWith (p : DbProg ApiError α) (K : α → Course → Prop) : Prop :=
  halting.StepsOr p K (fun e c => c = .failed → e.statusCode = .internalServerError) .going

namespace HaltsWith

variable {K : β → Course → Prop}

theorem bind {p : DbProg ApiError α} {f : α → DbProg ApiError β}
    (h : HaltsWith p fun _ c => c = .going) (hf : ∀ a, HaltsWith (f a) K) : HaltsWith (p >>= f) K := by
  refine Protocol.StepsOr.bind h fun a c hc => ?_
  subst hc
  exact hf a

theorem goes {p : DbProg ε α} (h : Goes p) (wrap : ε → BoxError) :
    HaltsWith (p.mapErr fun e => .internalError (wrap e)) fun _ c => c = .going :=
  .mapErr (Protocol.Steps.or h) fun _ _ _ _ => rfl

theorem goesOr {p : DbProg ε α} {T : ε → Prop} {wrap : ε → ApiError} (h : GoesOr p T)
    (hw : ∀ e, ¬ T e → (wrap e).statusCode = .internalServerError) :
    HaltsWith (p.mapErr wrap) fun _ c => c = .going := by
  refine .mapErr h fun e c hc hfailed => hw e fun he => ?_
  cases (hc he).symm.trans hfailed

theorem err (e : ApiError) : HaltsWith (.err e : DbProg ApiError β) K :=
  Protocol.StepsOr.err fun h => by cases h

end HaltsWith

/-- Where the request is answered with a value no statement has failed. -/
def Halts (p : DbProg ApiError α) : Prop := HaltsWith p fun _ c => c ≠ .failed

theorem Halts.ret (a : α) : Halts (.ret a) := by
  unfold Halts HaltsWith
  exact .ret (by simp)

theorem otherError_of_not_plain {e : FileOpenError} (he : ¬ FileOpenError.Plain e) :
    ∃ x, e = .otherError x := by
  simpa [FileOpenError.Plain] using he

theorem bucket_halts (name : String) :
    HaltsWith ((PostgresBackend.bucket name).mapErr (ApiError.fromBucketOpenError name))
      fun _ c => c = .going := by
  refine .goesOr (bucket_goesOr name) fun e he => ?_
  obtain ⟨x, rfl⟩ := otherError_of_not_plain he
  rfl

theorem file_halts (b : PostgresBucket) (filename : String) :
    HaltsWith ((b.file filename).mapErr (ApiError.fromBucketFileOpenError filename))
      fun _ c => c = .going := by
  refine .goesOr (file_goesOr b filename) fun e he => ?_
  obtain ⟨x, rfl⟩ := otherError_of_not_plain he
  rfl

theorem commit_halts (file : PostgresFileHandle) : Halts (file.commit.mapErr ApiError.internalError) := by
  suffices halting.Steps file.commit (fun _ c => c ≠ .failed) .going from
    .mapErr (Protocol.Steps.or this) fun _ _ _ _ => rfl
  have goes (x : Option BlobHandleInner) : halting.Steps
      (do let inner ← okOr x FileHandleError.isShutdown; inner.close) (fun _ c => c ≠ .failed)
      .going := by
    refine .bind (Goes.okOr x _) fun inner c hc => ?_
    subst hc
    refine .bind (Goes.fetch rfl _) fun result c hc => ?_
    subst hc
    refine .bind (Goes.okOr result _) fun _ c hc => ?_
    subst hc
    exact fetch_steps halting .going .commitTx rfl
      (fun _ => by simp [halting, course, isFailure, Shared.isCommit]) _
  exact .mapErr (.mapErr (goes file.blob.inner) _) _

theorem upload_halts (file : PostgresFileHandle) (stream : DataStream) : Halts (do
    (appendFrames file stream).mapErr ApiError.internalError
    file.commit.mapErr ApiError.internalError) :=
  .bind (.goes (appendFrames_goes file stream) id) fun _ => commit_halts file

theorem compare_halts (stream : DataStream) (start : ℕ) (file : BlobHandle)
    {f : RangeMatch → DbProg ApiError Unit} (hf : ∀ v, Halts (f v)) :
    Halts ((checkRangeMatches stream start file).mapErr ApiError.internalError >>= f) :=
  .bind (.goesOr (checkRangeMatches_goes stream start file) fun _ _ => rfl) hf

theorem put_halts (bucketName filename : String) (body : DataStream) (now : DateTime) :
    Halts (putWriteFilename bucketName filename body now) := by
  refine .bind (bucket_halts bucketName) fun bucket => ?_
  refine (createFile_goesOr bucket filename now).attempt (fun file => upload_halts file body)
    (fun e he => ?_) fun e c he => ?_
  · cases e with
    | fileExists =>
      refine HaltsWith.bind (.goesOr (file_goesOr bucket filename) fun _ _ => rfl) fun file => ?_
      refine compare_halts body 0 file.blob fun v => ?_
      cases v with
      | isMatch => exact .ret _
      | lengthMismatch | dataMismatch => exact .err _
    | invalidName | otherError => exact HaltsWith.err _
  · cases e with
    | fileExists | invalidName => exact absurd (fun x => by simp) he
    | otherError => exact .err fun _ => rfl

theorem post_halts (bucketName filename : String) (writeOffset : ℕ) (body : DataStream) :
    Halts (postAppendFilename bucketName filename writeOffset body) := by
  refine .bind (bucket_halts bucketName) fun bucket => ?_
  refine .bind (file_halts bucket filename) fun file => ?_
  refine .bind (.goes (seek_goes _ _) BoxError.io) fun size => ?_
  split
  · refine compare_halts body writeOffset file.blob fun v => ?_
    cases v with
    | isMatch => exact .ret _
    | lengthMismatch | dataMismatch => exact .err _
  · exact upload_halts file body

end LocallyEuclidean.Server
