import LocallyEuclidean.Postgres.Session
import LocallyEuclidean.Server.Service
import LocallyEuclidean.Storage.Cursor

/-! What the blob layer relies on without checking it: casts that lose nothing, and
branches that only panic. -/

namespace LocallyEuclidean.Server
open Interact Postgres Storage

variable {ε α : Type}

/-- The panics of the blob handle, its operations run to completion, and of its transaction
wrapper. The panic of a poll function that finds another operation in flight is not met by such
operations: see `operations_run_to_completion`. -/
def blobPanics : List String :=
  ["called Result::unwrap() on an Err value", "buf.len() must fit in remaining()",
    "postgres seek gives negative value", "wrote negative amount?",
    "tried to access a closed blob handle"]

/-- What Postgres promises: no more bytes than were asked for, and positions and counts of
their types that are not negative. -/
def Promised : (q : Query) → q.Reply → Prop
  | .loRead _ count, .ok (some data) => (data.length : ℤ) ≤ count
  | .loLseek64 _ _ _, .ok (some position) => 0 ≤ position ∧ position < 2 ^ 63
  | .loWrite _ _, .ok (some written) => 0 ≤ written
  | _, _ => True

/-- Where a request starts to read. -/
def Request.startPosition : Request → ℕ
  | .post _ _ writeOffset _ => writeOffset
  | _ => 0

/-- The statement as it was meant: a seek to the request's own start, which is 0 or at most
a size that was probed before; or to the end; and a read of the count that was asked for. -/
def Exact (r : Request) (h : History Query.Reply) : Query → Prop
  | .loLseek64 _ n .seekSet => n = r.startPosition ∧ (r.startPosition = 0 ∨
    ∃ fd size, ⟨.loLseek64 fd 0 .seekEnd, .ok (some size)⟩ ∈ h ∧ (r.startPosition : ℤ) ≤ size)
  | .loLseek64 _ n _ => n = 0
  | .loRead _ count => ∃ remaining : ℕ, count = (min remaining (8 * mib) : ℕ)
  | _ => True

abbrev Careful (r : Request) : Logic Query.Reply (History Query.Reply) := guarded (Exact r) Promised

/-- No panic of the blob layer. -/
def Sound (o : Outcome ε α) : Prop := ∀ m ∈ blobPanics, o ≠ .panic m

/-- Exact in all its statements and sound, whatever went before. -/
def Safe (r : Request) (p : DbProg ε α) : Prop := ∀ h, (Careful r).wp p (fun o _ => Sound o) h

theorem sound_ok (a : α) : Sound (.ok a : Outcome ε α) := fun _ _ h => by cases h

theorem sound_err (e : ε) : Sound (.err e : Outcome ε α) := fun _ _ h => by cases h

theorem Sound.mapErr {ε' : Type} {o : Outcome ε α} (h : Sound o) (f : ε → ε') :
    Sound (o.mapErr f) := by
  cases o with
  | panic m => exact fun m' hm he => h m' hm (by cases he; rfl)
  | ok | err | dropped => exact fun _ _ he => by cases he

theorem Sound.attempt {ε' : Type} {o : Outcome ε α} (h : Sound o) :
    Sound (o.attempt : Outcome ε' _) := by
  cases o with
  | panic m => exact fun m' hm he => h m' hm (by cases he; rfl)
  | ok | err | dropped => exact fun _ _ he => by cases he

/-- What is left of a block after a sound first part. -/
theorem Sound.after {β : Type} {L : Logic Query.Reply (History Query.Reply)} {o : Outcome ε α}
    (h : Sound o) {f : α → DbProg ε β} {s : History Query.Reply}
    (next : ∀ a, o = .ok a → L.wp (f a) (fun o _ => Sound o) s) :
    L.after f (fun o _ => Sound o) o s := by
  cases o with
  | ok a => exact next a rfl
  | err e => exact sound_err e
  | panic m => exact fun m' hm he => h m' hm (by cases he; rfl)
  | dropped => exact fun _ _ he => by cases he

namespace Safe

variable {r : Request}

theorem ret (a : α) : Safe r (.ret a : DbProg ε α) := fun _ => sound_ok a

theorem err (e : ε) : Safe r (.err e : DbProg ε α) := fun _ => sound_err e

theorem bind {β : Type} {p : DbProg ε α} {f : α → DbProg ε β} (hp : Safe r p)
    (hf : ∀ a, Safe r (f a)) : Safe r (p.bind f) := fun h =>
  (Logic.wp_bind ..).mpr (Logic.wp_mono (fun _ h' ho => ho.after fun a _ => hf a h') (hp h))

theorem mapErr {ε' : Type} {p : DbProg ε α} (hp : Safe r p) (f : ε → ε') : Safe r (p.mapErr f) :=
  fun h => (Logic.wp_mapErr ..).mpr (Logic.wp_mono (fun _ _ ho => ho.mapErr f) (hp h))

theorem attempt {ε' : Type} {p : DbProg ε α} (hp : Safe r p) :
    Safe r (p.attempt : DbProg ε' _) :=
  fun h => (Logic.wp_attempt ..).mpr (Logic.wp_mono (fun _ _ ho => ho.attempt) (hp h))

theorem okOr (x : Option α) (e : ε) : Safe r (okOr x e : DbProg ε α) := by
  cases x with
  | none => exact err e
  | some a => exact ret a

/-- A statement that needs no promise. -/
theorem fetch {q : Query} (hq : ∀ h, Exact r h q) (wrap : SqlxError → ε) :
    Safe r (Storage.fetch q wrap) := by
  refine fun h => wp_fetch ⟨hq h, fun a _ => ?_⟩
  cases a with
  | ok row => exact sound_ok row
  | error e => exact sound_err _

end Safe

section Blob

variable {r : Request}

/-- A seek whose offset is exact; the size it finds can be cast back. -/
theorem wp_seek_careful {file : BlobHandle} {p : SeekFrom} {h : History Query.Reply}
    (hq : ∀ fd, Exact r h (match p with
      | .start n => .loLseek64 fd (asI64 n) .seekSet
      | .current n => .loLseek64 fd n .seekCur
      | .fromEnd n => .loLseek64 fd n .seekEnd)) :
    (Careful r).wp (file.seek p) (fun o h' => Sound o ∧ ∀ size, o = .ok size →
      size < 2 ^ 63 ∧ (p = .fromEnd 0 → ∃ fd,
        h' = ⟨.loLseek64 fd 0 .seekEnd, .ok (some (size : ℤ))⟩ :: h)) h := by
  obtain ⟨_ | ⟨⟨fd⟩⟩⟩ := file
  · exact ⟨sound_err _, fun size hs => by cases hs⟩
  · simp only [BlobHandle.seek, BlobHandle.live, okOr, BlobHandleInner.lseek64, Prog.bind_eq,
      Prog.bind, Logic.wp_bind, Logic.wp_mapErr]
    refine wp_fetch ⟨?_, fun a ha => ?_⟩
    · cases p <;> simpa only using hq fd
    · obtain e | _ | offset := a
      · exact ⟨sound_err _, fun size hs => by cases hs⟩
      · exact ⟨sound_err _, fun size hs => by cases hs⟩
      · obtain ⟨hpos, hlt⟩ := ha
        obtain ⟨size, rfl⟩ := Int.eq_ofNat_of_zero_le hpos
        simp only [fetched, Logic.after_ok, Logic.wp_ret, Outcome.mapErr, Int.natCast_nonneg,
          if_true, Prog.pure_eq, Int.toNat_natCast]
        refine ⟨sound_ok _, fun size' hs => ?_⟩
        obtain rfl := Outcome.ok.inj hs
        refine ⟨by exact_mod_cast hlt, ?_⟩
        rintro rfl
        exact ⟨fd, rfl⟩

theorem seekEnd_safe (file : BlobHandle) : Safe r (file.seek (.fromEnd 0)) := fun h =>
  Logic.wp_mono (fun _ _ ho => ho.1) (wp_seek_careful (h := h) fun _ => rfl)

/-- A read gives at most the bytes there is room for. -/
theorem read_safe (file : BlobHandle) (remaining : ℕ) : Safe r (file.read remaining) := by
  intro h
  have hc : min remaining (8 * mib) ≤ 8 * mib := min_le_right _ _
  have hlt : min remaining (8 * mib) < 2 ^ 32 := lt_of_le_of_lt hc (by decide)
  rw [BlobHandle.read, if_pos hlt]
  obtain ⟨_ | ⟨⟨fd⟩⟩⟩ := file
  · exact sound_err _
  · simp only [BlobHandle.live, okOr, BlobHandleInner.read, Prog.bind_eq, Prog.bind, Logic.wp_bind,
      Logic.wp_mapErr]
    rw [asI32_of_le hc]
    refine wp_fetch ⟨⟨remaining, rfl⟩, fun a ha => ?_⟩
    obtain e | _ | data := a
    · exact sound_err _
    · exact sound_err _
    · have hcount : (data.length : ℤ) ≤ (min remaining (8 * mib) : ℕ) := ha
      have hfit : data.length ≤ remaining := by omega
      simp only [fetched, Logic.after_ok, Logic.wp_ret, Outcome.mapErr, if_pos hfit, Prog.pure_eq]
      exact sound_ok _

theorem write_safe (file : BlobHandle) (data : Bytes) : Safe r (file.write data) := by
  intro h
  obtain ⟨_ | ⟨⟨fd⟩⟩⟩ := file
  · exact sound_err _
  · simp only [BlobHandle.write, BlobHandle.live, okOr, BlobHandleInner.write, Prog.bind_eq,
      Prog.bind, Logic.wp_bind, Logic.wp_mapErr]
    refine wp_fetch ⟨trivial, fun a ha => ?_⟩
    obtain e | _ | written := a
    · exact sound_err _
    · exact sound_err _
    · have hpos : 0 ≤ written := ha
      simp only [fetched, Logic.after_ok, Logic.wp_ret, Outcome.mapErr, if_pos hpos, Prog.pure_eq]
      exact sound_ok _

theorem shutdown_safe (file : BlobHandle) : Safe r file.shutdown :=
  .mapErr (.bind (.okOr _ _) fun _ => .bind (.fetch (by exact fun _ => trivial) _) fun _ =>
    .bind (.okOr _ _) fun _ => .fetch (by exact fun _ => trivial) _) _

/-! tokio's loops. -/

theorem readExact_safe (file : BlobHandle) (len : ℕ) : Safe r (file.readExact len) := by
  suffices ∀ turns buf, Safe r (file.readExactLoop len turns buf) from this len []
  intro turns
  induction turns with
  | zero =>
    intro buf
    unfold BlobHandle.readExactLoop
    split
    · exact .ret _
    · exact .err _
  | succ turns ih =>
    intro buf
    unfold BlobHandle.readExactLoop
    split
    · exact .ret _
    · refine .bind (read_safe file _) fun data => ?_
      split
      · exact .err _
      · exact ih _

theorem readU8_safe (file : BlobHandle) : Safe r file.readU8 := by
  refine .bind (read_safe file 1) fun data => ?_
  cases data with
  | nil => exact .err _
  | cons => exact .ret _

theorem writeAll_safe (file : BlobHandle) (data : Bytes) : Safe r (file.writeAll data) := by
  suffices ∀ turns buf, Safe r (file.writeAllLoop turns buf) from this _ data
  intro turns
  induction turns with
  | zero =>
    intro buf
    unfold BlobHandle.writeAllLoop
    split
    · exact .ret _
    · exact .err _
  | succ turns ih =>
    intro buf
    unfold BlobHandle.writeAllLoop
    split
    · exact .ret _
    · refine .bind (write_safe file buf) fun n => ?_
      split
      · exact fun _ m hm he => by cases he; revert hm; decide
      · split
        · exact .err _
        · exact ih _

end Blob

/-! The handlers. -/

section Handlers

variable {r : Request}

theorem append_safe (file : PostgresFileHandle) (data : Bytes) : Safe r (file.append data) :=
  .bind (.mapErr (seekEnd_safe file.blob) _) fun _ => .mapErr (writeAll_safe file.blob data) _

theorem appendFrames_safe (file : PostgresFileHandle) (stream : DataStream) :
    Safe r (appendFrames file stream) := by
  induction stream with
  | nil => exact .ret ()
  | cons x rest ih =>
    cases x with
    | ok data => exact .bind (append_safe file data) fun _ => ih
    | error => exact .err _

theorem matchFrames_safe (file : BlobHandle) (stream : DataStream) :
    Safe r (matchFrames file stream) := by
  induction stream with
  | nil =>
    refine .bind (.attempt (readU8_safe file)) fun x => ?_
    match x with
    | .ok _ | .error .unexpectedEof => exact .ret _
    | .error .writeZero | .error (.other _) => exact .err _
  | cons x rest ih =>
    cases x with
    | ok data =>
      refine .bind (.attempt (readExact_safe file _)) fun x => ?_
      match x with
      | .error .unexpectedEof => exact .ret _
      | .error .writeZero | .error (.other _) => exact .err _
      | .ok buf =>
        dsimp only
        split
        · exact .ret _
        · exact ih
    | error => exact .err _

theorem readerStream_safe (file : BlobHandle) (rooms : List ℕ+) :
    Safe r (readerStream file rooms) := by
  induction rooms with
  | nil => exact .ret _
  | cons room rooms ih =>
    refine .bind (.attempt (read_safe file _)) fun x => ?_
    cases x with
    | error => exact .ret _
    | ok data =>
      dsimp only
      split
      · exact .ret _
      · exact .bind ih fun _ => .ret _

/-- The check starts at 0, or where the size has just been probed to be large enough. -/
theorem wp_checkRangeMatches_careful {stream : DataStream} {start : ℕ} (hs : start = r.startPosition)
    (hlt : start < 2 ^ 63) (file : BlobHandle) {h : History Query.Reply}
    (hprobe : start = 0 ∨ ∃ fd size, ⟨.loLseek64 fd 0 .seekEnd, .ok (some size)⟩ ∈ h ∧
      (start : ℤ) ≤ size) :
    (Careful r).wp (checkRangeMatches stream start file) (fun o _ => Sound o) h := by
  have hcast : asI64 start = start := Int.bmod_eq_of_le (by omega) (by omega)
  rw [checkRangeMatches, Prog.bind_eq, Logic.wp_bind, Logic.wp_mapErr]
  refine Logic.wp_mono ?_ (wp_seek_careful (r := r) (p := .start start) fun fd => ?_)
  · rintro o h' ⟨ho, -⟩
    exact (ho.mapErr _).after fun _ _ => matchFrames_safe file stream h'
  · subst hs
    exact ⟨hcast, hprobe⟩

theorem bucket_safe (name : String) : Safe r (PostgresBackend.bucket name) := by
  refine .bind (.mapErr (.bind (.fetch (by exact fun _ => trivial) _) fun row => ?_) _) fun b => ?_
  · match row with
    | none | some (_, none) => exact .ret _
    | some (_, some ttl) =>
      simp only [Interval.toTimeDelta_eq]
      exact .ret _
  · cases b with
    | none => exact .err _
    | some b => exact .ret _

/-- A new handle is open. -/
theorem wp_new_careful (oid : Oid) (id : FileId) (h : History Query.Reply) :
    (Careful r).wp (PostgresFileHandle.new oid id) (fun o _ => Sound o ∧
      ∀ file, o = .ok file → file.blob.inner ≠ none) h := by
  simp only [PostgresFileHandle.new, BlobHandle.open, BlobHandleInner.open, Prog.bind_eq,
    Logic.wp_bind]
  refine wp_fetch ⟨trivial, fun a _ => ?_⟩
  cases a with
  | error e => exact ⟨sound_err _, fun _ h => by cases h⟩
  | ok =>
    refine (Logic.wp_bind ..).mpr (wp_fetch ⟨trivial, fun a _ => ?_⟩)
    obtain e | _ | fd := a
    · exact ⟨sound_err _, fun _ h => by cases h⟩
    · exact ⟨sound_err _, fun _ h => by cases h⟩
    · exact ⟨sound_ok _, fun _ h => by cases h; simp⟩

theorem wp_file_careful (b : PostgresBucket) (fileName : String) (h : History Query.Reply) :
    (Careful r).wp (b.file fileName) (fun o _ => Sound o ∧
      ∀ file, o = .ok file → file.blob.inner ≠ none) h := by
  simp only [PostgresBucket.file, Prog.bind_eq, Logic.wp_bind]
  refine wp_fetch ⟨trivial, fun a _ => ?_⟩
  match a with
  | .error e | .ok none => exact ⟨sound_err _, fun _ h => by cases h⟩
  | .ok (some (id, oid)) =>
    refine (Logic.wp_mapErr ..).mpr (Logic.wp_mono ?_ (wp_new_careful oid id _))
    rintro o h' ⟨ho, hopen⟩
    refine ⟨ho.mapErr _, fun file hf => ?_⟩
    cases o with
    | ok file' => exact hopen file (by cases hf; rfl)
    | err | panic | dropped => cases hf

theorem createFile_safe (b : PostgresBucket) (fileName : String) (now : DateTime) :
    Safe r (b.createFile fileName now) := by
  intro h
  obtain ⟨deleteAfter, hd⟩ | hm := b.deleteAfter_cases now
  · rw [PostgresBucket.createFile, hd]
    refine ⟨trivial, fun a _ => ?_⟩
    obtain e | ⟨id, blob⟩ := a
    · cases e <;> exact sound_err _
    · exact (Logic.wp_mapErr ..).mpr (Logic.wp_mono (fun _ _ ho => ho.1.mapErr _)
        (wp_new_careful blob id _))
  · rw [PostgresBucket.createFile, hm]
    exact fun m hm he => by cases he; revert hm; decide

theorem put_safe (hr : r.startPosition = 0) (bucketName filename : String) (request : DataStream)
    (now : DateTime) : Safe r (putWriteFilename bucketName filename request now) := by
  refine .bind (.mapErr (bucket_safe bucketName) _) fun bucket => ?_
  refine .bind (.attempt (createFile_safe bucket filename now)) fun created => ?_
  match created with
  | .ok file =>
    exact .bind (.mapErr (appendFrames_safe file request) _) fun _ =>
      .mapErr (.mapErr (shutdown_safe file.blob) _) _
  | .error .fileExists =>
    refine fun h => Logic.wp_then (Logic.wp_mono ?_ (wp_file_careful bucket filename h))
    rintro o h' ⟨ho, -⟩
    refine (ho.mapErr _).after fun file _ => Logic.wp_then (Logic.wp_mono ?_
      (wp_checkRangeMatches_careful hr.symm (by decide) file.blob (.inl rfl)))
    rintro o h' ho
    refine (ho.mapErr _).after fun v _ => ?_
    cases v with
    | isMatch => exact sound_ok _
    | lengthMismatch | dataMismatch => exact sound_err _
  | .error .invalidName | .error (.otherError _) => exact .err _

theorem post_safe {writeOffset : ℕ} (hr : writeOffset = r.startPosition)
    (bucketName filename : String) (request : DataStream) :
    Safe r (postAppendFilename bucketName filename writeOffset request) := by
  refine .bind (.mapErr (bucket_safe bucketName) _) fun bucket h => ?_
  refine Logic.wp_then (Logic.wp_mono ?_ (wp_file_careful bucket filename h))
  rintro o h' ⟨ho, -⟩
  refine (ho.mapErr _).after fun file _ => Logic.wp_then (Logic.wp_mono ?_
    (wp_seek_careful (r := r) (p := .fromEnd 0) fun _ => rfl))
  rintro o h₁ ⟨ho, hsize⟩
  refine (ho.mapErr _).after fun size hs => ?_
  obtain ⟨hlt, hprobe⟩ := hsize size (by cases o <;> cases hs; rfl)
  obtain ⟨fd, rfl⟩ := hprobe rfl
  split
  · rename_i hle
    refine Logic.wp_then (Logic.wp_mono ?_ (wp_checkRangeMatches_careful hr (by omega) file.blob
      (.inr ⟨fd, size, List.mem_cons_self, by exact_mod_cast hle⟩)))
    rintro o h₂ ho
    refine (ho.mapErr _).after fun v _ => ?_
    cases v with
    | isMatch => exact sound_ok _
    | lengthMismatch | dataMismatch => exact sound_err _
  · exact Safe.bind (.mapErr (appendFrames_safe file request) _) (fun _ =>
      .mapErr (.mapErr (shutdown_safe file.blob) _) _) _

theorem get_safe (hr : r.startPosition = 0) (bucketName filename : String) (rooms : List ℕ+) :
    Safe r (getExplore bucketName filename rooms) := by
  refine .bind (.mapErr (bucket_safe bucketName) _) fun bucket h => ?_
  refine Logic.wp_then (Logic.wp_mono ?_ (wp_file_careful bucket filename h))
  rintro o h' ⟨ho, hopen⟩
  refine (ho.mapErr _).after fun file hf => ?_
  have hopen : file.blob.inner ≠ none := hopen file (by cases o <;> cases hf; rfl)
  refine Safe.bind (.mapErr (seekEnd_safe file.blob) _) (fun length => ?_) h'
  refine .bind (.mapErr (fun h => Logic.wp_mono (fun _ _ ho => ho.1) (wp_seek_careful (r := r)
    (p := .start 0) (h := h) fun fd => ⟨by rw [hr]; rfl, .inl hr⟩)) _) fun _ => ?_
  refine .bind (.mapErr ?_ _) fun lastModified => .bind (readerStream_safe file.blob rooms)
    fun _ => .ret _
  obtain ⟨⟨_ | inner⟩, id⟩ := file
  · exact absurd rfl hopen
  · exact .fetch (by exact fun _ => trivial) _

theorem handler_safe (r : Request) : Safe r r.handler := by
  cases r with
  | put b f body now => exact .bind (put_safe rfl b f body now) fun _ => .ret _
  | post b f writeOffset body => exact .bind (post_safe rfl b f body) fun _ => .ret _
  | get b f rooms => exact .bind (get_safe rfl b f rooms) fun _ => .ret _

end Handlers

/-- Operations that are polled until they are ready do what they do in one go, the modelled
operations of the handlers, and none of them leaves anything in flight for the next to find. -/
theorem operations_run_to_completion {busy : Write → Bool} {ops : List (FileOp × List ℕ)}
    {w w' : PollState} {rs : List FileResult} (hw : w.1.state = none)
    (h : FileOp.performAll busy ops w = some (rs, w')) : w'.1.state = none ∧
      FileOp.onceAll busy (ops.map Prod.fst) w.1.inner w.2 = (rs, w'.1.inner, w'.2) := by
  induction ops generalizing w rs with
  | nil =>
    obtain ⟨rfl, rfl⟩ := Prod.mk.inj (Option.some.inj h)
    exact ⟨hw, rfl⟩
  | cons o ops ih =>
    obtain ⟨op, ns⟩ := o
    simp only [FileOp.performAll, Option.bind_eq_bind, Option.bind_eq_some_iff] at h
    obtain ⟨⟨r, w₁⟩, h₁, ⟨rs, w₂⟩, h₂, he⟩ := h
    obtain ⟨rfl, rfl⟩ := Prod.mk.inj (Option.some.inj he)
    obtain ⟨honce, hidle, hinner⟩ := FileOp.perform_once hw h₁
    obtain ⟨hend, hall⟩ := ih hidle h₂
    rw [hinner] at hall
    exact ⟨hend, by simp only [List.map_cons, FileOp.onceAll, honce, hall]⟩

/-- Against any store that keeps its promises no request makes a lossy cast or meets a panic
of the blob layer: its statements carry the offsets and counts that were meant. -/
theorem requests_exact_and_sound {S : Type}
    {serve : (q : Query) → S → Option q.Reply × S}
    (promised : ∀ q s a s', serve q s = (some a, s') → Promised q a) (r : Request) (s : S) :
    Obeys (Exact r) serve r.handler s [] ∧
      ∀ m ∈ blobPanics, (run serve r.handler s).1 ≠ .panic m :=
  obeys_of_wp (P := Sound) promised (fun _ _ h => by cases h) (handler_safe r []) s

/-- Postgres as it is modelled keeps its promises. -/
theorem promised_alone {q : Query} {s s' : Session} {a : q.Reply}
    (h : serveAlone q s = (some a, s')) : Promised q a := by
  obtain ⟨⟨a', t⟩, hs⟩ := Session.serve_free q s
  rw [serveAlone, hs] at h
  obtain ⟨ha, rfl⟩ := Prod.mk.inj h
  obtain rfl := Option.some.inj ha
  match q, a', hs with
  | .loRead fd count, .ok (some data), hs =>
    obtain ⟨tx, tx', -, hr, -⟩ := Session.onTx_ok (Option.some.inj hs)
    obtain ⟨d, data', -, hcount, hdata, he, -⟩ := Tx.loread_ok hr
    have hle := length_window_le (tx.view s.db d) d.pos count.toNat
    rw [← hdata, ← Option.some.inj he] at hle
    change (data.length : ℤ) ≤ count
    omega
  | .loLseek64 fd offset whence, .ok (some position), hs =>
    obtain ⟨tx, tx', -, hr, -⟩ := Session.onTx_ok (Option.some.inj hs)
    obtain ⟨d, target, -, hin, he, -⟩ := Tx.lo_lseek64_ok hr
    obtain rfl := Option.some.inj he
    change 0 ≤ position ∧ position < 2 ^ 63
    unfold maxObjectSize at hin
    omega
  | .loWrite fd data, .ok (some written), hs =>
    obtain ⟨tx, d, -, -, hn, -⟩ := Session.lowrite_ok hs
    change 0 ≤ written
    rw [Option.some.inj hn]
    exact Int.natCast_nonneg _
  | .loRead _ _, .ok none, _ | .loRead _ _, .error _, _ | .loLseek64 _ _ _, .ok none, _
  | .loLseek64 _ _ _, .error _, _ | .loWrite _ _, .ok none, _ | .loWrite _ _, .error _, _
  | .bucketByName _, _, _ | .listBuckets _, _, _ | .insertBucket _ _, _, _ | .fileByName _ _, _, _
  | .insertFile _ _ _, _, _ | .deleteOldFilesBatch _, _, _ | .beginTx, _, _ | .loOpen _ _, _, _
  | .loClose _, _, _ | .updatedAt _, _, _ | .commitTx, _, _ => trivial

/-- An append at the largest offset that a client can send. -/
theorem requests_exact_and_sound_meow :
    let s : Session := ⟨(serveAll (.created 0 "bucket" none)
      [.put "bucket" "meow" (frames [[109, 101, 111, 119, 33]]) 0]).2, .idle⟩
    let r : Request := .post "bucket" "meow" (2 ^ 64 - 1) (frames [[109, 101]])
    Obeys (Exact r) serveAlone r.handler s [] ∧
      ∀ m ∈ blobPanics, (run serveAlone r.handler s).1 ≠ .panic m :=
  requests_exact_and_sound (fun _ _ _ _ => promised_alone) _ _

end LocallyEuclidean.Server
