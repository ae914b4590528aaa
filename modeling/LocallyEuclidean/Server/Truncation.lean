import LocallyEuclidean.Server.Outage

/-! Downloads under faults: they change nothing, and what a client has got of a body that is
cut is the beginning of it. -/

namespace LocallyEuclidean.Server
open Interact Postgres Storage

variable {sched : Schedule} {bucketName filename : String} {rooms : List ℕ+}

/-- A download up to its body. -/
def exploreHead (bucketName filename : String) : DbProg ApiError (BlobHandle × ℕ × Timestamp) := do
  let bucket ← (PostgresBackend.bucket bucketName).mapErr (.fromBucketOpenError bucketName)
  let file ← (bucket.file filename).mapErr (.fromBucketFileOpenError filename)
  let length ← (file.blob.seek (.fromEnd 0)).mapErr fun e => .internalError (.io e)
  let _ ← (file.blob.seek (.start 0)).mapErr fun e => .internalError (.io e)
  let lastModified ← file.metadata.mapErr .internalError
  return (file.blob, length, lastModified)

def Response.of (x : BlobHandle × ℕ × Timestamp) (y : List Bytes × StreamEnd) : Response :=
  ⟨x.2.1, "application/octet-stream", x.2.2, y.1, y.2⟩

theorem getExplore_eq (bucketName filename : String) (rooms : List ℕ+) :
    getExplore bucketName filename rooms = (exploreHead bucketName filename).bind fun x =>
      (readerStream x.1 rooms).bind fun y => .ret (.of x y) := by
  simp only [getExplore, exploreHead, Prog.bind_eq, Prog.bind_assoc, Prog.pure_eq, Prog.bind]
  rfl

theorem exploreHead_halts (bucketName filename : String) :
    HaltsWith (exploreHead bucketName filename) fun _ c => c = .going := by
  refine .bind (bucket_halts bucketName) fun bucket => ?_
  refine .bind (file_halts bucket filename) fun file => ?_
  refine .bind (.goes (seek_goes _ _) BoxError.io) fun length => ?_
  refine .bind (.goes (seek_goes _ _) BoxError.io) fun _ => ?_
  exact .bind (.goes (metadata_goes file) id) fun lastModified => .ret rfl

section Body

variable {S : Type} {serve : (q : Query) → S → Option q.Reply × S} {file : BlobHandle}

/-- One turn of the stream, by how its read ends. -/
theorem run_readerStream (room : ℕ+) (rooms : List ℕ+) (s : S) :
    run serve (readerStream file (room :: rooms)) s =
      match (run serve (file.read room) s).1 with
      | .ok data =>
        if data = [] then (.ok ([], .eof), (run serve (file.read room) s).2)
        else (run serve (readerStream file rooms) (run serve (file.read room) s).2).1.andThen
          (fun y s' => (.ok (data :: y.1, y.2), s'))
          (run serve (readerStream file rooms) (run serve (file.read room) s).2).2
      | .err e => (.ok ([], .error e), (run serve (file.read room) s).2)
      | .panic m => (.panic m, (run serve (file.read room) s).2)
      | .dropped => (.dropped, (run serve (file.read room) s).2) := by
  rw [readerStream, Prog.bind_eq, run_bind, run_attempt]
  cases (run serve (file.read room) s).1 with
  | ok data =>
    simp only [Outcome.attempt, Outcome.andThen]
    split
    · rfl
    · rw [Prog.bind_eq, run_bind]
      rfl
  | err | panic | dropped => rfl

/-- The stream never fails itself: its errors end the body. -/
theorem readerStream_no_err (rooms : List ℕ+) (s : S) (e : ApiError) :
    (run serve (readerStream file rooms) s).1 ≠ .err e := by
  induction rooms generalizing s with
  | nil => simp [readerStream, run]
  | cons room rooms ih =>
    rw [run_readerStream]
    cases (run serve (file.read room) s).1 with
    | ok data =>
      dsimp only
      split
      · simp
      · have hrest := ih (run serve (file.read room) s).2
        cases hr : (run serve (readerStream file rooms) (run serve (file.read room) s).2).1 with
        | err e' =>
          intro h
          obtain rfl := Outcome.err.inj h
          exact hrest hr
        | ok | panic | dropped => simp [Outcome.andThen]
    | err | panic | dropped => simp

end Body

/-- The outcome `o'` of a faulty stream, where it would be `o` without faults. -/
def Truncates (o' o : Outcome ApiError (List Bytes × StreamEnd)) : Prop :=
  o' = o ∨ status o' = none ∨ ∃ chunks e, o' = .ok (chunks, .error e) ∧
    (status o = none ∨ ∃ full bodyEnd, o = .ok (full, bodyEnd) ∧ chunks <+: full)

/-- Without a status line there is nothing behind it. -/
theorem status_andThen {α β S : Type} {o : Outcome ApiError α} (h : status o = none)
    (f : α → S → Outcome ApiError β × S) (s : S) : status (o.andThen f s).1 = none := by
  cases o with
  | ok | err => cases h
  | panic | dropped => rfl

theorem Truncates.cons {S S' : Type} {o' o : Outcome ApiError (List Bytes × StreamEnd)}
    (h : Truncates o' o) (data : Bytes) (s' : S') (s : S) :
    Truncates (o'.andThen (fun y w => (.ok (data :: y.1, y.2), w)) s').1
      (o.andThen (fun y w => (.ok (data :: y.1, y.2), w)) s).1 := by
  obtain rfl | hnone | ⟨chunks, e, rfl, hfull⟩ := h
  · refine .inl ?_
    cases o' <;> rfl
  · exact .inr (.inl (status_andThen hnone _ _))
  · refine .inr (.inr ⟨data :: chunks, e, rfl, ?_⟩)
    obtain hnone | ⟨full, bodyEnd, rfl, hp⟩ := hfull
    · exact .inl (status_andThen hnone _ _)
    · exact .inr ⟨data :: full, bodyEnd, rfl, List.cons_prefix_cons.mpr ⟨rfl, hp⟩⟩

theorem readerStream_truncates (quiet : Quiet sched) (file : BlobHandle) (rooms : List ℕ+)
    (w : Scheduled) : Truncates (run (scheduled sched) (readerStream file rooms) w).1
      (run serveAlone (readerStream file rooms) w.session).1 := by
  induction rooms generalizing w with
  | nil => exact .inl rfl
  | cons room rooms ih =>
    have hread : halting.logic.wp (file.read room) (fun o c => c = .failed → ∀ a, o ≠ .ok a)
        .going := by
      refine Logic.wp_mono (fun o c hc hfailed a ha => ?_) (read_goesOr file room)
      cases (hc.1 a ha).symm.trans hfailed
    obtain ⟨ho, hv⟩ | ⟨hbad, -⟩ := run_faulty (quiet_falters quiet) (by simp) hread
      (show w.session = w.session from rfl)
    · have hrest := ih (run (scheduled sched) (file.read room) w).2
      rw [hv] at hrest
      rw [run_readerStream, run_readerStream, ho]
      cases (run serveAlone (file.read room) w.session).1 with
      | ok data =>
        dsimp only
        split
        · exact .inl rfl
        · exact hrest.cons data _ _
      | err | panic | dropped => exact .inl rfl
    · have hfree : ∀ e, (run serveAlone (readerStream file (room :: rooms)) w.session).1 ≠ .err e :=
        readerStream_no_err _ _
      rw [run_readerStream]
      cases hr : (run (scheduled sched) (file.read room) w).1 with
      | ok a => exact absurd hr (hbad a)
      | err e =>
        refine .inr (.inr ⟨[], e, rfl, ?_⟩)
        cases ho : (run serveAlone (readerStream file (room :: rooms)) w.session).1 with
        | ok y => exact .inr ⟨y.1, y.2, rfl, List.nil_prefix⟩
        | err e' => exact absurd ho (hfree e')
        | panic | dropped => exact .inl rfl
      | panic | dropped => exact .inr (.inl rfl)

/-- The outcome `o'` of a faulty download, where it would be `o` without faults. -/
def CutsShort (o' o : Outcome ApiError Response) : Prop :=
  ∃ chunks e, (status o = none ∨ ∃ full, o = .ok full ∧ chunks <+: full.body ∧
    o' = .ok { full with body := chunks, bodyEnd := .error e })

theorem Truncates.answer {S S' : Type} {o' o : Outcome ApiError (List Bytes × StreamEnd)}
    (h : Truncates o' o) (x : BlobHandle × ℕ × Timestamp) (s' : S') (s : S) :
    let r' := (o'.andThen (fun y w => ((.ok (.of x y) : Outcome ApiError Response), w)) s').1
    let r := (o.andThen (fun y w => ((.ok (.of x y) : Outcome ApiError Response), w)) s).1
    r' = r ∨ Unsure r' ∨ CutsShort r' r := by
  intro r' r
  obtain rfl | hnone | ⟨chunks, e, rfl, hfull⟩ := h
  · refine .inl ?_
    cases o' <;> rfl
  · exact .inr (.inl (.inl (status_andThen hnone _ _)))
  · refine .inr (.inr ⟨chunks, e, ?_⟩)
    obtain hnone | ⟨full, bodyEnd, rfl, hp⟩ := hfull
    · exact .inl (status_andThen hnone _ _)
    · exact .inr ⟨.of x (full, bodyEnd), rfl, hp, rfl⟩

theorem getExplore_cases (quiet : Quiet sched) (bucketName filename : String) (rooms : List ℕ+)
    (db : Db) : let o' := (runScheduled sched (getExplore bucketName filename rooms) db).1
    let o := (runAlone (getExplore bucketName filename rooms) db).1
    o' = o ∨ Unsure o' ∨ CutsShort o' o := by
  intro o' o
  have ho' : o' = (run (scheduled sched) (getExplore bucketName filename rooms) ⟨⟨db, .idle⟩, 0⟩).1 := rfl
  have ho : o = (run serveAlone (getExplore bucketName filename rooms) ⟨db, .idle⟩).1 := rfl
  rw [ho', ho, getExplore_eq, run_bind, run_bind]
  have hhead : halting.logic.wp (exploreHead bucketName filename)
      (fun o c => c = .failed → Unsure o) .going := by
    refine Halts.unsure (Logic.wp_mono (fun o c hc => ⟨fun a ha => ?_, hc.2⟩)
      (exploreHead_halts bucketName filename))
    simp [hc.1 a ha]
  obtain ⟨hsame, hv⟩ | ⟨hbad, -⟩ := run_faulty (quiet_falters quiet) (.inl rfl) hhead
    (show (⟨⟨db, .idle⟩, 0⟩ : Scheduled).session = ⟨db, .idle⟩ from rfl)
  · rw [hsame]
    cases (run serveAlone (exploreHead bucketName filename) ⟨db, .idle⟩).1 with
    | ok x =>
      simp only [Outcome.andThen, run_bind]
      have hbody := readerStream_truncates quiet x.1 rooms
        (run (scheduled sched) (exploreHead bucketName filename) ⟨⟨db, .idle⟩, 0⟩).2
      rw [hv] at hbody
      exact hbody.answer x _ _
    | err | panic | dropped => exact .inl rfl
  · refine .inr (.inl ?_)
    revert hbad
    cases (run (scheduled sched) (exploreHead bucketName filename) ⟨⟨db, .idle⟩, 0⟩).1 with
    | ok x => simp [Unsure, status]
    | err | panic | dropped => exact id

theorem get_within {c : Learnt} {q : Query} (hq : (errand (.get bucketName filename rooms)).allows c q) :
    q.Within fun _ => True := by
  cases q with
  | insertBucket | deleteOldFilesBatch => exact hq
  | insertFile =>
    obtain ⟨-, -, -, b, f, body, now, h, -⟩ := hq
    cases h
  | loWrite | commitTx => cases hq
  | _ => trivial

/-- A download changes nothing, whatever fails. -/
theorem getExplore_db (quiet : Quiet sched) (bucketName filename : String) (rooms : List ℕ+)
    (db : Db) : (runScheduled sched (getExplore bucketName filename rooms) db).2 = db := by
  refine Protocol.Keeps.run (I := fun w : Scheduled => w.session.db = db) (fun q c w hq hI => ?_)
    (get_errand bucketName filename rooms .nothing) (s := ⟨⟨db, .idle⟩, 0⟩) rfl
  obtain ⟨a, s', hs, h⟩ := quiet_falters quiet q w w.session rfl
  obtain ⟨⟨a', s₁⟩, hserve⟩ := Session.serve_free q w.session
  have hdb : s'.db = w.session.db := by
    rw [serveAlone, hserve] at hs
    obtain ⟨-, rfl⟩ := Prod.mk.inj hs
    exact (Session.serve_within (get_within hq) hserve (Conn.within_all _)).1
  obtain ⟨t, ht, rfl⟩ | ⟨b, t, ht, -, hc⟩ | ⟨t, ht, hc | hc⟩ := h <;> rw [ht]
  · exact hdb.trans hI
  · exact hc.trans hI
  · exact hc.trans hI
  · exact hc.trans (hdb.trans hI)

end LocallyEuclidean.Server
