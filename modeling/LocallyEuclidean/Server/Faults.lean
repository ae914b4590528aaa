import LocallyEuclidean.Server.Sequential
import LocallyEuclidean.Storage.Tables

/-! Requests whose statements fail, or whose futures are dropped, while nobody else
is there. -/

namespace LocallyEuclidean.Server
open Interact Postgres Storage

variable {ε α : Type} {sched : Schedule} {gone : Scheduled → Prop}

/-- The logic of a request under a schedule. -/
abbrev Under (sched : Schedule) (gone : Scheduled → Prop) : Logic Query.Reply Scheduled :=
  alone (scheduled sched) gone

theorem runScheduled_of_wp {G : Scheduled → Prop} {p : DbProg ε α} {db : Db}
    {P : Outcome ε α → Db → Prop} (hg : ∀ w, G w → P .dropped w.session.db)
    (h : (Under sched G).wp p (fun o w => P o w.session.db) ⟨⟨db, .idle⟩, 0⟩) :
    P (runScheduled sched p db).1 (runScheduled sched p db).2 :=
  wp_alone hg h

/-- Nothing is committed by others. -/
def Quiet (sched : Schedule) : Prop := ∀ k, (sched k).events = []

theorem meet_of_quiet (quiet : Quiet sched) (w : Scheduled) : meet sched w = w.session := by
  rw [meet, quiet w.index]
  rfl

/-- What can become of one statement. -/
theorem quiet_call (quiet : Quiet sched) {q : Query} {w : Scheduled}
    {Φ : q.Reply → Scheduled → Prop}
    (answered : ∀ a s', w.session.serve (fun _ => false) q = some (a, s') →
      ((sched w.index).fault = .none → Φ a ⟨s', w.index + 1⟩) ∧
        ((sched w.index).fault = .dropped true → gone ⟨s', w.index + 1⟩))
    (fails : (sched w.index).fault = .fails →
      Φ (failed q w.session).1 ⟨(failed q w.session).2, w.index + 1⟩)
    (before : (sched w.index).fault = .dropped false → gone ⟨w.session, w.index + 1⟩) :
    (Under sched gone).call q Φ w := by
  obtain ⟨⟨a, s'⟩, hs⟩ := Session.serve_free q w.session
  have hw := meet_of_quiet quiet w
  have hserve : serveAlone q w.session = (some a, s') := by rw [serveAlone, hs]
  cases hf : (sched w.index).fault with
  | none =>
    have h : scheduled sched q w = (some a, ⟨s', w.index + 1⟩) := by
      simp only [scheduled, hf, hw, hserve]
    exact alone_call h ((answered a s' hs).1 hf)
  | fails =>
    have h : scheduled sched q w =
        (some (failed q w.session).1, ⟨(failed q w.session).2, w.index + 1⟩) := by
      simp only [scheduled, hf, hw]
    exact alone_call h (fails hf)
  | dropped took =>
    cases took with
    | true =>
      have h : scheduled sched q w = (none, ⟨s', w.index + 1⟩) := by
        simp only [scheduled, hf, hw, hserve]
      exact alone_gone h ((answered a s' hs).2 hf)
    | false =>
      have h : scheduled sched q w = (none, ⟨w.session, w.index + 1⟩) := by
        simp only [scheduled, hf, hw]
      exact alone_gone h (before hf)

@[simp] theorem failed_db (q : Query) (s : Session) : (failed q s).2.db = s.db := by
  unfold failed
  split <;> rfl

/-- What the statements of a quiet run keep, whether they are answered or not. -/
theorem quiet_keeps (quiet : Quiet sched) {I : Session → Prop} {allowed : Query → Prop}
    (keeps : ∀ q s a s', allowed q → I s → Session.serve (fun _ => false) q s = some (a, s') → I s')
    (fails : ∀ q s, I s → I (failed q s).2) (hg : ∀ w : Scheduled, I w.session → gone w)
    {p : DbProg ε α} (hp : p.Uses allowed) {w : Scheduled} (hw : I w.session) :
    (Under sched gone).wp p (fun _ w => I w.session) w := by
  refine (Under sched gone).wp_of_uses (fun q w (hq : allowed q) hI => ?_) hp hw
  refine quiet_call quiet (fun a s' hs => ?_) (fun _ => fails q _ hI) (fun _ => hg _ hI)
  exact ⟨fun _ => keeps q _ a s' hq hI hs, fun _ => hg _ (keeps q _ a s' hq hI hs)⟩

/-- A program that writes to no table leaves the rows alone. -/
theorem quiet_sameTables (quiet : Quiet sched) {p : DbProg ε α} (hp : OffTables p) {db : Db}
    {w : Scheduled} (hw : db.SameTables w.session.db)
    (hg : ∀ w : Scheduled, db.SameTables w.session.db → gone w) :
    (Under sched gone).wp p (fun _ w => db.SameTables w.session.db) w := by
  refine quiet_keeps (I := fun s => db.SameTables s.db) quiet (fun q s a s' hq hI hs => ?_)
    (fun q s hI => ?_) hg hp hw
  · exact ⟨(Session.serve_tables hq hs).1.trans hI.1, (Session.serve_tables hq hs).2.trans hI.2⟩
  · rwa [failed_db]

/-- Failing statements keep the database linked too. -/
theorem runScheduled_linked (quiet : Quiet sched) (p : DbProg ε α) {db : Db} (h : db.Linked) :
    (runScheduled sched p db).2.Linked := by
  let I (s : Session) : Prop := s.db.Linked ∧ s.conn.Bounded
  refine runScheduled_of_wp (G := fun w => I w.session) (P := fun _ db' => db'.Linked)
    (fun w hw => hw.1) (Logic.wp_mono (fun _ w hw => hw.1) (quiet_keeps (I := I) quiet
      (fun q s a s' _ hI hs => Session.serve_linked hs hI.1 hI.2) (fun q s hI => ⟨?_, ?_⟩)
      (fun w hw => hw) p.uses_any ⟨h, ?_⟩))
  · rw [failed_db]
    exact hI.1
  · unfold failed
    split
    · simp [Conn.Bounded, Conn.writes]
    · exact hI.2
  · simp [Conn.Bounded, Conn.writes]

theorem appendFrames_onHandle (file : PostgresFileHandle) (stream : DataStream) :
    OnHandle (appendFrames file stream) := by
  induction stream with
  | nil => trivial
  | cons x rest ih =>
    cases x with
    | ok data => exact .bind (file.append_onHandle data) fun _ => ih
    | error => trivial

theorem matchFrames_onHandle (file : BlobHandle) (stream : DataStream) :
    OnHandle (matchFrames file stream) := by
  induction stream with
  | nil =>
    refine .bind (.attempt file.readU8_onHandle) fun r => ?_
    match r with
    | .ok _ | .error .unexpectedEof | .error .writeZero | .error (.other _) => trivial
  | cons x rest ih =>
    cases x with
    | ok data =>
      refine .bind (.attempt (file.readExact_onHandle _)) fun r => ?_
      match r with
      | .error .unexpectedEof | .error .writeZero | .error (.other _) => trivial
      | .ok buf =>
        dsimp only
        split
        · trivial
        · exact ih
    | error => trivial

theorem checkRangeMatches_onHandle (stream : DataStream) (start : ℕ) (file : BlobHandle) :
    OnHandle (checkRangeMatches stream start file) :=
  .bind (.mapErr _ (file.seek_onHandle _)) fun _ => matchFrames_onHandle file stream

theorem readerStream_onHandle (file : BlobHandle) (rooms : List ℕ+) :
    OnHandle (readerStream file rooms) := by
  induction rooms with
  | nil => trivial
  | cons room rooms ih =>
    refine .bind (.attempt (file.read_onHandle _)) fun r => ?_
    cases r with
    | error => trivial
    | ok data =>
      dsimp only
      split
      · trivial
      · exact .bind ih fun _ => trivial

theorem appendCommit_offTables (file : PostgresFileHandle) (stream : DataStream) : OffTables
    (((appendFrames file stream).mapErr ApiError.internalError).bind fun _ =>
      file.commit.mapErr ApiError.internalError) :=
  .bind (.mapErr _ (appendFrames_onHandle file stream).offTables) fun _ =>
    .mapErr _ file.commit_offTables

theorem postAppendFilename_offTables (bucketName filename : String) (writeOffset : ℕ)
    (request : DataStream) :
    OffTables (postAppendFilename bucketName filename writeOffset request) := by
  refine .bind (.mapErr _ (PostgresBackend.bucket_offTables _)) fun bucket => ?_
  refine .bind (.mapErr _ (bucket.file_offTables _)) fun file => ?_
  refine .bind (.mapErr _ (file.blob.seek_onHandle _).offTables) fun size => ?_
  split
  · refine .bind (.mapErr _ (checkRangeMatches_onHandle _ _ _).offTables) fun v => ?_
    cases v <;> trivial
  · exact appendCommit_offTables file request

theorem getExplore_offTables (bucketName filename : String) (rooms : List ℕ+) :
    OffTables (getExplore bucketName filename rooms) := by
  refine .bind (.mapErr _ (PostgresBackend.bucket_offTables _)) fun bucket => ?_
  refine .bind (.mapErr _ (bucket.file_offTables _)) fun file => ?_
  refine .bind (.mapErr _ (file.blob.seek_onHandle _).offTables) fun length => ?_
  refine .bind (.mapErr _ (file.blob.seek_onHandle _).offTables) fun _ => ?_
  refine .bind (.mapErr _ file.metadata_onHandle.offTables) fun lastModified => ?_
  exact .bind (readerStream_onHandle _ _).offTables fun _ => trivial

/-! The two statements of an upload before it has a handle. -/

section Start

variable (quiet : Quiet sched) {db : Db} {conn : Conn} {k : ℕ}
include quiet

theorem bucket_quiet {name : String} {post : Outcome FileOpenError PostgresBucket → Scheduled → Prop}
    (found : (sched k).fault = .none → ∀ b, db.findBucket name = some b →
      post (.ok ⟨b.id, b.defaultTtl.map Interval.delta⟩) ⟨⟨db, conn⟩, k + 1⟩)
    (fails : ∀ e, (sched k).fault = .none ∧ db.findBucket name = none ∨ (sched k).fault = .fails →
      post (.err e) ⟨⟨db, conn⟩, k + 1⟩)
    (dropped : (sched k).fault ≠ .none → gone ⟨⟨db, conn⟩, k + 1⟩) :
    (Under sched gone).wp (PostgresBackend.bucket name) post ⟨⟨db, conn⟩, k⟩ := by
  simp only [PostgresBackend.bucket, PostgresBucket.byName, Prog.bind_eq, Logic.wp_bind,
    Logic.wp_mapErr]
  refine wp_fetch (quiet_call quiet (fun a s' hs => ?_) (fun hf => ?_) (fun hf => ?_))
  · obtain ⟨rfl, rfl⟩ := Prod.mk.inj (Option.some.inj hs)
    refine ⟨fun hf => ?_, fun hf => dropped (by simp [hf])⟩
    cases hb : db.findBucket name with
    | none => exact fails _ (.inl ⟨hf, hb⟩)
    | some b =>
      obtain ⟨id, name', _ | ttl⟩ := b
      · exact found hf _ hb
      · simp only [Option.map_some, fetched, Logic.after_ok, Interval.toTimeDelta_eq, Prog.pure_eq,
          Logic.wp_ret]
        exact found hf _ hb
  · exact fails _ (.inr hf)
  · exact dropped (by simp [hf])

theorem createFile_quiet {p : PostgresBucket} {filename : String} {now : DateTime}
    {deleteAfter : Option Timestamp} (hd : p.deleteAfter now = .ret deleteAfter)
    {post : Outcome FileCreateError PostgresFileHandle → Scheduled → Prop}
    (inserts : ∀ row db', db.insertFile p.id filename deleteAfter = .ok (row, db') →
      ((sched k).fault = .none → (Under sched gone).wp (PostgresFileHandle.new row.blob row.id)
          (fun o w => post (o.mapErr .ofHandle) w) ⟨⟨db', conn⟩, k + 1⟩) ∧
        ((sched k).fault = .dropped true → gone ⟨⟨db', conn⟩, k + 1⟩))
    (fails : ∀ e, (sched k).fault = .none ∧
          (∃ e, db.insertFile p.id filename deleteAfter = .error e) ∨ (sched k).fault = .fails →
        (e = .fileExists → db.insertFile p.id filename deleteAfter = .error .uniqueViolation) →
      post (.err e) ⟨⟨db, conn⟩, k + 1⟩)
    (dropped : (sched k).fault = .dropped false ∨
        (∃ e, db.insertFile p.id filename deleteAfter = .error e) → gone ⟨⟨db, conn⟩, k + 1⟩) :
    (Under sched gone).wp (p.createFile filename now) post ⟨⟨db, conn⟩, k⟩ := by
  simp only [PostgresBucket.createFile, hd, Prog.bind_eq, Prog.bind, Logic.wp_bind]
  refine quiet_call quiet (fun a s' hs => ?_) (fun hf => ?_) (fun hf => dropped (.inl hf))
  · obtain ⟨rfl, rfl⟩ := Prod.mk.inj (Option.some.inj hs)
    cases hr : db.insertFile p.id filename deleteAfter with
    | ok r =>
      obtain ⟨row, db'⟩ := r
      obtain ⟨h₁, h₂⟩ := inserts row db' hr
      refine ⟨fun hf => ?_, h₂⟩
      simp only [Except.map, Logic.wp_ret, Logic.after_ok, Logic.wp_mapErr]
      exact h₁ hf
    | error e =>
      refine ⟨fun hf => ?_, fun _ => dropped (.inr ⟨e, hr⟩)⟩
      cases e with
      | uniqueViolation => exact fails _ (.inl ⟨hf, _, hr⟩) fun _ => hr
      | rowNotFound | writeConflict | database => exact fails _ (.inl ⟨hf, _, hr⟩) fun h => by cases h
  · exact fails _ (.inr hf) fun h => by cases h

end Start

/-! Uploads that end without success. -/

/-- The upload's row comes to be: its bucket is found, its deadline is a date, and the
insert takes effect, even if nobody is there to learn it. -/
def Inserts (sched : Schedule) (b : BucketRow) (now : DateTime) : Prop :=
  (sched 0).fault = .none ∧ (∃ deleteAfter, Deadline b now deleteAfter) ∧
    ((sched 1).fault = .none ∨ (sched 1).fault = .dropped true)

/-- The same files with the same contents, and a name that is still free. -/
structure NoTrace (db db' : Db) (bucketName filename : String) : Prop where
  files : db'.files = db.files
  contents : ∀ f ∈ db.files, db'.objects f.blob = db.objects f.blob
  retry : ∀ parts now, (Op.put bucketName filename parts now).Fits db.buckets →
    status (serveRequest db' (.put bucketName filename (frames parts) now)).1 = some .ok ∧
      (serveRequest db' (.put bucketName filename (frames parts) now)).2.content bucketName filename =
        some parts.flatten

/-- What an upload that does not succeed leaves: a row, or nothing at all. -/
def Leaves (sched : Schedule) (b : BucketRow) (now : DateTime) (db db' : Db) : Prop :=
  (Inserts sched b now → ∃ row, db'.files = db.files ++ [row]) ∧ (¬ Inserts sched b now → db' = db)

theorem leaves_nothing {b : BucketRow} {now : DateTime} {db : Db} (hn : ¬ Inserts sched b now) :
    Leaves sched b now db db :=
  ⟨fun h => absurd h hn, fun _ => rfl⟩

theorem leaves_row {b : BucketRow} {now : DateTime} {db db' : Db} (hi : Inserts sched b now)
    {row : FileRow} (hrow : db'.files = db.files ++ [row]) : Leaves sched b now db db' :=
  ⟨fun _ => ⟨row, hrow⟩, fun hn => absurd hi hn⟩

section Leaves

variable {db : Db} {bucketName filename : String} {b : BucketRow} {now : DateTime}
  {deleteAfter : Option Timestamp} (hb : db.findBucket bucketName = some b)
  (absent : db.findFile b.id filename = none)
include hb absent

/-- While the bucket is there and the name is free, only the deadline can refuse the row. -/
theorem not_inserts_of_refused
    (hd : PostgresBucket.deleteAfter ⟨b.id, b.defaultTtl.map Interval.delta⟩ now = .ret deleteAfter)
    (he : ∃ e, db.insertFile b.id filename deleteAfter = .error e) : ¬ Inserts sched b now := by
  rintro ⟨-, ⟨d, hd'⟩, -⟩
  obtain rfl : deleteAfter = d := Prog.ret.inj (hd.symm.trans hd'.1)
  obtain ⟨e, he⟩ := he
  rw [Db.insertFile_eq hd'.2 absent ⟨b, (Db.findBucket_some hb).1, rfl⟩] at he
  cases he

end Leaves

theorem put_leaves (quiet : Quiet sched) {db : Db} {bucketName filename : String} {b : BucketRow}
    (hb : db.findBucket bucketName = some b) (absent : db.findFile b.id filename = none)
    (body : DataStream) (now : DateTime) :
    (runScheduled sched (putWriteFilename bucketName filename body now) db).1 = .ok () ∨
      Leaves sched b now db
        (runScheduled sched (putWriteFilename bucketName filename body now) db).2 := by
  refine runScheduled_of_wp (G := fun w => Leaves sched b now db w.session.db)
    (P := fun o db' => o = .ok () ∨ Leaves sched b now db db') (fun w hw => .inr hw) ?_
  refine Logic.wp_then (bucket_quiet quiet (fun h0 b' hb' => ?_)
    (fun e he => .inr (leaves_nothing fun h => ?_)) fun hf => leaves_nothing fun h => hf h.1)
  · obtain rfl := Option.some.inj (hb.symm.trans hb')
    obtain ⟨deleteAfter, hd⟩ | hm :=
      PostgresBucket.deleteAfter_cases ⟨b.id, b.defaultTtl.map Interval.delta⟩ now
    · refine Logic.wp_try (createFile_quiet quiet hd (fun row db' hr => ?_) (fun e he hu => ?_)
        fun he => ?_)
      · have hfiles : db'.files = db.files ++ [row] := by
          rw [(Db.insertFile_ok hr).2.2.2]
        have inserts (hf : (sched 1).fault = .none ∨ (sched 1).fault = .dropped true) :
            Inserts sched b now := ⟨h0, ⟨deleteAfter, hd, Db.insertFile_deadline hr⟩, hf⟩
        refine ⟨fun hf => ?_, fun hf => leaves_row (inserts (.inr hf)) hfiles⟩
        have kept : ∀ w : Scheduled, db'.SameTables w.session.db →
            Leaves sched b now db w.session.db :=
          fun w hw => leaves_row (inserts (.inl hf)) (hw.2.trans hfiles)
        refine Logic.wp_mono ?_ (quiet_sameTables quiet
          (PostgresFileHandle.new_offTables row.blob row.id) ⟨rfl, rfl⟩ kept)
        rintro o w hw
        cases o with
        | ok file =>
          exact Logic.wp_mono (fun _ w hw => .inr (kept w hw))
            (quiet_sameTables quiet (appendCommit_offTables file body) hw kept)
        | err | panic | dropped => exact .inr (kept w hw)
      · have leaves : Leaves sched b now db db := by
          refine leaves_nothing fun h => ?_
          obtain ⟨-, he⟩ | hf := he
          · exact not_inserts_of_refused hb absent hd he h
          · rcases h.2.2 with h | h <;> simp [hf] at h
        cases e with
        | fileExists =>
          have hu := Db.insertFile_unique (hu rfl)
          rw [absent] at hu
          cases hu
        | invalidName | otherError => exact .inr leaves
      · refine leaves_nothing fun h => ?_
        obtain hf | he := he
        · rcases h.2.2 with h | h <;> simp [hf] at h
        · exact not_inserts_of_refused hb absent hd he h
    · refine Logic.wp_try ?_
      rw [PostgresBucket.createFile, hm]
      refine .inr (leaves_nothing ?_)
      rintro ⟨-, ⟨d, hd⟩, -⟩
      cases hm.symm.trans hd.1
  · rcases he with ⟨-, hn⟩ | hf
    · rw [hn] at hb
      cases hb
    · rw [h.1] at hf
      cases hf

/-- A PUT that ends without success leaves no trace if and only if its row has not
come to be. -/
theorem failed_put_no_trace_iff (quiet : Quiet sched) {db : Db} (h : db.Linked)
    {bucketName filename : String} {b : BucketRow} (hb : db.findBucket bucketName = some b)
    (absent : db.findFile b.id filename = none) (body : DataStream) (now : DateTime)
    (fails : (runScheduled sched (putWriteFilename bucketName filename body now) db).1 ≠ .ok ()) :
    NoTrace db (runScheduled sched (putWriteFilename bucketName filename body now) db).2
      bucketName filename ↔ ¬ Inserts sched b now := by
  obtain ⟨inserted, untouched⟩ := (put_leaves quiet hb absent body now).resolve_left fails
  constructor
  · intro hno hins
    obtain ⟨row, hrow⟩ := inserted hins
    simpa using hno.files.symm.trans hrow
  · intro hn
    rw [untouched hn]
    refine ⟨rfl, fun _ _ => rfl, fun parts now hfits => ?_⟩
    obtain ⟨hs, ha, -⟩ := serve_refines h (.put bucketName filename parts now) hfits
    have hbucket : (archive db).buckets bucketName = true := by simp [archive, hb]
    rw [Archive.serve, Archive.put_absent hbucket (Db.content_of_absent hb absent)] at hs ha
    exact ⟨(status_eq_seen _).trans (congrArg _ hs),
      (congrArg (fun a => a.files bucketName filename) ha).trans (Archive.store_files_self ..)⟩

/-- The body's stream fails before its first frame. -/
theorem failed_put_leaves_row :
    (runScheduled calm (putWriteFilename "bucket" "meow" [.error ()] 0)
        (.created 0 "bucket" none)).1 ≠ .ok () ∧
      ¬ NoTrace (.created 0 "bucket" none) (runScheduled calm
        (putWriteFilename "bucket" "meow" [.error ()] 0) (.created 0 "bucket" none)).2
        "bucket" "meow" :=
  ⟨by decide, fun h => absurd h.files (by decide)⟩

theorem failed_put_no_trace_iff_insert :
    let sched : Schedule := fun k => ⟨[], if k = 1 then .fails else .none⟩
    NoTrace (.created 0 "bucket" none) (runScheduled sched
        (putWriteFilename "bucket" "meow" (frames [[109, 101]]) 0) (.created 0 "bucket" none)).2
        "bucket" "meow" ↔
      ¬ Inserts sched ⟨⟨0⟩, "bucket", none⟩ 0 :=
  failed_put_no_trace_iff (fun _ => rfl) (Db.linked_created 0 "bucket" none) rfl rfl _ 0 (by decide)

end LocallyEuclidean.Server
