import LocallyEuclidean.Postgres.Deletion
import LocallyEuclidean.Server.Faults

/-! How long files are kept, over whole runs of the server's work. The application's
clock and the database's are one, in whole microseconds. -/

namespace LocallyEuclidean.Server
open Interact Postgres Storage

inductive Work where
  | createBucket (name : String) (defaultTtl : Option TimeDelta)
  | createFile (bucketName filename : String)
  | append (bucketName filename : String) (slices : List Bytes) (commit : Bool)
  | put (bucketName filename : String) (body : DataStream)
  | post (bucketName filename : String) (writeOffset : ℕ) (body : DataStream)
  | get (bucketName filename : String) (rooms : List ℕ+)
  | batch (tie : FileId → ℕ)

/-- Create a file and drop its handle. -/
def createOnly (bucketName filename : String) (now : DateTime) : DbProg BoxError Unit := do
  let bucket ← (PostgresBackend.bucket bucketName).mapErr .fileOpen
  match ← (bucket.createFile filename now).attempt with
  | .ok _ => return ()
  | .error e => .err (.fileCreate e)

/-- Append to a file that is there, then commit the handle or drop it. -/
def appendOnly (bucketName filename : String) (slices : List Bytes) (commit : Bool) :
    DbProg BoxError Unit := do
  let bucket ← (PostgresBackend.bucket bucketName).mapErr .fileOpen
  let file ← (bucket.file filename).mapErr .fileOpen
  appendFrames file (frames slices)
  if commit then file.commit else return ()

/-- Work done at an instant; any of its statements may fail, or never be waited for. -/
structure Job where
  now : Timestamp
  work : Work
  faults : ℕ → Fault

namespace Job

def sched (job : Job) : Schedule := fun k => ⟨[], job.faults k⟩

def run (job : Job) (db : Db) : Db :=
  let db := { db with clock := job.now }
  match job.work with
  | .createBucket name ttl => (runScheduled job.sched (PostgresBucket.create name ttl) db).2
  | .createFile b f => (runScheduled job.sched (createOnly b f (job.now * 1000)) db).2
  | .append b f slices commit => (runScheduled job.sched (appendOnly b f slices commit) db).2
  | .put b f body => (runScheduled job.sched (putWriteFilename b f body (job.now * 1000)) db).2
  | .post b f writeOffset body =>
    (runScheduled job.sched (postAppendFilename b f writeOffset body) db).2
  | .get b f rooms => (runScheduled job.sched (getExplore b f rooms) db).2
  | .batch tie => (runScheduled job.sched (PostgresBackend.deleteOldFilesBatch tie) db).2

theorem quiet (job : Job) : Quiet job.sched := fun _ => rfl

end Job

def runJobs (db : Db) (jobs : List Job) : Db := jobs.foldl (fun db job => job.run db) db

/-- A row that work at `now` adds to a bucket. -/
def Created (now : Timestamp) (db : Db) (row : FileRow) : Prop :=
  ∃ b ∈ db.buckets, b.id = row.bucketId ∧
    row.deleteAfter = b.defaultTtl.map fun ttl => now + ttl.length

/-- What a piece of work does to the tables. -/
inductive Effect (job : Job) (db : Db) : Db → Prop where
  | same {db' : Db} (h : db.SameTables db') : Effect job db db'
  | bucket {db' : Db} (row : BucketRow) (hb : db'.buckets = db.buckets ++ [row])
      (hf : db'.files = db.files) : Effect job db db'
  | file {db' : Db} (row : FileRow) (hb : db'.buckets = db.buckets)
      (hf : db'.files = db.files ++ [row]) (created : Created job.now db row) : Effect job db db'
  | batch {db' : Db} (tie : FileId → ℕ) (hw : job.work = .batch tie) (hb : db'.buckets = db.buckets)
      (hf : db'.files = (({ db with clock := job.now } : Db).deleteBatch tie).files) :
      Effect job db db'

theorem appendOnly_offTables (bucketName filename : String) (slices : List Bytes) (commit : Bool) :
    OffTables (appendOnly bucketName filename slices commit) := by
  refine .bind (.mapErr _ (PostgresBackend.bucket_offTables _)) fun bucket => ?_
  refine .bind (.mapErr _ (bucket.file_offTables _)) fun file => ?_
  refine .bind (appendFrames_onHandle _ _).offTables fun _ => ?_
  split
  · exact file.commit_offTables
  · trivial

/-- The deadline that work at a whole microsecond gives a row. -/
theorem deleteAfter_eq {b : BucketRow} {now : Timestamp} {deleteAfter : Option Timestamp}
    (h : PostgresBucket.deleteAfter ⟨b.id, b.defaultTtl.map Interval.delta⟩ (now * 1000) =
      .ret deleteAfter) :
    deleteAfter = b.defaultTtl.map fun ttl => now + ttl.length := by
  unfold PostgresBucket.deleteAfter at h
  cases hb : b.defaultTtl with
  | none =>
    simp only [hb, Option.map_none] at h
    exact (Prog.ret.inj h).symm
  | some ttl =>
    simp only [hb, Option.map_some] at h
    split at h
    · rename_i t ht
      unfold DateTime.add at ht
      split at ht
      · rw [← Prog.ret.inj h, ← Option.some.inj ht, DateTime.toTimestamp_add]
        rfl
      · cases ht
    · cases h

/-- The tables after work that may create a file. -/
def MayGrow (now : Timestamp) (db db' : Db) : Prop :=
  db.SameTables db' ∨
    ∃ row, db'.buckets = db.buckets ∧ db'.files = db.files ++ [row] ∧ Created now db row

theorem MayGrow.trans {now : Timestamp} {db db' db'' : Db} (h : MayGrow now db db')
    (hs : db'.SameTables db'') : MayGrow now db db'' := by
  obtain h | ⟨row, hb, hf, hc⟩ := h
  · exact .inl ⟨hs.1.trans h.1, hs.2.trans h.2⟩
  · exact .inr ⟨row, hs.1.trans hb, hs.2.trans hf, hc⟩

section Create

variable {ε ε' α : Type} {sched : Schedule} (quiet : Quiet sched)
include quiet

theorem offTables_mayGrow {p : DbProg ε α} (hp : OffTables p) {now : Timestamp} {db : Db}
    {w : Scheduled} (hw : MayGrow now db w.session.db) :
    (Under sched fun w => MayGrow now db w.session.db).wp p
      (fun _ w => MayGrow now db w.session.db) w :=
  Logic.wp_mono (fun _ _ h => hw.trans h)
    (quiet_sameTables quiet hp ⟨rfl, rfl⟩ fun _ h => hw.trans h)

/-- Looking up a bucket, creating a file in it, and then whatever needs no table. -/
theorem create_mayGrow {bucketName filename : String} {now : Timestamp}
    {wrap : FileOpenError → ε'}
    {rest : PostgresBucket → Except FileCreateError PostgresFileHandle → DbProg ε' α}
    (hrest : ∀ b r, OffTables (rest b r)) (db : Db) :
    (Under sched fun w => MayGrow now db w.session.db).wp
      (((PostgresBackend.bucket bucketName).mapErr wrap).bind fun b =>
        ((b.createFile filename (now * 1000)).attempt : DbProg ε' _).bind (rest b))
      (fun _ w => MayGrow now db w.session.db) ⟨⟨db, .idle⟩, 0⟩ := by
  have same : MayGrow now db db := .inl ⟨rfl, rfl⟩
  refine Logic.wp_then (bucket_quiet quiet (fun _ b hb => ?_) (fun e _ => same) fun _ => same)
  obtain ⟨deleteAfter, hd⟩ | hm :=
    PostgresBucket.deleteAfter_cases ⟨b.id, b.defaultTtl.map Interval.delta⟩ (now * 1000)
  · refine Logic.wp_try (createFile_quiet quiet hd (fun row db' hr => ?_)
      (fun e _ _ => offTables_mayGrow quiet (hrest _ _) same) fun _ => same)
    obtain ⟨-, -, hrow, hdb'⟩ := Db.insertFile_ok hr
    have created : Created now db row := by
      rw [hrow]
      exact ⟨b, (Db.findBucket_some hb).1, rfl, deleteAfter_eq hd⟩
    have grown : MayGrow now db db' := .inr ⟨row, by rw [hdb'], by rw [hdb'], created⟩
    refine ⟨fun _ => ?_, fun _ => grown⟩
    refine Logic.wp_mono ?_ (offTables_mayGrow quiet
      (PostgresFileHandle.new_offTables row.blob row.id) grown)
    rintro o w hw
    cases o with
    | ok file => exact offTables_mayGrow quiet (hrest _ (.ok file)) hw
    | err e => exact offTables_mayGrow quiet (hrest _ (.error (.ofHandle e))) hw
    | panic | dropped => exact hw
  · refine Logic.wp_try ?_
    rw [PostgresBucket.createFile, hm]
    exact same

end Create

theorem createBucket_effect {sched : Schedule} (quiet : Quiet sched) (name : String)
    (ttl : Option TimeDelta) (db : Db) :
    db.SameTables (runScheduled sched (PostgresBucket.create name ttl) db).2 ∨
      ∃ row, (runScheduled sched (PostgresBucket.create name ttl) db).2.buckets =
          db.buckets ++ [row] ∧
        (runScheduled sched (PostgresBucket.create name ttl) db).2.files = db.files := by
  let Grown (db' : Db) : Prop :=
    db.SameTables db' ∨ ∃ row, db'.buckets = db.buckets ++ [row] ∧ db'.files = db.files
  have same : Grown db := .inl ⟨rfl, rfl⟩
  refine runScheduled_of_wp (G := fun w => Grown w.session.db) (P := fun _ db' => Grown db')
    (fun _ hw => hw) ?_
  have insert (interval : Option Interval) {Φ : Except SqlxError BucketId → Scheduled → Prop}
      (hΦ : ∀ a w, Grown w.session.db → Φ a w) :
      (Under sched fun w => Grown w.session.db).call (.insertBucket name interval) Φ
        ⟨⟨db, .idle⟩, 0⟩ := by
    refine quiet_call quiet (fun a s' hs => ?_) (fun _ => hΦ _ _ same) (fun _ => same)
    have grown : Grown s'.db := by
      obtain ⟨-, hd | ⟨id, hr⟩⟩ := Session.onPool_conn (Option.some.inj hs)
      · rw [hd]
        exact same
      · exact .inr (Db.insertBucket_ok hr)
    exact ⟨fun _ => hΦ _ _ grown, fun _ => grown⟩
  cases ttl with
  | none =>
    refine insert none fun a w hw => ?_
    obtain e | _ := a
    · cases e <;> exact hw
    · exact hw
  | some delta =>
    simp only [PostgresBucket.create]
    cases Interval.ofTimeDelta delta with
    | none => exact same
    | some interval =>
      refine insert (some interval) fun a w hw => ?_
      obtain e | _ := a
      · cases e <;> exact hw
      · exact hw

theorem batch_effect {sched : Schedule} (quiet : Quiet sched) (tie : FileId → ℕ) {db : Db}
    (h : db.Linked) :
    db.SameTables (runScheduled sched (PostgresBackend.deleteOldFilesBatch tie) db).2 ∨
      (runScheduled sched (PostgresBackend.deleteOldFilesBatch tie) db).2 = db.deleteBatch tie := by
  let Deleted (db' : Db) : Prop := db.SameTables db' ∨ db' = db.deleteBatch tie
  have same : Deleted db := .inl ⟨rfl, rfl⟩
  refine runScheduled_of_wp (G := fun w => Deleted w.session.db) (P := fun _ db' => Deleted db')
    (fun _ hw => hw) ((Logic.wp_bind ..).mpr (wp_fetch (quiet_call quiet (fun a s' hs => ?_)
      (fun _ => same) (fun _ => same))))
  obtain ⟨k, hk⟩ := h.deleteOldFilesBatch_eq tie
  simp only [Session.serve, hk, Session.onPool, Option.some.injEq, Prod.mk.injEq] at hs
  obtain ⟨rfl, rfl⟩ := hs
  exact ⟨fun _ => .inr rfl, fun _ => .inr rfl⟩

/-- A batch whose statement is answered is the delete. -/
theorem batch_runs {sched : Schedule} (quiet : Quiet sched) (hf : (sched 0).fault = .none)
    (tie : FileId → ℕ) {db : Db} (h : db.Linked) :
    (runScheduled sched (PostgresBackend.deleteOldFilesBatch tie) db).2 = db.deleteBatch tie := by
  refine runScheduled_of_wp (G := fun _ => False) (P := fun _ db' => db' = db.deleteBatch tie)
    (fun _ => False.elim) ((Logic.wp_bind ..).mpr (wp_fetch (quiet_call quiet (fun a s' hs => ?_)
      (fun h => by simp [hf] at h) (fun h => by simp [hf] at h))))
  obtain ⟨k, hk⟩ := h.deleteOldFilesBatch_eq tie
  simp only [Session.serve, hk, Session.onPool, Option.some.injEq, Prod.mk.injEq] at hs
  obtain ⟨rfl, rfl⟩ := hs
  exact ⟨fun _ => rfl, fun h => by simp [hf] at h⟩

theorem effect_of_mayGrow {job : Job} {db db' : Db}
    (h : MayGrow job.now { db with clock := job.now } db') : Effect job db db' := by
  obtain h | ⟨row, hb, hf, hc⟩ := h
  · exact .same h
  · exact .file row hb hf hc

/-- Every piece of work has one of the effects above. -/
theorem run_effect (job : Job) {db : Db} (h : db.Linked) : Effect job db (job.run db) := by
  obtain ⟨now, work, faults⟩ := job
  let job : Job := ⟨now, work, faults⟩
  let db₀ : Db := { db with clock := now }
  have grows {ε α : Type} {p : DbProg ε α} (hp : (Under job.sched fun w =>
      MayGrow now db₀ w.session.db).wp p (fun _ w => MayGrow now db₀ w.session.db) ⟨⟨db₀, .idle⟩, 0⟩) :
      MayGrow now db₀ (runScheduled job.sched p db₀).2 :=
    runScheduled_of_wp (P := fun _ db' => MayGrow now db₀ db') (fun _ hw => hw) hp
  have off {ε α : Type} {p : DbProg ε α} (hp : OffTables p) :
      MayGrow now db₀ (runScheduled job.sched p db₀).2 :=
    grows (offTables_mayGrow job.quiet hp (.inl ⟨rfl, rfl⟩))
  cases work with
  | createFile b f =>
    refine effect_of_mayGrow (grows (create_mayGrow job.quiet (fun _ r => ?_) db₀))
    cases r <;> trivial
  | append b f slices commit => exact effect_of_mayGrow (off (appendOnly_offTables b f slices commit))
  | put b f body =>
    refine effect_of_mayGrow (grows (create_mayGrow job.quiet (fun bucket r => ?_) db₀))
    match r with
    | .ok file => exact appendCommit_offTables file body
    | .error .fileExists =>
      refine .bind (.mapErr _ (bucket.file_offTables f)) fun file => ?_
      refine .bind (.mapErr _ (checkRangeMatches_onHandle _ _ _).offTables) fun v => ?_
      cases v <;> trivial
    | .error .invalidName | .error (.otherError _) => trivial
  | post b f writeOffset body =>
    exact effect_of_mayGrow (off (postAppendFilename_offTables b f writeOffset body))
  | get b f rooms => exact effect_of_mayGrow (off (getExplore_offTables b f rooms))
  | createBucket name ttl =>
    obtain hs | ⟨row, hb, hf⟩ := createBucket_effect job.quiet name ttl db₀
    · exact .same hs
    · exact .bucket row hb hf
  | batch tie =>
    obtain hs | hd := batch_effect job.quiet tie (h.tick now)
    · exact .same hs
    · exact .batch tie rfl ((congrArg Db.buckets hd).trans rfl) ((congrArg Db.files hd).trans rfl)

theorem run_linked (job : Job) {db : Db} (h : db.Linked) : (job.run db).Linked := by
  have h₀ : ({ db with clock := job.now } : Db).Linked := h.tick job.now
  unfold Job.run
  dsimp only
  split <;> exact runScheduled_linked job.quiet _ h₀

theorem runJobs_append (db : Db) (jobs jobs' : List Job) :
    runJobs db (jobs ++ jobs') = runJobs (runJobs db jobs) jobs' :=
  List.foldl_append

theorem runJobs_linked {db : Db} (h : db.Linked) (jobs : List Job) : (runJobs db jobs).Linked := by
  induction jobs generalizing db with
  | nil => exact h
  | cons job jobs ih => exact ih (run_linked job h)

/-- A row that was not there before has the deadline of its bucket. -/
theorem Effect.created {job : Job} {db db' : Db} (he : Effect job db db') {f : FileRow}
    (hf : f ∈ db'.files) (hn : f ∉ db.files) : Created job.now db f := by
  cases he with
  | same h => exact absurd (h.2 ▸ hf) hn
  | bucket row hb hfs => exact absurd (hfs ▸ hf) hn
  | file row hb hfs hc =>
    rw [hfs] at hf
    obtain rfl := List.mem_singleton.mp ((List.mem_append.mp hf).resolve_left hn)
    exact hc
  | batch tie hw hb hfs =>
    rw [hfs, Db.mem_deleteBatch] at hf
    exact absurd hf.1 hn

/-- Only a batch after the deadline takes a row away. -/
theorem Effect.removed {job : Job} {db db' : Db} (he : Effect job db db') (h : db.Linked)
    {f : FileRow} (hf : f ∈ db.files) (hn : f ∉ db'.files) :
    ∃ tie t, job.work = .batch tie ∧ f.deleteAfter = some t ∧ t < job.now := by
  cases he with
  | same hs => exact absurd (hs.2 ▸ hf) hn
  | bucket row hb hfs => exact absurd (hfs ▸ hf) hn
  | file row hb hfs hc => exact absurd (hfs ▸ List.mem_append_left _ hf) hn
  | batch tie hw hb hfs =>
    rw [hfs, Db.mem_deleteBatch] at hn
    have hr : ({ db with clock := job.now } : Db).Removes tie f := not_not.mp fun hr => hn ⟨hf, hr⟩
    have hmem := ((h.tick job.now).removes_iff).mp hr
    obtain ⟨t, ht, hlt⟩ := FileRow.expired_iff.mp (Db.deletionBatch_subset hmem).2
    exact ⟨tie, t, hw, ht, hlt⟩

/-- Retention over whole runs: a file made by `create` goes only to a batch that runs
past its bucket's TTL, and such a batch takes it unless a thousand others go first. -/
theorem retention {db : Db} (h : db.Linked) (past : List Job) (create : Job) (mid : List Job)
    (job : Job) {f : FileRow} (new : f ∉ (runJobs db past).files)
    (made : f ∈ (runJobs db (past ++ [create])).files)
    (there : f ∈ (runJobs db (past ++ [create] ++ mid)).files) :
    let db' := runJobs db (past ++ [create] ++ mid)
    let removed := db'.files.filter fun g => g ∉ (job.run db').files
    ∃ b ∈ (runJobs db past).buckets, b.id = f.bucketId ∧
      (f ∉ (job.run db').files → ∃ tie ttl, job.work = .batch tie ∧ b.defaultTtl = some ttl ∧
        create.now + ttl.length < job.now) ∧
      ∀ tie ttl, job.work = .batch tie → job.faults 0 = .none → b.defaultTtl = some ttl →
        create.now + ttl.length < job.now →
          f ∉ (job.run db').files ∨ (removed.length = 1000 ∧
            ∀ g ∈ removed, ∃ t, g.deleteAfter = some t ∧ t < job.now ∧ t ≤ create.now + ttl.length) := by
  intro db' removed
  have hl : db'.Linked := runJobs_linked h _
  have hpast : (runJobs db past).Linked := runJobs_linked h _
  rw [runJobs_append] at made
  obtain ⟨b, hb, hid, hdead⟩ := (run_effect create hpast).created made new
  refine ⟨b, hb, hid, fun hn => ?_, fun tie ttl hw hfault httl hlate => ?_⟩
  · obtain ⟨tie, t, hw, ht, hlt⟩ := (run_effect job hl).removed hl there hn
    cases httl : b.defaultTtl with
    | none => simp [hdead, httl] at ht
    | some ttl =>
      have : create.now + ttl.length = t := by simpa [hdead, httl] using ht
      exact ⟨tie, ttl, hw, rfl, this ▸ hlt⟩
  · have hrun : job.run db' = ({ db' with clock := job.now } : Db).deleteBatch tie := by
      unfold Job.run
      rw [hw]
      exact batch_runs job.quiet hfault tie (hl.tick job.now)
    have hf : f.deleteAfter = some (create.now + ttl.length) := by rw [hdead, httl]; rfl
    by_cases hmem : f ∈ (job.run db').files
    · refine .inr ?_
      rw [hrun, Db.mem_deleteBatch, (hl.tick job.now).removes_iff] at hmem
      obtain ⟨hfull, hbefore⟩ := Db.deletionBatch_full hmem.1
        (FileRow.expired_iff.mpr ⟨_, hf, hlate⟩) hmem.2
      have hperm : removed.Perm (({ db' with clock := job.now } : Db).deletionBatch tie) := by
        unfold removed
        rw [hrun]
        exact (hl.tick job.now).removed_perm tie
      refine ⟨hperm.length_eq.trans hfull, fun g hg => ?_⟩
      have hg := hperm.mem_iff.mp hg
      obtain ⟨t, ht, hlt⟩ := FileRow.expired_iff.mp (Db.deletionBatch_subset hg).2
      exact ⟨t, ht, hlt, FileRow.deleteAfter_le (hbefore g hg) ht hf⟩
    · exact .inl hmem

/-- A file kept for ten microseconds, whatever is appended or uploaded again meanwhile, and a
batch in the eleventh. -/
theorem retention_meow :
    let db := Db.created 0 "bucket" (some ⟨0, 0, 10⟩)
    let past : List Job := [⟨3, .put "bucket" "mew" (frames [[109]]), fun _ => .none⟩]
    let create : Job := ⟨5, .put "bucket" "meow" (frames [[109]]), fun _ => .none⟩
    let mid : List Job := [⟨8, .post "bucket" "meow" 2 (frames [[119]]), fun _ => .none⟩,
      ⟨12, .put "bucket" "meow" (frames [[109, 119]]), fun _ => .none⟩]
    let job : Job := ⟨16, .batch fun _ => 0, fun _ => .none⟩
    let f : FileRow := ⟨⟨2⟩, ⟨0⟩, "meow", 16385, some 15, 5⟩
    let db' := runJobs db (past ++ [create] ++ mid)
    let removed := db'.files.filter fun g => g ∉ (job.run db').files
    ∃ b ∈ (runJobs db past).buckets, b.id = f.bucketId ∧
      (f ∉ (job.run db').files → ∃ tie ttl, job.work = .batch tie ∧ b.defaultTtl = some ttl ∧
        create.now + ttl.length < job.now) ∧
      ∀ tie ttl, job.work = .batch tie → job.faults 0 = .none → b.defaultTtl = some ttl →
        create.now + ttl.length < job.now →
          f ∉ (job.run db').files ∨ (removed.length = 1000 ∧
            ∀ g ∈ removed, ∃ t, g.deleteAfter = some t ∧ t < job.now ∧ t ≤ create.now + ttl.length) := by
  refine retention (Db.linked_created 0 "bucket" (some ⟨0, 0, 10⟩)) _ _ _ _ ?_ ?_ ?_
  · decide +kernel
  · decide +kernel
  · decide +kernel

/-! Whether a bucket's TTL can be used at all. -/

/-- The bucket is found, and making a file in it at `now` gives a handle or an error. -/
def Usable (db : Db) (bucketName filename : String) (now : DateTime) : Prop :=
  ∃ p, (runAlone (PostgresBucket.byName bucketName) db).1 = .ok (some p) ∧
    ((∃ file, (runAlone (p.createFile filename now) db).1 = .ok file) ∨
      ∃ e, (runAlone (p.createFile filename now) db).1 = .err e)

/-- With a deadline that exists, making a file gives a handle or an error. -/
theorem createFile_alone {p : PostgresBucket} {now : DateTime} {deleteAfter : Option Timestamp}
    (hd : p.deleteAfter now = .ret deleteAfter) (filename : String) (db : Db) :
    (∃ file, (runAlone (p.createFile filename now) db).1 = .ok file) ∨
      ∃ e, (runAlone (p.createFile filename now) db).1 = .err e := by
  refine runAlone_of_wp (P := fun o _ => (∃ file, o = .ok file) ∨ ∃ e, o = .err e) ?_
  exact createFile_wp hd (fun row db' conn' _ _ _ => .inl ⟨_, rfl⟩) fun e => .inr ⟨e, rfl⟩

theorem createFile_overflow {p : PostgresBucket} {now : DateTime} {m : String}
    (hd : p.deleteAfter now = .panic m) (filename : String) (db : Db) :
    (runAlone (p.createFile filename now) db).1 = .panic m := by
  rw [PostgresBucket.createFile, hd]
  rfl

/-- Any TTL is decoded, and it is usable if and only if the deadline it gives is a date that
chrono has. -/
theorem ttl_usable_iff {db : Db} {bucketName : String} {b : BucketRow}
    (hb : db.findBucket bucketName = some b) (filename : String) (now : DateTime) :
    (∀ ttl, b.defaultTtl = some ttl → ttl.toTimeDelta = some ttl.delta) ∧
      (Usable db bucketName filename now ↔ ∀ ttl, b.defaultTtl = some ttl →
        DateTime.minUtc ≤ now + ttl.delta.nanos ∧ now + ttl.delta.nanos ≤ DateTime.maxUtc) := by
  refine ⟨fun ttl _ => ttl.toTimeDelta_eq, ?_⟩
  have hfound := byName_alone hb
  let p : PostgresBucket := ⟨b.id, b.defaultTtl.map Interval.delta⟩
  constructor
  · rintro ⟨p', hp', hmade⟩ ttl httl
    obtain rfl : p' = p := Option.some.inj (Outcome.ok.inj (hp'.symm.trans hfound))
    by_contra hout
    have hpanic : p.deleteAfter now = .panic "DateTime + TimeDelta overflowed" := by
      simp only [p, PostgresBucket.deleteAfter, httl, Option.map_some, DateTime.add, if_neg hout]
    rw [createFile_overflow hpanic] at hmade
    obtain ⟨_, h⟩ | ⟨_, h⟩ := hmade <;> cases h
  · refine fun hin => ⟨p, hfound, ?_⟩
    cases httl : b.defaultTtl with
    | none =>
      have hd : p.deleteAfter now = .ret none := by
        simp only [p, PostgresBucket.deleteAfter, httl, Option.map_none]
      exact createFile_alone hd filename db
    | some ttl =>
      have hd : p.deleteAfter now =
          .ret (some (DateTime.toTimestamp (now + ttl.delta.nanos))) := by
        simp only [p, PostgresBucket.deleteAfter, httl, Option.map_some, DateTime.add,
          if_pos (hin ttl httl)]
      exact createFile_alone hd filename db

/-- The longest TTL of whole months, at the Postgres epoch. -/
theorem ttl_overflows :
    ¬ Usable (.created 0 "bucket" (some ⟨2147483647, 0, 0⟩)) "bucket" "meow" 0 := by
  rintro ⟨p, hp, hmade⟩
  have hb : Db.findBucket (.created 0 "bucket" (some ⟨2147483647, 0, 0⟩)) "bucket" =
      some ⟨⟨0⟩, "bucket", some ⟨2147483647, 0, 0⟩⟩ := rfl
  have hfound := byName_alone hb
  obtain rfl := Option.some.inj (Outcome.ok.inj (hp.symm.trans hfound))
  rw [createFile_overflow (m := "DateTime + TimeDelta overflowed") rfl] at hmade
  obtain ⟨_, h⟩ | ⟨_, h⟩ := hmade <;> cases h

/-- A TTL of every field at once. -/
theorem ttl_usable_iff_meow :
    let ttl₀ : Interval := ⟨1, -1, 1⟩
    let db := Db.created 0 "bucket" (some ttl₀)
    (∀ ttl, some ttl₀ = some ttl → ttl.toTimeDelta = some ttl.delta) ∧
      (Usable db "bucket" "meow" 0 ↔ ∀ ttl, some ttl₀ = some ttl →
        DateTime.minUtc ≤ 0 + ttl.delta.nanos ∧ 0 + ttl.delta.nanos ≤ DateTime.maxUtc) :=
  ttl_usable_iff (b := ⟨⟨0⟩, "bucket", some ⟨1, -1, 1⟩⟩) rfl "meow" 0

end LocallyEuclidean.Server
