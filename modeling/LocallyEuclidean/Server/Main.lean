import LocallyEuclidean.Server.Sequential

/-! `main`: the maintenance command that creates a bucket. -/

namespace LocallyEuclidean.Server
open Interact Postgres Storage

variable {δ : Type}

/-- `Result::expect`, of a result whose error is not looked at. -/
def expect {α : Type} (x : Option α) (message : String) : DbProg δ α :=
  match x with
  | some a => .ret a
  | none => .panic message

/-- `parse_timedelta`; `parseDuration` is `humantime::parse_duration`. -/
def parseTimedelta (parseDuration : String → Except δ Duration) (input : String) :
    DbProg δ TimeDelta :=
  match parseDuration input with
  | .error e => .err e
  | .ok duration => expect (TimeDelta.fromStd duration) "duration out of range"

structure CreateBucketArgs where
  name : String
  defaultTtl : Option TimeDelta

/-- A report that `main` ends with: of an argument that is refused, or of
"Creating the bucket failed". -/
inductive CommandError (δ : Type) where
  | usage (error : δ)
  | creating (error : FileCreateError)
  deriving DecidableEq, Repr

/-- `Args::parse` for `maintenance create-bucket NAME [TTL]`. -/
def CreateBucketArgs.parse (parseDuration : String → Except δ Duration) (name : String)
    (defaultTtl : Option String) : DbProg (CommandError δ) CreateBucketArgs :=
  match defaultTtl with
  | none => .ret ⟨name, none⟩
  | some input => do
    let ttl ← (parseTimedelta parseDuration input).mapErr .usage
    return ⟨name, some ttl⟩

def runMaintenance (args : CreateBucketArgs) : DbProg (CommandError δ) Unit := do
  let _ ← (PostgresBackend.createBucket args.name args.defaultTtl).mapErr .creating
  return ()

/-- `maintenance create-bucket`: no statement is sent before the arguments are parsed. -/
def createBucketCommand (parseDuration : String → Except δ Duration) (name : String)
    (defaultTtl : Option String) : DbProg (CommandError δ) Unit := do
  let args ← CreateBucketArgs.parse parseDuration name defaultTtl
  runMaintenance args

/-- A bucket is created with the interval that its TTL is sent as, or an error leaves the database
as it was. -/
theorem runMaintenance_alone (name : String) (ttl : TimeDelta) (db : Db) :
    (∃ e : CommandError δ, runAlone (runMaintenance ⟨name, some ttl⟩) db = (.err e, db)) ∨
      ∃ id interval, Interval.ofTimeDelta ttl = some interval ∧
        (runAlone (runMaintenance (δ := δ) ⟨name, some ttl⟩) db).1 = .ok () ∧
        (runAlone (runMaintenance (δ := δ) ⟨name, some ttl⟩) db).2.findBucket name =
          some ⟨id, name, some interval⟩ := by
  cases hsent : Interval.ofTimeDelta ttl with
  | none =>
    refine .inl ⟨.creating (.ofBucket ⟨PostgresBucket.createSql, .database⟩), ?_⟩
    simp only [runMaintenance, PostgresBackend.createBucket, PostgresBucket.create, hsent]
    rfl
  | some interval =>
    refine runAlone_of_wp (P := fun o db' => (∃ e, (o, db') = (.err e, db)) ∨
      ∃ id interval', some interval = some interval' ∧ o = .ok () ∧
        db'.findBucket name = some ⟨id, name, some interval'⟩) ?_
    simp only [runMaintenance, PostgresBackend.createBucket, PostgresBucket.create, hsent,
      Prog.bind_eq, Logic.wp_bind, Logic.wp_mapErr]
    cases hr : db.insertBucket name (some interval) with
    | error e =>
      have hs : Session.serve (fun _ => false) (.insertBucket name (some interval)) ⟨db, .idle⟩ =
          some (.error e, ⟨db, .idle⟩) := by
        rw [Session.serve, hr]
        rfl
      refine served hs ?_
      cases e <;> exact .inl ⟨_, rfl⟩
    | ok r =>
      obtain ⟨id, db'⟩ := r
      have hs : Session.serve (fun _ => false) (.insertBucket name (some interval)) ⟨db, .idle⟩ =
          some (.ok id, ⟨db', .idle⟩) := by
        rw [Session.serve, hr]
        rfl
      exact served hs (.inr ⟨id, interval, rfl, rfl, Db.findBucket_insertBucket hr⟩)

/-- The command ends in an error and changes nothing, or the bucket is found with the duration
that was given. -/
def Survives (parseDuration : String → Except δ Duration) (db : Db) (name input : String) : Prop :=
  (∃ e, runAlone (createBucketCommand parseDuration name (some input)) db = (.err e, db)) ∨
    ((runAlone (createBucketCommand parseDuration name (some input)) db).1 = .ok () ∧
      ∃ duration bucket ttl, parseDuration input = .ok duration ∧
        (runAlone (PostgresBucket.byName name)
          (runAlone (createBucketCommand parseDuration name (some input)) db).2).1 =
            .ok (some bucket) ∧
        bucket.defaultTtl = some ttl ∧ ttl.nanos = duration.toNanos)

section Command

variable {parseDuration : String → Except δ Duration} {name input : String} {db : Db}

theorem parseTimedelta_of_parsed {duration : Duration} (hp : parseDuration input = .ok duration) :
    parseTimedelta parseDuration input =
      expect (TimeDelta.fromStd duration) "duration out of range" := by
  rw [parseTimedelta, hp]

theorem parseTimedelta_ok {duration : Duration} (hp : parseDuration input = .ok duration)
    {ttl : TimeDelta} (ht : TimeDelta.fromStd duration = some ttl) :
    parseTimedelta parseDuration input = .ret ttl := by
  rw [parseTimedelta_of_parsed hp, ht]
  rfl

theorem parseTimedelta_panics {duration : Duration} (hp : parseDuration input = .ok duration)
    (ht : TimeDelta.fromStd duration = none) :
    parseTimedelta parseDuration input = .panic "duration out of range" := by
  rw [parseTimedelta_of_parsed hp, ht]
  rfl

theorem survives_of_refused {e : δ} (hp : parseDuration input = .error e) :
    Survives parseDuration db name input := by
  refine .inl ⟨.usage e, ?_⟩
  simp only [createBucketCommand, CreateBucketArgs.parse, parseTimedelta, hp]
  rfl

/-- A duration that chrono has. -/
theorem survives_of_parsed {duration : Duration} (hp : parseDuration input = .ok duration)
    {ttl : TimeDelta} (ht : TimeDelta.fromStd duration = some ttl) :
    Survives parseDuration db name input := by
  have command : createBucketCommand parseDuration name (some input) =
      runMaintenance ⟨name, some ttl⟩ := by
    rw [createBucketCommand, CreateBucketArgs.parse, parseTimedelta_ok hp ht]
    rfl
  rw [Survives, command]
  obtain ⟨e, he⟩ | ⟨id, interval, hsent, hok, hfound⟩ := runMaintenance_alone (δ := δ) name ttl db
  · exact .inl ⟨e, he⟩
  · refine .inr ⟨hok, duration, _, ttl, hp, byName_alone hfound, ?_, TimeDelta.fromStd_some ht⟩
    rw [Option.map_some, Interval.delta_ofTimeDelta hsent]

/-- `from_std` refuses what chrono does not have, and `expect` panics. -/
theorem createBucketCommand_panics {duration : Duration} (hp : parseDuration input = .ok duration)
    (ht : TimeDelta.fromStd duration = none) :
    runAlone (createBucketCommand parseDuration name (some input)) db =
      (.panic "duration out of range", db) := by
  rw [createBucketCommand, CreateBucketArgs.parse, parseTimedelta_panics hp ht]
  rfl

end Command

/-- A TTL survives or is refused, unless it parses to more than chrono's `i64::MAX` milliseconds. -/
theorem ttl_survives_iff (parseDuration : String → Except δ Duration) (db : Db)
    (name input : String) : Survives parseDuration db name input ↔
      ∀ duration, parseDuration input = .ok duration → duration.toNanos ≤ maxDelta := by
  cases hp : parseDuration input with
  | error e => exact iff_of_true (survives_of_refused hp) fun _ h => by cases h
  | ok duration =>
    cases ht : TimeDelta.fromStd duration with
    | none =>
      have large := TimeDelta.fromStd_eq_none.mp ht
      refine iff_of_false (fun h => ?_) fun h => (h duration rfl).not_gt large
      rw [Survives, createBucketCommand_panics hp ht] at h
      obtain ⟨e, he⟩ | ⟨hok, -⟩ := h
      · cases he
      · cases hok
    | some ttl =>
      refine iff_of_true (survives_of_parsed hp ht) fun _ h => ?_
      obtain rfl := Except.ok.inj h
      rw [← TimeDelta.fromStd_some ht]
      exact ttl.inRange.2

/-- `humantime` on a TTL of 10^16 seconds, some 317 million years. -/
def parseLong (input : String) : Except String Duration :=
  if input = "10000000000000000s" then .ok ⟨10000000000000000, 0⟩
  else .error "expected number at 0"

theorem long_ttl_panics :
    runAlone (createBucketCommand parseLong "bucket" (some "10000000000000000s")) (.migrated 0) =
        (.panic "duration out of range", .migrated 0) ∧
      ¬ Survives parseLong (.migrated 0) "bucket" "10000000000000000s" := by
  have parsed : parseLong "10000000000000000s" = .ok ⟨10000000000000000, 0⟩ := by decide
  have refused : TimeDelta.fromStd ⟨10000000000000000, 0⟩ = none := by decide
  have panics : runAlone (createBucketCommand parseLong "bucket" (some "10000000000000000s"))
      (.migrated 0) = (.panic "duration out of range", .migrated 0) :=
    createBucketCommand_panics parsed refused
  refine ⟨panics, fun h => ?_⟩
  rw [Survives, panics] at h
  obtain ⟨e, he⟩ | ⟨hok, -⟩ := h
  · cases he
  · cases hok

end LocallyEuclidean.Server
