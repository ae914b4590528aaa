import LocallyEuclidean.Server.Main
import LocallyEuclidean.Server.Maintenance
import LocallyEuclidean.Server.Shared

/-! The whole service: its requests, the loop of `start_maintenance_tasks` beside them, the
maintenance command, which is another process on the same database, and the clock. -/

namespace LocallyEuclidean.Server
open Interact Postgres Storage

variable {δ : Type} {n : ℕ}

/-- How the statement of a batch ends. It may fail behind its commit, if the answer is lost. -/
inductive BatchEnd where
  | done
  | error (committed : Bool)
  deriving DecidableEq, Repr

def BatchEnd.commits : BatchEnd → Bool
  | .done => true
  | .error committed => committed

/-- Where the loop is: at its `select!`, at the statement of a batch, or behind its end. -/
inductive MaintenanceLoop where
  | selecting
  | deleting
  | left
  deriving DecidableEq, Repr

structure System (n : ℕ) where
  shared : Shared n
  /-- `terminate` is cancelled. -/
  cancelled : Bool
  loop : MaintenanceLoop
  /-- Every batch that was committed, newest first: when, and which rows it has deleted. The
  program never reads it. -/
  batches : List (Timestamp × List FileRow)

/-- What happens beside the requests. -/
inductive Happening where
  | tick (now : Timestamp)
  /-- `maintenance create-bucket`. -/
  | createBucket (name : String) (defaultTtl : Option String)
  /-- Ctrl-C cancels `terminate`. -/
  | interrupt
  /-- Either future of the `select!` is ready. -/
  | wake
  /-- The statement of the batch under way ends. -/
  | batch (tie : FileId → ℕ) (ending : BatchEnd)

namespace System

def start (n : ℕ) (db : Db) : System n := ⟨.start n db, false, .selecting, []⟩

def withDb (s : System n) (db : Db) : System n := { s with shared := { s.shared with db := db } }

/-- From the `select!` to the statement, unless `terminate.is_cancelled()`. -/
def wake (s : System n) : System n :=
  match s.loop with
  | .selecting => { s with loop := if s.cancelled then .left else .deleting }
  | _ => s

/-- From the statement back to the `select!`; an error is only logged. -/
def batch (tie : FileId → ℕ) (ending : BatchEnd) (s : System n) : System n :=
  match s.loop with
  | .deleting =>
    if ending.commits then
      let (_, db) := runAlone (PostgresBackend.deleteOldFilesBatch tie) s.shared.db
      { s.withDb db with
        loop := .selecting
        batches := (s.shared.db.clock, removed s.shared.db db) :: s.batches }
    else { s with loop := .selecting }
  | _ => s

def happen (parseDuration : String → Except δ Duration) (s : System n) : Happening → System n
  | .tick now => s.withDb { s.shared.db with clock := now }
  | .createBucket name ttl =>
    s.withDb (runAlone (createBucketCommand parseDuration name ttl) s.shared.db).2
  | .interrupt => { s with cancelled := true }
  | .wake => s.wake
  | .batch tie ending => s.batch tie ending

end System

def system (parseDuration : String → Except δ Duration) (n : ℕ) :
    Machine n Query.Reply (System n) Happening where
  serve i q s := (s.shared.serve i q).map fun (a, t) => (a, { s with shared := t })
  leave i s := { s with shared := s.shared.leave i }
  env e s := s.happen parseDuration e

abbrev SystemPool (n : ℕ) := Interact.Pool n Query.Reply (System n) ApiError (Option Response)

def SystemPool.start {n : ℕ} (db : Db) (requests : Fin n → Request) : SystemPool n :=
  ⟨.start n db, fun i => (requests i).handler⟩

section Part

variable (parseDuration : String → Except δ Duration)

theorem system_serve {i : Fin n} {q : Query} {s t : System n} {a : Option q.Reply} :
    (system parseDuration n).serve i q s = some (a, t) ↔
      ∃ t', s.shared.serve i q = some (a, t') ∧ t = { s with shared := t' } := by
  simp only [system, Option.map_eq_some_iff, Prod.exists, Prod.mk.injEq]
  constructor
  · rintro ⟨a', t', hs, rfl, rfl⟩
    exact ⟨t', hs, rfl⟩
  · rintro ⟨t', hs, rfl⟩
    exact ⟨a, t', hs, rfl, rfl⟩

/-- The requests with the clock alone are a part of it. -/
def Pool.within (s : System n) (p : Pool n) : SystemPool n :=
  ⟨{ s with shared := p.shared }, p.progs⟩

def Happening.ofTick : Action n Timestamp → Action n Happening
  | .step i => .step i
  | .env now => .env (.tick now)

theorem act_within (s : System n) {a : Action n Timestamp} {p p' : Pool n}
    (h : (machine n).act a p = some p') :
    (system parseDuration n).act (Happening.ofTick a) (p.within s) = some (p'.within s) := by
  cases a with
  | env now =>
    obtain rfl : { p with shared := (machine n).env now p.shared } = p' := by
      simpa [Machine.act] using h
    rfl
  | step i =>
    obtain ⟨q, k, hq, ⟨a, t, hs, rfl⟩ | ⟨t, hs, rfl⟩⟩ := (machine n).act_step h
    · have hs' : (system parseDuration n).serve i q { s with shared := p.shared } =
          some (some a, { s with shared := t }) := (system_serve parseDuration).mpr ⟨t, hs, rfl⟩
      have settled : (system parseDuration n).settle i (k a) { s with shared := t } =
          { s with shared := (machine n).settle i (k a) t } := by
        unfold Machine.settle
        split <;> rfl
      simp only [Happening.ofTick, Machine.act, Pool.within, hq, hs', settled]
    · have hs' : (system parseDuration n).serve i q { s with shared := p.shared } =
          some (none, { s with shared := t }) := (system_serve parseDuration).mpr ⟨t, hs, rfl⟩
      simp only [Happening.ofTick, Machine.act, Pool.within, hq, hs']

/-- Every interleaving of requests is one in which nothing else happens. -/
theorem run_within (s : System n) {as : List (Action n Timestamp)} {p p' : Pool n}
    (h : (machine n).run as p = some p') :
    (system parseDuration n).run (as.map Happening.ofTick) (p.within s) = some (p'.within s) := by
  induction as generalizing p with
  | nil =>
    obtain rfl : p = p' := by simpa [Machine.run] using h
    rfl
  | cons a as ih =>
    obtain ⟨q, ha, hq⟩ := Option.bind_eq_some_iff.mp (by simpa only [Machine.run] using h)
    rw [List.map_cons, Machine.run, act_within parseDuration s ha]
    exact ih hq

end Part

/-! The loop goes on until it is cancelled, through every batch that fails, and then it begins
none. -/

/-- What a statement of a request leaves alone. -/
theorem system_step {parseDuration : String → Except δ Duration} {i : Fin n} {p p' : SystemPool n}
    (ha : (system parseDuration n).act (.step i) p = some p') :
    p'.shared.cancelled = p.shared.cancelled ∧ p'.shared.loop = p.shared.loop ∧
      p'.shared.batches = p.shared.batches := by
  obtain ⟨q, k', hq, ⟨a, s, hs, rfl⟩ | ⟨s, hs, rfl⟩⟩ := (system parseDuration n).act_step ha
  · obtain ⟨t, -, rfl⟩ := (system_serve parseDuration).mp hs
    dsimp only
    unfold Machine.settle
    split <;> exact ⟨rfl, rfl, rfl⟩
  · obtain ⟨t, -, rfl⟩ := (system_serve parseDuration).mp hs
    exact ⟨rfl, rfl, rfl⟩

/-- How many batches commit, of those that the loop has begun; `deleting` is one under way. -/
def committedBatches (deleting : Bool) : List (Action n Happening) → ℕ
  | [] => 0
  | .env .wake :: as => committedBatches true as
  | .env (.batch _ ending) :: as => (deleting && ending.commits).toNat + committedBatches false as
  | _ :: as => committedBatches deleting as

/-- Once cancelled the loop begins no batch, and at most the one under way is committed. -/
def System.Ends (s t : System n) : Prop :=
  t.cancelled = true ∧ (t.batches = s.batches ∧ (t.loop = .deleting → s.loop = .deleting) ∨
    s.loop = .deleting ∧ t.loop ≠ .deleting ∧ ∃ b, t.batches = b :: s.batches)

theorem System.Ends.trans {s t u : System n} (h : s.Ends t) (h' : t.Ends u) : s.Ends u := by
  obtain ⟨-, ⟨hb, hl⟩ | ⟨hl, hne, b, hb⟩⟩ := h
  · obtain ⟨hc, ⟨hb', hl'⟩ | ⟨hl', hne', b, hb'⟩⟩ := h'
    · exact ⟨hc, .inl ⟨hb'.trans hb, fun h => hl (hl' h)⟩⟩
    · exact ⟨hc, .inr ⟨hl hl', hne', b, by rw [hb', hb]⟩⟩
  · -- the one under way is behind it, and there is no other
    obtain ⟨hc, ⟨hb', hl'⟩ | ⟨hl', -⟩⟩ := h'
    · exact ⟨hc, .inr ⟨hl, fun h => hne (hl' h), b, hb'.trans hb⟩⟩
    · exact absurd hl' hne

section Loop

variable {parseDuration : String → Except δ Duration} {a : Action n Happening}
  {as : List (Action n Happening)} {p p' : SystemPool n}

theorem act_ends (hc : p.shared.cancelled = true)
    (ha : (system parseDuration n).act a p = some p') : p.shared.Ends p'.shared := by
  cases a with
  | step i =>
    obtain ⟨hcancelled, hl, hb⟩ := system_step ha
    exact ⟨hcancelled.trans hc, .inl ⟨hb, fun h => hl.symm.trans h⟩⟩
  | env e =>
    obtain rfl : { p with shared := p.shared.happen parseDuration e } = p' := by
      simpa [Machine.act, system] using ha
    cases e with
    | tick | createBucket => exact ⟨hc, .inl ⟨rfl, id⟩⟩
    | interrupt => exact ⟨rfl, .inl ⟨rfl, id⟩⟩
    | wake =>
      simp only [System.happen, System.wake]
      split
      · exact ⟨hc, .inl ⟨rfl, fun h => by simp [hc] at h⟩⟩
      · exact ⟨hc, .inl ⟨rfl, id⟩⟩
    | batch tie ending =>
      simp only [System.happen, System.batch]
      split
      · rename_i hl
        cases ending.commits with
        | true => exact ⟨hc, .inr ⟨hl, by simp, _, rfl⟩⟩
        | false => exact ⟨hc, .inl ⟨rfl, fun _ => hl⟩⟩
      · exact ⟨hc, .inl ⟨rfl, id⟩⟩

theorem run_ends (hc : p.shared.cancelled = true)
    (hr : (system parseDuration n).run as p = some p') : p.shared.Ends p'.shared := by
  induction as generalizing p with
  | nil =>
    obtain rfl : p = p' := by simpa [Machine.run] using hr
    exact ⟨hc, .inl ⟨rfl, id⟩⟩
  | cons a as ih =>
    obtain ⟨q, ha, hq⟩ := Option.bind_eq_some_iff.mp (by simpa only [Machine.run] using hr)
    have ends := act_ends hc ha
    exact ends.trans (ih ends.1 hq)

/-- The loop is cancelled, or goes on, and counts what it commits. -/
theorem act_goes (hl : p.shared.loop ≠ .left)
    (ha : (system parseDuration n).act a p = some p') : p'.shared.cancelled = true ∨
      p'.shared.loop ≠ .left ∧ ∀ as, p'.shared.batches.length +
          committedBatches (decide (p'.shared.loop = .deleting)) as =
        p.shared.batches.length +
          committedBatches (decide (p.shared.loop = .deleting)) (a :: as) := by
  cases a with
  | step i =>
    obtain ⟨-, hloop, hb⟩ := system_step ha
    rw [hloop, hb]
    exact .inr ⟨hl, fun as => rfl⟩
  | env e =>
    obtain rfl : { p with shared := p.shared.happen parseDuration e } = p' := by
      simpa [Machine.act, system] using ha
    cases e with
    | tick | createBucket => exact .inr ⟨hl, fun as => rfl⟩
    | interrupt => exact .inl rfl
    | wake =>
      cases hc : p.shared.cancelled with
      | true => exact .inl (act_ends hc ha).1
      | false =>
        refine .inr ?_
        cases he : p.shared.loop with
        | left => exact absurd he hl
        | selecting | deleting => simp [System.happen, System.wake, he, hc, committedBatches]
    | batch tie ending =>
      refine .inr ?_
      cases he : p.shared.loop with
      | left => exact absurd he hl
      | selecting => simp [System.happen, System.batch, he, committedBatches]
      | deleting =>
        cases hc : ending.commits with
        | true => simp [System.happen, System.batch, he, hc, committedBatches, Nat.add_assoc]
        | false => simp [System.happen, System.batch, he, hc, committedBatches]

theorem run_goes (hl : p.shared.loop ≠ .left)
    (hr : (system parseDuration n).run as p = some p') : p'.shared.cancelled = true ∨
      p'.shared.loop ≠ .left ∧ p'.shared.batches.length =
        p.shared.batches.length + committedBatches (decide (p.shared.loop = .deleting)) as := by
  induction as generalizing p with
  | nil =>
    obtain rfl : p = p' := by simpa [Machine.run] using hr
    exact .inr ⟨hl, rfl⟩
  | cons a as ih =>
    obtain ⟨q, ha, hq⟩ := Option.bind_eq_some_iff.mp (by simpa only [Machine.run] using hr)
    obtain hc | ⟨hl', hcount⟩ := act_goes hl ha
    · exact .inl (run_ends hc hq).1
    · obtain hc | ⟨hne, hb⟩ := ih hl' hq
      · exact .inl hc
      · exact .inr ⟨hne, hb.trans (hcount as)⟩

end Loop

/-! What the maintenance command makes of a database. -/

/-- A TTL that is not negative. -/
def Forward (ttl : Option Interval) : Prop := ∀ interval, ttl = some interval → 0 ≤ interval.length

theorem forward_of_duration {duration : Duration} {ttl : TimeDelta} {interval : Interval}
    (ht : TimeDelta.fromStd duration = some ttl) (hi : Interval.ofTimeDelta ttl = some interval) :
    Forward (some interval) := by
  rintro _ ⟨⟩
  have hn := duration.toNanos_nonneg
  rw [← TimeDelta.fromStd_some ht, ← Interval.delta_ofTimeDelta hi, Interval.delta_nanos] at hn
  omega

theorem runMaintenance_effect (name : String) (defaultTtl : Option TimeDelta) (db : Db) :
    (runAlone (runMaintenance (δ := δ) ⟨name, defaultTtl⟩) db).2 = db ∨
      ∃ ttl id, db.insertBucket name ttl =
          .ok (id, (runAlone (runMaintenance (δ := δ) ⟨name, defaultTtl⟩) db).2) ∧
        ∀ interval, ttl = some interval → ∃ delta, defaultTtl = some delta ∧
          Interval.ofTimeDelta delta = some interval := by
  refine runAlone_of_wp (P := fun _ db' => db' = db ∨ ∃ ttl id,
    db.insertBucket name ttl = .ok (id, db') ∧ ∀ interval, ttl = some interval →
      ∃ delta, defaultTtl = some delta ∧ Interval.ofTimeDelta delta = some interval) ?_
  simp only [runMaintenance, PostgresBackend.createBucket, PostgresBucket.create, Prog.bind_eq,
    Logic.wp_bind, Logic.wp_mapErr]
  have insert : ∀ ttl, (∀ interval, ttl = some interval → ∃ delta, defaultTtl = some delta ∧
      Interval.ofTimeDelta delta = some interval) → ∃ a db',
        Session.serve (fun _ => false) (.insertBucket name ttl) ⟨db, .idle⟩ =
            some (a, ⟨db', .idle⟩) ∧
          (db' = db ∨ ∃ ttl id, db.insertBucket name ttl = .ok (id, db') ∧
            ∀ interval, ttl = some interval → ∃ delta, defaultTtl = some delta ∧
              Interval.ofTimeDelta delta = some interval) := by
    intro ttl httl
    cases hr : db.insertBucket name ttl with
    | error e => exact ⟨.error e, db, by rw [Session.serve, hr]; rfl, .inl rfl⟩
    | ok x => exact ⟨.ok x.1, x.2, by rw [Session.serve, hr]; rfl, .inr ⟨ttl, x.1, hr, httl⟩⟩
  cases defaultTtl with
  | none =>
    obtain ⟨a, db', hs, h⟩ := insert none (by simp)
    refine served hs ?_
    obtain (_ | _ | _ | _) | _ := a <;> exact h
  | some delta =>
    cases hi : Interval.ofTimeDelta delta with
    | none =>
      simp only [hi]
      exact .inl rfl
    | some interval =>
      obtain ⟨a, db', hs, h⟩ := insert (some interval) fun _ he => ⟨delta, rfl, hi.trans he⟩
      simp only [hi]
      refine served hs ?_
      obtain (_ | _ | _ | _) | _ := a <;> exact h

/-- The command makes a bucket, of a TTL that is not negative, or it changes nothing. -/
theorem createBucketCommand_effect (parseDuration : String → Except δ Duration) (name : String)
    (defaultTtl : Option String) (db : Db) :
    (runAlone (createBucketCommand parseDuration name defaultTtl) db).2 = db ∨
      ∃ ttl id, db.insertBucket name ttl =
          .ok (id, (runAlone (createBucketCommand parseDuration name defaultTtl) db).2) ∧
        Forward ttl := by
  cases defaultTtl with
  | none =>
    refine (runMaintenance_effect (δ := δ) name none db).imp id ?_
    rintro ⟨ttl, id, hr, httl⟩
    refine ⟨ttl, id, hr, fun interval he => ?_⟩
    obtain ⟨delta, hn, -⟩ := httl interval he
    cases hn
  | some input =>
    cases hp : parseDuration input with
    | error e =>
      refine .inl ?_
      simp only [createBucketCommand, CreateBucketArgs.parse, parseTimedelta, hp]
      rfl
    | ok duration =>
      cases ht : TimeDelta.fromStd duration with
      | none => exact .inl (by rw [createBucketCommand_panics hp ht])
      | some delta =>
        have command : createBucketCommand parseDuration name (some input) =
            runMaintenance ⟨name, some delta⟩ := by
          rw [createBucketCommand, CreateBucketArgs.parse, parseTimedelta_ok hp ht]
          rfl
        rw [command]
        refine (runMaintenance_effect name (some delta) db).imp id ?_
        rintro ⟨ttl, id, hr, httl⟩
        refine ⟨ttl, id, hr, fun interval he => ?_⟩
        obtain ⟨_, ⟨⟩, hi⟩ := httl interval he
        exact forward_of_duration ht hi _ rfl

end LocallyEuclidean.Server
