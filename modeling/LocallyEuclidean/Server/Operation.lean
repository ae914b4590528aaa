import LocallyEuclidean.Server.Amidst

/-! The program one act at a time, each running alone and any body failing where it may: it
is the depot that its database holds. -/

namespace LocallyEuclidean.Server
open Interact Postgres Storage

def BucketMade.ofOutcome : Outcome FileCreateError PostgresBucket → BucketMade
  | .ok _ => .made
  | .err .fileExists => .taken
  | _ => .refused

def Reply.ofNames : Outcome BucketError (List String) → Reply
  | .ok found => .names found
  | _ => .failed

def Reply.ofBatch : Outcome SqlxError Unit → Reply
  | .ok () => .done
  | _ => .failed

/-- What the program makes of an act. -/
def Act.perform : Act → Db → Reply × Db
  | .createBucket name ttl, db =>
    let (o, db') := runAlone (PostgresBackend.createBucket name ttl) db
    (.bucket (.ofOutcome o), db')
  | .listBuckets order, db =>
    let (o, db') := runAlone (PostgresBackend.listBuckets order) db
    (.ofNames o, db')
  | .request r, db =>
    let (o, db') := serveRequest db r
    (.ofAnswer o, db')
  | .buck2Log filename rooms, db =>
    let (o, db') := runAlone (getBuck2Log filename rooms) db
    (.ofAnswer (o.map some), db')
  | .deleteOld tie, db =>
    let (o, db') := runAlone (PostgresBackend.deleteOldFilesBatch tie) db
    (.ofBatch o, db')
  | .tick now, db => (.done, { db with clock := now })

def performAll (db : Db) : List Act → List Reply × Db
  | [] => ([], db)
  | act :: acts =>
    let (reply, db') := act.perform db
    let (replies, db'') := performAll db' acts
    (reply :: replies, db'')

theorem perform_linked {db : Db} (h : db.Linked) (act : Act) : (act.perform db).2.Linked := by
  cases act with
  | createBucket name ttl => exact runAlone_linked (PostgresBackend.createBucket name ttl) h
  | listBuckets order => exact runAlone_linked (PostgresBackend.listBuckets order) h
  | request r => exact serveRequest_linked h r
  | buck2Log filename rooms => exact runAlone_linked (getBuck2Log filename rooms) h
  | deleteOld tie => exact runAlone_linked (PostgresBackend.deleteOldFilesBatch tie) h
  | tick now => exact h.tick now

/-! What each act does to the depot. -/

section Acts

variable {db : Db}

/-- The insert of a bucket whose TTL Postgres can hold. -/
theorem insertBucket_depot (h : db.Linked) (name : String) (interval : Option Interval) :
    ((depot db).ttl name).isSome ∧
        Session.serve (fun _ => false) (.insertBucket name interval) ⟨db, .idle⟩ =
          some (.error .uniqueViolation, ⟨db, .idle⟩) ∨
      ((depot db).ttl name).isSome = false ∧ ∃ id db',
        Session.serve (fun _ => false) (.insertBucket name interval) ⟨db, .idle⟩ =
          some (.ok id, ⟨db', .idle⟩) ∧ depot db' = { depot db with
            buckets := (depot db).buckets ++ [(name, interval.map Interval.delta)] } := by
  rw [depot_ttl, Option.isSome_map, Session.serve]
  cases hr : db.insertBucket name interval with
  | error e =>
    unfold Db.insertBucket at hr
    split at hr
    · rename_i hb
      obtain rfl := Except.error.inj hr
      exact .inl ⟨hb, rfl⟩
    · cases hr
  | ok r =>
    obtain ⟨id, db'⟩ := r
    refine .inr ⟨?_, id, db', rfl, depot_insertBucket h hr⟩
    unfold Db.insertBucket at hr
    split at hr
    · cases hr
    · rename_i hb
      simpa using hb

theorem createBucket_depot (h : db.Linked) (name : String) (ttl : Option TimeDelta) :
    BucketMade.ofOutcome (runAlone (PostgresBackend.createBucket name ttl) db).1 =
        ((depot db).createBucket name ttl).1 ∧
      depot (runAlone (PostgresBackend.createBucket name ttl) db).2 =
        ((depot db).createBucket name ttl).2 := by
  refine runAlone_of_wp (P := fun o db' => BucketMade.ofOutcome o = _ ∧ depot db' = _) ?_
  unfold Depot.createBucket PostgresBackend.createBucket PostgresBucket.create
  cases ttl with
  | none =>
    simp only [Prog.bind_eq, Prog.bind, Logic.wp_bind, Option.any_none, Bool.false_eq_true, if_false]
    obtain ⟨hb, hs⟩ | ⟨hb, id, db', hs, hd⟩ := insertBucket_depot h name none
    · rw [if_pos hb]
      exact served hs ⟨rfl, rfl⟩
    · rw [if_neg (by simp [hb])]
      exact served hs ⟨rfl, hd⟩
  | some ttl =>
    cases hsent : Interval.ofTimeDelta ttl with
    | none =>
      simp only [Option.any_some, hsent, Option.isNone_none, if_true]
      exact ⟨rfl, rfl⟩
    | some interval =>
      simp only [Prog.bind_eq, Prog.bind, Logic.wp_bind, Option.any_some, hsent, Option.isNone_some,
        Bool.false_eq_true, if_false]
      obtain ⟨hb, hs⟩ | ⟨hb, id, db', hs, hd⟩ := insertBucket_depot h name (some interval)
      · rw [if_pos hb]
        exact served hs ⟨rfl, rfl⟩
      · rw [if_neg (by simp [hb])]
        rw [Option.map_some, Interval.delta_ofTimeDelta hsent] at hd
        exact served hs ⟨rfl, hd⟩

/-- How a request has left the rest of the database that it began with. -/
structure SparesOthers (db₀ : Db) (r : Request) (s : Session) : Prop where
  linked : s.db.Linked
  bounded : s.conn.Bounded
  buckets : s.db.buckets = db₀.buckets
  clock : s.db.clock = db₀.clock
  others : ∀ k ≠ r.name, Elsewhere k db₀ s.db

/-- A request that runs alone runs amidst nobody. -/
theorem alone_amidst (r : Request) (q : Query) (t s : Session) (Φ : q.Reply → Session → Prop)
    (hv : t = s ∧ SparesOthers db r s) (h : (amidst r.name r.writes (· = db.clock)).call q Φ s) :
    Alone.call q (fun a t' => ∃ s', (t' = s' ∧ SparesOthers db r s') ∧ Φ a s') t := by
  obtain ⟨rfl, hv⟩ := hv
  obtain ⟨a, s', hs, hm, hΦ⟩ := h t.db ⟨hv.linked, hv.clock, .refl _ _⟩
  obtain ⟨hl, hc⟩ := Session.serve_linked hs hv.linked hv.bounded
  refine served hs ⟨s', ⟨rfl, hl, hc, hm.buckets.trans hv.buckets, hm.clock.trans hv.clock,
    fun k hk => ?_⟩, hΦ⟩
  obtain hsame | ⟨-, hothers⟩ := hm.others
  · rw [hsame]
    exact hv.others k hk
  · exact (hv.others k hk).trans (hothers k hk)

theorem request_depot (h : db.Linked) (r : Request) :
    Reply.ofAnswer (serveRequest db r).1 = ((depot db).serve r).1 ∧
      depot (serveRequest db r).2 = ((depot db).serve r).2 := by
  have start : SparesOthers db r ⟨db, .idle⟩ :=
    ⟨h, by simp [Conn.Bounded, Conn.writes], rfl, rfl, fun k _ => .refl k db⟩
  refine runAlone_of_wp (P := fun o db' => Reply.ofAnswer o = _ ∧ depot db' = _) (Logic.wp_mono ?_
    (Logic.wp_of_simulation (alone_amidst r) ⟨rfl, start⟩
      (handler_serves (T := (· = db.clock)) h rfl r)))
  rintro o _ ⟨s, ⟨rfl, hv⟩, t, rfl, ho, hentry⟩
  refine ⟨ho, ?_⟩
  ext1
  · rw [Depot.serve_buckets, depot, hv.buckets]
    rfl
  · funext b f
    by_cases hk : (b, f) = r.name
    · rw [← hk] at hentry
      exact hentry
    · exact (hv.others (b, f) hk).entry.trans ((depot db).serve_entries_of_ne r hk).symm
  · rw [Depot.serve_clock]
    exact hv.clock

theorem serveRequest_get (db : Db) (b f : String) (rooms : List ℕ+) :
    serveRequest db (.get b f rooms) = ((runAlone (getExplore b f rooms) db).1.map some,
      (runAlone (getExplore b f rooms) db).2) := by
  simp only [serveRequest, runAlone, Request.handler, Prog.bind_eq, run_bind]
  cases (run serveAlone (getExplore b f rooms) ⟨db, .idle⟩).1 <;> rfl

end Acts

/-- One act is one step of the depot. -/
theorem perform_refines {db : Db} (h : db.Linked) (act : Act) :
    (depot db).Step act (act.perform db).1 (depot (act.perform db).2) := by
  cases act with
  | createBucket name ttl =>
    obtain ⟨hm, hd⟩ := createBucket_depot h name ttl
    exact ⟨congrArg Reply.bucket hm, hd⟩
  | listBuckets order =>
    refine ⟨⟨db.listBuckets order, ?_, rfl⟩, rfl⟩
    simp only [depot, List.map_map]
    exact (List.perm_insertionSort _ _).map BucketRow.name
  | request r => exact request_depot h r
  | buck2Log filename rooms =>
    have hreq := request_depot h (.get "buck2_logs" ("flat/" ++ filename ++ ".pb.zst") rooms)
    rw [serveRequest_get] at hreq
    exact hreq
  | deleteOld tie =>
    simp only [Act.perform, deleteOldFilesBatch_alone h tie]
    exact ⟨rfl, swept_deleteBatch h tie⟩
  | tick now => exact ⟨rfl, rfl⟩

/-- Every run of the program is a run of its depot, and every answer is the depot's. -/
theorem service_refines_depot {db : Db} (h : db.Linked) (acts : List Act) :
    (depot db).Runs acts (performAll db acts).1 (depot (performAll db acts).2) := by
  induction acts generalizing db with
  | nil => exact rfl
  | cons act acts ih => exact ⟨_, perform_refines h act, ih (perform_linked h act)⟩

/-- A bucket that keeps files for a second, an upload that is cut, and one that is not. -/
def mewActs : List Act :=
  [.createBucket "bucket" (some ⟨1000000000, by decide⟩),
    .request (.put "bucket" "meow" [.ok [109], .error ()] 0),
    .request (.put "bucket" "mew" [.ok [109]] 0), .tick 2000000, .deleteOld fun _ => 0,
    .listBuckets fun _ => 0]

theorem service_refines_depot_mew :
    (depot (.migrated 0)).Runs mewActs (performAll (.migrated 0) mewActs).1
      (depot (performAll (.migrated 0) mewActs).2) :=
  service_refines_depot (Db.linked_migrated 0) mewActs

theorem get_entry {db : Db} (h : db.Linked) {bucketName filename : String} {e : Entry}
    (he : (depot db).entries bucketName filename = some e) (rooms : List ℕ+) :
    ((Act.request (.get bucketName filename rooms)).perform db).1 = .answered (some .ok)
      (some ⟨e.content.length, "application/octet-stream", e.updatedAt,
        (download e.content 0 rooms).1, (download e.content 0 rooms).2⟩) := by
  obtain ⟨hr, -⟩ := perform_refines h (.request (.get bucketName filename rooms))
  obtain ⟨f, hf, hk, -⟩ := (entry_eq_some h (k := (bucketName, filename))).mp he
  have hrow := rowOf_nameOf h hf
  rw [hk] at hrow
  obtain ⟨b, hb, -⟩ := rowOf_eq_some.mp hrow
  have ht : (depot db).ttl bucketName = some (b.defaultTtl.map Interval.delta) := by
    rw [depot_ttl, hb]
    rfl
  rw [hr, Depot.serve, Depot.get_present ht he]

end LocallyEuclidean.Server
