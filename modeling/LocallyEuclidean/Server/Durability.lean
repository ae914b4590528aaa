import LocallyEuclidean.Server.Truncation

/-! The program one act at a time, whose statements may fail and whose callers may go away: what
is left of an act is nothing, or all that it does, or the empty entry of an upload. -/

namespace LocallyEuclidean.Server
open Interact Postgres Storage

/-- The caller cannot tell what has become of its act. -/
def Reply.Unsure : Reply → Prop
  | .answered code response => (code = none ∨ code = some .internalServerError) ∧ response = none
  | .bucket outcome => outcome = .refused
  | .names _ | .done => False
  | .failed => True

/-- A download whose connection is cut: its headers are right, and its chunks the first ones. -/
def Reply.CutOff (reply full : Reply) : Prop :=
  ∃ response chunks e, full = .answered (some .ok) (some response) ∧ chunks <+: response.body ∧
    reply = .answered (some .ok) (some { response with body := chunks, bodyEnd := .error e })

namespace Depot

/-- An upload has made its entry, and its body is not there. -/
def Begins (d : Depot) (act : Act) (d' : Depot) : Prop :=
  ∃ b f body now ttl due, act = .request (.put b f body now) ∧ d.ttl b = some ttl ∧
    deadline ttl now = some due ∧ due.any (· < minTimestamp) = false ∧ d.entries b f = none ∧
    d' = d.set b f ⟨[], due, d.clock⟩

/-- A step in which something has failed. -/
def Interrupted (d : Depot) (act : Act) (reply : Reply) (d' : Depot) : Prop :=
  (reply.Unsure ∧ (d' = d ∨ d.Begins act d' ∨ ∃ full, d.Step act full d')) ∨
    ∃ full, d.Step act full d' ∧ reply.CutOff full

/-- Only the clock cannot fail. -/
def StepUnder (d : Depot) (act : Act) (reply : Reply) (d' : Depot) : Prop :=
  d.Step act reply d' ∨ (∀ now, act ≠ .tick now) ∧ d.Interrupted act reply d'

def RunsUnder : Depot → List Act → List Reply → Depot → Prop
  | d, [], [], d' => d' = d
  | d, act :: acts, reply :: replies, d' =>
    ∃ d₁, d.StepUnder act reply d₁ ∧ RunsUnder d₁ acts replies d'
  | _, _, _, _ => False

/-- The induction over a run, from its end. -/
@[elab_as_elim]
theorem RunsUnder.induction {d' : Depot} {motive : List Act → Depot → Prop} (nil : motive [] d')
    (cons : ∀ {act acts reply d d₁}, d.StepUnder act reply d₁ → motive acts d₁ →
      motive (act :: acts) d)
    {acts : List Act} {replies : List Reply} {d : Depot} (h : d.RunsUnder acts replies d') :
    motive acts d := by
  induction acts generalizing d replies with
  | nil =>
    cases replies with
    | nil =>
      obtain rfl : d' = d := h
      exact nil
    | cons => exact h.elim
  | cons act acts ih =>
    cases replies with
    | nil => exact h.elim
    | cons reply replies =>
      obtain ⟨d₁, hstep, hrest⟩ := h
      exact cons hstep (ih hrest)

end Depot

/-- What the program makes of an act under a schedule of faults. -/
def Act.performUnder (sched : Schedule) : Act → Db → Reply × Db
  | .createBucket name ttl, db =>
    let (o, db') := runScheduled sched (PostgresBackend.createBucket name ttl) db
    (.bucket (.ofOutcome o), db')
  | .listBuckets order, db =>
    let (o, db') := runScheduled sched (PostgresBackend.listBuckets order) db
    (.ofNames o, db')
  | .request r, db =>
    let (o, db') := runScheduled sched r.handler db
    (.ofAnswer o, db')
  | .buck2Log filename rooms, db =>
    let (o, db') := runScheduled sched (getBuck2Log filename rooms) db
    (.ofAnswer (o.map some), db')
  | .deleteOld tie, db =>
    let (o, db') := runScheduled sched (PostgresBackend.deleteOldFilesBatch tie) db
    (.ofBatch o, db')
  | .tick now, db => (.done, { db with clock := now })

def performAllUnder (db : Db) : List (Act × Schedule) → List Reply × Db
  | [] => ([], db)
  | (act, sched) :: acts =>
    let (reply, db') := act.performUnder sched db
    let (replies, db'') := performAllUnder db' acts
    (reply :: replies, db'')

theorem performUnder_linked {sched : Schedule} {db : Db} (quiet : Quiet sched) (h : db.Linked)
    (act : Act) : (act.performUnder sched db).2.Linked := by
  cases act with
  | createBucket name ttl => exact runScheduled_linked quiet (PostgresBackend.createBucket name ttl) h
  | listBuckets order => exact runScheduled_linked quiet (PostgresBackend.listBuckets order) h
  | request r => exact runScheduled_linked quiet r.handler h
  | buck2Log filename rooms => exact runScheduled_linked quiet (getBuck2Log filename rooms) h
  | deleteOld tie => exact runScheduled_linked quiet (PostgresBackend.deleteOldFilesBatch tie) h
  | tick now => exact h.tick now

/-! Acts of a single statement. -/

section One

variable {ε α : Type} {sched : Schedule}

/-- A program of at most one statement, which ends in the error `e` if it fails. -/
def Brief (p : DbProg ε α) (e : ε) : Prop :=
  p.ended.isSome ∨ ∃ q k, p = .call q k ∧ (∀ a, (k a).ended.isSome) ∧ k (.error .database) = .err e

theorem isFailure_eq_false {q : Query} {a : q.Reply} (ha : a ≠ .error .database) :
    isFailure q a = false := by
  unfold isFailure
  split
  · exact absurd rfl ha
  · rfl

theorem brief_halts {q : Query} {k : q.Reply → DbProg ε α} {e : ε}
    (hk : ∀ a, (k a).ended.isSome) (he : k (.error .database) = .err e) :
    halting.logic.wp (.call q k) (fun o c => c = .failed → o = .dropped ∨ o = .err e) .going := by
  refine ⟨rfl, fun a => ?_⟩
  dsimp only
  by_cases ha : a = .error .database
  · rw [ha, he]
    exact fun _ => .inr rfl
  · have hnext : halting.next .going q a ≠ .failed := by
      simp only [halting, course, isFailure_eq_false ha, Bool.false_eq_true, if_false]
      split <;> simp
    have hend := hk a
    cases hp : k a with
    | call => simp [hp, Prog.ended] at hend
    | ret | err | panic => exact fun h => absurd h hnext

theorem brief_run (quiet : Quiet sched) {p : DbProg ε α} {e : ε} (hp : Brief p e) (db : Db) :
    runScheduled sched p db = runAlone p db ∨
      (((runScheduled sched p db).1 = .dropped ∨ (runScheduled sched p db).1 = .err e) ∧
        ((runScheduled sched p db).2 = db ∨ (runScheduled sched p db).2 = (runAlone p db).2)) := by
  obtain hend | ⟨q, k, rfl, hk, he⟩ := hp
  · obtain ⟨o, ho⟩ := Option.isSome_iff_exists.mp hend
    refine .inl ?_
    rw [runScheduled, runAlone, run_ended ho, run_ended ho]
  · obtain h | ⟨ho, s, hs, hdb⟩ := runScheduled_cases quiet (.inl rfl) (brief_halts hk he) db
    · exact .inl h
    · refine .inr ⟨ho, ?_⟩
      rw [hdb]
      exact (hs.one hk).imp (congrArg Session.db) (congrArg Session.db)

theorem createBucket_brief (name : String) (ttl : Option TimeDelta) :
    Brief (PostgresBackend.createBucket name ttl)
      (.ofBucket ⟨PostgresBucket.createSql, .database⟩) := by
  unfold PostgresBackend.createBucket PostgresBucket.create
  cases ttl with
  | none =>
    refine .inr ⟨_, _, rfl, fun a => ?_, rfl⟩
    rcases a with (_ | _ | _ | _) | id <;> rfl
  | some ttl =>
    cases hsent : Interval.ofTimeDelta ttl with
    | none =>
      simp only [hsent, Prog.bind_eq, Prog.bind]
      exact .inl rfl
    | some interval =>
      simp only [hsent, Prog.bind_eq, Prog.bind]
      refine .inr ⟨_, _, rfl, fun a => ?_, rfl⟩
      rcases a with (_ | _ | _ | _) | id <;> rfl

theorem listBuckets_brief (order : BucketId → ℕ) : Brief (PostgresBackend.listBuckets order)
    ⟨"select name from buckets", .database⟩ := by
  refine .inr ⟨_, _, rfl, fun a => ?_, rfl⟩
  cases a <;> rfl

theorem deleteOldFilesBatch_brief (tie : FileId → ℕ) :
    Brief (PostgresBackend.deleteOldFilesBatch tie) .database := by
  refine .inr ⟨_, _, rfl, fun a => ?_, rfl⟩
  cases a <;> rfl

end One

/-! What a fault leaves of an act, in the depot. -/

section Acts

variable {sched : Schedule} {db : Db}

theorem begun_depot (h : db.Linked) {r : Request} {db' : Db} (hb : Begun r db db') :
    (depot db).Begins (.request r) (depot db') := by
  obtain ⟨row, due, hb, ⟨b, f, body, now, rfl, hdue⟩, hd, hf, rfl⟩ := hb
  have hrow : rowOf db (b, f) = none := (rowOf_eq (k := (b, f)) hb).trans hf
  refine ⟨b, f, body, now, _, due, rfl, ?_, hdue, hd, entry_of_no_row (k := (b, f)) hrow, ?_⟩
  · rw [depot_ttl]
    exact congrArg (Option.map fun b => b.defaultTtl.map Interval.delta) hb
  · ext1
    · rfl
    · funext b' f'
      rw [Depot.set_entries]
      split
      · rename_i hk
        obtain ⟨rfl, rfl⟩ := hk
        have hnew := (Elsewhere.rowOf_withFile h hb hrow due (b', f')).trans (if_pos rfl)
        refine entry_of_row (k := (b', f')) hnew ?_
        simp [Db.withFile, Db.newRow]
      · rename_i hk
        have hne : (b', f') ≠ (b, f) := fun he => hk (Prod.mk.inj he)
        exact (Elsewhere.withFile h hb hrow due hne).entry
    · rfl

theorem unsure_ofAnswer {o : Answer} (h : Unsure o) : (Reply.ofAnswer o).Unsure := by
  refine ⟨h, ?_⟩
  cases o with
  | ok => simp [Unsure, status] at h
  | err | panic | dropped => rfl

theorem write_under (quiet : Quiet sched) (h : db.Linked) {r : Request} (hw : r.writes = true) :
    (depot db).StepUnder (.request r) ((Act.request r).performUnder sched db).1
      (depot ((Act.request r).performUnder sched db).2) := by
  have hstep := perform_refines h (.request r)
  obtain hsame | ⟨ho, s, hs, hdb⟩ :=
    runScheduled_cases quiet (.inl rfl) (handler_halts hw).unsure db
  · simp only [Act.performUnder, hsame]
    exact .inl hstep
  · simp only [Act.performUnder, hdb]
    refine .inr ⟨by simp, .inl ⟨unsure_ofAnswer ho, ?_⟩⟩
    obtain hsame | hb | hfull := upload_passes hw hs
    · rw [hsame]
      exact .inl rfl
    · exact .inr (.inl (begun_depot h hb))
    · rw [hfull]
      exact .inr (.inr ⟨_, hstep⟩)

theorem status_map {α β : Type} (f : α → β) (o : Outcome ApiError α) :
    status (o.map f) = status o := by
  cases o <;> rfl

theorem get_under (quiet : Quiet sched) (h : db.Linked) (b f : String) (rooms : List ℕ+) :
    let reply := Reply.ofAnswer ((runScheduled sched (getExplore b f rooms) db).1.map some)
    let full := ((depot db).serve (.get b f rooms)).1
    reply = full ∨ reply.Unsure ∨ reply.CutOff full := by
  intro reply full
  have hfull : Reply.ofAnswer ((runAlone (getExplore b f rooms) db).1.map some) = full := by
    have hreq := (request_depot h (.get b f rooms)).1
    rwa [serveRequest_get] at hreq
  obtain hsame | hunsure | ⟨chunks, e, hnone | ⟨resp, ho, hp, ho'⟩⟩ :=
    getExplore_cases quiet b f rooms db
  · refine .inl ?_
    rw [← hfull, ← hsame]
  · refine .inr (.inl (unsure_ofAnswer ?_))
    rwa [Unsure, status_map]
  · simp only [Reply.ofAnswer, status_map, hnone, full, Depot.serve] at hfull
    cases (Reply.answered.inj hfull).1
  · refine .inr (.inr ⟨resp, chunks, e, ?_, hp, ?_⟩)
    · rw [← hfull, ho]
      rfl
    · simp only [reply, ho']
      rfl

theorem runScheduled_get (db : Db) (b f : String) (rooms : List ℕ+) :
    runScheduled sched (Request.get b f rooms).handler db =
      ((runScheduled sched (getExplore b f rooms) db).1.map some,
        (runScheduled sched (getExplore b f rooms) db).2) := by
  simp only [runScheduled, Request.handler, Prog.bind_eq, run_bind]
  cases (run (scheduled sched) (getExplore b f rooms) ⟨⟨db, .idle⟩, 0⟩).1 <;> rfl

theorem brief_under {ε α : Type} (quiet : Quiet sched) {p : DbProg ε α} {e : ε} (hp : Brief p e)
    {act : Act} (ht : ∀ now, act ≠ .tick now) (reply : Outcome ε α → Reply)
    (hact : act.performUnder sched db =
      (reply (runScheduled sched p db).1, (runScheduled sched p db).2))
    (hfree : act.perform db = (reply (runAlone p db).1, (runAlone p db).2))
    (hd : (reply .dropped).Unsure) (he : (reply (.err e)).Unsure)
    (hstep : (depot db).Step act (act.perform db).1 (depot (act.perform db).2)) :
    (depot db).StepUnder act (act.performUnder sched db).1 (depot (act.performUnder sched db).2) := by
  rw [hact]
  rw [hfree] at hstep
  obtain hsame | ⟨ho, hdb⟩ := brief_run quiet hp db
  · rw [hsame]
    exact .inl hstep
  · refine .inr ⟨ht, .inl ⟨?_, ?_⟩⟩
    · obtain ho | ho := ho
      · exact ho ▸ hd
      · exact ho ▸ he
    · obtain hdb | hdb := hdb <;> rw [hdb]
      · exact .inl rfl
      · exact .inr (.inr ⟨_, hstep⟩)

/-- One act, whatever fails in it. -/
theorem performUnder_refines (quiet : Quiet sched) (h : db.Linked) (act : Act) :
    (depot db).StepUnder act (act.performUnder sched db).1 (depot (act.performUnder sched db).2) := by
  have hstep := perform_refines h act
  cases act with
  | createBucket name ttl =>
    exact brief_under quiet (createBucket_brief name ttl) (by simp)
      (fun o => .bucket (.ofOutcome o)) rfl rfl rfl rfl hstep
  | listBuckets order =>
    exact brief_under quiet (listBuckets_brief order) (by simp) .ofNames rfl rfl trivial trivial hstep
  | deleteOld tie =>
    exact brief_under quiet (deleteOldFilesBatch_brief tie) (by simp) .ofBatch rfl rfl trivial trivial
      hstep
  | request r =>
    cases hw : r.writes with
    | true => exact write_under quiet h hw
    | false =>
      cases r with
      | put | post => cases hw
      | get b f rooms =>
        simp only [Act.performUnder, runScheduled_get, getExplore_db quiet]
        obtain hr | hr | hr := get_under quiet h b f rooms
        · exact .inl ⟨hr, rfl⟩
        · exact .inr ⟨by simp, .inl ⟨hr, .inl rfl⟩⟩
        · exact .inr ⟨by simp, .inr ⟨_, ⟨rfl, rfl⟩, hr⟩⟩
  | buck2Log filename rooms =>
    have hdb := getExplore_db quiet "buck2_logs" ("flat/" ++ filename ++ ".pb.zst") rooms db
    simp only [Act.performUnder, getBuck2Log, hdb]
    obtain hr | hr | hr := get_under quiet h "buck2_logs" ("flat/" ++ filename ++ ".pb.zst") rooms
    · exact .inl ⟨hr, rfl⟩
    · exact .inr ⟨by simp, .inl ⟨hr, .inl rfl⟩⟩
    · exact .inr ⟨by simp, .inr ⟨_, ⟨rfl, rfl⟩, hr⟩⟩
  | tick now => exact .inl hstep

end Acts

/-- The induction over a run: the tables stay linked, and the depot goes along. -/
theorem performAllUnder_refines {db : Db} (h : db.Linked) {acts : List (Act × Schedule)}
    (quiet : ∀ x ∈ acts, Quiet x.2) :
    (performAllUnder db acts).2.Linked ∧
      (depot db).RunsUnder (acts.map Prod.fst) (performAllUnder db acts).1
        (depot (performAllUnder db acts).2) := by
  induction acts generalizing db with
  | nil => exact ⟨h, rfl⟩
  | cons x acts ih =>
    have hx := quiet x List.mem_cons_self
    obtain ⟨hl, hrun⟩ := ih (performUnder_linked hx h x.1)
      fun y hy => quiet y (List.mem_cons_of_mem _ hy)
    exact ⟨hl, _, performUnder_refines hx h x.1, hrun⟩

/-- Every run of the program is a run of its depot, in which what a fault meets is not done, or
done, or an upload that has got as far as its empty entry. -/
theorem service_refines_depot_under_faults {db : Db} (h : db.Linked) {acts : List (Act × Schedule)}
    (quiet : ∀ x ∈ acts, Quiet x.2) :
    (depot db).RunsUnder (acts.map Prod.fst) (performAllUnder db acts).1
      (depot (performAllUnder db acts).2) :=
  (performAllUnder_refines h quiet).2

/-- The last statement of an upload fails, the next upload is cut off behind its insert, and both
names are asked for. -/
def faultyActs : List (Act × Schedule) :=
  [(.request (.put "bucket" "meow" [.ok [109]] 0), fun k => ⟨[], if k = 7 then .fails else .none⟩),
    (.request (.put "bucket" "mew" [.ok [109]] 0),
      fun k => ⟨[], if k = 1 then .dropped true else .none⟩),
    (.request (.get "bucket" "meow" []), calm), (.request (.get "bucket" "mew" []), calm)]

theorem service_refines_depot_under_faults_meow :
    (depot (.created 0 "bucket" none)).RunsUnder (faultyActs.map Prod.fst)
      (performAllUnder (.created 0 "bucket" none) faultyActs).1
      (depot (performAllUnder (.created 0 "bucket" none) faultyActs).2) :=
  service_refines_depot_under_faults (Db.linked_created 0 "bucket" none) (by
    simp [faultyActs, Quiet, calm])

end LocallyEuclidean.Server
