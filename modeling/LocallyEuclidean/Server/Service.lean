import LocallyEuclidean.Interact.Parallel
import LocallyEuclidean.Server.Api

/-! The service as a whole. A request runs alone, or under a schedule of faults
and of what other clients commit, or beside other requests one statement at a
time. -/

namespace LocallyEuclidean.Server
open Interact Postgres Storage

inductive Request where
  | put (bucketName filename : String) (body : DataStream) (now : DateTime)
  | post (bucketName filename : String) (writeOffset : ℕ) (body : DataStream)
  | get (bucketName filename : String) (rooms : List ℕ+)

/-- The route of a request; only a download answers with a body. -/
def Request.handler : Request → DbProg ApiError (Option Response)
  | .put b f body now => do
    putWriteFilename b f body now
    return none
  | .post b f writeOffset body => do
    postAppendFilename b f writeOffset body
    return none
  | .get b f rooms => do
    let response ← getExplore b f rooms
    return some response

abbrev Answer := Outcome ApiError (Option Response)

/-- The status line a client sees, if it sees one at all. -/
def status {α : Type} : Outcome ApiError α → Option StatusCode
  | .ok _ => some .ok
  | .err e => some e.statusCode
  | .panic _ => none
  | .dropped => none

/-! One request at a time, nothing failing. -/

def serveAlone (q : Query) (s : Session) : Option q.Reply × Session :=
  match s.serve (fun _ => false) q with
  | some (a, s') => (some a, s')
  | none => (none, s)

/-- Whatever the program still holds at its end is rolled back. -/
def runAlone {ε α : Type} (p : DbProg ε α) (db : Db) : Outcome ε α × Db :=
  let (o, s) := run serveAlone p ⟨db, .idle⟩
  (o, s.db)

def serveRequest (db : Db) (r : Request) : Answer × Db := runAlone r.handler db

def serveAll (db : Db) : List Request → List Answer × Db
  | [] => ([], db)
  | r :: rs =>
    let (a, db') := serveRequest db r
    let (as, db'') := serveAll db' rs
    (a :: as, db'')

/-! A request under a schedule: before each of its statements others commit, and
the statement itself may fail or find its caller gone. -/

inductive Event where
  | tick (now : Timestamp)
  /-- The commit of what another transaction has written, wherever it had sought to. -/
  | written (writes : List Write)
  | expired (tie : FileId → ℕ)

def Event.apply : Event → Db → Db
  | .tick now, db => { db with clock := now }
  | .written writes, db =>
    -- Postgres has refused a larger write.
    if writes.all fun w => w.pos + w.data.length ≤ maxObjectSize then db.commit ⟨none, writes⟩
    else db
  | .expired tie, db =>
    match db.deleteOldFilesBatch tie with
    | .ok (_, db') => db'
    | .error _ => db

/-- A statement that fails has had no effect. `dropped took`: the request's future is dropped
while it awaits the statement, which has taken effect or has not. -/
inductive Fault where
  | none
  | fails
  | dropped (took : Bool)
  deriving DecidableEq, Repr

structure Slot where
  events : List Event
  fault : Fault

/-- What happens around the statement of each index. -/
abbrev Schedule := ℕ → Slot

def calm : Schedule := fun _ => ⟨[], .none⟩

structure Scheduled where
  session : Session
  index : ℕ

/-- The statements that run in the caller's transaction. -/
def Query.inTx : Query → Bool
  | .loOpen _ _ | .loLseek64 _ _ _ | .loRead _ _ | .loWrite _ _ | .loClose _ | .updatedAt _
  | .commitTx => true
  | _ => false

/-- A failed statement changes nothing that is committed. -/
def failed (q : Query) (s : Session) : q.Reply × Session :=
  (.error .database, if Query.inTx q then { s with conn := .failed } else s)

/-- The session as a statement meets it, after what the others have committed. -/
def meet (sched : Schedule) (w : Scheduled) : Session :=
  { w.session with db := (sched w.index).events.foldl (fun db e => e.apply db) w.session.db }

def scheduled (sched : Schedule) (q : Query) (w : Scheduled) : Option q.Reply × Scheduled :=
  let s := meet sched w
  match (sched w.index).fault with
  | .none => let (a, s') := serveAlone q s; (a, ⟨s', w.index + 1⟩)
  | .fails => let (a, s') := failed q s; (some a, ⟨s', w.index + 1⟩)
  | .dropped true => let (_, s') := serveAlone q s; (none, ⟨s', w.index + 1⟩)
  | .dropped false => (none, ⟨s, w.index + 1⟩)

/-- The statements of a request, each with the session as it met it. -/
def steps {ε α : Type} (sched : Schedule) (p : DbProg ε α) (db : Db) : List (Query × Session) :=
  (trace (scheduled sched) p ⟨⟨db, .idle⟩, 0⟩).map fun x => (x.1, meet sched x.2)

/-- The committed states of the database while a request runs: those that its statements meet, and
those in between. -/
def instants {ε α : Type} (sched : Schedule) (p : DbProg ε α) (db : Db) : List Db :=
  (trace (scheduled sched) p ⟨⟨db, .idle⟩, 0⟩).flatMap fun x =>
    (sched x.2.index).events.scanl (fun db e => e.apply db) x.2.session.db

def runScheduled {ε α : Type} (sched : Schedule) (p : DbProg ε α) (db : Db) : Outcome ε α × Db :=
  let (o, w) := run (scheduled sched) p ⟨⟨db, .idle⟩, 0⟩
  (o, w.session.db)

/-! Requests beside each other. -/

/-- A client whose write waits for another's transaction, and what became of it. -/
inductive Wait (n : ℕ) where
  | free
  | on (holder : Fin n)
  | lost
  deriving DecidableEq, Repr

/-- A statement that was answered without an error. -/
structure Record (n : ℕ) where
  client : Fin n
  query : Query

structure Shared (n : ℕ) where
  db : Db
  conns : Fin n → Conn
  waits : Fin n → Wait n
  /-- Newest first; the program never reads it. -/
  history : List (Record n)

namespace Shared

variable {n : ℕ}

def start (n : ℕ) (db : Db) : Shared n := ⟨db, fun _ => .idle, fun _ => .free, []⟩

def writes (s : Shared n) (i : Fin n) : List Write := (s.conns i).writes

/-- Another client's uncommitted write that locks a page of `w`. -/
def holder (s : Shared n) (i : Fin n) (w : Write) : Option (Fin n) :=
  (List.finRange n).find? fun j => j ≠ i ∧ (s.writes j).any w.overlaps

/-- The clients that wait for `i` go on: they have lost if `i` has committed. -/
def wake (s : Shared n) (i : Fin n) (committed : Bool) : Shared n :=
  { s with waits := fun j =>
      if s.waits j = .on i then (if committed then .lost else .free) else s.waits j }

/-- The page lock that the next write of client `i` runs into. -/
def blocker (s : Shared n) (i : Fin n) : Query → Option (Fin n)
  | .loWrite fd data =>
    match s.conns i with
    | .inTx tx =>
      match tx.lowrite fd data with
      | .ok (w, _) => s.holder i w
      | .error _ => none
    | _ => none
  | _ => none

def isCommit : Query → Bool
  | .commitTx => true
  | _ => false

def record (s : Shared n) (i : Fin n) (q : Query) (a : q.Reply) : Shared n :=
  match a with
  | .ok _ => { s with history := ⟨i, q⟩ :: s.history }
  | .error _ => s

/-- Client `i`'s statement: it waits for a page lock, fails after a lost wait, or
is served at once. -/
def serve (i : Fin n) (q : Query) (s : Shared n) : Option (Option q.Reply × Shared n) :=
  match s.waits i with
  | .on _ => none
  | .lost =>
    some (some (.error .writeConflict),
      { s with
        conns := Function.update s.conns i .failed
        waits := Function.update s.waits i .free })
  | .free =>
    match s.blocker i q with
    | some j => some (none, { s with waits := Function.update s.waits i (.on j) })
    | none =>
      match (Session.mk s.db (s.conns i)).serve (fun _ => false) q with
      | some (a, t) =>
        let s' : Shared n := { s with db := t.db, conns := Function.update s.conns i t.conn }
        some (some a, (if isCommit q then s'.wake i true else s').record i q a)
      | none => none

/-- Client `i` ends and drops its handle: an open transaction is rolled back. -/
def leave (i : Fin n) (s : Shared n) : Shared n :=
  { s with conns := Function.update s.conns i .idle }.wake i false

end Shared

def machine (n : ℕ) : Machine n Query.Reply (Shared n) Timestamp where
  serve := Shared.serve
  leave := Shared.leave
  env now s := { s with db := { s.db with clock := now } }

abbrev Pool (n : ℕ) := Interact.Pool n Query.Reply (Shared n) ApiError (Option Response)

/-- All requests have arrived and none has sent a statement. -/
def Pool.start {n : ℕ} (db : Db) (requests : Fin n → Request) : Pool n :=
  ⟨Shared.start n db, fun i => (requests i).handler⟩

def answer {n : ℕ} (p : Pool n) (i : Fin n) : Option Answer := (p.progs i).ended

/-- Every request has been answered. -/
def Finished {n : ℕ} (p : Pool n) : Prop := ∀ i, (answer p i).isSome

end LocallyEuclidean.Server
