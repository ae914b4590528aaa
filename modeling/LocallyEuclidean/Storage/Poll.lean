import LocallyEuclidean.Interact.Polling
import LocallyEuclidean.Storage.Blob

/-! `storage::postgres::blob` as tokio polls it: the handle with the future that is in
flight. A poll is given how many of the awaits of that future are over by then. -/

namespace LocallyEuclidean.Storage
open Interact Postgres

/-- What a future awaits: the lock on `inner`, which it may leave empty, or a statement. -/
inductive Await where
  | lock (take : Bool)
  | query (q : Query)

abbrev Await.Reply : Await → Type
  | .lock _ => Option BlobHandleInner
  | .query q => q.Reply

abbrev Future (α : Type) := Prog Await.Reply FileHandleError α

namespace Future

variable {α : Type}

def ofDb : DbProg FileHandleError α → Future α
  | .ret a => .ret a
  | .err e => .err e
  | .panic m => .panic m
  | .call q k => .call (.query q) fun a => ofDb (k a)

/-- `inner.lock_owned().await`, then the statements of an open handle. -/
def locked (take : Bool) (body : BlobHandleInner → DbProg FileHandleError α) : Future α :=
  .call (.lock take) fun inner => ofDb (do body (← BlobHandle.live ⟨inner⟩))

end Future

inductive FileHandleState where
  | reading (future : Future Bytes)
  | seeking (future : Future ℤ)
  | writing (future : Future ℤ)
  | shuttingDown (future : Future Unit)

/-- The source's `BlobHandle`, with its operation in progress. -/
structure PolledBlobHandle where
  inner : Option BlobHandleInner
  state : Option FileHandleState
  position : ℕ

abbrev PollState := PolledBlobHandle × Session

abbrev Polled (α : Type) := Poll (Outcome IoError α) × PollState

/-- What a poll function makes of the value of its future. -/
def Polled.andThen {α β : Type} (r : Polled α) (f : α → PollState → Outcome IoError β × PollState) :
    Polled β :=
  match r with
  | (.pending, w) => (.pending, w)
  | (.ready o, w) => (.ready (o.andThen f w).1, (o.andThen f w).2)

namespace PolledBlobHandle

def «open» (oid : Oid) (mode : OpenMode) : DbProg FileHandleError PolledBlobHandle := do
  let inner ← BlobHandleInner.open oid mode
  return ⟨some inner, none, 0⟩

def cancelled : String :=
  "postgres file handle future was cancelled in the middle of another operation"

variable (busy : Write → Bool)

/-- The lock is this handle's own: nobody else keeps it. -/
def serve : (a : Await) → Option BlobHandleInner × Session →
    Option (a.Reply × Option BlobHandleInner × Session)
  | .lock take, (inner, s) => some (inner, if take then none else inner, s)
  | .query q, (inner, s) => (s.serve busy q).map fun r => (r.1, inner, r.2)

variable {α : Type} (awaits : ℕ)

/-- `ready!(future.as_mut().poll(cx))`, and `state = None` once it is ready. -/
def pollFuture (state : Future α → FileHandleState) (future : Future α) (w : PollState) : Polled α :=
  match Prog.poll (serve busy) awaits (future, w.1.inner, w.2) with
  | (.ready o, _, inner, s) => (.ready (o.mapErr .other), { w.1 with inner := inner, state := none }, s)
  | (.pending, rest, inner, s) =>
    (.pending, { w.1 with inner := inner, state := some (state rest) }, s)

def pollReading (room : ℕ) (future : Future Bytes) (w : PollState) : Polled Bytes :=
  (pollFuture busy awaits .reading future w).andThen fun data w =>
    (if data.length ≤ room then .ok data else .panic "buf.len() must fit in remaining()", w)

/-- `poll_read` into a buffer with room for `room` bytes. -/
def pollRead (room : ℕ) (w : PollState) : Polled Bytes :=
  match w.1.state with
  | some (.reading future) => pollReading busy awaits room future w
  | some _ => (.ready (.panic cancelled), w)
  | none =>
    let remaining := min room (8 * mib)
    if remaining < 2 ^ 32 then
      pollReading busy awaits room (.locked false fun inner => inner.read remaining) w
    else (.ready (.panic "called Result::unwrap() on an Err value"), w)

/-- A seek starts whatever is in flight. -/
def startSeek (position : SeekFrom) (w : PollState) : PollState :=
  ({ w.1 with state := some (.seeking (.locked false fun inner => inner.lseek64 position)) }, w.2)

def pollComplete (w : PollState) : Polled ℕ :=
  match w.1.state with
  | some (.seeking future) =>
    (pollFuture busy awaits .seeking future w).andThen fun offset w =>
      if 0 ≤ offset then (.ok offset.toNat, { w.1 with position := offset.toNat }, w.2)
      else (.panic "postgres seek gives negative value", w)
  | some _ => (.ready (.panic cancelled), w)
  | none => (.ready (.ok w.1.position), w)

def pollWriting (future : Future ℤ) (w : PollState) : Polled ℕ :=
  (pollFuture busy awaits .writing future w).andThen fun written w =>
    (if 0 ≤ written then .ok written.toNat else .panic "wrote negative amount?", w)

def pollWrite (buf : Bytes) (w : PollState) : Polled ℕ :=
  match w.1.state with
  | some (.writing future) => pollWriting busy awaits future w
  | some _ => (.ready (.panic cancelled), w)
  | none => pollWriting busy awaits (.locked false fun inner => inner.write buf) w

/-- Nothing is buffered. -/
def pollFlush (w : PollState) : Polled Unit := (.ready (.ok ()), w)

def pollShuttingDown (future : Future Unit) (w : PollState) : Polled Unit :=
  pollFuture busy awaits .shuttingDown future w

def pollShutdown (w : PollState) : Polled Unit :=
  match w.1.state with
  | some (.shuttingDown future) => pollShuttingDown busy awaits future w
  | some _ => (.ready (.panic cancelled), w)
  | none => pollShuttingDown busy awaits (.locked true fun inner => inner.close) w

/-- tokio's `Seek`, with the position it has still to ask for. -/
def pollSeek : Option SeekFrom × PollState → Poll (Outcome IoError ℕ) × Option SeekFrom × PollState
  | (some position, w) =>
    match pollComplete busy awaits w with
    | (.ready (.ok _), w') =>
      let r := pollComplete busy awaits (startSeek position w')
      (r.1, none, r.2)
    | (r, w') => (r, some position, w')
  | (none, w) =>
    let r := pollComplete busy awaits w
    (r.1, none, r.2)

/-! What a poll does where its own kind of future is in flight, and where none is. -/

variable {busy}

theorem pollRead_going (n room : ℕ) (future : Future Bytes) (w : PollState)
    (hw : w.1.state = some (.reading future)) :
    pollRead busy n room w = pollReading busy n room future w := by
  simp only [pollRead, hw]

theorem pollRead_fresh (n room : ℕ) (w : PollState) (hw : w.1.state = none) :
    pollRead busy n room w = pollReading busy n room
      (.locked false fun inner => inner.read (min room (8 * mib))) w := by
  have hlt : min room (8 * mib) < 2 ^ 32 := lt_of_le_of_lt (min_le_right _ _) (by decide)
  simp only [pollRead, hw, if_pos hlt]

theorem pollWrite_going (n : ℕ) (buf : Bytes) (future : Future ℤ) (w : PollState)
    (hw : w.1.state = some (.writing future)) :
    pollWrite busy n buf w = pollWriting busy n future w := by
  simp only [pollWrite, hw]

theorem pollWrite_fresh (n : ℕ) (buf : Bytes) (w : PollState) (hw : w.1.state = none) :
    pollWrite busy n buf w = pollWriting busy n (.locked false fun inner => inner.write buf) w := by
  simp only [pollWrite, hw]

theorem pollComplete_going (n : ℕ) (future : Future ℤ) (w : PollState)
    (hw : w.1.state = some (.seeking future)) :
    pollComplete busy n w = (pollFuture busy n .seeking future w).andThen fun offset w =>
      if 0 ≤ offset then (.ok offset.toNat, { w.1 with position := offset.toNat }, w.2)
      else (.panic "postgres seek gives negative value", w) := by
  simp only [pollComplete, hw]

theorem andThen_ok (r : Polled α) : r.andThen (fun a w => (.ok a, w)) = r := by
  obtain ⟨_ | _ | _ | _ | _, w⟩ := r <;> rfl

theorem pollShutdown_going (n : ℕ) (future : Future Unit) (w : PollState)
    (hw : w.1.state = some (.shuttingDown future)) :
    pollShutdown busy n w =
      (pollFuture busy n .shuttingDown future w).andThen fun a w => (.ok a, w) := by
  simp only [pollShutdown, hw, pollShuttingDown, andThen_ok]

theorem pollShutdown_fresh (n : ℕ) (w : PollState) (hw : w.1.state = none) :
    pollShutdown busy n w = (pollFuture busy n .shuttingDown
      (.locked true fun inner => inner.close) w).andThen fun a w => (.ok a, w) := by
  simp only [pollShutdown, hw, pollShuttingDown, andThen_ok]

end PolledBlobHandle

end LocallyEuclidean.Storage
