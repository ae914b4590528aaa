import LocallyEuclidean.Postgres.Content
import LocallyEuclidean.Storage.Poll
import LocallyEuclidean.Storage.Rules

/-! The polled handle as a file cursor: however an operation is spread over its polls,
it does what it does in one go, and that is one step of a machine of bytes, a cursor
and an open flag. -/

namespace LocallyEuclidean.Storage
open Interact Postgres

/-- The positions that Rust's `SeekFrom` can hold. -/
def SeekFrom.Fits : SeekFrom → Prop
  | .start n => n < 2 ^ 64
  | .current n | .fromEnd n => -2 ^ 63 ≤ n ∧ n < 2 ^ 63

inductive FileOp where
  | read (room : ℕ)
  | write (data : Bytes)
  | seek (position : {p : SeekFrom // p.Fits})
  | shutdown

inductive FileResult where
  | read (result : Outcome IoError Bytes)
  | write (result : Outcome IoError ℕ)
  | seek (result : Outcome IoError ℕ)
  | shutdown (result : Outcome IoError Unit)
  deriving DecidableEq, Repr

namespace FileOp

variable (busy : Write → Bool)

/-- The operation polled until it is ready, with the same arguments every time. -/
def perform (ns : List ℕ) (w : PollState) : FileOp → Option (FileResult × PollState)
  | .read room => (polls (PolledBlobHandle.pollRead busy · room) ns w).map fun r => (.read r.1, r.2)
  | .write data => (polls (PolledBlobHandle.pollWrite busy · data) ns w).map fun r => (.write r.1, r.2)
  | .seek position =>
    (polls (PolledBlobHandle.pollSeek busy) ns (some position, w)).map fun r => (.seek r.1, r.2.2)
  | .shutdown => (polls (PolledBlobHandle.pollShutdown busy) ns w).map fun r => (.shutdown r.1, r.2)

/-- One operation after another, each with its own polls. -/
def performAll : List (FileOp × List ℕ) → PollState → Option (List FileResult × PollState)
  | [], w => some ([], w)
  | (op, ns) :: ops, w => do
    let (r, w') ← op.perform busy ns w
    let (rs, w'') ← performAll ops w'
    return (r :: rs, w'')

/-- The operation of the handle that is not polled. -/
def once (h : BlobHandle) (s : Session) : FileOp → FileResult × Session
  | .read room => Prod.map .read id (run (Prog.giveUp (Session.serve busy)) (h.read room) s)
  | .write data => Prod.map .write id (run (Prog.giveUp (Session.serve busy)) (h.write data) s)
  | .seek position => Prod.map .seek id (run (Prog.giveUp (Session.serve busy)) (h.seek position) s)
  | .shutdown => Prod.map .shutdown id (run (Prog.giveUp (Session.serve busy)) h.shutdown s)

/-- What the operation leaves behind its lock. -/
def leaves (inner : Option BlobHandleInner) : FileOp → Option BlobHandleInner
  | .shutdown => none
  | _ => inner

/-- One operation after another, none of them polled. -/
def onceAll : List FileOp → Option BlobHandleInner → Session →
    List FileResult × Option BlobHandleInner × Session
  | [], inner, s => ([], inner, s)
  | op :: ops, inner, s =>
    let (r, s') := op.once busy ⟨inner⟩ s
    let (rs, rest) := onceAll ops (op.leaves inner) s'
    (r :: rs, rest)

end FileOp

theorem BlobHandle.read_eq (h : BlobHandle) (room : ℕ) :
    h.read room = Prog.bind
      ((do (← h.live).read (min room (8 * mib)) : DbProg FileHandleError Bytes).mapErr .other)
      fun data => if data.length ≤ room then .ret data
        else .panic "buf.len() must fit in remaining()" :=
  if_pos (lt_of_le_of_lt (min_le_right _ _) (by decide))

namespace PolledBlobHandle

variable {busy : Write → Bool} {α β : Type}

theorem run_ofDb (p : DbProg FileHandleError α) (inner : Option BlobHandleInner) (s : Session) :
    run (Prog.giveUp (serve busy)) (Future.ofDb p) (inner, s) =
      ((run (Prog.giveUp (Session.serve busy)) p s).1, inner,
        (run (Prog.giveUp (Session.serve busy)) p s).2) := by
  induction p generalizing s with
  | ret a | err e | panic m => rfl
  | call q k ih =>
    rw [Future.ofDb, run, run]
    cases hs : s.serve busy q with
    | none => simp [Prog.giveUp, serve, hs]
    | some r =>
      simp only [Prog.giveUp, serve, hs, Option.map_some]
      exact ih _ _

theorem run_locked (take : Bool) (body : BlobHandleInner → DbProg FileHandleError α)
    (inner : Option BlobHandleInner) (s : Session) :
    run (Prog.giveUp (serve busy)) (Future.locked take body) (inner, s) =
      ((run (Prog.giveUp (Session.serve busy)) (do body (← BlobHandle.live ⟨inner⟩)) s).1,
        if take then none else inner,
        (run (Prog.giveUp (Session.serve busy)) (do body (← BlobHandle.live ⟨inner⟩)) s).2) := by
  rw [Future.locked, run]
  exact run_ofDb _ _ _

section Driven

variable {P : ℕ → PollState → Polled β} {state : Future α → FileHandleState}
  {f : α → PollState → Outcome IoError β × PollState}
  (going : ∀ n future w, w.1.state = some (state future) →
    P n w = (pollFuture busy n state future w).andThen f)
include going

/-- Polling the handle is polling the future that is in flight. -/
theorem polls_going (ns : List ℕ) (future : Future α) (w : PollState)
    (hw : w.1.state = some (state future)) :
    polls P ns w = (polls (Prog.poll (serve busy)) ns (future, w.1.inner, w.2)).map fun r =>
      (r.1.mapErr .other).andThen f ({ w.1 with inner := r.2.2.1, state := none }, r.2.2.2) := by
  induction ns generalizing future w with
  | nil => rfl
  | cons n ns ih =>
    rw [polls, polls, going n future w hw, pollFuture]
    rcases Prog.poll (serve busy) n (future, w.1.inner, w.2) with ⟨_ | o, rest, inner, s⟩
    · exact ih rest _ rfl
    · rfl

variable {future : Future α}
  (fresh : ∀ n w, w.1.state = none → P n w = (pollFuture busy n state future w).andThen f)
include fresh

theorem polls_fresh (ns : List ℕ) (w : PollState) (hw : w.1.state = none) :
    polls P ns w = (polls (Prog.poll (serve busy)) ns (future, w.1.inner, w.2)).map fun r =>
      (r.1.mapErr .other).andThen f ({ w.1 with inner := r.2.2.1, state := none }, r.2.2.2) := by
  cases ns with
  | nil => rfl
  | cons n ns =>
    rw [polls, polls, fresh n w hw, pollFuture]
    rcases Prog.poll (serve busy) n (future, w.1.inner, w.2) with ⟨_ | o, rest, inner, s⟩
    · exact polls_going going ns rest _ rfl
    · rfl

end Driven

/-- Once the first `poll_complete` has found nothing in flight, `Seek` polls its own future. -/
theorem polls_pollSeek (ns : List ℕ) (position : SeekFrom) (w : PollState) (hw : w.1.state = none) :
    polls (pollSeek busy) ns (some position, w) =
      (polls (pollComplete busy) ns (startSeek position w)).map fun r => (r.1, none, r.2) := by
  have started : ∀ ns w, polls (pollSeek busy) ns (none, w) =
      (polls (pollComplete busy) ns w).map fun r => (r.1, none, r.2) := by
    intro ns
    induction ns with
    | nil => exact fun w => rfl
    | cons n ns ih =>
      intro w
      rw [polls, polls, pollSeek]
      rcases pollComplete busy n w with ⟨_ | o, w'⟩
      · exact ih w'
      · rfl
  cases ns with
  | nil => rfl
  | cons n ns =>
    have idle : pollComplete busy n w = (.ready (.ok w.1.position), w) := by
      simp only [pollComplete, hw]
    rw [polls, polls, pollSeek, idle]
    dsimp only
    rcases pollComplete busy n (startSeek position w) with ⟨_ | o, w'⟩
    · exact started ns w'
    · rfl

/-- Both make the same of the value of the future. -/
theorem andThen_once {S : (q : Query) → Session → Option q.Reply × Session}
    {f : α → PollState → Outcome IoError β × PollState} {k : α → DbProg IoError β}
    (agree : ∀ a h s, ∃ position,
      f a (h, s) = ((run S (k a) s).1, { h with position := position }, (run S (k a) s).2))
    {x : Outcome IoError α} {h : PolledBlobHandle} {s : Session} {o : Outcome IoError β}
    {w : PollState} (hx : x.andThen f (h, s) = (o, w)) :
    x.andThen (fun a => run S (k a)) s = (o, w.2) ∧ w.1.state = h.state ∧ w.1.inner = h.inner := by
  cases x with
  | ok a =>
    obtain ⟨position, hf⟩ := agree a h s
    obtain ⟨rfl, rfl⟩ := Prod.mk.inj (hf.symm.trans hx)
    exact ⟨rfl, rfl, rfl⟩
  | err | panic | dropped =>
    obtain ⟨rfl, rfl⟩ := Prod.mk.inj hx
    exact ⟨rfl, rfl, rfl⟩

/-- A polled operation is one run of its statements, and leaves nothing in flight. -/
theorem run_of_polled {P : ℕ → PollState → Polled β}
    {f : α → PollState → Outcome IoError β × PollState} {take : Bool}
    {body : BlobHandleInner → DbProg FileHandleError α} {k : α → DbProg IoError β}
    {ns : List ℕ} {w w' : PollState} (driven : polls P ns w =
      (polls (Prog.poll (serve busy)) ns (Future.locked take body, w.1.inner, w.2)).map fun r =>
        (r.1.mapErr .other).andThen f ({ w.1 with inner := r.2.2.1, state := none }, r.2.2.2))
    (agree : ∀ a h s, ∃ position, f a (h, s) =
      ((run (Prog.giveUp (Session.serve busy)) (k a) s).1, { h with position := position },
        (run (Prog.giveUp (Session.serve busy)) (k a) s).2))
    {o : Outcome IoError β} (h : polls P ns w = some (o, w')) :
    run (Prog.giveUp (Session.serve busy))
        (((do body (← BlobHandle.live ⟨w.1.inner⟩) : DbProg FileHandleError α).mapErr .other).bind k)
        w.2 = (o, w'.2) ∧
      w'.1.state = none ∧ w'.1.inner = if take then none else w.1.inner := by
  rw [driven, Option.map_eq_some_iff] at h
  obtain ⟨⟨x, rest, inner, s⟩, hp, hx⟩ := h
  have hr := Prog.run_of_polls hp
  rw [run_locked] at hr
  obtain ⟨rfl, rfl, rfl⟩ : _ ∧ _ ∧ _ := by simpa only [Prod.mk.injEq] using hr
  rw [run_bind, run_mapErr]
  exact andThen_once agree hx

end PolledBlobHandle

namespace FileOp

variable {busy : Write → Bool} {ns : List ℕ} {w w' : PollState} {r : FileResult}

open PolledBlobHandle

/-- A polled operation does what the operation does, once, and leaves nothing in flight. -/
theorem perform_once {op : FileOp} (hw : w.1.state = none) (h : op.perform busy ns w = some (r, w')) :
    op.once busy ⟨w.1.inner⟩ w.2 = (r, w'.2) ∧ w'.1.state = none ∧
      w'.1.inner = op.leaves w.1.inner := by
  cases op with
  | read room =>
    obtain ⟨⟨o, w''⟩, hp, he⟩ := Option.map_eq_some_iff.mp h
    obtain ⟨rfl, rfl⟩ := Prod.mk.inj he
    obtain ⟨ho, hs⟩ := run_of_polled
      (polls_fresh (pollRead_going · room) (pollRead_fresh · room) ns w hw)
      (k := fun data => if data.length ≤ room then .ret data
        else .panic "buf.len() must fit in remaining()")
      (fun data h s => ⟨h.position, by split <;> rfl⟩) hp
    rw [once, BlobHandle.read_eq, ho]
    exact ⟨rfl, hs⟩
  | write data =>
    obtain ⟨⟨o, w''⟩, hp, he⟩ := Option.map_eq_some_iff.mp h
    obtain ⟨rfl, rfl⟩ := Prod.mk.inj he
    obtain ⟨ho, hs⟩ := run_of_polled
      (polls_fresh (pollWrite_going · data) (pollWrite_fresh · data) ns w hw)
      (k := fun written => if 0 ≤ written then .ret written.toNat else .panic "wrote negative amount?")
      (fun written h s => ⟨h.position, by split <;> rfl⟩) hp
    exact ⟨congrArg (Prod.map FileResult.write id) ho, hs⟩
  | seek position =>
    obtain ⟨⟨o, p, w''⟩, hp, he⟩ := Option.map_eq_some_iff.mp h
    obtain ⟨rfl, rfl⟩ := Prod.mk.inj he
    rw [polls_pollSeek ns _ w hw, Option.map_eq_some_iff] at hp
    obtain ⟨⟨o, w''⟩, hp, he⟩ := hp
    obtain ⟨rfl, -, rfl⟩ : _ ∧ _ ∧ _ := by simpa only [Prod.mk.injEq] using he
    obtain ⟨ho, hs⟩ := run_of_polled (polls_going pollComplete_going ns _ (startSeek position w) rfl)
      (k := fun offset => if 0 ≤ offset then .ret offset.toNat
        else .panic "postgres seek gives negative value")
      (fun offset h s => ⟨if 0 ≤ offset then offset.toNat else h.position, by split <;> rfl⟩) hp
    exact ⟨congrArg (Prod.map FileResult.seek id) ho, hs⟩
  | shutdown =>
    obtain ⟨⟨o, w''⟩, hp, he⟩ := Option.map_eq_some_iff.mp h
    obtain ⟨rfl, rfl⟩ := Prod.mk.inj he
    obtain ⟨ho, hs⟩ := run_of_polled (polls_fresh pollShutdown_going pollShutdown_fresh ns w hw)
      (k := .ret) (fun a h s => ⟨h.position, rfl⟩) hp
    rw [Prog.bind_ret] at ho
    exact ⟨congrArg (Prod.map FileResult.shutdown id) ho, hs⟩

end FileOp

/-- The error of a statement that failed. -/
def FileHandleError.Refused : FileHandleError → Prop
  | .queryFailed _ _ | .transactionCommitFailed _ _ => True
  | _ => False

def FileResult.Refused : FileResult → Prop
  | .read (.err (.other e)) | .write (.err (.other e)) | .seek (.err (.other e))
  | .shutdown (.err (.other e)) => e.Refused
  | _ => False

/-- A file that is open or has been shut down. -/
structure FileCursor where
  bytes : Bytes
  cursor : ℕ
  isOpen : Bool

namespace FileCursor

/-- Where a seek leads. -/
def target (m : FileCursor) : SeekFrom → ℤ
  | .start n => n
  | .current n => m.cursor + n
  | .fromEnd n => m.bytes.length + n

/-- Writing nothing does not extend the file up to the cursor. -/
def store (m : FileCursor) (data : Bytes) : Bytes :=
  if data = [] then m.bytes else patch 0 m.bytes m.cursor data

def stepOpen (m : FileCursor) : FileOp → FileResult × FileCursor
  | .read room =>
    let data := window m.bytes m.cursor (min room (8 * mib))
    (.read (.ok data), { m with cursor := m.cursor + data.length })
  | .write data =>
    (.write (.ok data.length), { m with bytes := m.store data, cursor := m.cursor + data.length })
  | .seek position =>
    (.seek (.ok (m.target position).toNat), { m with cursor := (m.target position).toNat })
  | .shutdown => (.shutdown (.ok ()), { m with isOpen := false })

def shut : FileOp → FileResult
  | .read _ => .read (.err (.other .isShutdown))
  | .write _ => .write (.err (.other .isShutdown))
  | .seek _ => .seek (.err (.other .isShutdown))
  | .shutdown => .shutdown (.err (.other .isShutdown))

def step (m : FileCursor) (op : FileOp) : FileResult × FileCursor :=
  if m.isOpen then m.stepOpen op else (shut op, m)

def run (m : FileCursor) : List FileOp → List FileResult × FileCursor
  | [] => ([], m)
  | op :: ops => ((m.step op).1 :: ((m.step op).2.run ops).1, ((m.step op).2.run ops).2)

/-- The transaction in which a descriptor is open on these bytes, at this cursor. -/
def Open (m : FileCursor) (s : Session) : Prop :=
  ∃ d ws, s.conn = .inTx ⟨some d, ws⟩ ∧ Tx.view ⟨some d, ws⟩ s.db d = m.bytes ∧ d.pos = m.cursor

/-- The handle and its session are in the machine's state, with nothing in flight. -/
structure Rep (m : FileCursor) (w : PollState) : Prop where
  idle : w.1.state = none
  opened : m.isOpen = true → w.1.inner = some ⟨0⟩ ∧ m.Open w.2
  closed : m.isOpen = false → w.1.inner = none

/-- Nothing comes back at the end of the file, and into an empty buffer, only. -/
theorem step_read_nil {m : FileCursor} (hm : m.isOpen = true) (room : ℕ) :
    (m.step (.read room)).1 = .read (.ok []) ↔ room = 0 ∨ m.bytes.length ≤ m.cursor := by
  rw [step, if_pos hm, stepOpen, FileResult.read.injEq, Outcome.ok.injEq]
  rcases Nat.eq_zero_or_pos room with rfl | hroom
  · simp [window]
  · rw [window_eq_nil (lt_min hroom (by decide)), or_iff_right hroom.ne']

variable {m : FileCursor} {s s' : Session} {r : FileResult}

/-- The logic of one operation with no other transaction about. -/
abbrev Free : Logic Query.Reply Session :=
  alone (Prog.giveUp (Session.serve fun _ => false)) fun _ => False

theorem free {q : Query} {a : q.Reply} {s t : Session}
    (hs : s.serve (fun _ => false) q = some (a, t)) {Φ : q.Reply → Session → Prop} (h : Φ a t) :
    Free.call q Φ s :=
  alone_call (by rw [Prog.giveUp, hs]) h

theorem once_read (h : m.Open s) (room : ℕ) :
    Free.wp (BlobHandle.read (.ofFd 0) room) (fun o s' =>
      FileResult.read o = (m.stepOpen (.read room)).1 ∧ (m.stepOpen (.read room)).2.Open s') s := by
  obtain ⟨db, conn⟩ := s
  obtain ⟨d, ws, rfl, hv, hp⟩ := h
  refine BlobHandle.wp_read (free (Session.serve_loRead _) ⟨_, rfl, ?_, ?_, _, ws, rfl, hv, ?_⟩)
  · exact (length_window_le _ _ _).trans (min_le_left _ _)
  · rw [stepOpen, hv, hp]
  · simp only [stepOpen, hv, hp]

theorem once_write (h : m.Open s) (data : Bytes) :
    Free.wp (BlobHandle.write (.ofFd 0) data) (fun o s' =>
      (FileResult.write o).Refused ∨ FileResult.write o = (m.stepOpen (.write data)).1 ∧
        (m.stepOpen (.write data)).2.Open s') s := by
  obtain ⟨db, conn⟩ := s
  obtain ⟨d, ws, rfl, hv, hp⟩ := h
  refine BlobHandle.wp_write ?_
  cases hw : Tx.lowrite ⟨some d, ws⟩ 0 data with
  | error e =>
    refine free (t := ⟨db, .failed⟩) ?_ (.inr ⟨e, rfl, .inl trivial⟩)
    simp only [Session.serve, Session.lowrite, hw]
  | ok r =>
    obtain ⟨w, n, tx'⟩ := r
    obtain ⟨d', hd, hm, -, rfl, rfl, rfl⟩ := Tx.lowrite_ok hw
    obtain rfl := Option.some.inj hd
    refine free (t := ⟨db, .inTx ⟨some { d with pos := d.pos + data.length }, _⟩⟩) (by
      simp only [Session.serve, Session.lowrite, hw, Bool.false_eq_true, if_false]; rfl)
      (.inl ⟨data.length, rfl, .inr ⟨rfl, _, _, rfl, ?_, ?_⟩⟩)
    · rw [Tx.view_readWrite d hm] at hv
      rw [Tx.view_readWrite { d with pos := d.pos + data.length } hm]
      simp only [stepOpen, store, ← hv, ← hp]
      split
      · rfl
      · simp [applyAll, Write.apply]
    · simp only [stepOpen, hp]

/-- `n as i64` is `n`, or before every file. -/
theorem asI64_cases {n : ℕ} (h : n < 2 ^ 64) : asI64 n = n ∨ asI64 n < 0 := by
  unfold asI64
  by_cases hn : n < 2 ^ 63
  · exact .inl (Int.bmod_eq_of_le (by omega) (by omega))
  · have hb : (n : ℤ).bmod (2 ^ 64) = (n : ℤ) - (2 ^ 64 : ℕ) := by
      rw [← Int.sub_bmod_right]
      exact Int.bmod_eq_of_le (by push_cast; omega) (by push_cast; omega)
    rw [hb]
    push_cast
    omega

/-- The arguments of the statement that a seek sends. -/
def sent : SeekFrom → ℤ × Whence
  | .start n => (asI64 n, .seekSet)
  | .current n => (n, .seekCur)
  | .fromEnd n => (n, .seekEnd)

/-- Where Postgres puts the cursor is where the machine does. -/
theorem serve_sent {db : Db} {d : Descriptor} {ws : List Write}
    (hv : Tx.view ⟨some d, ws⟩ db d = m.bytes) (hp : d.pos = m.cursor) {position : SeekFrom}
    (hf : position.Fits) : ∃ target : ℤ, (0 ≤ target → target = m.target position) ∧
      Session.serve (fun _ => false) (.loLseek64 0 (sent position).1 (sent position).2)
        ⟨db, .inTx ⟨some d, ws⟩⟩ = some
          (if 0 ≤ target ∧ target ≤ maxObjectSize then
            (.ok (some target), ⟨db, .inTx ⟨some { d with pos := target.toNat }, ws⟩⟩)
          else (.error .database, ⟨db, .failed⟩)) := by
  cases position with
  | start n =>
    have ha := asI64_cases hf
    simp only [sent]
    generalize asI64 n = k at ha ⊢
    exact ⟨k, fun h0 => ha.resolve_right (not_lt.mpr h0), Session.serve_seek rfl⟩
  | current n => exact ⟨d.pos + n, fun _ => by rw [target, hp], Session.serve_seek rfl⟩
  | fromEnd n => exact ⟨(Tx.view ⟨some d, ws⟩ db d).length + n, fun _ => by rw [target, hv],
      Session.serve_seek rfl⟩

/-- A seek in any logic that serves the statement: Postgres moves the cursor, or refuses. -/
theorem wp_seek_sent {L : Logic Query.Reply Session}
    (serves : ∀ {q : Query} {a : q.Reply} {s s' : Session}, s.serve (fun _ => false) q = some (a, s') →
      ∀ {Φ : q.Reply → Session → Prop}, Φ a s' → L.call q Φ s)
    {db : Db} {d : Descriptor} {ws : List Write} (hv : Tx.view ⟨some d, ws⟩ db d = m.bytes)
    (hp : d.pos = m.cursor) {position : SeekFrom} (hf : position.Fits)
    {post : Outcome IoError ℕ → Session → Prop}
    (hok : post (.ok (m.target position).toNat)
      ⟨db, .inTx ⟨some { d with pos := (m.target position).toNat }, ws⟩⟩)
    (herr : ∀ e s', post (.err (.other (.queryFailed "select lo_lseek64($1, $2, $3)" e))) s') :
    L.wp (BlobHandle.seek (.ofFd 0) position) post ⟨db, .inTx ⟨some d, ws⟩⟩ := by
  obtain ⟨target, ht, hs⟩ := serve_sent hv hp hf
  refine BlobHandle.wp_seek (n := (sent position).1) rfl ?_
  by_cases h0 : 0 ≤ target ∧ target ≤ maxObjectSize
  · rw [if_pos h0] at hs
    obtain rfl := ht h0.1
    have hk : (((m.target position).toNat : ℕ) : ℤ) = m.target position := Int.toNat_of_nonneg h0.1
    exact serves hs (.inl ⟨_, by rw [hk], hok⟩)
  · rw [if_neg h0] at hs
    exact serves hs (.inr ⟨_, rfl, herr _ _⟩)

theorem once_seek (h : m.Open s) {position : SeekFrom} (hf : position.Fits) :
    Free.wp (BlobHandle.seek (.ofFd 0) position) (fun o s' =>
      (FileResult.seek o).Refused ∨ FileResult.seek o = (m.stepOpen (.seek ⟨position, hf⟩)).1 ∧
        (m.stepOpen (.seek ⟨position, hf⟩)).2.Open s') s := by
  obtain ⟨db, conn⟩ := s
  obtain ⟨d, ws, rfl, hv, hp⟩ := h
  exact wp_seek_sent free hv hp hf (.inr ⟨rfl, _, ws, rfl, hv, rfl⟩) fun _ _ => .inl trivial

theorem once_shutdown (h : m.Open s) :
    Free.wp (BlobHandle.shutdown (.ofFd 0)) (fun o _ =>
      FileResult.shutdown o = (m.stepOpen .shutdown).1) s := by
  obtain ⟨db, conn⟩ := s
  obtain ⟨d, ws, rfl, hv, hp⟩ := h
  exact BlobHandle.wp_shutdown (free Session.serve_loClose ⟨⟨_, rfl⟩, free rfl ⟨rfl, rfl⟩⟩)

/-- One operation on an open handle. -/
theorem once_step (h : m.Open s) {op : FileOp}
    (ho : op.once (fun _ => false) (.ofFd 0) s = (r, s')) (hr : ¬ r.Refused) :
    r = (m.stepOpen op).1 ∧ (op ≠ .shutdown → (m.stepOpen op).2.Open s') := by
  have never {α : Type} {post : Outcome IoError α → Session → Prop} :
      ∀ s', False → post .dropped s' := fun _ => False.elim
  cases op with
  | read room =>
    obtain ⟨rfl, rfl⟩ := Prod.mk.inj ho
    obtain ⟨hx, hopen⟩ := wp_alone never (once_read h room)
    exact ⟨hx, fun _ => hopen⟩
  | write data =>
    obtain ⟨rfl, rfl⟩ := Prod.mk.inj ho
    obtain ⟨hx, hopen⟩ := (wp_alone never (once_write h data)).resolve_left hr
    exact ⟨hx, fun _ => hopen⟩
  | seek position =>
    obtain ⟨rfl, rfl⟩ := Prod.mk.inj ho
    obtain ⟨hx, hopen⟩ := (wp_alone never (once_seek h position.2)).resolve_left hr
    exact ⟨hx, fun _ => hopen⟩
  | shutdown =>
    obtain ⟨rfl, rfl⟩ := Prod.mk.inj ho
    exact ⟨wp_alone never (once_shutdown h), fun hne => absurd rfl hne⟩

/-- One operation on a handle that has been shut down. -/
theorem once_shut (op : FileOp) (s : Session) : op.once (fun _ => false) ⟨none⟩ s = (shut op, s) := by
  cases op with
  | read room => rw [FileOp.once, BlobHandle.read_eq]; rfl
  | _ => rfl

theorem isOpen_stepOpen {op : FileOp} (ho : op ≠ .shutdown) : (m.stepOpen op).2.isOpen = m.isOpen := by
  cases op with
  | shutdown => exact absurd rfl ho
  | _ => rfl

/-- One polled operation is one step of the machine. -/
theorem Rep.step {w w' : PollState} (h : m.Rep w) {op : FileOp} {ns : List ℕ}
    (hp : op.perform (fun _ => false) ns w = some (r, w')) (hr : ¬ r.Refused) :
    r = (m.step op).1 ∧ (m.step op).2.Rep w' := by
  obtain ⟨ho, hidle, hinner⟩ := FileOp.perform_once h.idle hp
  rw [FileCursor.step]
  cases hm : m.isOpen with
  | false =>
    rw [h.closed hm, once_shut] at ho
    obtain ⟨rfl, -⟩ := Prod.mk.inj ho
    have hnone : w'.1.inner = none := by
      rw [hinner, h.closed hm]
      cases op <;> rfl
    exact ⟨rfl, hidle, fun ht => absurd (hm.symm.trans ht) (by decide), fun _ => hnone⟩
  | true =>
    obtain ⟨hin, hopen⟩ := h.opened hm
    rw [hin] at ho hinner
    obtain ⟨hx, hgoes⟩ := once_step hopen ho hr
    refine ⟨hx, hidle, fun ht => ?_, fun hf => ?_⟩
    · have hne : op ≠ .shutdown := by
        rintro rfl
        cases ht
      refine ⟨?_, hgoes hne⟩
      cases op with
      | shutdown => exact absurd rfl hne
      | _ => exact hinner
    · have hshut : op = .shutdown := by
        by_contra hne
        rw [if_pos rfl, isOpen_stepOpen hne, hm] at hf
        cases hf
      rw [hinner, hshut]
      rfl

/-- A sequence of polled operations is a run of the machine. -/
theorem Rep.run {ops : List (FileOp × List ℕ)} {w w' : PollState} {rs : List FileResult}
    (h : m.Rep w) (hp : FileOp.performAll (fun _ => false) ops w = some (rs, w'))
    (hr : ∀ r ∈ rs, ¬ r.Refused) :
    rs = (m.run (ops.map Prod.fst)).1 ∧ (m.run (ops.map Prod.fst)).2.Rep w' := by
  induction ops generalizing m w rs with
  | nil =>
    obtain ⟨rfl, rfl⟩ := Prod.mk.inj (Option.some.inj hp)
    exact ⟨rfl, h⟩
  | cons o ops ih =>
    obtain ⟨op, ns⟩ := o
    simp only [FileOp.performAll, Option.bind_eq_bind, Option.bind_eq_some_iff] at hp
    obtain ⟨⟨r, w₁⟩, h₁, ⟨rs, w₂⟩, h₂, he⟩ := hp
    obtain ⟨rfl, rfl⟩ := Prod.mk.inj (Option.some.inj he)
    obtain ⟨rfl, hrep⟩ := h.step h₁ (hr _ List.mem_cons_self)
    obtain ⟨rfl, hend⟩ := ih hrep h₂ fun r hm => hr r (List.mem_cons_of_mem _ hm)
    exact ⟨rfl, hend⟩

/-- A handle that has just been opened. -/
theorem Rep.opened_handle {db : Db} {oid : Oid} {c : Bytes} (hc : db.objects oid = some c)
    (mode : OpenMode) (conn : Conn) :
    Free.wp (PolledBlobHandle.open oid mode) (fun o s => ∃ h, o = .ok h ∧ Rep ⟨c, 0, true⟩ (h, s))
      ⟨db, conn⟩ := by
  simp only [PolledBlobHandle.open, BlobHandleInner.open, Prog.bind_eq, Logic.wp_bind]
  refine wp_fetch (free (t := ⟨db, .inTx ⟨none, []⟩⟩) rfl ?_)
  simp only [fetched, Logic.after_ok, Logic.wp_bind]
  refine wp_fetch (free (Session.serve_loOpen mode.ofFlags_bits hc)
    ⟨_, rfl, rfl, fun _ => ⟨rfl, _, _, rfl, ?_, rfl⟩, fun hf => by cases hf⟩)
  exact Db.bytes_of_objects hc

end FileCursor

/-- A lock and at most two statements. -/
theorem Future.atMost_locked {α : Type} {take : Bool}
    {body : BlobHandleInner → DbProg FileHandleError α}
    (h : ∀ inner, (Future.ofDb (body inner)).AtMost 2) : (Future.locked take body).AtMost 3 := by
  intro inner
  cases inner with
  | none => trivial
  | some inner => exact h inner

theorem FileOp.perform_isSome {w : PollState} (hw : w.1.state = none) {ns : List ℕ}
    (hn : 3 ≤ ns.sum) (op : FileOp) : (op.perform (fun _ => false) ns w).isSome := by
  have answers : ∀ a w, (PolledBlobHandle.serve (fun _ => false) a w).isSome := by
    rintro (take | q) ⟨inner, s⟩
    · rfl
    · obtain ⟨r, hr⟩ := Session.serve_free q s
      simp [PolledBlobHandle.serve, hr]
  have hns : ns ≠ [] := by
    rintro rfl
    simp at hn
  have ends {α : Type} {take : Bool} {body : BlobHandleInner → DbProg FileHandleError α}
      (h : ∀ inner, (Future.ofDb (body inner)).AtMost 2) (w : Option BlobHandleInner × Session) :
      (polls (Prog.poll (PolledBlobHandle.serve fun _ => false)) ns
        (Future.locked take body, w)).isSome :=
    ((Future.atMost_locked h).mono hn).polls answers hns w
  cases op with
  | read room =>
    rw [perform, PolledBlobHandle.polls_fresh (PolledBlobHandle.pollRead_going · room)
      (PolledBlobHandle.pollRead_fresh · room) ns w hw, Option.isSome_map, Option.isSome_map]
    refine ends ?_ _
    rintro inner (e | _ | data) <;> trivial
  | write data =>
    rw [perform, PolledBlobHandle.polls_fresh (PolledBlobHandle.pollWrite_going · data)
      (PolledBlobHandle.pollWrite_fresh · data) ns w hw, Option.isSome_map, Option.isSome_map]
    refine ends ?_ _
    rintro inner (e | _ | written) <;> trivial
  | seek position =>
    rw [perform, PolledBlobHandle.polls_pollSeek ns _ w hw,
      PolledBlobHandle.polls_going PolledBlobHandle.pollComplete_going ns _
        (PolledBlobHandle.startSeek position w) rfl,
      Option.isSome_map, Option.isSome_map, Option.isSome_map]
    refine ends ?_ _
    rintro inner (e | _ | offset) <;> trivial
  | shutdown =>
    rw [perform, PolledBlobHandle.polls_fresh PolledBlobHandle.pollShutdown_going
      PolledBlobHandle.pollShutdown_fresh ns w hw, Option.isSome_map, Option.isSome_map]
    refine ends ?_ _
    rintro inner (e | _ | closed)
    · trivial
    · trivial
    · rintro (e | committed) <;> trivial

theorem FileOp.performAll_isSome {ops : List (FileOp × List ℕ)} (hn : ∀ o ∈ ops, 3 ≤ o.2.sum)
    {w : PollState} (hw : w.1.state = none) : (performAll (fun _ => false) ops w).isSome := by
  induction ops generalizing w with
  | nil => rfl
  | cons o ops ih =>
    obtain ⟨⟨r, w₁⟩, h₁⟩ := Option.isSome_iff_exists.mp
      (perform_isSome hw (hn o List.mem_cons_self) o.1)
    obtain ⟨⟨rs, w₂⟩, h₂⟩ := Option.isSome_iff_exists.mp
      (ih (fun o' ho => hn o' (List.mem_cons_of_mem _ ho)) (perform_once hw h₁).2.1)
    obtain ⟨op, ns⟩ := o
    simp [performAll, h₁, h₂]

/-- A handle of either mode is opened at the start of its object. Polled operations on a handle,
however often each was pending: they end, and as long as no statement fails they are a run of the
machine. -/
theorem polled_handle_is_cursor (ops : List (FileOp × List ℕ)) :
    (∀ {db : Db} {oid : Oid} {c : Bytes}, db.objects oid = some c → ∀ mode conn,
      FileCursor.Free.wp (PolledBlobHandle.open oid mode)
        (fun o s => ∃ h, o = .ok h ∧ FileCursor.Rep ⟨c, 0, true⟩ (h, s)) ⟨db, conn⟩) ∧
      ∀ {m : FileCursor} {w : PollState}, m.Rep w →
        ((∀ o ∈ ops, 3 ≤ o.2.sum) → (FileOp.performAll (fun _ => false) ops w).isSome) ∧
          ∀ rs w', FileOp.performAll (fun _ => false) ops w = some (rs, w') →
            (∀ r ∈ rs, ¬ r.Refused) →
              (rs = (m.run (ops.map Prod.fst)).1 ∧ (m.run (ops.map Prod.fst)).2.Rep w') ∧
                ∀ room, m.isOpen = true → ((m.step (.read room)).1 = .read (.ok []) ↔
                  room = 0 ∨ m.bytes.length ≤ m.cursor) :=
  ⟨FileCursor.Rep.opened_handle, fun h => ⟨fun hn => FileOp.performAll_isSome hn h.idle,
    fun _ _ hp hr => ⟨h.run hp hr, fun room hm => FileCursor.step_read_nil hm room⟩⟩⟩

/-- A write at the end, a seek back and a read, some of them pending for a while, then a
shutdown; the mode is called reading. -/
theorem polled_handle_is_cursor_meow :
    let db := (Db.migrated 0).store 16384 [109, 101]
    let opened := run (Prog.giveUp (Session.serve fun _ => false))
      (PolledBlobHandle.open 16384 .read) ⟨db, .idle⟩
    let m : FileCursor := ⟨[109, 101], 0, true⟩
    let ops : List (FileOp × List ℕ) := [(.seek ⟨.fromEnd 0, by decide, by decide⟩, [3]),
      (.write [111, 119], [0, 1, 2]), (.seek ⟨.current (-3), by decide, by decide⟩, [1, 2]),
      (.read 10, [3]), (.shutdown, [1, 1, 1]), (.read 1, [3])]
    let rs : List FileResult := [.seek (.ok 2), .write (.ok 2), .seek (.ok 1),
      .read (.ok [101, 111, 119]), .shutdown (.ok ()), .read (.err (.other .isShutdown))]
    ∃ h w', opened.1 = .ok h ∧
      FileOp.performAll (fun _ => false) ops (h, opened.2) = some (rs, w') ∧
      rs = (m.run (ops.map Prod.fst)).1 ∧ (m.run (ops.map Prod.fst)).2.Rep w' := by
  intro db opened m ops rs
  obtain ⟨hopen, hruns⟩ := polled_handle_is_cursor ops
  have stored : db.objects 16384 = some [109, 101] := by decide
  obtain ⟨h, ho, hrep⟩ := wp_alone (fun _ => False.elim) (hopen stored .read .idle)
  obtain rfl : PolledBlobHandle.mk (some ⟨0⟩) none 0 = h := Outcome.ok.inj ho
  have hrs : ∀ r ∈ rs, ¬ r.Refused := by
    simp [rs, FileResult.Refused, FileHandleError.Refused]
  have hrun : (FileOp.performAll (fun _ => false) ops
      (⟨some ⟨0⟩, none, 0⟩, opened.2)).map Prod.fst = some rs := by decide +kernel
  obtain ⟨⟨_, w'⟩, hp, rfl⟩ := Option.map_eq_some_iff.mp hrun
  exact ⟨_, w', rfl, hp, ((hruns hrep).2 _ w' hp hrs).1⟩

end LocallyEuclidean.Storage
