import LocallyEuclidean.Storage.Cursor

/-! Operations that are abandoned while they are pending. Any calls follow each other on
one handle; `Belongs` is what each of them owes its caller. -/

namespace LocallyEuclidean.Storage
open Interact Postgres

inductive PollCall where
  | pollRead (room : ℕ)
  | startSeek (position : {p : SeekFrom // p.Fits})
  | pollComplete
  | pollWrite (buf : Bytes)
  | pollFlush
  | pollShutdown

inductive PollReply where
  | started
  | bytes (result : Poll (Outcome IoError Bytes))
  | number (result : Poll (Outcome IoError ℕ))
  | done (result : Poll (Outcome IoError Unit))
  deriving DecidableEq, Repr

/-- A call, with the awaits that are over by then and the pages that are locked; or what
other transactions make of the database. -/
inductive PollEvent where
  | call (c : PollCall) (awaits : ℕ) (busy : Write → Bool)
  | elsewhere (db : Db)

namespace PollCall

variable (busy : Write → Bool) (awaits : ℕ)

def step (w : PollState) : PollCall → PollReply × PollState
  | .pollRead room => Prod.map .bytes id (PolledBlobHandle.pollRead busy awaits room w)
  | .startSeek position => (.started, PolledBlobHandle.startSeek position w)
  | .pollComplete => Prod.map .number id (PolledBlobHandle.pollComplete busy awaits w)
  | .pollWrite buf => Prod.map .number id (PolledBlobHandle.pollWrite busy awaits buf w)
  | .pollFlush => Prod.map .done id (PolledBlobHandle.pollFlush w)
  | .pollShutdown => Prod.map .done id (PolledBlobHandle.pollShutdown busy awaits w)

end PollCall

def PollEvent.after (w : PollState) : PollEvent → PollState
  | .call c awaits busy => (c.step busy awaits w).2
  | .elsewhere db => (w.1, { w.2 with db := db })

/-- What the callers know of their seeks: the last one begun, until they are told where it
led, and the position they were last told. -/
structure Seeks where
  begun : Option {p : SeekFrom // p.Fits}
  told : ℕ

def Seeks.after (seeks : Seeks) : PollCall → PollReply → Seeks
  | .startSeek position, _ => { seeks with begun := some position }
  | .pollComplete, .number (.ready (.ok n)) => ⟨none, n⟩
  | .pollComplete, .number (.ready _) => { seeks with begun := none }
  | _, _ => seeks

/-- `data` has been written at the cursor, and nothing else has changed. -/
def Stored (data : Bytes) (s s' : Session) : Prop :=
  s'.db = s.db ∧ ∃ d ws, s.conn = .inTx ⟨some d, ws⟩ ∧
    s'.conn = .inTx ⟨some { d with pos := d.pos + data.length },
      if data = [] then ws else ws ++ [⟨d.oid, d.pos, data⟩]⟩

/-- `data` is what there was at the cursor, which is now past it; nothing comes into a buffer
with room at the end of the file only. -/
def Fetched (room : ℕ) (data : Bytes) (s s' : Session) : Prop :=
  s'.db = s.db ∧ data.length ≤ room ∧ ∃ d ws, s.conn = .inTx ⟨some d, ws⟩ ∧
    data <+: (Tx.view ⟨some d, ws⟩ s.db d).drop d.pos ∧
    (data = [] → room = 0 ∨ (Tx.view ⟨some d, ws⟩ s.db d).length ≤ d.pos) ∧
    s'.conn = .inTx ⟨some { d with pos := d.pos + data.length }, ws⟩

/-- The cursor has gone to `n`, and that is where `position` leads from where it was. -/
def Sought (position : SeekFrom) (n : ℕ) (s s' : Session) : Prop :=
  s'.db = s.db ∧ ∃ d ws, s.conn = .inTx ⟨some d, ws⟩ ∧
    (n : ℤ) = FileCursor.target ⟨Tx.view ⟨some d, ws⟩ s.db d, d.pos, true⟩ position ∧
    s'.conn = .inTx ⟨some { d with pos := n }, ws⟩

/-- All that the transaction has written is in the database, and the connection is free. -/
def Committed (s s' : Session) : Prop :=
  ∃ tx, s.conn = .inTx tx ∧ s' = ⟨s.db.commit tx, .idle⟩

/-- What a future has become after some of its awaits. -/
def Future.Continues {α : Type} (future future' : Future α) : Prop :=
  ∃ busy n w w', Prog.advance (PolledBlobHandle.serve busy) n future w = (future', w')

namespace FileHandleState

def isSeek : FileHandleState → Bool
  | .seeking _ => true
  | _ => false

inductive Continues : FileHandleState → FileHandleState → Prop
  | reading {f f' : Future Bytes} (h : f.Continues f') : Continues (.reading f) (.reading f')
  | seeking {f f' : Future ℤ} (h : f.Continues f') : Continues (.seeking f) (.seeking f')
  | writing {f f' : Future ℤ} (h : f.Continues f') : Continues (.writing f) (.writing f')
  | shuttingDown {f f' : Future Unit} (h : f.Continues f') :
      Continues (.shuttingDown f) (.shuttingDown f')

/-- The reply hands out the result of the future that was in flight. -/
def Delivers : FileHandleState → PollCall → PollReply → Prop
  | .reading _, .pollRead _, .bytes (.ready _) => True
  | .seeking _, .pollComplete, .number (.ready _) => True
  | .writing _, .pollWrite _, .number (.ready _) => True
  | .shuttingDown _, .pollShutdown, .done (.ready _) => True
  | _, _, _ => False

end FileHandleState

/-- A future of the operation `body`, before or after it has the lock. -/
def Future.Runs {α : Type} (body : BlobHandleInner → DbProg FileHandleError α)
    (future : Future α) : Prop :=
  future = .locked false body ∨ ∃ inner, future = .ofDb (body inner)

/-- Only a seek may be abandoned for a seek, a write for one that begins alike, and a read
of nothing for another of nothing. -/
def Careful (_ : Seeks) (c : PollCall) (w : PollState) (_ : PollReply × PollState) : Prop :=
  match c, w.1.state with
  | .startSeek _, some f => f.isSeek = true
  | .pollRead room, some (.reading future) => (future.Runs fun inner => inner.read 0) → room = 0
  | .pollWrite buf, some (.writing future) =>
    ∀ data, (future.Runs fun inner => inner.write data) → data <+: buf ∧ (data = [] → buf = [])
  | _, _ => True

/-- The last statement of `close`. -/
def BlobHandleInner.commit : DbProg FileHandleError Unit :=
  fetch .commitTx (.transactionCommitFailed "lo_close")

/-- A shutdown on its way; once `lo_close` is answered the transaction is still open. -/
inductive Future.Closes (s : Session) : Future Unit → Prop
  | begun : Closes s (.locked true fun inner => inner.close)
  | entered (inner : BlobHandleInner) : Closes s (.ofDb inner.close)
  | closed {tx : Tx} (h : s.conn = .inTx tx) : Closes s (.ofDb BlobHandleInner.commit)

/-- What is in flight was started by a call of this handle. -/
inductive Started (s : Session) : Option FileHandleState → Option {p : SeekFrom // p.Fits} → Prop
  | idle : Started s none none
  | reading {future : Future Bytes} {count : ℕ} (hc : count ≤ 8 * mib)
      (h : future.Runs fun inner => inner.read count) : Started s (some (.reading future)) none
  | seeking {future : Future ℤ} {position : {p : SeekFrom // p.Fits}}
      (h : future.Runs fun inner => inner.lseek64 position) :
      Started s (some (.seeking future)) (some position)
  | writing {future : Future ℤ} {data : Bytes} (h : future.Runs fun inner => inner.write data) :
      Started s (some (.writing future)) none
  | shuttingDown {future : Future Unit} (h : future.Closes s) :
      Started s (some (.shuttingDown future)) none

structure InFlight (seeks : Seeks) (w : PollState) : Prop where
  told : w.1.position = seeks.told
  started : Started w.2 w.1.state seeks.begun

/-- A `lowrite` that is answered takes its whole buffer. -/
theorem loWrite_stored {busy : Write → Bool} {fd : ℤ} {data : Bytes} {s s' : Session} {n : ℤ}
    (h : s.serve busy (.loWrite fd data) = some (.ok (some n), s')) :
    n = data.length ∧ Stored data s s' := by
  obtain ⟨tx, d, hc, hd, hn, rfl⟩ := Session.lowrite_ok h
  refine ⟨Option.some.inj hn, rfl, d, tx.writes, ?_, rfl⟩
  rw [hc, ← hd]

/-- A `loread` shows nothing if it is asked for nothing, or at the end. -/
theorem loRead_fetched {busy : Write → Bool} {fd : ℤ} {count room : ℕ} {data : Bytes}
    {s s' : Session} (h : s.serve busy (.loRead fd count) = some (.ok (some data), s'))
    (hroom : data.length ≤ room) (hcount : count = 0 → room = 0) : Fetched room data s s' := by
  obtain ⟨tx, tx', hc, ht, rfl⟩ := Session.onTx_ok (Option.some.inj h)
  obtain ⟨d, data', hd, -, hdata, hr, rfl⟩ := Tx.loread_ok ht
  obtain rfl := Option.some.inj hr
  have htx : tx = ⟨some d, tx.writes⟩ := by rw [← hd]
  rw [Int.toNat_natCast, htx] at hdata
  refine ⟨rfl, hroom, d, tx.writes, hc.trans (congrArg Conn.inTx htx), ?_, fun hnil => ?_, rfl⟩
  · rw [hdata]
    exact List.take_prefix _ _
  · rcases Nat.eq_zero_or_pos count with h0 | hpos
    · exact .inl (hcount h0)
    · exact .inr ((window_eq_nil hpos).mp (hdata.symm.trans hnil))

/-- Where `lo_lseek64` puts the cursor is where the seek leads. -/
theorem loLseek64_sought {busy : Write → Bool} {fd k : ℤ} {position : SeekFrom}
    (hf : position.Fits) {s s' : Session}
    (h : s.serve busy (.loLseek64 fd (FileCursor.sent position).1 (FileCursor.sent position).2) =
      some (.ok (some k), s')) : 0 ≤ k ∧ Sought position k.toNat s s' := by
  obtain ⟨tx, tx', hc, ht, rfl⟩ := Session.onTx_ok (Option.some.inj h)
  obtain ⟨d, hd, rfl⟩ : ∃ d, tx.descriptor = some d ∧ fd = 0 := by
    unfold Tx.lo_lseek64 at ht
    cases hfind : tx.find fd with
    | error e => simp [hfind, bind, Except.bind] at ht
    | ok d => exact ⟨d, Tx.find_ok hfind⟩
  have htx : tx = ⟨some d, tx.writes⟩ := by rw [← hd]
  obtain ⟨db, conn⟩ := s
  obtain rfl : conn = .inTx ⟨some d, tx.writes⟩ := hc.trans (congrArg Conn.inTx htx)
  obtain ⟨target, ht0, hs⟩ := FileCursor.serve_sent
    (m := ⟨Tx.view ⟨some d, tx.writes⟩ db d, d.pos, true⟩) rfl rfl hf
  have he := Option.some.inj (h.symm.trans hs)
  split at he
  · rename_i hin
    obtain ⟨hk, hs'⟩ := Prod.mk.inj he
    obtain rfl := Option.some.inj (Except.ok.inj hk)
    rw [hs']
    refine ⟨hin.1, rfl, d, tx.writes, rfl, ?_, rfl⟩
    rw [Int.toNat_of_nonneg hin.1]
    exact ht0 hin.1
  · cases (Prod.mk.inj he).1

namespace Future

variable {α : Type} {body : BlobHandleInner → DbProg FileHandleError α} {busy : Write → Bool}

theorem ended_ofDb (p : DbProg FileHandleError α) : (ofDb p).ended = p.ended := by
  cases p <;> rfl

/-- The next statement of a future: it has not been answered, or the rest goes on. -/
theorem advance_query {n : ℕ} {q : Query} {k : q.Reply → DbProg FileHandleError α}
    {i i' : Option BlobHandleInner} {s s' : Session} {p : Future α}
    (ha : Prog.advance (PolledBlobHandle.serve busy) n (ofDb (.call q k)) (i, s) = (p, i', s')) :
    (p = ofDb (.call q k) ∧ s' = s) ∨ ∃ a s₁ m, s.serve busy q = some (a, s₁) ∧
      Prog.advance (PolledBlobHandle.serve busy) m (ofDb (k a)) (i, s₁) = (p, i', s') := by
  rw [ofDb] at ha
  rcases Prog.advance_call n (.query q) (fun a => ofDb (k a)) (i, s) with he | ⟨a, w, m, hs, he⟩
  · obtain ⟨rfl, rfl, rfl⟩ : _ ∧ _ ∧ _ := by simpa only [Prod.mk.injEq] using he.symm.trans ha
    exact .inl ⟨rfl, rfl⟩
  · obtain ⟨⟨a', s₁⟩, hq, hw⟩ := Option.map_eq_some_iff.mp hs
    obtain ⟨rfl, rfl⟩ := Prod.mk.inj hw
    exact .inr ⟨a', s₁, m, hq, he.symm.trans ha⟩

theorem advance_locked {n : ℕ} {take : Bool} {i i' : Option BlobHandleInner} {s s' : Session}
    {p : Future α}
    (ha : Prog.advance (PolledBlobHandle.serve busy) n (locked take body) (i, s) = (p, i', s')) :
    (p = locked take body ∧ s' = s) ∨ (p.ended = some (.err .isShutdown) ∧ s' = s) ∨
      ∃ inner i₁ m, Prog.advance (PolledBlobHandle.serve busy) m (ofDb (body inner)) (i₁, s) =
        (p, i', s') := by
  rcases Prog.advance_call n (.lock take)
    (fun inner => ofDb (do body (← BlobHandle.live ⟨inner⟩))) (i, s) with he | ⟨a, w, m, hs, he⟩
  · obtain ⟨rfl, rfl, rfl⟩ : _ ∧ _ ∧ _ := by simpa only [Prod.mk.injEq] using he.symm.trans ha
    exact .inl ⟨rfl, rfl⟩
  · obtain ⟨rfl, rfl⟩ := Prod.mk.inj (Option.some.inj hs)
    have ha := he.symm.trans ha
    cases i with
    | none =>
      have hend : (ofDb (do body (← BlobHandle.live ⟨none⟩))).ended = some (.err .isShutdown) := rfl
      rw [Prog.advance_of_ended hend] at ha
      obtain ⟨rfl, -, rfl⟩ : _ ∧ _ ∧ _ := by simpa only [Prod.mk.injEq] using ha
      exact .inr (.inl ⟨hend, rfl⟩)
    | some inner => exact .inr (.inr ⟨inner, _, m, ha⟩)

/-- A future of one statement: it has not been sent, or it has been answered. -/
theorem Runs.advance {future : Future α} (h : future.Runs body)
    (one : ∀ inner, ∃ q k, body inner = .call q k ∧ ∀ a, (k a).ended.isSome) {n : ℕ}
    {i i' : Option BlobHandleInner} {s s' : Session} {p : Future α}
    (ha : Prog.advance (PolledBlobHandle.serve busy) n future (i, s) = (p, i', s')) :
    (p.Runs body ∧ s' = s) ∨ (p.ended = some (.err .isShutdown) ∧ s' = s) ∨
      ∃ inner q k a, body inner = .call q k ∧ s.serve busy q = some (a, s') ∧
        p.ended = (k a).ended := by
  -- once the lock is held
  have running : ∀ {n inner i}, Prog.advance (PolledBlobHandle.serve busy) n (ofDb (body inner))
      (i, s) = (p, i', s') → (p.Runs body ∧ s' = s) ∨ ∃ inner q k a, body inner = .call q k ∧
        s.serve busy q = some (a, s') ∧ p.ended = (k a).ended := by
    intro n inner i ha
    obtain ⟨q, k, hb, hk⟩ := one inner
    rw [hb] at ha
    rcases advance_query ha with ⟨rfl, rfl⟩ | ⟨a, s₁, m, hq, ha⟩
    · exact .inl ⟨.inr ⟨inner, by rw [hb]⟩, rfl⟩
    · obtain ⟨o, ho⟩ := Option.isSome_iff_exists.mp (hk a)
      rw [Prog.advance_of_ended ((ended_ofDb (k a)).trans ho)] at ha
      obtain ⟨rfl, rfl, rfl⟩ : _ ∧ _ ∧ _ := by simpa only [Prod.mk.injEq] using ha
      exact .inr ⟨inner, q, k, a, hb, hq, ended_ofDb _⟩
  rcases h with rfl | ⟨inner, rfl⟩
  · rcases advance_locked ha with ⟨rfl, rfl⟩ | hshut | ⟨inner, i₁, m, ha⟩
    · exact .inl ⟨.inl rfl, rfl⟩
    · exact .inr (.inl hshut)
    · exact (running ha).imp_right .inr
  · exact (running ha).imp_right .inr

/-- Such a future that has not ended is still one. -/
theorem Runs.pending {future : Future α} (h : future.Runs body)
    (one : ∀ inner, ∃ q k, body inner = .call q k ∧ ∀ a, (k a).ended.isSome) {n : ℕ}
    {w w' : Option BlobHandleInner × Session} {p : Future α}
    (ha : Prog.advance (PolledBlobHandle.serve busy) n future w = (p, w')) (hp : p.ended = none) :
    p.Runs body := by
  rcases h.advance one ha with ⟨hr, -⟩ | ⟨he, -⟩ | ⟨inner, q, k, a, hb, -, he⟩
  · exact hr
  · cases he.symm.trans hp
  · obtain ⟨q', k', hb', hk⟩ := one inner
    obtain ⟨rfl, hk'⟩ := Prog.call.inj (hb.symm.trans hb')
    obtain rfl := eq_of_heq hk'
    have := hk a
    rw [← he, hp] at this
    cases this

/-- Such a future that reports a value has had it from its statement. -/
theorem Runs.answered {future : Future α} (h : future.Runs body)
    (one : ∀ inner, ∃ q k, body inner = .call q k ∧ ∀ a, (k a).ended.isSome) {n : ℕ}
    {i i' : Option BlobHandleInner} {s s' : Session} {p : Future α} {x : α}
    (ha : Prog.advance (PolledBlobHandle.serve busy) n future (i, s) = (p, i', s'))
    (hp : p.ended = some (.ok x)) : ∃ inner q k a, body inner = .call q k ∧
      s.serve busy q = some (a, s') ∧ (k a).ended = some (.ok x) := by
  rcases h.advance one ha with ⟨hr, -⟩ | ⟨he, -⟩ | ⟨inner, q, k, a, hb, hs, he⟩
  · -- it has still to be sent
    obtain rfl | ⟨inner, rfl⟩ := hr
    · cases hp
    · obtain ⟨q, k, hb, -⟩ := one inner
      rw [hb] at hp
      cases hp
  · cases he.symm.trans hp
  · exact ⟨inner, q, k, a, hb, hs, he.symm.trans hp⟩

theorem one_read (count : ℕ) (inner : BlobHandleInner) :
    ∃ q k, inner.read count = .call q k ∧ ∀ a, (k a).ended.isSome :=
  ⟨_, _, rfl, by rintro (e | _ | data) <;> rfl⟩

theorem one_write (data : Bytes) (inner : BlobHandleInner) :
    ∃ q k, inner.write data = .call q k ∧ ∀ a, (k a).ended.isSome :=
  ⟨_, _, rfl, by rintro (e | _ | written) <;> rfl⟩

theorem lseek64_eq (position : SeekFrom) (inner : BlobHandleInner) :
    inner.lseek64 position = (do
      let result ← fetch (.loLseek64 inner.fdNum (FileCursor.sent position).1
        (FileCursor.sent position).2) (.queryFailed "select lo_lseek64($1, $2, $3)")
      okOr result .emptyLseek64) := by
  cases position <;> simp only [BlobHandleInner.lseek64, FileCursor.sent]

theorem one_seek (position : SeekFrom) (inner : BlobHandleInner) :
    ∃ q k, inner.lseek64 position = .call q k ∧ ∀ a, (k a).ended.isSome := by
  rw [lseek64_eq]
  exact ⟨_, _, rfl, by rintro (e | _ | offset) <;> rfl⟩

/-- The write that a future reports has been made, whole. -/
theorem Runs.writes {data : Bytes} {future : Future ℤ}
    (h : future.Runs fun inner => inner.write data) {n : ℕ} {i i' : Option BlobHandleInner}
    {s s' : Session} {p : Future ℤ} {k : ℤ}
    (ha : Prog.advance (PolledBlobHandle.serve busy) n future (i, s) = (p, i', s'))
    (hp : p.ended = some (.ok k)) : k = data.length ∧ Stored data s s' := by
  obtain ⟨inner, q, g, a, hb, hs, he⟩ := h.answered (one_write data) ha hp
  obtain ⟨rfl, hg⟩ := Prog.call.inj hb
  obtain rfl := eq_of_heq hg
  rcases a with e | _ | written
  · cases he
  · cases he
  · obtain rfl := Outcome.ok.inj (Option.some.inj he)
    exact loWrite_stored hs

/-- The bytes that a future reports were at the cursor. -/
theorem Runs.reads {count room : ℕ} (hc : count ≤ 8 * mib) (hcount : count = 0 → room = 0)
    {future : Future Bytes} (h : future.Runs fun inner => inner.read count) {n : ℕ}
    {i i' : Option BlobHandleInner} {s s' : Session} {p : Future Bytes} {data : Bytes}
    (hroom : data.length ≤ room)
    (ha : Prog.advance (PolledBlobHandle.serve busy) n future (i, s) = (p, i', s'))
    (hp : p.ended = some (.ok data)) : Fetched room data s s' := by
  obtain ⟨inner, q, g, a, hb, hs, he⟩ := h.answered (one_read count) ha hp
  obtain ⟨rfl, hg⟩ := Prog.call.inj hb
  obtain rfl := eq_of_heq hg
  rcases a with e | _ | data'
  · cases he
  · cases he
  · obtain rfl := Outcome.ok.inj (Option.some.inj he)
    rw [asI32_of_le hc] at hs
    exact loRead_fetched hs hroom hcount

/-- The offset that a future reports is where its seek leads. -/
theorem Runs.seeks {position : SeekFrom} (hf : position.Fits) {future : Future ℤ}
    (h : future.Runs fun inner => inner.lseek64 position) {n : ℕ} {i i' : Option BlobHandleInner}
    {s s' : Session} {p : Future ℤ} {k : ℤ}
    (ha : Prog.advance (PolledBlobHandle.serve busy) n future (i, s) = (p, i', s'))
    (hp : p.ended = some (.ok k)) : 0 ≤ k ∧ Sought position k.toNat s s' := by
  obtain ⟨inner, q, g, a, hb, hs, he⟩ := h.answered (one_seek position) ha hp
  obtain ⟨rfl, hg⟩ := Prog.call.inj ((lseek64_eq position inner).symm.trans hb)
  obtain rfl := eq_of_heq hg
  rcases a with e | _ | offset
  · cases he
  · cases he
  · obtain rfl := Outcome.ok.inj (Option.some.inj he)
    exact loLseek64_sought hf hs

theorem Continues.refl (future : Future α) (w : Option BlobHandleInner × Session) :
    future.Continues future :=
  ⟨fun _ => false, 0, w, w, by cases future <;> rfl⟩

/-- What some awaits of a shutdown have come to. -/
def Shut (s s' : Session) (p : Future Unit) : Prop :=
  (p.ended = none → p.Closes s') ∧ (p.ended = some (.ok ()) → Committed s s')

theorem shut_commit {tx : Tx} {s s' : Session} (hs : s.conn = .inTx tx) {n : ℕ}
    {i i' : Option BlobHandleInner} {p : Future Unit}
    (ha : Prog.advance (PolledBlobHandle.serve busy) n (ofDb BlobHandleInner.commit) (i, s) =
      (p, i', s')) : Shut s s' p := by
  rcases advance_query ha with ⟨rfl, rfl⟩ | ⟨a, s₁, m, hq, ha⟩
  · exact ⟨fun _ => .closed hs, fun hend => (by cases hend)⟩
  · have hc : s.commit = (.ok (), ⟨s.db.commit tx, .idle⟩) := by
      simp only [Session.commit, hs]
    obtain ⟨rfl, rfl⟩ := Prod.mk.inj ((Option.some.inj hq).symm.trans hc)
    rw [Prog.advance_of_ended rfl] at ha
    obtain ⟨rfl, rfl, rfl⟩ : _ ∧ _ ∧ _ := by simpa only [Prod.mk.injEq] using ha
    exact ⟨fun hend => (by cases hend), fun _ => ⟨tx, hs, rfl⟩⟩

theorem shut_of_err {s s' : Session} {p : Future Unit} {e : FileHandleError}
    (h : p.ended = some (.err e)) : Shut s s' p :=
  ⟨fun hend => (by cases h.symm.trans hend), fun hend => (by cases h.symm.trans hend)⟩

theorem shut_close {s s' : Session} {inner : BlobHandleInner} {n : ℕ}
    {i i' : Option BlobHandleInner} {p : Future Unit}
    (ha : Prog.advance (PolledBlobHandle.serve busy) n (ofDb inner.close) (i, s) = (p, i', s')) :
    Shut s s' p := by
  rcases advance_query ha with ⟨rfl, rfl⟩ | ⟨a, s₁, m, hq, ha⟩
  · exact ⟨fun _ => .entered inner, fun hend => (by cases hend)⟩
  · rcases a with e | _ | closed
    · rw [Prog.advance_of_ended rfl] at ha
      exact shut_of_err (by rw [← (Prod.mk.inj ha).1]; rfl)
    · rw [Prog.advance_of_ended rfl] at ha
      exact shut_of_err (by rw [← (Prod.mk.inj ha).1]; rfl)
    · obtain ⟨tx, tx', hc, ht, rfl⟩ := Session.onTx_ok (Option.some.inj hq)
      obtain ⟨hclosed, hcommitted⟩ := shut_commit rfl ha
      refine ⟨hclosed, fun hend => ?_⟩
      obtain ⟨tx₁, htx, rfl⟩ := hcommitted hend
      obtain rfl := Conn.inTx.inj htx
      rw [Tx.lo_close_ok ht]
      exact ⟨tx, hc, rfl⟩

/-- A shutdown goes on, or has committed, or has failed. -/
theorem Closes.advance {future : Future Unit} {s s' : Session} (h : future.Closes s) {n : ℕ}
    {i i' : Option BlobHandleInner} {p : Future Unit}
    (ha : Prog.advance (PolledBlobHandle.serve busy) n future (i, s) = (p, i', s')) :
    Shut s s' p := by
  cases h with
  | closed hs => exact shut_commit hs ha
  | entered inner => exact shut_close ha
  | begun =>
    rcases advance_locked ha with ⟨rfl, rfl⟩ | ⟨hshut, -⟩ | ⟨inner, i₁, m, ha⟩
    · exact ⟨fun _ => .begun, fun hend => (by cases hend)⟩
    · exact shut_of_err hshut
    · exact shut_close ha

end Future

theorem FileHandleState.Continues.refl (f : FileHandleState)
    (w : Option BlobHandleInner × Session) : f.Continues f := by
  cases f with
  | reading f => exact .reading (.refl f w)
  | seeking f => exact .seeking (.refl f w)
  | writing f => exact .writing (.refl f w)
  | shuttingDown f => exact .shuttingDown (.refl f w)

section Step

variable {busy : Write → Bool} {n : ℕ} {seeks : Seeks} {w : PollState}

end Step

theorem InFlight.elsewhere {seeks : Seeks} {w : PollState} (h : InFlight seeks w) (db : Db) :
    InFlight seeks (w.1, { w.2 with db := db }) := by
  obtain ⟨⟨inner, state, position⟩, s⟩ := w
  obtain ⟨begun, told⟩ := seeks
  obtain ⟨ht, hs⟩ := h
  refine ⟨ht, ?_⟩
  cases hs with
  | idle => exact .idle
  | reading hc h => exact .reading hc h
  | seeking h => exact .seeking h
  | writing h => exact .writing h
  | shuttingDown h =>
    refine .shuttingDown ?_
    cases h with
    | begun => exact .begun
    | entered inner => exact .entered inner
    | closed h => exact .closed h

end LocallyEuclidean.Storage
