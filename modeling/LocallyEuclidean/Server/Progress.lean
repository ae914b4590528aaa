import LocallyEuclidean.Server.Connection
import LocallyEuclidean.Storage.Counts

/-! Requests beside each other over a connection pool: nobody waits for ever. A wait for
a page lock goes up in the pages of one object, a wait for the pool ends when a
transaction does, and every request sends a bounded number of statements. -/

namespace LocallyEuclidean.Server
open Interact Postgres Storage

/-! How many statements a request sends. -/

section Statements

/-- The statements a body can cause: a seek for each frame, and a write or a read for
each byte at most. -/
def work : DataStream → ℕ
  | [] => 0
  | .ok data :: rest => 1 + data.length + work rest
  | .error () :: rest => work rest

theorem matchFrames_atMost (file : BlobHandle) (stream : DataStream) :
    (matchFrames file stream).AtMost (work stream + 1) := by
  induction stream with
  | nil =>
    refine .bind (m := 1) (k := 0) (.attempt file.readU8_atMost) fun x => ?_
    obtain (_ | _ | _) | _ := x
    · exact .ret 0 _
    · exact .err 0 _
    · exact .err 0 _
    · exact .ret 0 _
  | cons frame rest ih =>
    cases frame with
    | error => exact .err _ _
    | ok data =>
      refine .mono (n := data.length + (work rest + 1)) ?_ (by simp only [work]; omega)
      refine .bind (.attempt (file.readExact_atMost _)) fun x => ?_
      obtain (_ | _ | _) | buf := x
      · exact .ret _ _
      · exact .err _ _
      · exact .err _ _
      · dsimp only
        split
        · exact .ret _ _
        · exact ih

theorem checkRangeMatches_atMost (stream : DataStream) (start : ℕ) (file : BlobHandle) :
    (checkRangeMatches stream start file).AtMost (work stream + 2) :=
  .mono (n := 1 + (work stream + 1)) (.bind (.mapErr (file.seek_atMost _) _) fun _ =>
    matchFrames_atMost file stream) (by omega)

theorem appendFrames_atMost (file : PostgresFileHandle) (stream : DataStream) :
    (appendFrames file stream).AtMost (work stream) := by
  induction stream with
  | nil => exact .ret 0 _
  | cons frame rest ih =>
    cases frame with
    | error => exact .err _ _
    | ok data => exact .bind (file.append_atMost data) fun _ => ih

theorem appendCommit_atMost (file : PostgresFileHandle) (stream : DataStream) : (do
    (appendFrames file stream).mapErr ApiError.internalError
    file.commit.mapErr .internalError).AtMost (work stream + 2) :=
  .bind (.mapErr (appendFrames_atMost file stream) _) fun _ =>
    .mapErr (.mapErr file.blob.shutdown_atMost _) _

theorem readerStream_atMost (file : BlobHandle) (rooms : List ℕ+) :
    (readerStream file rooms).AtMost rooms.length := by
  induction rooms with
  | nil => exact .ret 0 _
  | cons room rooms ih =>
    rw [List.length_cons, Nat.add_comm]
    refine .bind (.attempt (file.read_atMost _)) fun x => ?_
    cases x with
    | error e => exact .ret _ _
    | ok data =>
      dsimp only
      split
      · exact .ret _ _
      · exact .bind (k := 0) ih fun _ => .ret 0 _

/-- The most statements that a request sends. -/
def Request.statements : Request → ℕ
  | .put _ _ body _ => 9 + work body
  | .post _ _ _ body => 7 + work body
  | .get _ _ rooms => 7 + rooms.length

theorem put_atMost (bucketName filename : String) (body : DataStream) (now : DateTime) :
    (putWriteFilename bucketName filename body now).AtMost (9 + work body) := by
  refine .mono (n := 1 + (3 + (3 + (work body + 2)))) ?_ (by omega)
  refine .bind (.mapErr (PostgresBackend.bucket_atMost bucketName) _) fun bucket => ?_
  refine .bind (.attempt (bucket.createFile_atMost filename now)) fun x => ?_
  obtain (_ | _ | e) | file := x
  · refine .bind (.mapErr (bucket.file_atMost filename) _) fun file => ?_
    refine .bind (k := 0) (.mapErr (checkRangeMatches_atMost body 0 file.blob) _) fun v => ?_
    cases v with
    | isMatch => exact .ret 0 _
    | lengthMismatch | dataMismatch => exact .err 0 _
  · exact .err _ _
  · exact .err _ _
  · exact .mono (appendCommit_atMost file body) (by omega)

theorem post_atMost (bucketName filename : String) (writeOffset : ℕ) (body : DataStream) :
    (postAppendFilename bucketName filename writeOffset body).AtMost (7 + work body) := by
  refine .mono (n := 1 + (3 + (1 + (work body + 2)))) ?_ (by omega)
  refine .bind (.mapErr (PostgresBackend.bucket_atMost bucketName) _) fun bucket => ?_
  refine .bind (.mapErr (bucket.file_atMost filename) _) fun file => ?_
  refine .bind (.mapErr (file.blob.seek_atMost _) _) fun size => ?_
  split
  · refine .bind (k := 0) (.mapErr (checkRangeMatches_atMost body writeOffset file.blob) _) fun v => ?_
    cases v with
    | isMatch => exact .ret 0 _
    | lengthMismatch | dataMismatch => exact .err 0 _
  · exact appendCommit_atMost file body

theorem get_atMost (bucketName filename : String) (rooms : List ℕ+) :
    (getExplore bucketName filename rooms).AtMost (7 + rooms.length) := by
  refine .mono (n := 1 + (3 + (1 + (1 + (1 + rooms.length))))) ?_ (by omega)
  refine .bind (.mapErr (PostgresBackend.bucket_atMost bucketName) _) fun bucket => ?_
  refine .bind (.mapErr (bucket.file_atMost filename) _) fun file => ?_
  refine .bind (.mapErr (file.blob.seek_atMost _) _) fun _ => ?_
  refine .bind (.mapErr (file.blob.seek_atMost _) _) fun _ => ?_
  refine .bind (.mapErr file.metadata_atMost _) fun _ => ?_
  exact .bind (k := 0) (readerStream_atMost file.blob rooms) fun _ => .ret 0 _

theorem handler_atMost (r : Request) : r.handler.AtMost r.statements := by
  cases r with
  | put b f body now => exact .bind (k := 0) (put_atMost b f body now) fun _ => .ret 0 _
  | post b f writeOffset body => exact .bind (k := 0) (post_atMost b f writeOffset body) fun _ => .ret 0 _
  | get b f rooms => exact .bind (k := 0) (get_atMost b f rooms) fun _ => .ret 0 _

end Statements

/-! What a statement does to the connection it is sent on. -/

section Conn

variable {busy : Write → Bool} {q : Query} {db : Db} {s' : Session} {a : q.Reply}

theorem pool_serve {conn : Conn} (hq : Query.inTx q = false)
    (hs : Session.serve busy q ⟨db, conn⟩ = some (a, s')) :
    s'.conn = conn ∨ s'.conn = .inTx ⟨none, []⟩ := by
  cases q with
  | loOpen | loLseek64 | loRead | loWrite | loClose | updatedAt | commitTx => cases hq
  | bucketByName | listBuckets | fileByName =>
    obtain ⟨-, rfl⟩ := Prod.mk.inj (Option.some.inj hs)
    exact .inl rfl
  | beginTx =>
    obtain ⟨-, rfl⟩ := Prod.mk.inj (Option.some.inj hs)
    exact .inr rfl
  | insertBucket | insertFile | deleteOldFilesBatch =>
    exact .inl (Session.onPool_conn (Option.some.inj hs)).1

theorem onTx_conn {α : Type} {tx : Tx} {f : Tx → Except SqlxError (α × Tx)} {r : Except SqlxError α}
    (keeps : ∀ {a tx'}, f tx = .ok (a, tx') → tx'.writes = tx.writes)
    (h : Session.onTx ⟨db, .inTx tx⟩ f = (r, s')) :
    s'.conn = .failed ∨ ∃ tx', s'.conn = .inTx tx' ∧ tx'.writes = tx.writes := by
  unfold Session.onTx at h
  dsimp only at h
  split at h <;> obtain ⟨-, rfl⟩ := Prod.mk.inj h
  · rename_i a tx' hf
    exact .inr ⟨tx', rfl, keeps hf⟩
  · exact .inl rfl

/-- In a transaction writes are only added, until it is committed or fails. -/
theorem tx_serve {tx : Tx} (hq : Query.inTx q = true)
    (hs : Session.serve busy q ⟨db, .inTx tx⟩ = some (a, s')) :
    (Shared.isCommit q = true ∧ s'.conn = .idle) ∨ s'.conn = .failed ∨
      ∃ tx', s'.conn = .inTx tx' ∧ (tx'.writes = tx.writes ∨ ∃ fd data w n,
        q = .loWrite fd data ∧ tx.lowrite fd data = .ok (w, n, tx') ∧
          tx'.writes = tx.writes ++ [w]) := by
  have kept : (s'.conn = .failed ∨ ∃ tx', s'.conn = .inTx tx' ∧ tx'.writes = tx.writes) →
      (Shared.isCommit q = true ∧ s'.conn = .idle) ∨ s'.conn = .failed ∨
        ∃ tx', s'.conn = .inTx tx' ∧ (tx'.writes = tx.writes ∨ ∃ fd data w n,
          q = .loWrite fd data ∧ tx.lowrite fd data = .ok (w, n, tx') ∧
            tx'.writes = tx.writes ++ [w]) := by
    rintro (h | ⟨tx', h, hw⟩)
    · exact .inr (.inl h)
    · exact .inr (.inr ⟨tx', h, .inl hw⟩)
  cases q with
  | bucketByName | listBuckets | insertBucket | fileByName | insertFile | deleteOldFilesBatch
  | beginTx => cases hq
  | updatedAt =>
    obtain ⟨-, rfl⟩ := Prod.mk.inj (Option.some.inj hs)
    exact kept (.inr ⟨tx, rfl, rfl⟩)
  | loOpen => exact kept (onTx_conn Tx.lo_open_writes (Option.some.inj hs))
  | loLseek64 => exact kept (onTx_conn Tx.lo_lseek64_writes (Option.some.inj hs))
  | loRead => exact kept (onTx_conn Tx.loread_writes (Option.some.inj hs))
  | loClose => exact kept (onTx_conn Tx.lo_close_writes (Option.some.inj hs))
  | commitTx =>
    obtain ⟨-, rfl⟩ := Prod.mk.inj (Option.some.inj hs)
    exact .inl ⟨rfl, rfl⟩
  | loWrite fd data =>
    have hs : Session.lowrite ⟨db, .inTx tx⟩ busy fd data = some (a, s') := hs
    unfold Session.lowrite at hs
    dsimp only at hs
    split at hs
    · rename_i w n tx' hw
      split at hs
      · cases hs
      · obtain ⟨-, rfl⟩ := Prod.mk.inj (Option.some.inj hs)
        obtain ⟨d, hd, -, -, rfl, rfl, rfl⟩ := Tx.lowrite_ok hw
        refine .inr (.inr ⟨_, rfl, ?_⟩)
        by_cases hdata : data = []
        · exact .inl (if_pos hdata)
        · exact .inr ⟨fd, data, _, _, rfl, hw, if_neg hdata⟩
    · obtain ⟨-, rfl⟩ := Prod.mk.inj (Option.some.inj hs)
      exact .inr (.inl rfl)

end Conn

/-! The page locks. -/

section Locks

theorem overlaps_comm (v w : Write) : v.overlaps w = w.overlaps v := by
  simp only [Write.overlaps, decide_eq_decide]
  constructor
  · rintro ⟨ho, hv, hw, h₁, h₂⟩
    exact ⟨ho.symm, hw, hv, h₂, h₁⟩
  · rintro ⟨ho, hw, hv, h₁, h₂⟩
    exact ⟨ho.symm, hv, hw, h₂, h₁⟩

def firstPage (w : Write) : ℕ := w.pos / pageSize

def lastPage (w : Write) : ℕ := (w.pos + w.data.length - 1) / pageSize

theorem firstPage_le_lastPage {w : Write} (hd : w.data ≠ []) : firstPage w ≤ lastPage w :=
  Nat.div_le_div_right (by have := List.length_pos_of_ne_nil hd; omega)

theorem overlaps_iff {v w : Write} : v.overlaps w = true ↔ v.oid = w.oid ∧ v.data ≠ [] ∧
    w.data ≠ [] ∧ firstPage v ≤ lastPage w ∧ firstPage w ≤ lastPage v := by
  simp only [Write.overlaps, decide_eq_true_eq, firstPage, lastPage]

/-- A write that runs into another's lock lies behind its own transaction's writes, so the
other has locked pages behind them all. -/
theorem lastPage_lt {u v w : Write} (hu : u.data ≠ []) (ho : u.oid = w.oid)
    (hb : u.pos + u.data.length ≤ w.pos) (hw : w.overlaps v = true) (apart : u.overlaps v = false) :
    lastPage u < lastPage v := by
  obtain ⟨hov, -, hv, hmeet, -⟩ := overlaps_iff.mp hw
  by_contra hge
  have hpos := List.length_pos_of_ne_nil hu
  have hup : lastPage u ≤ firstPage w := Nat.div_le_div_right (by omega)
  have hv1 := firstPage_le_lastPage hv
  have hu1 := firstPage_le_lastPage hu
  have : u.overlaps v = true :=
    overlaps_iff.mpr ⟨ho.trans hov, hu, hv, by omega, by omega⟩
  rw [this] at apart
  cases apart

end Locks

namespace Shared

variable {n : ℕ}

/-- Who waits after an answer: the client itself for nobody, and those that waited for it
have lost if it has committed. -/
theorem answered_waits_eq {i : Fin n} {q : Query} {s t : Shared n} {a : q.Reply}
    (h : s.serve i q = some (some a, t)) : t.waits i = .free ∧ ∀ j ≠ i,
      t.waits j = s.waits j ∨
        (isCommit q = true ∧ s.waits j = .on i ∧ t.waits j = .lost) := by
  unfold serve at h
  split at h
  · cases h
  · simp only [Option.some.injEq, Prod.mk.injEq] at h
    obtain ⟨rfl, rfl⟩ := h
    exact ⟨Function.update_self .., fun j hj => .inl (Function.update_of_ne hj _ _)⟩
  · rename_i hfree
    split at h
    · simp at h
    · split at h
      · simp only [Option.some.injEq, Prod.mk.injEq] at h
        obtain ⟨rfl, rfl⟩ := h
        simp only [record_waits]
        split
        · rename_i hc
          refine ⟨by simp [wake, hfree], fun j _ => ?_⟩
          by_cases hj : s.waits j = .on i
          · exact .inr ⟨hc, hj, by simp [wake, hj]⟩
          · exact .inl (by simp [wake, hj])
        · exact ⟨hfree, fun j _ => .inl rfl⟩
      · cases h

/-- A commit wakes everybody who waits for it. -/
theorem commit_waits {i j : Fin n} {q : Query} {s t : Shared n} {a : q.Reply}
    (h : s.serve i q = some (some a, t)) (hq : isCommit q = true) (hi : s.waits i = .free) :
    t.waits j ≠ .on i := by
  unfold serve at h
  rw [hi] at h
  dsimp only at h
  split at h
  · simp at h
  · split at h
    · simp only [Option.some.injEq, Prod.mk.injEq] at h
      obtain ⟨rfl, rfl⟩ := h
      simp only [record_waits, hq, if_true, wake]
      split
      · simp
      · assumption
    · cases h

/-- A write that must wait meets the lock of the client that it waits for. -/
theorem pending_blocks {i : Fin n} {q : Query} {s t : Shared n} (h : s.serve i q = some (none, t)) :
    s.waits i = .free ∧ ∃ fd data tx w m tx' j, q = .loWrite fd data ∧ s.conns i = .inTx tx ∧
      tx.lowrite fd data = .ok (w, m, tx') ∧ j ≠ i ∧ (∃ v ∈ s.writes j, w.overlaps v = true) ∧
        t = { s with waits := Function.update s.waits i (.on j) } := by
  obtain ⟨fd, data, rfl⟩ := pending_write h
  unfold serve at h
  split at h
  · cases h
  · simp at h
  · rename_i hfree
    split at h
    · rename_i j hj
      simp only [Option.some.injEq, Prod.mk.injEq, true_and] at h
      obtain rfl := h
      simp only [blocker] at hj
      split at hj
      · rename_i tx hc
        split at hj
        · rename_i w r hw
          obtain ⟨hne, hany⟩ := by simpa using List.find?_some hj
          exact ⟨hfree, fd, data, tx, w, r.1, r.2, j, rfl, hc, hw, hne, hany, rfl⟩
        · cases hj
      · cases hj
    · split at h
      · simp at h
      · cases h

/-- A write that goes through meets no lock. -/
theorem holder_none {s : Shared n} {i : Fin n} {w : Write} (h : s.holder i w = none) {j : Fin n}
    (hj : j ≠ i) : ∀ v ∈ s.writes j, w.overlaps v = false := by
  have hnone := List.find?_eq_none.mp h j (List.mem_finRange j)
  simpa [hj] using hnone

/-- The connections of the pool that are taken. -/
def held (s : Shared n) : ℕ := (List.finRange n).countP fun i => s.conns i ≠ .idle

end Shared

/-- The service over a pool of `size` connections. A transaction keeps its connection; any
other statement, the begin of a transaction included, waits until one is to spare. -/
def pooled (size n : ℕ) : Machine n Query.Reply (Shared n) Timestamp where
  serve i q s := if Query.inTx q ∨ s.held < size then s.serve i q else none
  leave := (machine n).leave
  env := (machine n).env

section Pooled

variable {size n : ℕ} {ε α : Type}

theorem serve_of_pooled {i : Fin n} {q : Query} {s : Shared n} {r : Option q.Reply × Shared n}
    (h : (pooled size n).serve i q s = some r) : (machine n).serve i q s = some r := by
  simp only [pooled] at h
  split at h
  · exact h
  · cases h

theorem act_of_pooled {a : Action n Timestamp} {p p' : Interact.Pool n Query.Reply (Shared n) ε α}
    (h : (pooled size n).act a p = some p') : (machine n).act a p = some p' := by
  cases a with
  | env now => exact h
  | step i =>
    obtain ⟨q, k, hq, ⟨a, s, hs, rfl⟩ | ⟨s, hs, rfl⟩⟩ := (pooled size n).act_step h
    · simp only [Machine.act, hq, serve_of_pooled hs]
      rfl
    · simp only [Machine.act, hq, serve_of_pooled hs]

/-- What is shown of every order of statements holds over a pool of any size. -/
theorem run_of_pooled {as : List (Action n Timestamp)}
    {p p' : Interact.Pool n Query.Reply (Shared n) ε α} (h : (pooled size n).run as p = some p') :
    (machine n).run as p = some p' := by
  induction as generalizing p with
  | nil => exact h
  | cons a as ih =>
    obtain ⟨p₁, ha, hrest⟩ := Option.bind_eq_some_iff.mp (by simpa only [Machine.run] using h)
    rw [Machine.run, act_of_pooled ha]
    exact ih hrest

theorem parks (size n : ℕ) : (pooled size n).Parks fun s i => ∃ j, s.waits i = .on j where
  pending {i} _ _ _ h := by
    obtain ⟨hfree, fd, data, tx, w, m, tx', j, rfl, -, -, -, -, rfl⟩ :=
      Shared.pending_blocks (serve_of_pooled h)
    refine ⟨by simp [hfree], ⟨j, by simp⟩, fun l hl => ?_⟩
    by_cases hli : l = i
    · subst hli
      exact ⟨j, by simp⟩
    · simpa [Function.update_of_ne hli] using hl
  env _ _ _ h := h

end Pooled

/-! What holds of the connections and the locks in every order of statements. -/

section Disciplined

variable {n : ℕ} {ε α : Type}

/-- Client `i`, at a write of `data`, waits for a lock of client `j`. -/
def Behind (s : Shared n) (i j : Fin n) (data : Bytes) : Prop :=
  i ≠ j ∧ s.conns j ≠ .idle ∧ ∀ d ws tx, s.conns i = .inTx ⟨some d, ws⟩ → s.conns j = .inTx tx →
    ∃ v ∈ tx.writes, Write.overlaps ⟨d.oid, d.pos, data⟩ v = true

structure Disciplined (p : Interact.Pool n Query.Reply (Shared n) ε α) : Prop where
  phases : ∀ i, ∃ phase : Phase, connection.Keeps (p.progs i) phase ∧
    phase.Covers (p.shared.conns i)
  ended : ∀ i, (p.progs i).ended.isSome → p.shared.conns i = .idle
  apart : ∀ i j, i ≠ j → ∀ v ∈ p.shared.writes i, ∀ w ∈ p.shared.writes j, v.overlaps w = false
  waits : ∀ i, p.shared.waits i ≠ .free → ∃ fd data k, p.progs i = .call (.loWrite fd data) k ∧
    ∀ j, p.shared.waits i = .on j → Behind p.shared i j data

/-- What an answered statement can make of its client's connection. -/
inductive Moves (s : Shared n) (i : Fin n) (q : Query) : Conn → Prop where
  | started {c : Conn} (hc : s.conns i = .idle) (hw : c.writes = []) : Moves s i q c
  | committed (hq : Shared.isCommit q = true) (hw : s.waits i = .free) : Moves s i q .idle
  | failed : Moves s i q .failed
  | kept {tx tx' : Tx} (hc : s.conns i = .inTx tx) (hw : tx'.writes = tx.writes) :
      Moves s i q (.inTx tx')
  | wrote {tx tx' : Tx} {w : Write} (hc : s.conns i = .inTx tx)
      (hw : tx'.writes = tx.writes ++ [w]) (free : s.holder i w = none) : Moves s i q (.inTx tx')

theorem Phase.Covers.inTx {phase : Phase} {c : Conn} {q : Query} (h : phase.Covers c)
    (hq : phase.allows q) (hp : phase ≠ .idle) : ∃ tx, c = .inTx tx := by
  cases phase with
  | idle => exact absurd rfl hp
  | begun => exact ⟨_, h⟩
  | opened atEnd =>
    obtain ⟨d, ws, rfl, -⟩ := h
    exact ⟨_, rfl⟩
  | closed => exact h
  | broken => exact hq.elim

variable {p p' : Interact.Pool n Query.Reply (Shared n) ε α} {i : Fin n} {q : Query}

theorem Disciplined.moves (hp : Disciplined p) {k : q.Reply → DbProg ε α} (hq : p.progs i = .call q k)
    {a : q.Reply} {s : Shared n} (hs : p.shared.serve i q = some (some a, s)) :
    ∃ (c : Conn) (phase : Phase), s.conns = Function.update p.shared.conns i c ∧
      Moves p.shared i q c ∧ phase.Covers c ∧ connection.Keeps (k a) phase := by
  obtain ⟨phase, hk, hcov⟩ := hp.phases i
  rw [hq] at hk
  obtain ⟨hallow, hnext⟩ := hk.call
  obtain ⟨hlost, rfl, -, hc, -⟩ | ⟨c, ⟨hfree, hb⟩, hserve, hc, -⟩ := Shared.serve_answered hs
  · refine ⟨.failed, _, hc, .failed, ?_, hnext _⟩
    obtain ⟨fd, data, k', hw, -⟩ := hp.waits i (by rw [hlost]; simp)
    obtain ⟨rfl, -⟩ := Prog.call.inj (hq.symm.trans hw)
    cases phase with
    | idle => cases hallow
    | opened atEnd => trivial
    | begun | closed | broken => exact hallow.elim
  · refine ⟨c, _, hc, ?_, covers_serve hcov hallow hserve, hnext a⟩
    by_cases hidle : phase = .idle
    · subst hidle
      refine .started hcov ?_
      obtain h | h := pool_serve hallow hserve
      · rw [show c = p.shared.conns i from h, show p.shared.conns i = .idle from hcov]
        rfl
      · rw [show c = .inTx ⟨none, []⟩ from h]
        rfl
    · obtain ⟨tx, htx⟩ := hcov.inTx hallow hidle
      rw [htx] at hserve
      obtain ⟨hcommit, hc'⟩ | hc' | ⟨tx', hc', hw | ⟨fd, data, w, m, rfl, hlow, hw⟩⟩ :=
        tx_serve (inTx_of_allows hallow hidle) hserve
      · rw [show c = .idle from hc']
        exact .committed hcommit hfree
      · rw [show c = .failed from hc']
        exact .failed
      · rw [show c = .inTx tx' from hc']
        exact .kept htx hw
      · rw [show c = .inTx tx' from hc']
        refine .wrote htx hw ?_
        simpa only [Shared.blocker, htx, hlow] using hb

/-- Once it has left, the client holds nothing. -/
theorem settle_cases (i : Fin n) (prog : DbProg ε α) (s : Shared n) :
    (prog.ended = none ∧ (machine n).settle i prog s = s) ∨
      (prog.ended.isSome ∧ (machine n).settle i prog s = s.leave i) := by
  unfold Machine.settle
  cases h : prog.ended with
  | none => exact .inl ⟨rfl, rfl⟩
  | some o => exact .inr ⟨rfl, rfl⟩

theorem Moves.apart {s : Shared n} {c : Conn} (h : Moves s i q c) {j : Fin n} (hj : j ≠ i)
    (apart : ∀ v ∈ s.writes i, ∀ w ∈ s.writes j, v.overlaps w = false) :
    ∀ v ∈ c.writes, ∀ w ∈ s.writes j, v.overlaps w = false := by
  cases h with
  | started hc hw => simp [hw]
  | committed | failed => simp [Conn.writes]
  | kept hc hw =>
    rw [Shared.writes, hc] at apart
    simpa only [Conn.writes, hw] using apart
  | wrote hc hw free =>
    rw [Shared.writes, hc] at apart
    intro v hv
    rw [Conn.writes, hw] at hv
    obtain hv | hv := List.mem_append.mp hv
    · exact apart v hv
    · rw [List.mem_singleton.mp hv]
      exact Shared.holder_none free hj

/-- Who waits for a client goes on waiting behind its lock, until it commits. -/
theorem Moves.behind {s : Shared n} {c : Conn} (h : Moves s i q c) (hq : Shared.isCommit q = false)
    {j : Fin n} {data : Bytes} (hb : Behind s j i data) :
    c ≠ .idle ∧ ∀ d ws tx, s.conns j = .inTx ⟨some d, ws⟩ → c = .inTx tx →
      ∃ v ∈ tx.writes, Write.overlaps ⟨d.oid, d.pos, data⟩ v = true := by
  obtain ⟨-, hne, hover⟩ := hb
  cases h with
  | started hc hw => exact absurd hc hne
  | committed hc =>
    rw [hc] at hq
    cases hq
  | failed => exact ⟨by simp, fun _ _ _ _ h => by cases h⟩
  | kept hc hw =>
    refine ⟨by simp, fun d ws tx hj h => ?_⟩
    obtain rfl := Conn.inTx.inj h
    rw [hw]
    exact hover d ws _ hj hc
  | wrote hc hw free =>
    refine ⟨by simp, fun d ws tx hj h => ?_⟩
    obtain rfl := Conn.inTx.inj h
    obtain ⟨v, hv, ho⟩ := hover d ws _ hj hc
    exact ⟨v, by rw [hw]; exact List.mem_append_left _ hv, ho⟩

theorem Disciplined.start (db : Db) (requests : Fin n → Request) : Disciplined (Pool.start db requests) where
  phases i := ⟨.idle, handler_keeps (requests i), rfl⟩
  ended i _ := rfl
  apart i j _ := by simp [Pool.start, Shared.start, Shared.writes, Conn.writes]
  waits i h := absurd rfl h

/-- What becomes of the connection `c` of the client that was answered: its client stays, or
gives it back. -/
structure Released (conns : Fin n → Conn) (i : Fin n) (k : DbProg ε α) (s s' : Shared n)
    (c c' : Conn) : Prop where
  conns : s'.conns = Function.update conns i c'
  phases : ∃ phase : Phase, connection.Keeps k phase ∧ phase.Covers c'
  ended : k.ended.isSome → c' = .idle
  writes : ∀ v ∈ c'.writes, v ∈ c.writes
  waits : ∀ j, s'.waits j ≠ .free → s.waits j ≠ .free ∧ s'.waits j = s.waits j
  stays : c' = c ∨ ∀ j, s'.waits j ≠ .on i

theorem released {conns : Fin n → Conn} {i : Fin n} {k : DbProg ε α} {s : Shared n} {c : Conn}
    {phase : Phase} (hconns : s.conns = Function.update conns i c) (hcov : phase.Covers c)
    (hkeep : connection.Keeps k phase) :
    ∃ c', Released conns i k s ((machine n).settle i k s) c c' := by
  obtain ⟨hnone, he⟩ | ⟨hsome, he⟩ := settle_cases i k s
  · refine ⟨c, ⟨by rw [he, hconns], ⟨phase, hkeep, hcov⟩, by simp [hnone], fun _ h => h, ?_, .inl rfl⟩⟩
    rw [he]
    exact fun j hj => ⟨hj, rfl⟩
  · refine ⟨.idle, ⟨?_, ⟨.idle, .of_ended hsome _, rfl⟩, fun _ => rfl, by simp [Conn.writes], ?_,
      .inr ?_⟩⟩
    · rw [he, Shared.leave_conns, hconns, Function.update_idem]
    · rw [he]
      intro j hj
      simp only [Shared.leave, Shared.wake] at hj ⊢
      split at hj
      · simp at hj
      · rename_i hne
        exact ⟨hj, if_neg hne⟩
    · rw [he]
      intro j
      simp only [Shared.leave, Shared.wake]
      split
      · simp
      · assumption

/-- An answered step, once its client has stayed or left. -/
theorem Disciplined.answered (hp : Disciplined p) {k : q.Reply → DbProg ε α} (hq : p.progs i = .call q k)
    {a : q.Reply} {s : Shared n} (hs : p.shared.serve i q = some (some a, s)) :
    Disciplined ⟨(machine n).settle i (k a) s, Function.update p.progs i (k a)⟩ := by
  obtain ⟨c, phase, hconns, hmove, hcov, hkeep⟩ := hp.moves hq hs
  obtain ⟨hself, hothers⟩ := Shared.answered_waits_eq hs
  obtain ⟨c', hc', hphase, hended, hwr, hwait, hcase⟩ := released hconns hcov hkeep
  have hwrites : ∀ j ≠ i, Shared.writes ((machine n).settle i (k a) s) j = p.shared.writes j :=
    fun j hj => Shared.writes_of_ne hc' hj
  have hwritesi : Shared.writes ((machine n).settle i (k a) s) i = c'.writes := Shared.writes_self hc'
  refine ⟨fun j => ?_, fun j hj => ?_, fun j l hjl v hv w hw => ?_, fun j hj => ?_⟩
  · by_cases hji : j = i
    · subst hji
      simpa [hc'] using hphase
    · simpa [hc', Function.update_of_ne hji] using hp.phases j
  · by_cases hji : j = i
    · subst hji
      simpa [hc'] using hended (by simpa using hj)
    · simpa [hc', Function.update_of_ne hji] using
        hp.ended j (by simpa [Function.update_of_ne hji] using hj)
  · by_cases hji : j = i
    · subst hji
      rw [hwritesi] at hv
      rw [hwrites l hjl.symm] at hw
      exact hmove.apart hjl.symm (hp.apart j l hjl) v (hwr v hv) w hw
    · rw [hwrites j hji] at hv
      by_cases hli : l = i
      · subst hli
        rw [hwritesi] at hw
        rw [overlaps_comm]
        exact hmove.apart hji (hp.apart l j hjl.symm) w (hwr w hw) v hv
      · rw [hwrites l hli] at hw
        exact hp.apart j l hjl v hv w hw
  · obtain ⟨hsj, hsame⟩ := hwait j hj
    have hji : j ≠ i := by
      rintro rfl
      exact hsj hself
    have hpj : p.shared.waits j ≠ .free := by
      obtain h | ⟨-, h, -⟩ := hothers j hji
      · rwa [← h]
      · rw [h]
        simp
    obtain ⟨fd, data, k', hcall, hbehind⟩ := hp.waits j hpj
    refine ⟨fd, data, k', by simpa [Function.update_of_ne hji] using hcall, fun l hl => ?_⟩
    have hlp : p.shared.waits j = .on l := by
      rw [hsame] at hl
      obtain h | ⟨-, -, h⟩ := hothers j hji
      · rwa [← h]
      · rw [hl] at h
        cases h
    have hb := hbehind l hlp
    by_cases hli : l = i
    · subst hli
      obtain rfl | hnot := hcase
      · have hcommit : Shared.isCommit q = false := by
          by_contra hne
          have hfree : p.shared.waits l = .free := by
            by_contra hlost
            obtain ⟨fd', data', k'', hcall', -⟩ := hp.waits l hlost
            obtain ⟨rfl, -⟩ := Prog.call.inj (hq.symm.trans hcall')
            simp [Shared.isCommit] at hne
          exact Shared.commit_waits hs (by simpa using hne) hfree (hsame ▸ hl)
        obtain ⟨hne, hover⟩ := hmove.behind hcommit hb
        refine ⟨hji, by simpa [hc'] using hne, fun d ws tx hcj hci => ?_⟩
        refine hover d ws tx ?_ ?_
        · simpa [hc', Function.update_of_ne hji] using hcj
        · simpa [hc'] using hci
      · exact absurd hl (hnot j)
    · unfold Behind at hb ⊢
      simpa [hc', Function.update_of_ne hji, Function.update_of_ne hli] using hb

theorem Disciplined.act (hp : Disciplined p) {x : Action n Timestamp} (ha : (machine n).act x p = some p') :
    Disciplined p' := by
  cases x with
  | env now =>
    obtain rfl := Option.some.inj ha
    exact ⟨hp.phases, hp.ended, hp.apart, hp.waits⟩
  | step i =>
    obtain ⟨q, k, hq, ⟨a, s, hs, rfl⟩ | ⟨s, hs, rfl⟩⟩ := (machine n).act_step ha
    · exact hp.answered hq hs
    · obtain ⟨-, fd, data, tx, w, m, tx', j, rfl, hci, hw, hji, ⟨v, hv, ho⟩, rfl⟩ :=
        Shared.pending_blocks hs
      refine ⟨hp.phases, hp.ended, hp.apart, fun l hl => ?_⟩
      by_cases hli : l = i
      · subst hli
        refine ⟨fd, data, k, hq, fun j' hj' => ?_⟩
        obtain rfl : j = j' := by simpa using hj'
        refine ⟨hji.symm, fun hidle => ?_, fun d ws tx₂ hcl hcj => ⟨v, ?_, ?_⟩⟩
        · rw [Shared.writes, show p.shared.conns j = .idle from hidle] at hv
          simp [Conn.writes] at hv
        · rw [Shared.writes, show p.shared.conns j = .inTx tx₂ from hcj] at hv
          exact hv
        · obtain rfl := Conn.inTx.inj (hci.symm.trans hcl)
          obtain ⟨d', hd', -, -, rfl, -⟩ := Tx.lowrite_ok hw
          obtain rfl := Option.some.inj hd'
          exact ho
      · have hl' : p.shared.waits l ≠ .free := by simpa [Function.update_of_ne hli] using hl
        obtain ⟨fd', data', k', hcall, hb⟩ := hp.waits l hl'
        exact ⟨fd', data', k', hcall, fun j' hj' => hb j' (by
          simpa [Function.update_of_ne hli] using hj')⟩

theorem Disciplined.run (hp : Disciplined p) {as : List (Action n Timestamp)}
    (hr : (machine n).run as p = some p') : Disciplined p' := by
  induction as generalizing p with
  | nil =>
    obtain rfl : p = p' := by simpa [Machine.run] using hr
    exact hp
  | cons x as ih =>
    obtain ⟨p₁, ha, hrest⟩ := Option.bind_eq_some_iff.mp (by simpa only [Machine.run] using hr)
    exact ih (hp.act ha) hrest

/-! Nobody waits in a circle. -/

/-- One more than the last page that the client has locked. -/
def top (s : Shared n) (i : Fin n) : ℕ := (s.writes i).foldr (fun w t => max (lastPage w + 1) t) 0

theorem lt_top_of_mem {s : Shared n} {w : Write} (hw : w ∈ s.writes i) : lastPage w < top s i := by
  unfold top
  generalize s.writes i = ws at hw
  induction ws with
  | nil => cases hw
  | cons v ws ih =>
    obtain rfl | hw := List.mem_cons.mp hw
    · exact Nat.lt_of_lt_of_le (Nat.lt_succ_self _) (le_max_left _ _)
    · exact (ih hw).trans_le (le_max_right _ _)

theorem top_le {s : Shared n} {m : ℕ} (h : ∀ w ∈ s.writes i, lastPage w < m) : top s i ≤ m := by
  unfold top
  generalize s.writes i = ws at h
  induction ws with
  | nil => exact Nat.zero_le _
  | cons v ws ih =>
    exact max_le (h v List.mem_cons_self) (ih fun w hw => h w (List.mem_cons_of_mem _ hw))

/-- A client that waits has its transaction open, with its writes stacked. -/
theorem Disciplined.waiting (hp : Disciplined p) (hw : p.shared.waits i ≠ .free) :
    ∃ d ws, p.shared.conns i = .inTx ⟨some d, ws⟩ ∧ Stacked d ws true := by
  obtain ⟨fd, data, k, hcall, -⟩ := hp.waits i hw
  obtain ⟨phase, hk, hcov⟩ := hp.phases i
  rw [hcall] at hk
  have hallow := hk.call.1
  cases phase with
  | idle => cases hallow
  | opened atEnd =>
    obtain rfl : atEnd = true := hallow
    exact hcov
  | begun | closed | broken => exact hallow.elim

/-- A wait goes up: the one that is waited for has locked a later page of the same object. -/
theorem Disciplined.top_lt (hp : Disciplined p) {j : Fin n} (hij : p.shared.waits i = .on j)
    (hj : p.shared.waits j ≠ .free) : top p.shared i < top p.shared j := by
  obtain ⟨fd, data, k, -, hb⟩ := hp.waits i (by rw [hij]; simp)
  obtain ⟨d, ws, hci, hst⟩ := hp.waiting (i := i) (by rw [hij]; simp)
  obtain ⟨dj, wsj, hcj, hstj⟩ := hp.waiting hj
  obtain ⟨hne, -, hover⟩ := hb j hij
  obtain ⟨v, hv, ho⟩ := hover d ws _ hci hcj
  have hvj : v ∈ p.shared.writes j := by
    rw [Shared.writes, hcj]
    exact hv
  refine lt_of_le_of_lt (top_le fun u hu => ?_) (lt_top_of_mem hvj)
  have hui : u ∈ ws := by
    rw [Shared.writes, hci] at hu
    exact hu
  exact lastPage_lt (hst.object u hui).2 (hst.object u hui).1 (hst.below rfl u hui) ho
    (hp.apart i j hne u hu v hvj)

/-- A client that is not waiting behind a lock is served, once the pool lets it. -/
theorem Disciplined.can_step (hp : Disciplined p) {size : ℕ} (hend : (p.progs i).ended = none)
    (hfree : ∀ j, p.shared.waits i ≠ .on j) (hpool : p.shared.conns i ≠ .idle ∨ p.shared.held < size) :
    ∃ p', (pooled size n).act (.step i) p = some p' := by
  obtain ⟨phase, hk, hcov⟩ := hp.phases i
  cases hprog : p.progs i with
  | call q k =>
    rw [hprog] at hk
    have hallow := hk.call.1
    have hq : Query.inTx q ∨ p.shared.held < size := by
      obtain hne | hroom := hpool
      · refine .inl (inTx_of_allows hallow ?_)
        rintro rfl
        exact hne hcov
      · exact .inr hroom
    obtain ⟨r, hr⟩ : ∃ r, p.shared.serve i q = some r := by
      unfold Shared.serve
      cases hw : p.shared.waits i with
      | on j => exact absurd hw (hfree j)
      | lost => exact ⟨_, rfl⟩
      | free =>
        dsimp only
        split
        · exact ⟨_, rfl⟩
        · obtain ⟨r, hr⟩ := Session.serve_free q ⟨p.shared.db, p.shared.conns i⟩
          rw [hr]
          exact ⟨_, rfl⟩
    have hserve : (pooled size n).serve i q p.shared = some r := by
      simp only [pooled, if_pos hq, hr]
    simp only [Machine.act, hprog, hserve]
    obtain ⟨_ | a, s⟩ := r <;> exact ⟨_, rfl⟩
  | ret | err | panic =>
    rw [hprog] at hend
    cases hend

/-- Where a request has not been answered, some client can go on. -/
theorem Disciplined.progress (hp : Disciplined p) {size : ℕ} (hsize : 0 < size) :
    (∀ i, (p.progs i).ended.isSome) ∨ ∃ i p', (pooled size n).act (.step i) p = some p' := by
  classical
  by_cases hbusy : ∃ i, p.shared.conns i ≠ .idle
  · have hT : (Finset.univ.filter fun i => p.shared.conns i ≠ .idle).Nonempty := by
      obtain ⟨i, hi⟩ := hbusy
      exact ⟨i, by simpa using hi⟩
    have stays : ∀ i j, p.shared.waits i = .on j → p.shared.conns j ≠ .idle := fun i j hij => by
      obtain ⟨fd, data, k, -, hb⟩ := hp.waits i (by rw [hij]; simp)
      exact (hb j hij).2.1
    obtain ⟨i, hi, hfree⟩ := exists_not_waiting hT (W := fun i j => p.shared.waits i = .on j)
      (top p.shared) (fun i _ j hij => by simpa using stays i j hij)
      fun i _ j k hij hjk => hp.top_lt hij (by rw [hjk]; simp)
    have hne : p.shared.conns i ≠ .idle := by simpa using hi
    have hend : (p.progs i).ended = none := by
      by_contra hsome
      exact hne (hp.ended i (Option.isSome_iff_ne_none.mpr hsome))
    exact .inr ⟨i, hp.can_step hend hfree (.inl hne)⟩
  · push Not at hbusy
    have hheld : p.shared.held = 0 := by simp [Shared.held, hbusy]
    by_cases hall : ∀ i, (p.progs i).ended.isSome
    · exact .inl hall
    · push Not at hall
      obtain ⟨i, hi⟩ := hall
      refine .inr ⟨i, hp.can_step (by simpa using hi) (fun j hij => ?_) (.inr (by omega))⟩
      obtain ⟨d, ws, hc, -⟩ := hp.waiting (i := i) (by rw [hij]; simp)
      rw [hbusy i] at hc
      cases hc

end Disciplined

/-! The results. -/

section Results

variable {size n : ℕ} {db : Db} {requests : Fin n → Request}

/-- Two appends to one page of a file, the second behind the first's lock. -/
def twoMews : Fin 2 → Request := fun _ => .post "bucket" "meow" 9 [.ok [109]]

def mewsOrder : List (Action 2 Timestamp) :=
  (List.replicate 7 client0 ++ List.replicate 7 client1).map .step

def mewsWaiting : Option (Pool 2) :=
  (pooled 2 2).run mewsOrder (Pool.start (serveRequest (.created 0 "bucket" none)
    (.put "bucket" "meow" [.ok [109]] 0)).2 twoMews)

theorem mewsWaiting_isSome : mewsWaiting.isSome = true := by decide +kernel

/-- In every order of statements a request asks the pool for a connection only while it
holds none, sends the statements of its transaction in one that is open and has not
failed, and holds nothing once it is answered. -/
theorem connection_discipline {as : List (Action n Timestamp)} {p : Pool n}
    (hr : (machine n).run as (Pool.start db requests) = some p) (i : Fin n) :
    (∀ q k, p.progs i = .call q k →
      (Query.inTx q = false → p.shared.conns i = .idle) ∧
        (Query.inTx q = true → ∃ tx, p.shared.conns i = .inTx tx)) ∧
      ((answer p i).isSome → p.shared.conns i = .idle) := by
  have hp := (Disciplined.start db requests).run hr
  refine ⟨fun q k hq => ?_, hp.ended i⟩
  obtain ⟨phase, hk, hcov⟩ := hp.phases i
  rw [hq] at hk
  have hallow := hk.call.1
  by_cases hidle : phase = .idle
  · subst hidle
    refine ⟨fun _ => hcov, fun hin => ?_⟩
    rw [show Query.inTx q = false from hallow] at hin
    cases hin
  · refine ⟨fun hout => ?_, fun _ => hcov.inTx hallow hidle⟩
    rw [inTx_of_allows hallow hidle] at hout
    cases hout

theorem connection_discipline_mews :
    let p := mewsWaiting.get mewsWaiting_isSome
    (∀ q k, p.progs client1 = .call q k →
      (Query.inTx q = false → p.shared.conns client1 = .idle) ∧
        (Query.inTx q = true → ∃ tx, p.shared.conns client1 = .inTx tx)) ∧
      ((answer p client1).isSome → p.shared.conns client1 = .idle) :=
  connection_discipline (run_of_pooled (Option.some_get mewsWaiting_isSome).symm) client1

/-- Over a pool of even one connection no order of statements comes to a deadlock: while a
request is unanswered, some client can go on. -/
theorem pooled_no_deadlock (hsize : 0 < size) {as : List (Action n Timestamp)} {p : Pool n}
    (hr : (pooled size n).run as (Pool.start db requests) = some p) :
    Finished p ∨ ∃ i p', (pooled size n).act (.step i) p = some p' :=
  ((Disciplined.start db requests).run (run_of_pooled hr)).progress hsize

theorem pooled_no_deadlock_mews :
    let p := mewsWaiting.get mewsWaiting_isSome
    p.shared.waits client1 = .on client0 ∧
      (Finished p ∨ ∃ i p', (pooled 2 2).act (.step i) p = some p') :=
  ⟨by decide +kernel,
    pooled_no_deadlock (by decide) (Option.some_get mewsWaiting_isSome).symm⟩

/-- Every request is answered: no run of `n` requests has more steps than `n + 1` times their
statements, and `n`, and every run can be gone on with to the end. -/
theorem every_request_answered (hsize : 0 < size) {as : List (Action n Timestamp)} {p : Pool n}
    (hr : (pooled size n).run as (Pool.start db requests) = some p) :
    Action.steps as ≤ (n + 1) * ∑ i, (requests i).statements + n ∧
      ∃ (order : List (Fin n)) (p' : Pool n),
        (pooled size n).run (order.map .step) p = some p' ∧ Finished p' := by
  have budget := Machine.Budget.start (W := fun (s : Shared n) i => ∃ j, s.waits i = .on j)
    (p := Pool.start db requests) fun i => handler_atMost (requests i)
  obtain ⟨m, hm, he⟩ := budget.run (parks size n) hr
  refine ⟨by omega, ?_⟩
  exact hm.completes (parks size n) (I := Disciplined) (fun hp ha => hp.act (act_of_pooled ha))
    (fun hp => hp.progress hsize) ((Disciplined.start db requests).run (run_of_pooled hr))

theorem every_request_answered_mews :
    Action.steps mewsOrder ≤ (2 + 1) * ∑ i, (twoMews i).statements + 2 ∧
      ∃ (order : List (Fin 2)) (p' : Pool 2),
        (pooled 2 2).run (order.map .step) (mewsWaiting.get mewsWaiting_isSome) = some p' ∧
          Finished p' :=
  every_request_answered (by decide) (Option.some_get mewsWaiting_isSome).symm

end Results

end LocallyEuclidean.Server
