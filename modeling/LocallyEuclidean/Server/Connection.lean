import LocallyEuclidean.Interact.Protocol
import LocallyEuclidean.Postgres.Content
import LocallyEuclidean.Server.Shared
import LocallyEuclidean.Storage.Rules

/-! How a request uses its connection. It asks the pool for one at a time: while its
transaction is open, every statement runs in it. In a transaction it opens one object,
and writes only where the cursor has been moved behind all that it has written. -/

namespace LocallyEuclidean.Server
open Interact Postgres Storage

inductive Phase where
  /-- No connection is held. -/
  | idle
  | begun
  /-- `atEnd`: the cursor is behind every write of the transaction. -/
  | opened (atEnd : Bool)
  | closed
  /-- A statement of the transaction has failed. -/
  | broken
  deriving DecidableEq, Repr

namespace Phase

def allows : Phase → Query → Prop
  | .idle, q => Query.inTx q = false
  | .begun, .loOpen _ flags => DescriptorMode.ofFlags flags = some .readWrite
  | .opened _, .loLseek64 _ _ _ | .opened _, .loRead _ _ | .opened _, .updatedAt _
  | .opened _, .loClose _ => True
  | .opened atEnd, .loWrite _ _ => atEnd = true
  | .closed, .commitTx => True
  | _, _ => False

def next : Phase → (q : Query) → q.Reply → Phase
  | .idle, .beginTx, .ok _ => .begun
  | .idle, _, _ => .idle
  | .begun, .loOpen _ _, .ok _ => .opened false
  | .opened _, .loLseek64 _ n whence, .ok _ => .opened (n = 0 ∧ whence = .seekEnd)
  | .opened _, .loRead _ _, .ok _ => .opened false
  | .opened atEnd, .loWrite _ _, .ok _ => .opened atEnd
  | .opened atEnd, .updatedAt _, _ => .opened atEnd
  | .opened _, .loClose _, .ok _ => .closed
  | .closed, .commitTx, _ => .idle
  | _, _, _ => .broken

end Phase

def connection : Protocol Query.Reply Phase := ⟨Phase.allows, Phase.next⟩

/-! The storage code keeps to it. -/

section Storage

variable {ε α : Type} {phase : Phase}

theorem fetch_moves (phase : Phase) (q : Query) (phase' : Phase) (h : phase.allows q)
    (hn : ∀ row, phase.next q (.ok row) = phase') (wrap : SqlxError → ε) :
    connection.Steps (fetch q wrap) (fun _ c => c = phase') phase :=
  fetch_steps connection phase q h hn wrap

/-- A handle whose transaction is open. -/
def InUse (h : PostgresFileHandle) (phase : Phase) : Prop :=
  ∃ fd id atEnd, h = ⟨.ofFd fd, id⟩ ∧ phase = .opened atEnd

theorem open_steps (oid : Oid) :
    connection.Steps (BlobHandle.open oid .readWrite)
      (fun h c => ∃ fd, h = .ofFd fd ∧ c = .opened false) .idle := by
  refine .bind (.bind (fetch_moves .idle .beginTx .begun rfl (fun _ => rfl) _)
    fun _ c hc => ?_) fun inner c (hc : c = .opened false) => .ret ⟨inner.fdNum, rfl, hc⟩
  subst hc
  refine .bind (fetch_moves .begun (.loOpen oid (OpenMode.bits .readWrite)) (.opened false)
    (OpenMode.ofFlags_bits _) (fun _ => rfl) _)
    fun handle c hc => ?_
  exact .bind (okOr_steps handle _ fun _ _ => hc) fun _ _ hc => .ret hc

section Handle

variable {fd : ℤ} {atEnd : Bool}

theorem live_steps {K : α → Phase → Prop} {f : BlobHandleInner → DbProg FileHandleError α}
    (h : connection.Steps (f ⟨fd⟩) K phase) :
    connection.Steps ((do let inner ← (BlobHandle.ofFd fd).live; f inner).mapErr IoError.other) K
      phase :=
  .mapErr h IoError.other

theorem seek_steps (position : SeekFrom) :
    connection.Steps ((BlobHandle.ofFd fd).seek position)
      (fun _ c => c = .opened (position = .fromEnd 0)) (.opened atEnd) := by
  refine .bind (live_steps (f := fun inner => inner.lseek64 position)
    (K := fun _ c => c = .opened (position = .fromEnd 0)) ?_) fun offset c hc => ?_
  · cases position with
    | start n =>
      refine .bind (fetch_moves (.opened atEnd) (.loLseek64 fd (asI64 n) .seekSet) (.opened false)
        trivial (fun _ => by simp [Phase.next]) _) fun result _ hc =>
          okOr_steps result _ fun _ _ => ?_
      simpa using hc
    | current n =>
      refine .bind (fetch_moves (.opened atEnd) (.loLseek64 fd n .seekCur) (.opened false) trivial
        (fun _ => by simp [Phase.next]) _) fun result _ hc => okOr_steps result _ fun _ _ => ?_
      simpa using hc
    | fromEnd n =>
      refine .bind (fetch_moves (.opened atEnd) (.loLseek64 fd n .seekEnd) (.opened (n = 0)) trivial
        (fun _ => by simp [Phase.next]) _) fun result _ hc => okOr_steps result _ fun _ _ => ?_
      simpa using hc
  · split
    · exact .ret hc
    · exact .panic _

theorem read_steps (room : ℕ) :
    connection.Steps ((BlobHandle.ofFd fd).read room) (fun _ c => c = .opened false)
      (.opened atEnd) := by
  unfold BlobHandle.read
  dsimp only
  split
  · refine .bind (live_steps (f := fun inner => inner.read (min room (8 * mib)))
      (.bind (fetch_moves (.opened atEnd) (.loRead fd (asI32 (min room (8 * mib)))) (.opened false)
        trivial (fun _ => rfl) _)
        fun result c hc => okOr_steps result _ fun _ _ => hc)) fun data c hc => ?_
    split
    · exact .ret hc
    · exact .panic _
  · exact .panic _

theorem write_steps (data : Bytes) :
    connection.Steps ((BlobHandle.ofFd fd).write data) (fun _ c => c = .opened true)
      (.opened true) := by
  refine .bind (live_steps (f := fun inner => inner.write data)
    (.bind (fetch_moves (.opened true) (.loWrite fd data) (.opened true) rfl (fun _ => rfl) _)
      fun result c hc => okOr_steps result _ fun _ _ => hc)) fun written c hc => ?_
  split
  · exact .ret hc
  · exact .panic _

theorem shutdown_steps : connection.Steps (BlobHandle.ofFd fd).shutdown (fun _ c => c = .idle)
    (.opened atEnd) := by
  refine live_steps (f := BlobHandleInner.close) ?_
  refine .bind (fetch_moves (.opened atEnd) (.loClose fd) .closed trivial (fun _ => rfl) _)
    fun result c hc => ?_
  subst hc
  refine .bind (okOr_steps (K := fun _ c => c = .closed) result _ fun _ _ => rfl) fun _ c hc => ?_
  subst hc
  exact fetch_moves .closed .commitTx .idle trivial (fun _ => rfl) _

theorem writeAll_steps (data : Bytes) :
    connection.Steps ((BlobHandle.ofFd fd).writeAll data) (fun _ c => c = .opened true)
      (.opened true) := by
  suffices ∀ turns buf, connection.Steps ((BlobHandle.ofFd fd).writeAllLoop turns buf)
    (fun _ c => c = .opened true) (.opened true) from this _ data
  intro turns
  induction turns with
  | zero =>
    intro buf
    unfold BlobHandle.writeAllLoop
    split
    · exact .ret rfl
    · exact .err _
  | succ turns ih =>
    intro buf
    unfold BlobHandle.writeAllLoop
    split
    · exact .ret rfl
    · refine .bind (write_steps buf) fun n c hc => ?_
      subst hc
      split
      · exact .panic _
      · split
        · exact .err _
        · exact ih _

theorem readExact_steps (len : ℕ) :
    connection.Steps ((BlobHandle.ofFd fd).readExact len) (fun _ c => ∃ b, c = .opened b)
      (.opened atEnd) := by
  suffices ∀ turns buf b, connection.Steps ((BlobHandle.ofFd fd).readExactLoop len turns buf)
    (fun _ c => ∃ b, c = .opened b) (.opened b) from this len [] atEnd
  intro turns
  induction turns with
  | zero =>
    intro buf b
    unfold BlobHandle.readExactLoop
    split
    · exact .ret ⟨b, rfl⟩
    · exact .err _
  | succ turns ih =>
    intro buf b
    unfold BlobHandle.readExactLoop
    split
    · exact .ret ⟨b, rfl⟩
    · refine .bind (read_steps _) fun data c hc => ?_
      subst hc
      split
      · exact .err _
      · exact ih _ _

theorem readU8_keeps : connection.Keeps (BlobHandle.ofFd fd).readU8 (.opened atEnd) := by
  refine .bind (read_steps 1) fun data c _ => ?_
  cases data with
  | nil => exact .err _
  | cons b rest => exact .ret trivial

theorem append_steps {id : FileId} (data : Bytes) :
    connection.Steps (PostgresFileHandle.append ⟨.ofFd fd, id⟩ data) (fun _ c => c = .opened true)
      (.opened atEnd) := by
  refine .bind (.mapErr (seek_steps (.fromEnd 0)) _) fun _ c hc => ?_
  simp only [decide_true] at hc
  subst hc
  exact .mapErr (writeAll_steps data) _

theorem metadata_steps {id : FileId} :
    connection.Steps (PostgresFileHandle.metadata ⟨.ofFd fd, id⟩) (fun _ c => c = .opened atEnd)
      (.opened atEnd) :=
  fetch_moves (.opened atEnd) (.updatedAt id) (.opened atEnd) trivial (fun _ => rfl) _

end Handle

theorem new_steps (oid : Oid) (id : FileId) :
    connection.Steps (PostgresFileHandle.new oid id) InUse .idle :=
  .bind (open_steps oid) fun _ _ ⟨fd, hb, hc⟩ => .ret ⟨fd, id, false, by rw [hb], hc⟩

theorem bucket_steps (name : String) :
    connection.Steps (PostgresBackend.bucket name) (fun _ c => c = .idle) .idle := by
  refine .bind (.mapErr (K := fun _ c => c = .idle) (.bind
    (fetch_moves .idle (.bucketByName name) .idle rfl (fun _ => rfl) _)
      fun row c hc => ?_) _)
      fun b c hc => ?_
  · obtain _ | ⟨id, _ | ttl⟩ := row
    · exact .ret hc
    · exact .ret hc
    · dsimp only
      split
      · exact .ret hc
      · exact .panic _
  · cases b with
    | none => exact .err _
    | some b => exact .ret hc

theorem file_steps (b : PostgresBucket) (fileName : String) :
    connection.Steps (b.file fileName) InUse .idle := by
  refine .bind (fetch_moves .idle (.fileByName b.id fileName) .idle rfl (fun _ => rfl) _)
    fun row c hc => ?_
  subst hc
  cases row with
  | none => exact .err _
  | some row => exact .mapErr (new_steps row.2 row.1) _

/-- A file that exists is found out before a transaction is begun. -/
theorem createFile_steps (b : PostgresBucket) (fileName : String) (now : DateTime) :
    connection.StepsOr (b.createFile fileName now) InUse (fun e c => e = .fileExists → c = .idle)
      .idle := by
  obtain ⟨deleteAfter, hd⟩ | hd := b.deleteAfter_cases now
  · simp only [PostgresBucket.createFile, hd, Prog.bind_eq, Prog.bind]
    refine (Logic.wp_bind ..).mpr ⟨rfl, fun a => ?_⟩
    obtain e | ⟨id, blob⟩ := a
    · cases e with
      | uniqueViolation => exact ⟨by simp, fun _ _ _ => rfl⟩
      | rowNotFound | writeConflict | database =>
        exact ⟨by simp, by simp [FileCreateError.ofBucket]⟩
    · exact Protocol.StepsOr.mapErr (new_steps blob id).or fun _ _ _ he => by cases he
  · simp only [PostgresBucket.createFile, hd, Prog.bind_eq, Prog.bind]
    exact .panic _

end Storage

/-! The handlers keep to it. -/

section Handlers

variable {fd : ℤ} {atEnd : Bool}

theorem matchFrames_keeps (stream : DataStream) :
    connection.Keeps (matchFrames (.ofFd fd) stream) (.opened atEnd) := by
  induction stream generalizing atEnd with
  | nil =>
    refine .bind (.attempt readU8_keeps) fun x c _ => ?_
    obtain (_ | _ | _) | _ := x
    · exact .ret trivial
    · exact .err _
    · exact .err _
    · exact .ret trivial
  | cons frame rest ih =>
    cases frame with
    | error => exact .err _
    | ok data =>
      refine .bind (.attempt (readExact_steps _)) fun x c hc => ?_
      obtain (_ | _ | _) | buf := x
      · exact .ret trivial
      · exact .err _
      · exact .err _
      · obtain ⟨b, rfl⟩ := hc buf rfl
        dsimp only
        split
        · exact .ret trivial
        · exact ih

theorem checkRangeMatches_keeps (stream : DataStream) (start : ℕ) :
    connection.Keeps (checkRangeMatches stream start (.ofFd fd)) (.opened atEnd) := by
  refine .bind (.mapErr (seek_steps _) _) fun _ c hc => ?_
  subst hc
  exact matchFrames_keeps stream

theorem appendFrames_steps {id : FileId} (stream : DataStream) :
    connection.Steps (appendFrames ⟨.ofFd fd, id⟩ stream) (fun _ c => ∃ b, c = .opened b)
      (.opened atEnd) := by
  induction stream generalizing atEnd with
  | nil => exact .ret ⟨atEnd, rfl⟩
  | cons frame rest ih =>
    cases frame with
    | error => exact .err _
    | ok data =>
      refine .bind (append_steps data) fun _ c hc => ?_
      subst hc
      exact ih

/-- The rest of an upload. -/
theorem appendCommit_keeps {id : FileId} (stream : DataStream) :
    connection.Keeps (do
      (appendFrames ⟨.ofFd fd, id⟩ stream).mapErr ApiError.internalError
      (PostgresFileHandle.commit ⟨.ofFd fd, id⟩).mapErr .internalError) (.opened atEnd) := by
  refine .bind (.mapErr (appendFrames_steps stream) _) fun _ c hc => ?_
  obtain ⟨b, rfl⟩ := hc
  exact .mapErr (.mapErr (shutdown_steps.mono fun _ _ _ => trivial) _) _

theorem readerStream_keeps (rooms : List ℕ+) :
    connection.Keeps (readerStream (.ofFd fd) rooms) (.opened atEnd) := by
  induction rooms generalizing atEnd with
  | nil => exact .ret trivial
  | cons room rooms ih =>
    refine .bind (.attempt (read_steps _)) fun x c hc => ?_
    cases x with
    | error e => exact .ret trivial
    | ok data =>
      obtain rfl := hc data rfl
      dsimp only
      split
      · exact .ret trivial
      · exact .bind ih fun _ _ _ => .ret trivial

theorem put_keeps (bucketName filename : String) (body : DataStream) (now : DateTime) :
    connection.Keeps (putWriteFilename bucketName filename body now) .idle := by
  refine .bind (.mapErr (bucket_steps bucketName) _) fun bucket c hc => ?_
  subst hc
  refine .bind (createFile_steps bucket filename now).attempt fun x c hc => ?_
  obtain e | h := x
  · cases e with
    | fileExists =>
      obtain rfl := hc.2 _ rfl rfl
      refine .bind (.mapErr (file_steps bucket filename) _) fun h c hc => ?_
      obtain ⟨fd, id, b, rfl, rfl⟩ := hc
      refine .bind (.mapErr (checkRangeMatches_keeps body 0) _) fun v _ _ => ?_
      cases v with
      | isMatch => exact .ret trivial
      | lengthMismatch | dataMismatch => exact .err _
    | invalidName | otherError => exact .err _
  · obtain ⟨fd, id, b, rfl, rfl⟩ := hc.1 _ rfl
    exact appendCommit_keeps body

theorem post_keeps (bucketName filename : String) (writeOffset : ℕ) (body : DataStream) :
    connection.Keeps (postAppendFilename bucketName filename writeOffset body) .idle := by
  refine .bind (.mapErr (bucket_steps bucketName) _) fun bucket c hc => ?_
  subst hc
  refine .bind (.mapErr (file_steps bucket filename) _) fun h c hc => ?_
  obtain ⟨fd, id, b, rfl, rfl⟩ := hc
  refine .bind (.mapErr (seek_steps _) _) fun size c hc => ?_
  subst hc
  dsimp only
  split
  · refine .bind (.mapErr (checkRangeMatches_keeps body writeOffset) _) fun v _ _ => ?_
    cases v with
    | isMatch => exact .ret trivial
    | lengthMismatch | dataMismatch => exact .err _
  · exact appendCommit_keeps body

theorem get_keeps (bucketName filename : String) (rooms : List ℕ+) :
    connection.Keeps (getExplore bucketName filename rooms) .idle := by
  refine .bind (.mapErr (bucket_steps bucketName) _) fun bucket c hc => ?_
  subst hc
  refine .bind (.mapErr (file_steps bucket filename) _) fun h c hc => ?_
  obtain ⟨fd, id, b, rfl, rfl⟩ := hc
  refine .bind (.mapErr (seek_steps _) _) fun length c hc => ?_
  subst hc
  refine .bind (.mapErr (seek_steps _) _) fun _ c hc => ?_
  subst hc
  refine .bind (.mapErr metadata_steps _) fun lastModified c hc => ?_
  subst hc
  exact .bind (readerStream_keeps rooms) fun _ _ _ => .ret trivial

/-- Every request keeps to its connection. -/
theorem handler_keeps (r : Request) : connection.Keeps r.handler .idle := by
  cases r with
  | put b f body now => exact .bind (put_keeps b f body now) fun _ _ _ => .ret trivial
  | post b f writeOffset body => exact .bind (post_keeps b f writeOffset body) fun _ _ _ => .ret trivial
  | get b f rooms => exact .bind (get_keeps b f rooms) fun _ _ _ => .ret trivial

end Handlers

/-! What the phases say of the connection itself. -/

/-- The writes of an upload: of the object that is open, none of them empty, and all
before the cursor once it has been moved to the end. -/
structure Stacked (d : Descriptor) (ws : List Write) (atEnd : Bool) : Prop where
  mode : d.mode = .readWrite
  object : ∀ w ∈ ws, w.oid = d.oid ∧ w.data ≠ []
  below : atEnd = true → ∀ w ∈ ws, w.pos + w.data.length ≤ d.pos

def Phase.Covers : Phase → Conn → Prop
  | .idle, c => c = .idle
  | .begun, c => c = .inTx ⟨none, []⟩
  | .opened atEnd, c => ∃ d ws, c = .inTx ⟨some d, ws⟩ ∧ Stacked d ws atEnd
  | .closed, c => ∃ tx, c = .inTx tx
  | .broken, _ => True

theorem length_applyAll_ge {ws : List Write} {oid : Oid} (hw : ∀ w ∈ ws, w.oid = oid) (c : Bytes) :
    ∀ w ∈ ws, w.pos + w.data.length ≤ (applyAll ws oid c).length := by
  induction ws generalizing c with
  | nil => simp
  | cons v ws ih =>
    intro w hmem
    have hrest : ∀ w ∈ ws, w.oid = oid := fun w h => hw w (List.mem_cons_of_mem _ h)
    obtain rfl | hmem := List.mem_cons.mp hmem
    · have hlen := length_le_applyAll ws oid (w.apply oid c)
      refine le_trans ?_ hlen
      rw [Write.apply, if_pos (hw w List.mem_cons_self), length_patch]
      exact le_max_right _ _
    · exact ih hrest (v.apply oid c) w hmem

namespace Stacked

variable {d : Descriptor} {ws : List Write} {atEnd : Bool}

theorem moved (h : Stacked d ws atEnd) (pos : ℕ) : Stacked { d with pos := pos } ws false :=
  ⟨h.mode, h.object, by simp⟩

theorem toEnd (h : Stacked d ws atEnd) (db : Db) :
    Stacked { d with pos := (Tx.view ⟨some d, ws⟩ db d).length } ws true := by
  refine ⟨h.mode, h.object, fun _ w hw => ?_⟩
  rw [Tx.view_readWrite d h.mode]
  exact length_applyAll_ge (fun w hw => (h.object w hw).1) _ w hw

theorem wrote (h : Stacked d ws true) (data : Bytes) :
    Stacked { d with pos := d.pos + data.length }
      (if data = [] then ws else ws ++ [⟨d.oid, d.pos, data⟩]) true := by
  split
  · rename_i hd
    subst hd
    exact h
  · rename_i hd
    refine ⟨h.mode, fun w hw => ?_, fun _ w hw => ?_⟩
    · obtain hw | hw := List.mem_append.mp hw
      · exact h.object w hw
      · rw [List.mem_singleton.mp hw]
        exact ⟨rfl, hd⟩
    · obtain hw | hw := List.mem_append.mp hw
      · exact (h.below rfl w hw).trans (Nat.le_add_right _ _)
      · rw [List.mem_singleton.mp hw]

end Stacked

/-- In an open transaction, Postgres and the protocol go on together. -/
theorem covers_opened {db : Db} {d : Descriptor} {ws : List Write} {atEnd : Bool}
    (hst : Stacked d ws atEnd) {q : Query} {s' : Session} {a : q.Reply}
    (hq : (Phase.opened atEnd).allows q)
    (hs : Session.serve (fun _ => false) q ⟨db, .inTx ⟨some d, ws⟩⟩ = some (a, s')) :
    ((Phase.opened atEnd).next q a).Covers s'.conn := by
  cases q with
  | loLseek64 fd n whence =>
    cases a with
    | error e => trivial
    | ok r =>
      obtain ⟨tx, tx', ht, ho, rfl⟩ := Session.onTx_ok (Option.some.inj hs)
      obtain rfl := Conn.inTx.inj ht
      by_cases hend : n = 0 ∧ whence = .seekEnd
      · obtain ⟨rfl, rfl⟩ := hend
        obtain ⟨d', hd', rfl⟩ := Tx.seekEnd_ok ho
        obtain rfl := Option.some.inj hd'
        exact ⟨_, ws, rfl, hst.toEnd db⟩
      · obtain ⟨d', target, hd', -, -, rfl⟩ := Tx.lo_lseek64_ok ho
        obtain rfl := Option.some.inj hd'
        simp only [Phase.next, decide_eq_false hend]
        exact ⟨_, ws, rfl, hst.moved _⟩
  | loRead fd count =>
    cases a with
    | error e => trivial
    | ok r =>
      obtain ⟨tx, tx', ht, ho, rfl⟩ := Session.onTx_ok (Option.some.inj hs)
      obtain rfl := Conn.inTx.inj ht
      obtain ⟨d', data, hd', -, -, -, rfl⟩ := Tx.loread_ok ho
      obtain rfl := Option.some.inj hd'
      exact ⟨_, ws, rfl, hst.moved _⟩
  | loWrite fd data =>
    obtain rfl : atEnd = true := hq
    cases a with
    | error e => trivial
    | ok r =>
      have hw : Session.lowrite ⟨db, .inTx ⟨some d, ws⟩⟩ (fun _ => false) fd data =
          some (.ok r, s') := hs
      obtain ⟨tx, d', ht, hd', -, rfl⟩ := Session.lowrite_ok hw
      obtain rfl := Conn.inTx.inj ht
      obtain rfl := Option.some.inj hd'
      exact ⟨_, _, rfl, hst.wrote data⟩
  | updatedAt id =>
    obtain ⟨-, rfl⟩ := Prod.mk.inj (Option.some.inj hs)
    exact ⟨d, ws, rfl, hst⟩
  | loClose fd =>
    cases a with
    | error e => trivial
    | ok r =>
      obtain ⟨tx, tx', ht, ho, rfl⟩ := Session.onTx_ok (Option.some.inj hs)
      exact ⟨tx', rfl⟩
  | _ => exact hq.elim

/-- Postgres and the protocol go on together. -/
theorem covers_serve {phase : Phase} {q : Query} {s s' : Session} {a : q.Reply}
    (hc : phase.Covers s.conn) (hq : phase.allows q)
    (hs : s.serve (fun _ => false) q = some (a, s')) : (phase.next q a).Covers s'.conn := by
  obtain ⟨db, conn⟩ := s
  cases phase with
  | broken => exact hq.elim
  | idle =>
    obtain rfl : conn = .idle := hc
    cases q with
    | loOpen | loLseek64 | loRead | loWrite | loClose | updatedAt | commitTx => cases hq
    | bucketByName | listBuckets | fileByName =>
      obtain ⟨rfl, rfl⟩ := Prod.mk.inj (Option.some.inj hs)
      rfl
    | beginTx =>
      obtain ⟨rfl, rfl⟩ := Prod.mk.inj (Option.some.inj hs)
      rfl
    | insertBucket | insertFile | deleteOldFilesBatch =>
      exact (Session.onPool_conn (Option.some.inj hs)).1
  | begun =>
    obtain rfl : conn = .inTx ⟨none, []⟩ := hc
    cases q with
    | loOpen oid flags =>
      cases a with
      | error e => trivial
      | ok r =>
        obtain ⟨tx, tx', ht, ho, rfl⟩ := Session.onTx_ok (Option.some.inj hs)
        obtain ⟨c, mode, hm, rfl⟩ := Tx.lo_open_ok ho
        obtain rfl : mode = .readWrite := Option.some.inj (hm.symm.trans hq)
        obtain rfl := Conn.inTx.inj ht
        exact ⟨_, [], rfl, rfl, by simp, by simp⟩
    | _ => exact hq.elim
  | closed =>
    obtain ⟨tx, rfl⟩ := hc
    cases q with
    | commitTx =>
      obtain ⟨-, rfl⟩ := Prod.mk.inj (Option.some.inj hs)
      cases a <;> rfl
    | _ => exact hq.elim
  | opened atEnd =>
    obtain ⟨d, ws, rfl, hst⟩ := hc
    exact covers_opened hst hq hs

/-- A transaction that is open is not asked to wait for the pool. -/
theorem inTx_of_allows {phase : Phase} {q : Query} (hq : phase.allows q) (h : phase ≠ .idle) :
    Query.inTx q = true := by
  cases phase with
  | idle => exact absurd rfl h
  | begun | opened | closed | broken => cases q <;> first | rfl | exact hq.elim

end LocallyEuclidean.Server
