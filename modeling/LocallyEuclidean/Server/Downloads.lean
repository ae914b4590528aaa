import LocallyEuclidean.Server.Races

/-! Downloads among the commits of others. The length is taken by one statement and
the body by later ones, on a descriptor that sees every commit. -/

namespace LocallyEuclidean.Server
open Interact Postgres Storage

/-- The statement that takes the length. -/
def isProbe : Query → Bool
  | .loLseek64 _ _ .seekEnd => true
  | _ => false

/-- A read finds `content`, and nothing else, from its cursor as far as its room reaches. -/
def ReadFits (oid : Oid) (content : Bytes) : Query → Session → Prop
  | .loRead _ count, s => ∀ k, s.conn.cursor ≤ k → k < s.conn.cursor + count.toNat →
      (s.db.bytes oid)[k]? = content[k]?
  | _, _ => True

/-- Every read so far has found the bytes `c`. -/
def Fits (oid : Oid) (c : Bytes) (steps : List (Query × Session)) : Prop :=
  ∀ y ∈ steps, ReadFits oid c y.1 y.2

theorem fits_cons {oid : Oid} {c : Bytes} {y : Query × Session} {steps : List (Query × Session)} :
    Fits oid c (y :: steps) ↔ ReadFits oid c y.1 y.2 ∧ Fits oid c steps :=
  List.forall_mem_cons

/-- The body has the length that was announced, and is what the file held at one of these
moments. -/
def Snapshot (moments : List Db) (bucketName filename : String) (r : Response) : Prop :=
  r.body.flatten.length = r.contentLength ∧
    ∃ d ∈ moments, d.content bucketName filename = some r.body.flatten

/-! The reads of one download, after the probe `x`. -/

section Reads

variable {sched : Schedule} (oid : Oid) (x : Query × Session)

/-- The one probe so far. -/
def Probed (steps : List (Query × Session)) : Prop :=
  x ∈ steps ∧ ∀ y ∈ steps, isProbe y.1 → y = x

theorem Probed.cons {x y : Query × Session} {steps : List (Query × Session)} (h : Probed x steps)
    (hy : isProbe y.1 = false) : Probed x (y :: steps) := by
  refine ⟨List.mem_cons_of_mem _ h.1, ?_⟩
  rw [List.forall_mem_cons]
  exact ⟨fun hp => by simp [hy] at hp, h.2⟩

/-- The bytes `m` have been read. Of the contents of the probed length they fit those that begin
with `m`. -/
def Reading (sched : Schedule) (m : Bytes) (w : Watched) : Prop :=
  w.1.session.conn.At oid m.length [] ∧ Later x.2.db w.1.session.db ∧
    Probed x (w.steps sched) ∧ ∀ c : Bytes, c.length = (x.2.db.bytes oid).length →
      (Fits oid c (w.steps sched) ↔ m <+: c)

/-- The end has been met after the bytes `m`. -/
def Ended (sched : Schedule) (m : Bytes) (w : Watched) : Prop :=
  Probed x (w.steps sched) ∧ ∀ c : Bytes, c.length = (x.2.db.bytes oid).length →
    (Fits oid c (w.steps sched) ↔ m = c)

variable {oid x}

theorem readsOn_watched (hf : Faultless sched) :
    BlobHandle.ReadsOn (Watch sched) 0 (Reading oid x sched) (Ended oid x sched) := by
  rintro m w room ⟨hat, hlater, hprobed, hm⟩ hroom -
  have hlater' := hlater.trans (later_meet sched hlater.linked)
  obtain ⟨conn', hs, hat'⟩ := Conn.At.read (fun _ => false) (meet sched w.1).db hat room
  rw [applyAll_nil] at hs hat'
  refine watched_call hf hs ⟨_, rfl, length_window_le _ _ _, ?_⟩
  have grown := hlater'.bytes oid
  have hfits (c : Bytes) : ReadFits oid c (.loRead 0 room) (meet sched w.1) ↔
      window ((meet sched w.1).db.bytes oid) m.length room = window c m.length room := by
    rw [ReadFits, meet_conn, hat.cursor_eq, Int.toNat_natCast, window_eq_iff]
  generalize (meet sched w.1).db.bytes oid = v at hs hat' grown hfits ⊢
  have hprobed' := hprobed.cons (y := (.loRead 0 room, meet sched w.1)) rfl
  by_cases hw : window v m.length room = []
  · refine .inr ⟨hw, hprobed', fun c hc => ?_⟩
    rw [Watched.steps_after, fits_cons, hfits, hm c hc, hw, eq_comm, window_eq_nil hroom]
    exact ⟨fun h => h.2.eq_of_length_le h.1, fun h => h ▸ ⟨le_refl _, List.prefix_rfl⟩⟩
  · refine .inl ⟨hw, ?_, hlater', hprobed', fun c hc => ?_⟩
    · rwa [List.length_append]
    · have hle : c.length ≤ v.length := by
        obtain rfl | hle := grown
        · exact absurd (window_nil _ _) hw
        · exact hc.trans_le hle
      rw [Watched.steps_after, fits_cons, hfits, hm c hc, append_window_isPrefix_iff room hle]

end Reads

/-! The download. -/

section Download

variable {sched : Schedule} {db : Db} {bucketName filename : String} {b : BucketRow} {f : FileRow}

/-- Neither the probe nor a read. -/
def Plain (q : Query) : Prop := isProbe q = false ∧ ∀ oid c s, ReadFits oid c q s

/-- Before the probe. -/
def Early (db : Db) (sched : Schedule) (w : Watched) : Prop :=
  Later db w.1.session.db ∧ ∀ y ∈ w.steps sched, Plain y.1

theorem Early.next {w : Watched} (h : Early db sched w) {q : Query} (hq : Plain q)
    (conn : Conn) :
    Early db sched (w.after q ⟨(meet sched w.1).db, conn⟩) :=
  ⟨h.1.trans (later_meet sched h.1.linked), List.forall_mem_cons.mpr ⟨hq, h.2⟩⟩

/-- At one of these moments the file was as long as at the probe, and what it held then is what
every read has found. -/
def OneMoment (moments : List Db) (oid : Oid) (bucketName filename : String)
    (steps : List (Query × Session)) : Prop :=
  ∃ d ∈ moments, ∃ c, d.content bucketName filename = some c ∧
    (∀ x ∈ steps, isProbe x.1 → (x.2.db.bytes oid).length = c.length) ∧ Fits oid c steps

/-- What is to be shown of a download that is read to its end. -/
def Judged (moments : List Db) (oid : Oid) (bucketName filename : String)
    (o : Outcome ApiError Response) (steps : List (Query × Session)) : Prop :=
  ∀ r, o = .ok r → r.bodyEnd = .eof → (Snapshot moments bucketName filename r ↔
    OneMoment moments oid bucketName filename steps)

variable {moments : List Db}

theorem judged_err {oid : Oid} {e : ApiError} {steps : List (Query × Session)} :
    Judged moments oid bucketName filename (.err e) steps := by
  rintro r ⟨⟩

theorem judged_of_ended {oid : Oid} {m : Bytes} {x : Query × Session} {w : Watched}
    (hx : isProbe x.1) (h : Ended oid x sched m w) {r : Response}
    (hlen : r.contentLength = (x.2.db.bytes oid).length) (hbody : r.body.flatten = m) :
    Judged moments oid bucketName filename (.ok r) (w.steps sched) := by
  obtain ⟨hp, hend⟩ := h
  rintro _ ⟨⟩ -
  rw [Snapshot, hlen, hbody]
  constructor
  · rintro ⟨hl, d, hd, hcontent⟩
    refine ⟨d, hd, m, hcontent, fun y hy hq => ?_, (hend m hl).mpr rfl⟩
    rw [hp.2 y hy hq, hl]
  · rintro ⟨d, hd, c, hcontent, hl, hfits⟩
    have hc := (hl x hp.1 hx).symm
    obtain rfl := (hend c hc).mp hfits
    exact ⟨hc, d, hd, hcontent⟩

/-- Behind the probe `x`, and before the first read. -/
def AfterProbe (x : Query × Session) (sched : Schedule) (w : Watched) : Prop :=
  Later x.2.db w.1.session.db ∧ Probed x (w.steps sched) ∧
    ∀ oid c, Fits oid c (w.steps sched)

theorem AfterProbe.next {x : Query × Session} {w : Watched} (h : AfterProbe x sched w) {q : Query}
    (hq : Plain q) (conn : Conn) :
    AfterProbe x sched (w.after q ⟨(meet sched w.1).db, conn⟩) :=
  ⟨h.1.trans (later_meet sched h.1.linked), h.2.1.cons hq.1,
    fun oid c => fits_cons.mpr ⟨hq.2 oid c _, h.2.2 oid c⟩⟩

theorem rest_watched (hf : Faultless sched) {oid : Oid} {id : FileId} (rooms : List ℕ+)
    {x : Query × Session} (hx : isProbe x.1) {w : Watched} (hw : AfterProbe x sched w) {pos : ℕ}
    (hat : w.1.session.conn.At oid pos []) :
    (Watch sched).wp (do
        let _ ← ((BlobHandle.ofFd 0).seek (.start 0)).mapErr fun e => .internalError (.io e)
        let lastModified ← (PostgresFileHandle.metadata ⟨.ofFd 0, id⟩).mapErr .internalError
        let (body, bodyEnd) ← readerStream (.ofFd 0) rooms
        return ⟨(x.2.db.bytes oid).length, "application/octet-stream", lastModified, body,
          bodyEnd⟩ : DbProg ApiError Response)
      (fun o w => Judged moments oid bucketName filename o (w.steps sched)) w := by
  obtain ⟨conn₁, hs₁, hat₁⟩ := hat.seekStart (fun _ => false) (meet sched w.1).db (Nat.zero_le _)
  refine Logic.wp_then (BlobHandle.wp_seekStart (Nat.zero_le _) (watched_call hf hs₁ ⟨0, rfl, ?_⟩))
  have hw₁ := hw.next (q := .loLseek64 0 0 .seekSet) ⟨rfl, fun _ _ _ => trivial⟩ conn₁
  refine Logic.wp_then (PostgresFileHandle.wp_metadata ?_)
  cases hg : (meet sched (w.after (.loLseek64 0 0 .seekSet)
      ⟨(meet sched w.1).db, conn₁⟩).1).db.findFileById id with
  | none => exact watched_call hf (hat₁.updatedAt_none _ _ hg) (.inr ⟨_, rfl, judged_err⟩)
  | some g =>
    refine watched_call hf (hat₁.updatedAt_some _ _ hg) (.inl ⟨_, rfl, ?_⟩)
    have hw₂ := hw₁.next (q := .updatedAt id) ⟨rfl, fun _ _ _ => trivial⟩ conn₁
    refine (Logic.wp_bind ..).mpr (Logic.wp_mono ?_ (wp_readerStream (m := [])
      (readsOn_watched hf) ⟨hat₁, hw₂.1, hw₂.2.1,
        fun c _ => iff_of_true (hw₂.2.2 _ _) List.nil_prefix⟩))
    rintro _ w' ⟨chunks, e, rfl, ⟨rfl, hend⟩ | ⟨rfl, -⟩⟩
    · exact judged_of_ended hx hend rfl rfl
    · rintro _ ⟨⟩ ⟨⟩

theorem probe_watched (hf : Faultless sched) {oid : Oid} {id : FileId} (rooms : List ℕ+)
    {w : Watched} (hw : Early db sched w) (hat : w.1.session.conn.At oid 0 []) :
    (Watch sched).wp (do
        let length ← ((BlobHandle.ofFd 0).seek (.fromEnd 0)).mapErr fun e => .internalError (.io e)
        let _ ← ((BlobHandle.ofFd 0).seek (.start 0)).mapErr fun e => .internalError (.io e)
        let lastModified ← (PostgresFileHandle.metadata ⟨.ofFd 0, id⟩).mapErr .internalError
        let (body, bodyEnd) ← readerStream (.ofFd 0) rooms
        return ⟨length, "application/octet-stream", lastModified, body, bodyEnd⟩ :
          DbProg ApiError Response)
      (fun o w => Judged moments oid bucketName filename o (w.steps sched)) w := by
  have hlater := hw.1.trans (later_meet sched hw.1.linked)
  obtain ⟨conn, hs, hat'⟩ := hat.seekEnd (fun _ => false) (meet sched w.1).db (by
    rw [applyAll_nil]
    exact hlater.linked.length_bytes_le _)
  rw [applyAll_nil] at hs hat'
  have since : AfterProbe (.loLseek64 0 0 .seekEnd, meet sched w.1) sched
      (w.after (.loLseek64 0 0 .seekEnd) ⟨(meet sched w.1).db, conn⟩) := by
    refine ⟨.refl hlater.linked, ⟨List.mem_cons_self, ?_⟩, fun oid c => ?_⟩
    · rw [Watched.steps_after, List.forall_mem_cons]
      exact ⟨fun _ => rfl, fun y hy hp => by simp [(hw.2 y hy).1] at hp⟩
    · exact fits_cons.mpr ⟨trivial, fun y hy => (hw.2 y hy).2 oid c _⟩
  exact Logic.wp_then (BlobHandle.wp_seekEnd (watched_call hf hs ⟨_, rfl,
    rest_watched hf rooms rfl since hat'⟩))

theorem getExplore_watched (hf : Faultless sched) (h : db.Linked)
    (hb : db.findBucket bucketName = some b) (hrow : db.findFile b.id filename = some f)
    (rooms : List ℕ+) {w : Watched} (hw : Early db sched w) :
    (Watch sched).wp (getExplore bucketName filename rooms)
      (fun o w => Judged moments f.blob bucketName filename o (w.steps sched)) w := by
  refine Logic.wp_then (bucket_watched hf
    (((hw.1.trans (later_meet sched hw.1.linked)).findBucket _).trans hb) ?_)
  have hw₁ := hw.next (q := .bucketByName bucketName) ⟨rfl, fun _ _ _ => trivial⟩
    w.1.session.conn
  refine Logic.wp_then (file_watched hf (fun g hg => ?_) fun _ => judged_err)
  obtain rfl : g = f := by
    have hg := (hw₁.1.trans (later_meet sched hw₁.1.linked)).findFile h hg
    exact Option.some.inj (hg.symm.trans hrow)
  have hw₂ := hw₁.next (q := .fileByName b.id filename) ⟨rfl, fun _ _ _ => trivial⟩
    w.1.session.conn
  refine new_watched hf rfl (fun c conn hc hat => ?_) fun _ _ => judged_err
  have hw₃ := (hw₂.next (q := .beginTx) ⟨rfl, fun _ _ _ => trivial⟩
    (.inTx ⟨none, []⟩)).next (q := .loOpen g.blob (OpenMode.bits .readWrite))
    ⟨rfl, fun _ _ _ => trivial⟩ conn
  exact probe_watched hf rooms hw₃ hat

/-- A download that is read to its end is one consistent snapshot if and only if its reads have
found what the file held at one moment at which it was as long as at the probe. -/
theorem download_snapshot_iff (hf : Faultless sched) (h : db.Linked)
    (hb : db.findBucket bucketName = some b) (hrow : db.findFile b.id filename = some f)
    {rooms : List ℕ+} {r : Response}
    (hr : (runScheduled sched (getExplore bucketName filename rooms) db).1 = .ok r)
    (hend : r.bodyEnd = .eof) :
    let steps := steps sched (getExplore bucketName filename rooms) db
    let moments := instants sched (getExplore bucketName filename rooms) db
    Snapshot moments bucketName filename r ↔
      OneMoment moments f.blob bucketName filename steps := by
  intro steps moments
  have hj := steps_of_wp (P := fun o steps => Judged moments f.blob bucketName filename o steps)
    (getExplore_watched hf h hb hrow rooms ⟨.refl h, fun _ hy => by cases hy⟩) r hr hend
  simpa only [OneMoment, Fits, List.mem_reverse] using hj

end Download

/-- An append commits after the length has been taken and before the body is read. -/
theorem download_torn :
    let db := (serveRequest (.created 0 "bucket" none) (.put "bucket" "meow" (frames [[109]]) 0)).2
    let sched : Schedule := fun k => ⟨if k = 7 then [.written [⟨16384, 1, [33]⟩]] else [], .none⟩
    let r : Response := ⟨1, "application/octet-stream", 0, [[109, 33]], .eof⟩
    (runScheduled sched (getExplore "bucket" "meow" [4, 4]) db).1 = .ok r ∧
      ¬ Snapshot (instants sched (getExplore "bucket" "meow" [4, 4]) db) "bucket" "meow" r := by
  intro db sched r
  exact ⟨by decide, fun h => absurd h.1 (by decide)⟩

/-- Two appends that have both sought to the third byte: the one commits before the length is
taken, and the other between two reads. -/
theorem download_snapshot_iff_meow :
    let db := (serveRequest (.created 0 "bucket" none)
      (.put "bucket" "meow" (frames [[109, 101, 111]]) 0)).2
    let sched : Schedule := fun k => ⟨if k = 3 then [.written [⟨16384, 3, [119, 120]⟩]]
      else if k = 8 then [.written [⟨16384, 3, [121, 122]⟩]] else [], .none⟩
    let r : Response := ⟨5, "application/octet-stream", 0, [[109, 101, 111, 119], [122]], .eof⟩
    let steps := steps sched (getExplore "bucket" "meow" [4, 4, 4]) db
    let moments := instants sched (getExplore "bucket" "meow" [4, 4, 4]) db
    Snapshot moments "bucket" "meow" r ↔ OneMoment moments 16384 "bucket" "meow" steps := by
  intro db sched r
  exact download_snapshot_iff (f := ⟨⟨1⟩, ⟨0⟩, "meow", 16384, none, 0⟩) (fun _ => rfl)
    (serveRequest_linked (Db.linked_created 0 "bucket" none) _) (b := ⟨⟨0⟩, "bucket", none⟩) rfl
    (by decide) (by decide) rfl

end LocallyEuclidean.Server
