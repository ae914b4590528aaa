import LocallyEuclidean.Server.Sequential

/-! Requests among the commits of others, while no statement fails. -/

namespace LocallyEuclidean.Server
open Interact Postgres Storage

/-- What the commits of others can make of a database: rows only go, and no object gets
shorter. -/
structure Later (db db' : Db) : Prop where
  linked : db'.Linked
  buckets : db'.buckets = db.buckets
  files : db'.files ⊆ db.files
  grown : ∀ oid c', db'.objects oid = some c' → ∃ c, db.objects oid = some c ∧ c.length ≤ c'.length

namespace Later

variable {db db' db'' : Db}

theorem refl (h : db.Linked) : Later db db :=
  ⟨h, rfl, fun _ hf => hf, fun _ c hc => ⟨c, hc, le_refl _⟩⟩

theorem trans (h : Later db db') (h' : Later db' db'') : Later db db'' := by
  refine ⟨h'.linked, h'.buckets.trans h.buckets, fun f hf => h.files (h'.files hf), ?_⟩
  intro oid c'' hc''
  obtain ⟨c', hc', hp'⟩ := h'.grown oid c'' hc''
  obtain ⟨c, hc, hp⟩ := h.grown oid c' hc'
  exact ⟨c, hc, hp.trans hp'⟩

theorem tick (h : db.Linked) (now : Timestamp) : Later db { db with clock := now } :=
  ⟨h.tick now, rfl, fun _ hf => hf, fun _ c hc => ⟨c, hc, le_refl _⟩⟩

theorem written (h : db.Linked) {writes : List Write}
    (hw : ∀ w ∈ writes, w.pos + w.data.length ≤ maxObjectSize) :
    Later db (db.commit ⟨none, writes⟩) := by
  refine ⟨h.commit hw, rfl, fun _ hf => hf, fun oid c' hc' => ?_⟩
  obtain ⟨c, hc, rfl⟩ := Option.map_eq_some_iff.mp hc'
  exact ⟨c, hc, length_le_applyAll writes oid c⟩

theorem expired (h : db.Linked) (tie : FileId → ℕ) : Later db (db.deleteBatch tie) :=
  ⟨h.deleteBatch tie, rfl, fun _ hf => (Db.mem_deleteBatch.mp hf).1,
    fun _ c hc => ⟨c, (Db.objects_deleteBatch_some hc).1, le_refl _⟩⟩

theorem event (h : db.Linked) (e : Event) : Later db (e.apply db) := by
  cases e with
  | tick now => exact tick h now
  | written writes =>
    simp only [Event.apply]
    split
    · rename_i hw
      exact written h (by simpa using hw)
    · exact refl h
  | expired tie =>
    obtain ⟨k, hk⟩ := h.deleteOldFilesBatch_eq tie
    simp only [Event.apply, hk]
    exact expired h tie

theorem events (h : db.Linked) (es : List Event) :
    Later db (es.foldl (fun db e => e.apply db) db) := by
  induction es generalizing db with
  | nil => exact refl h
  | cons e es ih => exact (event h e).trans (ih (event h e).linked)

theorem bytes (h : Later db db') (oid : Oid) :
    db'.bytes oid = [] ∨ (db.bytes oid).length ≤ (db'.bytes oid).length := by
  cases hc' : db'.objects oid with
  | none => exact .inl (by rw [Db.bytes, hc']; rfl)
  | some c' =>
    obtain ⟨c, hc, hle⟩ := h.grown oid c' hc'
    rw [Db.bytes_of_objects hc, Db.bytes_of_objects hc']
    exact .inr hle

theorem findBucket (h : Later db db') (name : String) :
    db'.findBucket name = db.findBucket name := by
  rw [Db.findBucket, Db.findBucket, h.buckets]

/-- A row that is still found is the row that was there before. -/
theorem findFile (h : Later db db') (hl : db.Linked) {bucket : BucketId} {filename : String}
    {f : FileRow} (hf : db'.findFile bucket filename = some f) :
    db.findFile bucket filename = some f := by
  obtain ⟨hm, rfl, rfl⟩ := Db.findFile_some hf
  exact hl.findFile_of_mem (h.files hm)

theorem findFileById (h : Later db db') (hl : db.Linked) {id : FileId} {f : FileRow}
    (hf : f ∈ db.files) (hid : f.id = id) (hr : (db'.findFileById id).isSome) : f ∈ db'.files := by
  obtain ⟨g, hg⟩ := Option.isSome_iff_exists.mp hr
  have hm := List.mem_of_find?_eq_some hg
  have he : g.id = id := by simpa using List.find?_some hg
  rwa [eq_of_nodup_map hl.ids hf (h.files hm) (hid.trans he.symm)]

end Later

section Watch

variable {ε α : Type} {sched : Schedule}

theorem later_meet (sched : Schedule) {w : Scheduled} (h : w.session.db.Linked) :
    Later w.session.db (meet sched w).db :=
  Later.events h _

@[simp] theorem meet_conn (w : Scheduled) : (meet sched w).conn = w.session.conn := rfl

/-- No statement fails, and nobody drops the request. -/
def Faultless (sched : Schedule) : Prop := ∀ k, (sched k).fault = .none

/-- A request and its statements so far, newest first. -/
abbrev Watched := Scheduled × List (Query × Scheduled)

/-- The statements so far, as they were met. -/
def Watched.steps (sched : Schedule) (w : Watched) : List (Query × Session) :=
  w.2.map fun x => (x.1, meet sched x.2)

/-- The next statement has left the session `s`. -/
def Watched.after (w : Watched) (q : Query) (s : Session) : Watched :=
  (⟨s, w.1.index + 1⟩, (q, w.1) :: w.2)

@[simp] theorem Watched.after_session (w : Watched) (q : Query) (s : Session) :
    (w.after q s).1.session = s := rfl

@[simp] theorem Watched.steps_after (sched : Schedule) (w : Watched) (q : Query) (s : Session) :
    (w.after q s).steps sched = (q, meet sched w.1) :: w.steps sched := rfl

abbrev Watch (sched : Schedule) : Logic Query.Reply Watched :=
  alone (watched (scheduled sched)) fun _ => False

theorem watched_call (hf : Faultless sched) {q : Query} {w : Watched} {a : q.Reply} {s' : Session}
    (hs : (meet sched w.1).serve (fun _ => false) q = some (a, s'))
    {Φ : q.Reply → Watched → Prop} (h : Φ a (w.after q s')) :
    (Watch sched).call q Φ w := by
  refine alone_call ?_ h
  simp only [watched, scheduled, hf w.1.index, serveAlone, hs, Watched.after]

theorem steps_of_wp {p : DbProg ε α} {db : Db} {P : Outcome ε α → List (Query × Session) → Prop}
    (h : (Watch sched).wp p (fun o w => P o (w.steps sched)) (⟨⟨db, .idle⟩, 0⟩, [])) :
    P (runScheduled sched p db).1 (steps sched p db).reverse := by
  have hw := wp_watched (fun _ => False.elim) h
  rw [Watched.steps, List.map_reverse] at hw
  exact hw

/-! The lookups of a handler, as their statements are met. -/

section Lookup

variable (hf : Faultless sched) {w : Watched}
include hf

theorem bucket_watched {name : String} {b : BucketRow}
    (hb : (meet sched w.1).db.findBucket name = some b)
    {post : Outcome FileOpenError PostgresBucket → Watched → Prop}
    (h : post (.ok ⟨b.id, b.defaultTtl.map Interval.delta⟩)
      (w.after (.bucketByName name) (meet sched w.1))) :
    (Watch sched).wp (PostgresBackend.bucket name) post w :=
  PostgresBackend.wp_bucket (watched_call hf (by rw [Session.serve, hb]; rfl) (.inr ⟨_, _, rfl, h⟩))

/-- A handle on an object that is there, or has gone. -/
theorem new_watched {oid : Oid} {id : FileId}
    {post : Outcome FileHandleError PostgresFileHandle → Watched → Prop} {w₁ : Watched}
    (hw₁ : w₁ = w.after .beginTx ⟨(meet sched w.1).db, .inTx ⟨none, []⟩⟩)
    (opened : ∀ c conn, (meet sched w₁.1).db.objects oid = some c → conn.At oid 0 [] →
      post (.ok ⟨.ofFd 0, id⟩)
        (w₁.after (.loOpen oid (OpenMode.bits .readWrite)) ⟨(meet sched w₁.1).db, conn⟩))
    (gone : (meet sched w₁.1).db.objects oid = none → ∀ e, post (.err e)
      (w₁.after (.loOpen oid (OpenMode.bits .readWrite)) ⟨(meet sched w₁.1).db, .failed⟩)) :
    (Watch sched).wp (PostgresFileHandle.new oid id) post w := by
  subst hw₁
  refine PostgresFileHandle.wp_new (watched_call hf rfl ⟨rfl, ?_⟩)
  cases ho : (meet sched (w.after .beginTx ⟨(meet sched w.1).db, .inTx ⟨none, []⟩⟩).1).db.objects
      oid with
  | none =>
    exact watched_call hf (Session.serve_loOpen_none ho) (.inr ⟨_, rfl, gone ho _⟩)
  | some c =>
    obtain ⟨conn, hs, hat⟩ := Conn.At.opened (fun _ => false) (OpenMode.ofFlags_bits .readWrite) ho
    exact watched_call hf hs (.inl ⟨0, rfl, opened c conn ho hat⟩)

/-- A file that is found by its name, or has gone. -/
theorem file_watched {p : PostgresBucket} {filename : String}
    {post : Outcome FileOpenError PostgresFileHandle → Watched → Prop}
    (found : ∀ f, (meet sched w.1).db.findFile p.id filename = some f →
      (Watch sched).wp (PostgresFileHandle.new f.blob f.id) (fun o w' => post (o.mapErr .ofHandle) w')
        (w.after (.fileByName p.id filename) (meet sched w.1)))
    (gone : (meet sched w.1).db.findFile p.id filename = none →
      post (.err .doesNotExist) (w.after (.fileByName p.id filename) (meet sched w.1))) :
    (Watch sched).wp (p.file filename) post w := by
  refine PostgresBucket.wp_file ?_
  cases hr : (meet sched w.1).db.findFile p.id filename with
  | none => exact watched_call hf (by rw [Session.serve, hr]; rfl) (.inl ⟨rfl, gone hr⟩)
  | some f => exact watched_call hf (by rw [Session.serve, hr]; rfl) (.inr ⟨_, _, rfl, found f hr⟩)

end Lookup

/-! An upload to an object of at most `n` committed bytes, whatever becomes of it. -/

/-- The bytes `w` have been appended, and `I` holds besides. -/
def AppendingTo (oid : Oid) (n : ℕ) (I : Watched → Prop) (m : Bytes) (w : Watched) : Prop :=
  I w ∧ ∃ pos ws, w.1.session.conn.At oid pos ws ∧ ∀ v ∈ ws, v.pos + v.data.length ≤ n + m.length

theorem writesOn_watched (hf : Faultless sched) {oid : Oid} {n : ℕ} {body : Bytes}
    (hn : n + body.length ≤ maxObjectSize) {I : Watched → Prop}
    (size : ∀ w, I w → ((meet sched w.1).db.bytes oid).length ≤ n)
    (seek : ∀ w conn, I w → I (w.after (.loLseek64 0 0 .seekEnd) ⟨(meet sched w.1).db, conn⟩))
    (write : ∀ w data conn, I w → I (w.after (.loWrite 0 data) ⟨(meet sched w.1).db, conn⟩)) :
    WritesOn (Watch sched) 0 body (AppendingTo oid n I) (fun _ _ => False) := by
  rintro m data rest w rfl ⟨hI, pos, ws, hat, hws⟩
  have hlen : (applyAll ws oid ((meet sched w.1).db.bytes oid)).length ≤ n + m.length :=
    Db.length_apply_le hws oid ((size w hI).trans (Nat.le_add_right _ _))
  simp only [List.length_append] at hn
  obtain ⟨conn₁, hs₁, hat₁⟩ := hat.seekEnd (fun _ => false) (meet sched w.1).db (by omega)
  have hI₁ := seek w conn₁ hI
  refine watched_call hf hs₁ ⟨_, rfl, fun _ => ⟨hI₁, _, ws, hat₁, hws⟩, fun hd => ?_⟩
  obtain ⟨conn₂, hs₂, hat₂⟩ := hat₁.write (fun _ => false)
    (meet sched (w.after (.loLseek64 0 0 .seekEnd) ⟨(meet sched w.1).db, conn₁⟩).1).db hd
    (by omega) rfl
  refine watched_call hf hs₂ (.inl ⟨rfl, write _ data conn₂ hI₁, _, _, hat₂, fun v hv => ?_⟩)
  rw [List.length_append]
  obtain hv | hv := List.mem_append.mp hv
  · exact (hws v hv).trans (by omega)
  · obtain rfl := List.mem_singleton.mp hv
    dsimp only
    omega

/-- The upload goes through, and so does its commit. -/
theorem append_watched (hf : Faultless sched) {oid : Oid} {n : ℕ} {parts : List Bytes}
    (hn : n + parts.flatten.length ≤ maxObjectSize) {I : Watched → Prop}
    (size : ∀ w, I w → ((meet sched w.1).db.bytes oid).length ≤ n)
    (seek : ∀ w conn, I w → I (w.after (.loLseek64 0 0 .seekEnd) ⟨(meet sched w.1).db, conn⟩))
    (write : ∀ w data conn, I w → I (w.after (.loWrite 0 data) ⟨(meet sched w.1).db, conn⟩))
    {id : FileId} {pos : ℕ} {w : Watched} (hI : I w) (hat : w.1.session.conn.At oid pos [])
    {post : Outcome ApiError Unit → Watched → Prop}
    (hp : ∀ w' s s', I w' → post (.ok ()) ((w'.after (.loClose 0) s).after .commitTx s')) :
    (Watch sched).wp (do
        (appendFrames ⟨.ofFd 0, id⟩ (frames parts)).mapErr .internalError
        (PostgresFileHandle.commit ⟨.ofFd 0, id⟩).mapErr .internalError : DbProg ApiError Unit)
      post w := by
  refine Logic.wp_then (Logic.wp_mono ?_ (wp_appendFrames (writesOn_watched hf hn size seek write)
    (List.nil_append _) ⟨hI, pos, [], hat, by simp⟩))
  rintro _ w' (⟨rfl, hI', pos', ws, hat', -⟩ | ⟨_, -, hF⟩)
  · simp only [Outcome.mapErr, Logic.after_ok, Logic.wp_mapErr]
    exact PostgresFileHandle.wp_commit (watched_call hf (hat'.close _ _)
      ⟨⟨_, rfl⟩, watched_call hf rfl ⟨rfl, hp w' _ _ hI'⟩⟩)
  · exact hF.elim

end Watch

end LocallyEuclidean.Server
