import LocallyEuclidean.Server.Entries

/-! A request whose file is its own. Between its statements the others do what they like to
other files, and the clock runs; what it answers and leaves is what its depot does. -/

namespace LocallyEuclidean.Server
open Interact Postgres Storage

def OwnBlob (k : String × String) (db : Db) (oid : Oid) : Prop := ∃ f, rowOf db k = some f ∧ f.blob = oid

/-- What a statement of the request may make of the session. -/
structure Makes (k : String × String) (writes : Bool) (db : Db) (s : Session) : Prop where
  buckets : s.db.buckets = db.buckets
  clock : s.db.clock = db.clock
  others : s.db = db ∨ writes = true ∧ ∀ k' ≠ k, Elsewhere k' db s.db
  conn : s.conn.Within (OwnBlob k s.db)
  reads : writes = false → s.conn.writes = []

/-- What the others may do meanwhile. -/
structure Meanwhile (k : String × String) (T : Timestamp → Prop) (db db' : Db) : Prop where
  linked : db'.Linked
  clock : T db'.clock
  elsewhere : Elsewhere k db db'

def amidst (k : String × String) (writes : Bool) (T : Timestamp → Prop) :
    Logic Query.Reply Session where
  call q Φ s := ∀ db, Meanwhile k T s.db db → ∃ a s',
    Session.serve (fun _ => false) q ⟨db, s.conn⟩ = some (a, s') ∧ Makes k writes db s' ∧ Φ a s'
  mono := by
    intro q Φ Ψ s h hc db hm
    obtain ⟨a, s', hs, hk, hΦ⟩ := hc db hm
    exact ⟨a, s', hs, hk, h a s' hΦ⟩

variable {k : String × String} {writes : Bool} {T : Timestamp → Prop} {db : Db} {conn : Conn}

/-- A statement that leaves the database as it is. -/
theorem call_reads {q : Query} {Φ : q.Reply → Session → Prop}
    (h : ∀ db', Meanwhile k T db db' → ∃ a conn',
      Session.serve (fun _ => false) q ⟨db', conn⟩ = some (a, ⟨db', conn'⟩) ∧
        conn'.Within (OwnBlob k db') ∧ (writes = false → conn'.writes = []) ∧ Φ a ⟨db', conn'⟩) :
    (amidst k writes T).call q Φ ⟨db, conn⟩ := fun db' hm => by
  obtain ⟨a, conn', hs, hc, hw, hΦ⟩ := h db' hm
  exact ⟨a, _, hs, ⟨rfl, rfl, .inl rfl, hc, hw⟩, hΦ⟩

/-! Lookups. -/

section Lookup

variable {b : BucketRow}

theorem bucket_amidst_none (hb : db.findBucket k.1 = none)
    {post : Outcome FileOpenError PostgresBucket → Session → Prop}
    (h : ∀ db', Meanwhile k T db db' → post (.err .doesNotExist) ⟨db', .idle⟩) :
    (amidst k writes T).wp (PostgresBackend.bucket k.1) post ⟨db, .idle⟩ := by
  refine PostgresBackend.wp_bucket (call_reads fun db' hm =>
    ⟨_, .idle, rfl, trivial, fun _ => rfl, .inl ⟨?_, h db' hm⟩⟩)
  rw [hm.elsewhere.bucket, hb]
  rfl

theorem bucket_amidst (hb : db.findBucket k.1 = some b)
    {post : Outcome FileOpenError PostgresBucket → Session → Prop}
    (h : ∀ db', Meanwhile k T db db' →
      post (.ok ⟨b.id, b.defaultTtl.map Interval.delta⟩) ⟨db', .idle⟩) :
    (amidst k writes T).wp (PostgresBackend.bucket k.1) post ⟨db, .idle⟩ := by
  refine PostgresBackend.wp_bucket (call_reads fun db' hm =>
    ⟨_, .idle, rfl, trivial, fun _ => rfl, .inr ⟨b.id, b.defaultTtl, ?_, h db' hm⟩⟩)
  rw [hm.elsewhere.bucket, hb]
  rfl

theorem Meanwhile.findFile {db' : Db} (hm : Meanwhile k T db db') (hb : db.findBucket k.1 = some b) :
    db'.findFile b.id k.2 = rowOf db k := by
  rw [← hm.elsewhere.row, rowOf_eq (hm.elsewhere.bucket.trans hb)]

theorem file_amidst_none (hb : db.findBucket k.1 = some b) (hf : rowOf db k = none)
    {p : PostgresBucket} (hp : p.id = b.id)
    {post : Outcome FileOpenError PostgresFileHandle → Session → Prop}
    (h : ∀ db', Meanwhile k T db db' → post (.err .doesNotExist) ⟨db', .idle⟩) :
    (amidst k writes T).wp (p.file k.2) post ⟨db, .idle⟩ := by
  refine PostgresBucket.wp_file (call_reads fun db' hm =>
    ⟨_, .idle, rfl, trivial, fun _ => rfl, .inl ⟨?_, h db' hm⟩⟩)
  rw [hp, hm.findFile hb, hf]
  rfl

end Lookup

/-! The file of the request. -/

structure HasFile (k : String × String) (f : FileRow) (c : Bytes) (db : Db) : Prop where
  row : rowOf db k = some f
  object : db.objects f.blob = some c

section HasFile

variable {f : FileRow} {c : Bytes} {pos : ℕ} {ws : List Write}

theorem HasFile.meanwhile {db' : Db} (h : HasFile k f c db) (hm : Meanwhile k T db db') :
    HasFile k f c db' :=
  ⟨hm.elsewhere.row.trans h.row, (hm.elsewhere.object f h.row).trans h.object⟩

theorem HasFile.entry (h : HasFile k f c db) :
    entry db k.1 k.2 = some ⟨c, f.deleteAfter, f.updatedAt⟩ :=
  entry_of_row h.row h.object

theorem HasFile.within (h : HasFile k f c db) (hat : conn.At f.blob pos ws)
    (hw : ∀ w ∈ ws, w.oid = f.blob) : conn.Within (OwnBlob k db) := by
  obtain ⟨snapshot, rfl⟩ := hat
  refine ⟨fun d hd => ⟨f, h.row, ?_⟩, fun w hm => ⟨f, h.row, (hw w hm).symm⟩⟩
  rw [← Option.some.inj hd]

theorem new_amidst (h : HasFile k f c db) {id : FileId}
    {post : Outcome FileHandleError PostgresFileHandle → Session → Prop}
    (hp : ∀ db' conn', HasFile k f c db' → conn'.At f.blob 0 [] →
      post (.ok ⟨.ofFd 0, id⟩) ⟨db', conn'⟩) :
    (amidst k writes T).wp (PostgresFileHandle.new f.blob id) post ⟨db, conn⟩ := by
  refine PostgresFileHandle.wp_new (call_reads fun db₁ h₁ =>
    ⟨_, .inTx ⟨none, []⟩, rfl, ⟨by simp, by simp⟩, fun _ => rfl, rfl, call_reads fun db₂ h₂ => ?_⟩)
  have h' := (h.meanwhile h₁).meanwhile h₂
  obtain ⟨conn', hs, hat⟩ :=
    Conn.At.opened (fun _ => false) (OpenMode.ofFlags_bits .readWrite) h'.object
  exact ⟨_, conn', hs, h'.within hat (by simp), fun _ => hat.writes_eq, .inl ⟨0, rfl, hp _ _ h' hat⟩⟩

theorem file_amidst {p : PostgresBucket} {b : BucketRow} (hb : db.findBucket k.1 = some b)
    (hp : p.id = b.id) (h : HasFile k f c db)
    {post : Outcome FileOpenError PostgresFileHandle → Session → Prop}
    (hpost : ∀ db' conn', HasFile k f c db' → conn'.At f.blob 0 [] →
      post (.ok ⟨.ofFd 0, f.id⟩) ⟨db', conn'⟩) :
    (amidst k writes T).wp (p.file k.2) post ⟨db, .idle⟩ := by
  refine PostgresBucket.wp_file (call_reads fun db' hm =>
    ⟨_, .idle, rfl, trivial, fun _ => rfl, .inr ⟨f.id, f.blob, ?_, ?_⟩⟩)
  · rw [hp, hm.findFile hb, h.row]
    rfl
  · exact new_amidst (h.meanwhile hm) hpost

theorem seekEnd_amidst (h : HasFile k f c db) (hat : conn.At f.blob pos [])
    {post : Outcome IoError ℕ → Session → Prop}
    (hp : ∀ db' conn', Meanwhile k T db db' → HasFile k f c db' → conn'.At f.blob c.length [] →
      post (.ok c.length) ⟨db', conn'⟩) :
    (amidst k writes T).wp ((BlobHandle.ofFd 0).seek (.fromEnd 0)) post ⟨db, conn⟩ := by
  refine BlobHandle.wp_seekEnd (call_reads fun db' hm => ?_)
  have h' := h.meanwhile hm
  have hl := hm.linked.sizes _ _ h'.object
  obtain ⟨conn', hs, hat'⟩ := hat.seekEnd (fun _ => false) db' (by
    rwa [applyAll_nil, Db.bytes_of_objects h'.object])
  rw [applyAll_nil, Db.bytes_of_objects h'.object] at hs hat'
  exact ⟨_, conn', hs, h'.within hat' (by simp), fun _ => hat'.writes_eq, _, rfl, hp _ _ hm h' hat'⟩

theorem readsOn_amidst (f : FileRow) (c : Bytes) (start : ℕ) : BlobHandle.ReadsOn (amidst k writes T) 0
    (fun m s => HasFile k f c s.db ∧ s.conn.At f.blob (start + m.length) [] ∧ m <+: c.drop start)
    (fun m s => HasFile k f c s.db ∧ m = c.drop start) := by
  rintro m ⟨db, conn⟩ room ⟨h, hat, hm⟩ hroom -
  refine call_reads fun db' hm' => ?_
  have h' := h.meanwhile hm'
  obtain ⟨conn', hs, hat'⟩ := hat.read (fun _ => false) db' room
  rw [applyAll_nil, Db.bytes_of_objects h'.object] at hs hat'
  refine ⟨_, conn', hs, h'.within hat' (by simp), fun _ => hat'.writes_eq, _, rfl,
    length_window_le _ _ _, ?_⟩
  by_cases hw : window c (start + m.length) room = []
  · exact .inr ⟨hw, h', eq_drop_of_window_nil hroom hm hw⟩
  · refine .inl ⟨hw, h', ?_, isPrefix_append_window room hm⟩
    rwa [List.length_append, ← Nat.add_assoc]

/-- The range check of a stream. -/
theorem checkRangeMatches_amidst {start : ℕ} (hn : start ≤ maxObjectSize) (h : HasFile k f c db)
    (hat : conn.At f.blob pos []) (stream : DataStream) :
    (amidst k writes T).wp (checkRangeMatches stream start (.ofFd 0)) (fun o s =>
      Settles (comparedWith (c.drop start) stream) o ∧ HasFile k f c s.db) ⟨db, conn⟩ := by
  refine Logic.wp_mono ?_ (wp_checkRangeMatches_stream (readsOn_amidst f c start) stream hn
    (t := c.drop start) (fun _ _ h => h.2.2) (fun _ _ h => h.2) (call_reads fun db' hm => ?_))
  · rintro o s ⟨ho, m, h | h⟩
    · exact ⟨ho, h.1⟩
    · exact ⟨ho, h.1⟩
  · obtain ⟨conn', hs, hat'⟩ := hat.seekStart (fun _ => false) db' hn
    have h' := h.meanwhile hm
    exact ⟨_, conn', hs, h'.within hat' (by simp), fun _ => hat'.writes_eq, start, rfl, h', hat',
      List.nil_prefix⟩

theorem readerStream_amidst (h : HasFile k f c db) (hat : conn.At f.blob pos [])
    (rooms : List ℕ+) :
    (amidst k writes T).wp (readerStream (.ofFd 0) rooms) (fun o s =>
      o = .ok (download c pos rooms) ∧ HasFile k f c s.db) ⟨db, conn⟩ := by
  refine Logic.wp_mono ?_ (wp_readerStream_steady
    (c := c) (R := fun pos (s : Session) => HasFile k f c s.db ∧ s.conn.At f.blob pos [])
    (X := fun _ _ => False) ?_ (s := ⟨db, conn⟩) ⟨h, hat⟩)
  · rintro _ s (⟨rfl, -, h, -⟩ | ⟨-, -, hX⟩)
    · exact ⟨rfl, h⟩
    · exact hX.elim
  · rintro pos ⟨db, conn⟩ room ⟨h, hat⟩ - -
    refine call_reads fun db' hm => ?_
    have h' := h.meanwhile hm
    obtain ⟨conn', hs, hat'⟩ := hat.read (fun _ => false) db' room
    rw [applyAll_nil, Db.bytes_of_objects h'.object] at hs hat'
    exact ⟨_, conn', hs, h'.within hat' (by simp), fun _ => hat'.writes_eq, .inl ⟨rfl, h', hat'⟩⟩

/-- The bytes `w` have been appended in the open transaction. -/
structure Adding (k : String × String) (f : FileRow) (c w : Bytes) (s : Session) : Prop where
  file : HasFile k f c s.db
  conn : ∃ pos ws, s.conn.At f.blob pos ws ∧ (∀ v ∈ ws, v.oid = f.blob) ∧
    applyAll ws f.blob c = c ++ w

theorem writesOn_amidst (body : Bytes) : WritesOn (amidst k true T) 0 body
      (fun w s => Adding k f c w s ∧ c.length + w.length ≤ maxObjectSize)
      (fun _ s => HasFile k f c s.db ∧ maxObjectSize < c.length + body.length) := by
  rintro w data rest ⟨db, conn⟩ rfl ⟨⟨h, pos, ws, hat, hw, ha⟩, hle⟩
  refine call_reads fun db₁ hm₁ => ?_
  have h₁ := h.meanwhile hm₁
  obtain ⟨conn₁, hs₁, hat₁⟩ := hat.seekEnd (fun _ => false) db₁ (by
    rw [Db.bytes_of_objects h₁.object, ha, List.length_append]
    exact hle)
  rw [Db.bytes_of_objects h₁.object, ha] at hs₁ hat₁
  refine ⟨_, conn₁, hs₁, h₁.within hat₁ hw, by simp, _, rfl,
    fun _ => ⟨⟨h₁, _, ws, hat₁, hw, ha⟩, hle⟩, fun hd => call_reads fun db₂ hm₂ => ?_⟩
  have h₂ := h₁.meanwhile hm₂
  rcases le_or_gt ((c ++ w).length + data.length) maxObjectSize with hfit | hbig
  · obtain ⟨conn₂, hs₂, hat₂⟩ := hat₁.write (fun _ => false) db₂ hd hfit rfl
    have hw₂ : ∀ v ∈ ws ++ [⟨f.blob, (c ++ w).length, data⟩], v.oid = f.blob := by
      intro v hv
      rcases List.mem_append.mp hv with hv | hv
      · exact hw v hv
      · rw [List.mem_singleton.mp hv]
    refine ⟨_, conn₂, hs₂, h₂.within hat₂ hw₂, by simp, .inl ⟨rfl, ⟨h₂, _, _, hat₂, hw₂, ?_⟩, ?_⟩⟩
    · rw [applyAll_append_end ha, List.append_assoc]
    · rwa [List.length_append, ← Nat.add_assoc, ← List.length_append]
  · refine ⟨_, .failed, hat₁.write_large _ _ hbig, trivial, by simp, .inr ⟨_, rfl, h₂, ?_⟩⟩
    rw [List.length_append] at hbig
    simp only [List.length_append]
    omega

/-- What is left of an upload once its handle is open: a stream that is whole and fits is
stored, and otherwise nothing is. -/
theorem upload_amidst (h : HasFile k f c db) (hat : conn.At f.blob pos [])
    (hl : c.length ≤ maxObjectSize) {id : FileId} (body : DataStream)
    {post : Outcome ApiError Unit → Session → Prop}
    (bad : ∀ e s, cutShort body ∨ maxObjectSize < c.length + (received body).length →
      HasFile k f c s.db → post (.err (.internalError e)) s)
    (good : ∀ s, ¬ (cutShort body ∨ maxObjectSize < c.length + (received body).length) →
      HasFile k f (c ++ received body) s.db → post (.ok ()) s) :
    (amidst k true T).wp ((do
      (appendFrames ⟨.ofFd 0, id⟩ body).mapErr ApiError.internalError
      (PostgresFileHandle.commit ⟨.ofFd 0, id⟩).mapErr ApiError.internalError :
        DbProg ApiError Unit)) post ⟨db, conn⟩ := by
  refine Logic.wp_then (Logic.wp_mono ?_ (wp_appendFrames_stream
    (writesOn_amidst (f := f) (c := c) (received body))
    ⟨⟨h, pos, [], hat, by simp, (List.append_nil c).symm⟩, by simpa using hl⟩))
  rintro _ ⟨db₁, conn₁⟩ (⟨rfl, ⟨h₁, pos₁, ws, hat₁, hw, ha⟩, hfit⟩ | ⟨e, rfl, h₁, hbig⟩)
  · cases hcut : cutShort body with
    | true => exact bad _ _ (.inl hcut) h₁
    | false =>
      simp only [Bool.false_eq_true, if_false, Outcome.mapErr, Logic.after_ok, Logic.wp_mapErr]
      refine PostgresFileHandle.wp_commit (call_reads fun db₂ hm₂ => ?_)
      have h₂ := h₁.meanwhile hm₂
      refine ⟨_, .inTx ⟨none, ws⟩, hat₁.close _ _, ⟨by simp, fun w hm => ⟨f, h₂.row, (hw w hm).symm⟩⟩,
        by simp, ⟨_, rfl⟩, fun db₃ hm₃ => ?_⟩
      have h₃ := h₂.meanwhile hm₃
      have hst := Db.commit_eq_store hw h₃.object none
      rw [ha] at hst
      refine ⟨_, _, rfl, ⟨rfl, rfl, .inr ⟨rfl, fun k' hk => ?_⟩, trivial, fun _ => rfl⟩, rfl, ?_⟩
      · rw [hst]
        exact Elsewhere.store hm₃.linked h₃.row hk _
      · refine good _ (by simp [hcut, hfit]) ?_
        rw [hst]
        exact ⟨h₃.row, Db.store_objects_self ..⟩
  · exact bad _ _ (.inr hbig) h₁

end HasFile

/-! The handlers. -/

/-- What is compared is answered. -/
theorem settles_answer {L : Logic Query.Reply Session} {code : StatusCode}
    {o : Outcome BoxError RangeMatch} {s : Session} {P : Session → Prop} (ho : Settles code o)
    (hP : P s) {f : RangeMatch → DbProg ApiError Unit} (same : f .isMatch = .ret ())
    (differ : ∀ v, v ≠ .isMatch → f v = .err .fileExistsWithConflictingContent) :
    L.after f (fun r s => status r = some code ∧ P s) (o.mapErr ApiError.internalError) s := by
  cases o with
  | ok v =>
    simp only [Outcome.mapErr, Logic.after_ok]
    cases v with
    | isMatch =>
      obtain rfl : code = .ok := ho
      rw [same]
      exact ⟨rfl, hP⟩
    | lengthMismatch | dataMismatch =>
      obtain rfl : code = .conflict := ho
      rw [differ _ (by decide)]
      exact ⟨rfl, hP⟩
  | err e =>
    obtain ⟨rfl, rfl⟩ : e = .body ∧ code = .internalServerError := ho
    exact ⟨rfl, hP⟩
  | panic | dropped => cases ho

section Handlers

variable {b : BucketRow} {f : FileRow} {c : Bytes}

/-- A later upload of a name. -/
theorem put_again (hb : db.findBucket k.1 = some b) (h : HasFile k f c db) {now : DateTime}
    {deleteAfter : Option Timestamp} (hd : Deadline b now deleteAfter) (body : DataStream) :
    (amidst k true T).wp (putWriteFilename k.1 k.2 body now) (fun r s =>
      status r = some (comparedWith c body) ∧ HasFile k f c s.db) ⟨db, .idle⟩ := by
  refine Logic.wp_then (bucket_amidst hb fun db₁ hm₁ => Logic.wp_try
    (PostgresBucket.wp_createFile hd.1 (call_reads fun db₂ hm₂ => ?_)))
  have hb₂ := hm₂.elsewhere.bucket.trans (hm₁.elsewhere.bucket.trans hb)
  have h₂ := (h.meanwhile hm₁).meanwhile hm₂
  have hins := Db.insertFile_exists hd.2 ((rowOf_eq hb₂).symm.trans h₂.row)
  refine ⟨.error .uniqueViolation, .idle, by rw [Session.serve, hins]; rfl, trivial, fun _ => rfl,
    .inl ⟨rfl, Logic.wp_then (file_amidst hb₂ rfl h₂ fun db₃ conn h₃ hat => ?_)⟩⟩
  refine Logic.wp_then (Logic.wp_mono ?_ (checkRangeMatches_amidst (Nat.zero_le _) h₃ hat body))
  rintro o s ⟨ho, h₄⟩
  rw [List.drop_zero] at ho
  exact settles_answer (P := fun s => HasFile k f c s.db) ho h₄ rfl
    fun v hv => by cases v <;> first | rfl | exact absurd rfl hv

/-- The first upload of a name. -/
theorem put_first (hb : db.findBucket k.1 = some b) (hf : rowOf db k = none) {now : DateTime}
    {deleteAfter : Option Timestamp} (hd : Deadline b now deleteAfter) (body : DataStream) :
    (amidst k true T).wp (putWriteFilename k.1 k.2 body now) (fun r s =>
      ∃ f, f.deleteAfter = deleteAfter ∧ T f.updatedAt ∧
        if cutShort body ∨ maxObjectSize < (received body).length then
          status r = some .internalServerError ∧ HasFile k f [] s.db
        else status r = some .ok ∧ HasFile k f (received body) s.db) ⟨db, .idle⟩ := by
  refine Logic.wp_then (bucket_amidst hb fun db₁ hm₁ => Logic.wp_try
    (PostgresBucket.wp_createFile hd.1 fun db₂ hm₂ => ?_))
  have hb₂ := hm₂.elsewhere.bucket.trans (hm₁.elsewhere.bucket.trans hb)
  have hf₂ := hm₂.elsewhere.row.trans (hm₁.elsewhere.row.trans hf)
  have hins := Db.insertFile_eq hd.2 ((rowOf_eq hb₂).symm.trans hf₂)
    ⟨b, (Db.findBucket_some hb₂).1, rfl⟩
  have hnew : HasFile k (db₂.newRow b.id k.2 deleteAfter) [] (db₂.withFile b.id k.2 deleteAfter) := by
    refine ⟨?_, by simp [Db.withFile, Db.newRow]⟩
    rw [Elsewhere.rowOf_withFile hm₂.linked hb₂ hf₂, if_pos rfl]
  refine ⟨_, ⟨db₂.withFile b.id k.2 deleteAfter, .idle⟩, by rw [Session.serve, hins]; rfl,
    ⟨rfl, rfl, .inr ⟨rfl, fun k' hk => Elsewhere.withFile hm₂.linked hb₂ hf₂ deleteAfter hk⟩, trivial,
      fun _ => rfl⟩, .inr (.inr ⟨_, _, rfl, ?_⟩)⟩
  refine new_amidst hnew fun db₃ conn h₃ hat => upload_amidst h₃ hat (Nat.zero_le _) body ?_ ?_
  · intro e s hbad h₄
    rw [List.length_nil, Nat.zero_add] at hbad
    exact ⟨_, rfl, hm₂.clock, by rw [if_pos hbad]; exact ⟨rfl, h₄⟩⟩
  · intro s hgood h₄
    rw [List.length_nil, Nat.zero_add] at hgood
    exact ⟨_, rfl, hm₂.clock, by rw [if_neg hgood]; exact ⟨rfl, h₄⟩⟩

/-- An append to a file that is there. -/
theorem post_present (h : db.Linked) (hb : db.findBucket k.1 = some b) (hc : HasFile k f c db)
    (writeOffset : ℕ) (body : DataStream) :
    (amidst k true T).wp (postAppendFilename k.1 k.2 writeOffset body) (fun r s =>
      if writeOffset ≤ c.length then
        status r = some (comparedWith (c.drop writeOffset) body) ∧ HasFile k f c s.db
      else if cutShort body ∨ maxObjectSize < c.length + (received body).length then
        status r = some .internalServerError ∧ HasFile k f c s.db
      else status r = some .ok ∧ HasFile k f (c ++ received body) s.db) ⟨db, .idle⟩ := by
  have hl := h.sizes _ _ hc.object
  refine Logic.wp_then (bucket_amidst hb fun db₁ hm₁ => ?_)
  have hb₁ := hm₁.elsewhere.bucket.trans hb
  refine Logic.wp_then (file_amidst hb₁ rfl (hc.meanwhile hm₁) fun db₂ conn h₂ hat => ?_)
  refine Logic.wp_then (seekEnd_amidst h₂ hat fun db₃ conn₃ _ h₃ hat₃ => ?_)
  simp only [Outcome.mapErr, Logic.after_ok]
  by_cases ho : writeOffset ≤ c.length
  · simp only [ho, if_true]
    refine Logic.wp_then (Logic.wp_mono ?_ (checkRangeMatches_amidst (ho.trans hl) h₃ hat₃ body))
    rintro o s ⟨ho, h₄⟩
    exact settles_answer (P := fun s => HasFile k f c s.db) ho h₄ rfl
      fun v hv => by cases v <;> first | rfl | exact absurd rfl hv
  · simp only [ho, if_false]
    refine upload_amidst h₃ hat₃ hl body ?_ ?_
    · intro e s hbad h₄
      rw [if_pos hbad]
      exact ⟨rfl, h₄⟩
    · intro s hgood h₄
      rw [if_neg hgood]
      exact ⟨rfl, h₄⟩

/-- A download of a file that is there. -/
theorem get_present (hb : db.findBucket k.1 = some b) (hc : HasFile k f c db) (rooms : List ℕ+) :
    (amidst k writes T).wp (getExplore k.1 k.2 rooms) (fun r s =>
      r = .ok ⟨c.length, "application/octet-stream", f.updatedAt, (download c 0 rooms).1,
        (download c 0 rooms).2⟩ ∧ HasFile k f c s.db) ⟨db, .idle⟩ := by
  refine Logic.wp_then (bucket_amidst hb fun db₁ hm₁ => ?_)
  have hb₁ := hm₁.elsewhere.bucket.trans hb
  refine Logic.wp_then (file_amidst hb₁ rfl (hc.meanwhile hm₁) fun db₂ conn₂ h₂ hat₂ => ?_)
  refine Logic.wp_then (seekEnd_amidst h₂ hat₂ fun db₃ conn₃ _ h₃ hat₃ => ?_)
  refine Logic.wp_then (BlobHandle.wp_seekStart (Nat.zero_le _) (call_reads fun db₄ hm₄ => ?_))
  have h₄ := h₃.meanwhile hm₄
  obtain ⟨conn₄, hs₄, hat₄⟩ := hat₃.seekStart (fun _ => false) db₄ (Nat.zero_le _)
  refine ⟨_, conn₄, hs₄, h₄.within hat₄ (by simp), fun _ => hat₄.writes_eq, 0, rfl, ?_⟩
  refine Logic.wp_then (PostgresFileHandle.wp_metadata (call_reads fun db₅ hm₅ => ?_))
  have h₅ := h₄.meanwhile hm₅
  have hrow := hat₄.updatedAt_some (fun _ => false) db₅
    (hm₅.linked.findFileById_of_mem (mem_of_rowOf h₅.row))
  refine ⟨_, conn₄, hrow, h₅.within hat₄ (by simp), fun _ => hat₄.writes_eq, .inl ⟨_, rfl, ?_⟩⟩
  refine (Logic.wp_bind ..).mpr (Logic.wp_mono ?_ (readerStream_amidst h₅ hat₄ rooms))
  rintro _ s ⟨rfl, h₆⟩
  exact ⟨rfl, h₆⟩

end Handlers

/-! In terms of the depot. -/

def Reply.ofAnswer (a : Answer) : Reply :=
  .answered (status a) (match a with | .ok response => response | _ => none)

/-- The request has been answered as the depot answers it, its clock being one that it met, and
its entry has become what the depot makes of it. -/
def Serves (T : Timestamp → Prop) (db : Db) (r : Request) (o : Answer) (s : Session) : Prop :=
  ∃ t, T t ∧ Reply.ofAnswer o = ((depot { db with clock := t }).serve r).1 ∧
    entry s.db r.name.1 r.name.2 =
      ((depot { db with clock := t }).serve r).2.entries r.name.1 r.name.2

/-- What `createFile` computes for the deadline. -/
theorem deleteAfter_deadline (p : PostgresBucket) (now : DateTime) :
    p.deleteAfter now = match Depot.deadline p.defaultTtl now with
      | some deadline => .ret deadline
      | none => .panic "DateTime + TimeDelta overflowed" := by
  unfold PostgresBucket.deleteAfter Depot.deadline
  cases p.defaultTtl with
  | none => rfl
  | some ttl => cases hn : now.add ttl <;> simp [hn]

section Serves

variable (h : db.Linked) (hT : T db.clock)
include h hT

theorem put_serves (bucketName filename : String) (body : DataStream) (now : DateTime) :
    (amidst (bucketName, filename) true T).wp (putWriteFilename bucketName filename body now)
      (fun r s => ∃ t, T t ∧
        status r = ((depot { db with clock := t }).put bucketName filename body now).1 ∧
        entry s.db bucketName filename = ((depot { db with clock := t }).put bucketName filename
          body now).2.entries bucketName filename) ⟨db, .idle⟩ := by
  have ht := depot_ttl db bucketName
  cases hb : db.findBucket bucketName with
  | none =>
    refine Logic.wp_then (bucket_amidst_none hb fun db' hm => ⟨db.clock, hT, ?_⟩)
    rw [Depot.put_no_bucket _ _ (by rw [ht, hb]; rfl)]
    exact ⟨rfl, hm.elsewhere.entry⟩
  | some b =>
    rw [hb, Option.map_some] at ht
    have hd := deleteAfter_deadline ⟨b.id, b.defaultTtl.map Interval.delta⟩ now
    cases hdl : Depot.deadline (b.defaultTtl.map Interval.delta) now with
    | none =>
      simp only [hdl] at hd
      refine Logic.wp_then (bucket_amidst hb fun db' hm => ?_)
      simp only [Outcome.mapErr, Logic.after_ok, PostgresBucket.createFile, hd, Prog.bind_eq, Prog.bind]
      refine ⟨db.clock, hT, ?_⟩
      rw [Depot.put_undated _ _ ht hdl]
      exact ⟨rfl, hm.elsewhere.entry⟩
    | some deadline =>
      simp only [hdl] at hd
      cases hmin : deadline.any (· < minTimestamp) with
      | true =>
        refine Logic.wp_then (bucket_amidst hb fun db₁ hm₁ => Logic.wp_try
          (PostgresBucket.wp_createFile hd (call_reads fun db₂ hm₂ => ?_)))
        have hins : db₂.insertFile b.id filename deadline = .error .database := by
          rw [Db.insertFile, if_pos hmin]
        refine ⟨_, .idle, by rw [Session.serve, hins]; rfl, trivial, fun _ => rfl,
          .inr (.inl ⟨rfl, db.clock, hT, ?_⟩)⟩
        rw [Depot.put_early _ _ ht hdl hmin]
        exact ⟨rfl, (hm₁.elsewhere.trans hm₂.elsewhere).entry⟩
      | false =>
        cases hf : rowOf db (bucketName, filename) with
        | some f =>
          obtain ⟨c, hc⟩ := Option.isSome_iff_exists.mp (h.hasBlob f (mem_of_rowOf hf))
          refine Logic.wp_mono ?_ (put_again hb ⟨hf, hc⟩ ⟨hd, hmin⟩ body)
          rintro r s ⟨hr, hfile⟩
          refine ⟨db.clock, hT, ?_⟩
          rw [Depot.put_present ht hdl hmin (entry_of_row hf hc)]
          exact ⟨hr, hfile.entry.trans (entry_of_row hf hc).symm⟩
        | none =>
          refine Logic.wp_mono ?_ (put_first hb hf ⟨hd, hmin⟩ body)
          rintro r s ⟨f, rfl, hclock, hs⟩
          refine ⟨f.updatedAt, hclock, ?_⟩
          rw [Depot.put_absent (d := depot { db with clock := f.updatedAt }) ht hdl hmin
            (entry_of_no_row hf)]
          split at hs
          · rename_i hbad
            rw [if_pos hbad, hs.2.entry]
            exact ⟨hs.1, (if_pos ⟨rfl, rfl⟩).symm⟩
          · rename_i hgood
            rw [if_neg hgood, hs.2.entry]
            exact ⟨hs.1, (if_pos ⟨rfl, rfl⟩).symm⟩

theorem post_serves (bucketName filename : String) (writeOffset : ℕ) (body : DataStream) :
    (amidst (bucketName, filename) true T).wp
      (postAppendFilename bucketName filename writeOffset body)
      (fun r s => ∃ t, T t ∧
        status r = some ((depot { db with clock := t }).post bucketName filename writeOffset body).1 ∧
        entry s.db bucketName filename = ((depot { db with clock := t }).post bucketName filename
          writeOffset body).2.entries bucketName filename) ⟨db, .idle⟩ := by
  have ht := depot_ttl db bucketName
  cases hb : db.findBucket bucketName with
  | none =>
    refine Logic.wp_then (bucket_amidst_none hb fun db' hm => ⟨db.clock, hT, ?_⟩)
    rw [Depot.post_no_bucket (by rw [ht, hb]; rfl)]
    exact ⟨rfl, hm.elsewhere.entry⟩
  | some b =>
    rw [hb, Option.map_some] at ht
    cases hf : rowOf db (bucketName, filename) with
    | none =>
      refine Logic.wp_then (bucket_amidst hb fun db₁ hm₁ => Logic.wp_then ?_)
      refine file_amidst_none (b := b) (hm₁.elsewhere.bucket.trans hb)
        (hm₁.elsewhere.row.trans hf) rfl fun db₂ hm₂ => ⟨db.clock, hT, ?_⟩
      rw [Depot.post_absent (entry_of_no_row hf)]
      exact ⟨rfl, (hm₁.elsewhere.trans hm₂.elsewhere).entry⟩
    | some f =>
      obtain ⟨c, hc⟩ := Option.isSome_iff_exists.mp (h.hasBlob f (mem_of_rowOf hf))
      refine Logic.wp_mono ?_ (post_present h hb ⟨hf, hc⟩ writeOffset body)
      intro r s hs
      refine ⟨db.clock, hT, ?_⟩
      rw [Depot.post_present ht (entry_of_row hf hc)]
      split at hs
      · rename_i ho
        rw [if_pos ho]
        exact ⟨hs.1, hs.2.entry.trans (entry_of_row hf hc).symm⟩
      · rename_i ho
        rw [if_neg ho]
        split at hs
        · rename_i hbad
          rw [if_pos hbad]
          exact ⟨hs.1, hs.2.entry.trans (entry_of_row hf hc).symm⟩
        · rename_i hgood
          rw [if_neg hgood, hs.2.entry]
          exact ⟨hs.1, (if_pos ⟨rfl, rfl⟩).symm⟩

omit hT in
theorem get_serves (bucketName filename : String) (rooms : List ℕ+) :
    (amidst (bucketName, filename) false T).wp (getExplore bucketName filename rooms) (fun r s =>
      Reply.ofAnswer (r.map some) = .answered (some ((depot db).get bucketName filename rooms).1)
          ((depot db).get bucketName filename rooms).2 ∧
        entry s.db bucketName filename = entry db bucketName filename) ⟨db, .idle⟩ := by
  have ht := depot_ttl db bucketName
  cases hb : db.findBucket bucketName with
  | none =>
    refine Logic.wp_then (bucket_amidst_none hb fun db' hm => ?_)
    rw [Depot.get_no_bucket (by rw [ht, hb]; rfl)]
    exact ⟨rfl, hm.elsewhere.entry⟩
  | some b =>
    rw [hb, Option.map_some] at ht
    cases hf : rowOf db (bucketName, filename) with
    | none =>
      refine Logic.wp_then (bucket_amidst hb fun db₁ hm₁ => Logic.wp_then ?_)
      refine file_amidst_none (b := b) (hm₁.elsewhere.bucket.trans hb)
        (hm₁.elsewhere.row.trans hf) rfl fun db₂ hm₂ => ?_
      rw [Depot.get_absent (entry_of_no_row hf)]
      exact ⟨rfl, (hm₁.elsewhere.trans hm₂.elsewhere).entry⟩
    | some f =>
      obtain ⟨c, hc⟩ := Option.isSome_iff_exists.mp (h.hasBlob f (mem_of_rowOf hf))
      refine Logic.wp_mono ?_ (get_present hb ⟨hf, hc⟩ rooms)
      rintro _ s ⟨rfl, hfile⟩
      rw [Depot.get_present ht (entry_of_row hf hc)]
      exact ⟨rfl, hfile.entry.trans (entry_of_row hf hc).symm⟩

omit h hT in
/-- An answer without a body. -/
theorem Serves.of_status {L : Logic Query.Reply Session} {r : Request} {o : Outcome ApiError Unit}
    {s : Session} {t : Timestamp} (ht : T t)
    (ho : .answered (status o) none = ((depot { db with clock := t }).serve r).1)
    (he : entry s.db r.name.1 r.name.2 =
      ((depot { db with clock := t }).serve r).2.entries r.name.1 r.name.2) :
    L.after (fun _ => .ret none) (Serves T db r) o s := by
  cases o <;> exact ⟨t, ht, ho, he⟩

/-- Amidst any traffic on other files, a request does what its depot does. -/
theorem handler_serves (r : Request) :
    (amidst r.name r.writes T).wp r.handler (Serves T db r) ⟨db, .idle⟩ := by
  cases r with
  | put b f body now =>
    refine (Logic.wp_bind ..).mpr (Logic.wp_mono ?_ (put_serves h hT b f body now))
    rintro o s ⟨t, ht, ho, he⟩
    exact Serves.of_status ht (by rw [ho]; rfl) he
  | post b f writeOffset body =>
    refine (Logic.wp_bind ..).mpr (Logic.wp_mono ?_ (post_serves h hT b f writeOffset body))
    rintro o s ⟨t, ht, ho, he⟩
    exact Serves.of_status ht (by rw [ho]; rfl) he
  | get b f rooms =>
    refine (Logic.wp_bind ..).mpr (Logic.wp_mono ?_ (get_serves h b f rooms))
    rintro o s ⟨ho, he⟩
    cases o <;> exact ⟨db.clock, hT, ho, he⟩

end Serves

end LocallyEuclidean.Server
