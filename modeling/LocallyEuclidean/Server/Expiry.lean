import LocallyEuclidean.Server.Races

/-! Requests on a file among whose statements a batch deletes that file. -/

namespace LocallyEuclidean.Server
open Interact Postgres Storage

/-- The batch runs just before the statement of index `k`. -/
def deletionAt (k : ℕ) (tie : FileId → ℕ) : Schedule := fun j =>
  ⟨if j = k then [.expired tie] else [], .none⟩

theorem deletionAt_faultless (k : ℕ) (tie : FileId → ℕ) : Faultless (deletionAt k tie) :=
  fun _ => rfl

def Op.bucketName : Op → String
  | .put b _ _ _ | .post b _ _ _ | .get b _ _ => b

def Op.filename : Op → String
  | .put _ f _ _ | .post _ f _ _ | .get _ f _ => f

/-- The object has room for what the request appends to `c`. -/
def Op.HasRoom (c : Bytes) : Op → Prop
  | .post _ _ _ parts => c.length + parts.flatten.length ≤ maxObjectSize
  | _ => True

/-- What a statement may meet: the file is still there, or the statement does not tell,
or what it tells leads to an answer from before or after the deletion. `c` is the
content that the batch deletes. -/
def Op.Benign (op : Op) (f : FileRow) (c : Bytes) (q : Query) (s : Session) : Prop :=
  s.db.objects f.blob = none →
    match op, q with
    | .put _ _ _ _, .fileByName _ _ => False
    | _, .loOpen oid _ => oid ≠ f.blob
    | .put _ _ parts _, .loRead _ _ => c = parts.flatten → c.length ≤ s.conn.cursor
    | .post _ _ writeOffset parts, .loLseek64 _ _ .seekEnd => s.conn.cursor = 0 →
        ((0 < writeOffset ∨ parts.flatten = []) ↔
          (c.length < writeOffset ∨ c.drop writeOffset = parts.flatten))
    | .post _ _ writeOffset parts, .loRead _ _ =>
        ((c.take s.conn.cursor).drop writeOffset = parts.flatten ↔
          c.drop writeOffset = parts.flatten)
    | .get _ _ _, .updatedAt _ => False
    | .get _ _ _, .loRead _ _ => c.length ≤ s.conn.cursor
    | _, _ => True

/-- A file that the batch removes, and that is there when the request begins: an upload that
makes the file is none that it races with. -/
structure Doomed (db : Db) (tie : FileId → ℕ) (bucketName filename : String) (b : BucketRow)
    (f : FileRow) (c : Bytes) : Prop where
  linked : db.Linked
  bucket : db.findBucket bucketName = some b
  row : db.findFile b.id filename = some f
  content : db.objects f.blob = some c
  removed : db.Removes tie f

/-- The database before or after the deletion. -/
def world (db : Db) (tie : FileId → ℕ) : Bool → Db
  | false => db
  | true => db.deleteBatch tie

/-- The state of a request that has changed nothing yet. -/
structure Raced (db : Db) (tie : FileId → ℕ) (k : ℕ) (gone : Bool) (w : Watched) : Prop where
  db_eq : w.1.session.db = world db tie gone
  index : gone = true ↔ k < w.1.index

section Race

variable {db : Db} {tie : FileId → ℕ} {k : ℕ}

/-- A statement meets the database before or after the deletion, and after it from then on. -/
theorem Raced.meet (h : db.Linked) {gone : Bool} {w : Watched} (hr : Raced db tie k gone w) :
    ∃ gone', (gone = true → gone' = true) ∧
      meet (deletionAt k tie) w.1 = ⟨world db tie gone', w.1.session.conn⟩ ∧
      ∀ q conn, Raced db tie k gone' (w.after q ⟨world db tie gone', conn⟩) := by
  obtain ⟨hdb, hi⟩ := hr
  have hmeet : Server.meet (deletionAt k tie) w.1 =
      ⟨(if w.1.index = k then [Event.expired tie] else []).foldl (fun db e => e.apply db)
        w.1.session.db, w.1.session.conn⟩ := rfl
  have hnext : ∀ (q : Query) (s : Session), (w.after q s).1.index = w.1.index + 1 := fun _ _ => rfl
  by_cases hk : w.1.index = k
  · have hf : gone = false := by
      rw [← Bool.not_eq_true, hi]
      omega
    subst hf
    obtain ⟨n, hn⟩ := h.deleteOldFilesBatch_eq tie
    refine ⟨true, fun _ => rfl, ?_, fun q conn => ⟨rfl, by simp only [hnext, true_iff]; omega⟩⟩
    rw [hmeet, if_pos hk, hdb]
    simp only [List.foldl_cons, List.foldl_nil, Event.apply, world, hn]
  · refine ⟨gone, id, ?_, fun q conn => ⟨rfl, ?_⟩⟩
    · rw [hmeet, if_neg hk, hdb, List.foldl_nil]
    · rw [hi, hnext]
      omega

variable {bucketName filename : String} {b : BucketRow} {f : FileRow} {c : Bytes}

namespace Doomed

variable (d : Doomed db tie bucketName filename b f c)
include d

theorem findBucket (gone : Bool) : (world db tie gone).findBucket bucketName = some b := by
  cases gone <;> exact d.bucket

theorem not_mem : f ∉ (db.deleteBatch tie).files :=
  fun h => (Db.mem_deleteBatch.mp h).2 d.removed

theorem findFile_gone : (db.deleteBatch tie).findFile b.id filename = none := by
  cases hg : (db.deleteBatch tie).findFile b.id filename with
  | none => rfl
  | some g =>
    obtain rfl := Option.some.inj
      (((Later.expired d.linked tie).findFile d.linked hg).symm.trans d.row)
    exact absurd (Db.findFile_some hg).1 d.not_mem

theorem findFileById_gone : (db.deleteBatch tie).findFileById f.id = none := by
  refine Option.not_isSome_iff_eq_none.mp fun hr => d.not_mem ?_
  exact (Later.expired d.linked tie).findFileById d.linked (Db.findFile_some d.row).1 rfl hr

theorem objects_gone : (db.deleteBatch tie).objects f.blob = none := by
  classical
  rw [d.linked.objects_deleteBatch tie (Db.findFile_some d.row).1, if_pos d.removed]

theorem objects_world {gone : Bool} :
    (world db tie gone).objects f.blob = if gone then none else some c := by
  cases gone
  · exact d.content
  · exact d.objects_gone

theorem bytes_world {gone : Bool} :
    (world db tie gone).bytes f.blob = if gone then [] else c := by
  rw [Db.bytes, d.objects_world]
  cases gone <;> rfl

end Doomed

/-- Every statement so far has been a benign one. -/
def Fine (op : Op) (f : FileRow) (c : Bytes) (sched : Schedule) (w : Watched) : Prop :=
  ∀ y ∈ w.steps sched, op.Benign f c y.1 y.2

theorem fine_after {op : Op} {sched : Schedule} {w : Watched} {q : Query} {s : Session} :
    Fine op f c sched (w.after q s) ↔
      op.Benign f c q (meet sched w.1) ∧ Fine op f c sched w :=
  List.forall_mem_cons

theorem benign_of_there {op : Op} {q : Query} {s : Session} (h : s.db.objects f.blob ≠ none) :
    op.Benign f c q s :=
  fun hn => absurd hn h

/-! The reads of a range check. -/

section Check

variable (db tie k f c) (op : Op) (start : ℕ) (B : Bytes → Prop)

/-- The bytes `m` agree so far. A check that begins after the deletion has `B []` to
answer for, where `B m` is what a read that finds the object gone after `m` needs. -/
def Checking (m : Bytes) (w : Watched) : Prop :=
  ∃ gone, Raced db tie k gone w ∧ w.1.session.conn.At f.blob (start + m.length) [] ∧
    m <+: c.drop start ∧ (Fine op f c (deletionAt k tie) w ∨
      (gone = true ∧ m = [] ∧ (Fine op f c (deletionAt k tie) w ↔ B [])))

def Checked (m : Bytes) (w : Watched) : Prop :=
  m <+: c.drop start ∧ (Fine op f c (deletionAt k tie) w ↔ B m)

variable {db tie k f c op start B}

theorem readsOn_raced (d : Doomed db tie bucketName filename b f c)
    (hB : ∀ m (room : ℕ) (s : Session), m <+: c.drop start → s.conn.cursor = start + m.length →
      s.db.objects f.blob = none → (op.Benign f c (.loRead 0 room) s ↔ B m))
    (hend : B (c.drop start)) :
    BlobHandle.ReadsOn (Watch (deletionAt k tie)) 0 (Checking db tie k f c op start B)
      (Checked tie k f c op start B) := by
  rintro m w room ⟨gone, hr, hat, hm, hfine⟩ hroom -
  obtain ⟨gone', hg, hmeet, hnext⟩ := hr.meet d.linked
  obtain ⟨conn, hs, hat'⟩ := hat.read (fun _ => false) (world db tie gone') room
  rw [applyAll_nil, d.bytes_world] at hs hat'
  refine watched_call (deletionAt_faultless k tie) (hmeet ▸ hs) ⟨_, rfl, length_window_le _ _ _, ?_⟩
  cases gone' with
  | true =>
    -- Nothing is left to read.
    have hread := hB m room (meet (deletionAt k tie) w.1) hm hat.cursor_eq
      (by rw [hmeet]; exact d.objects_gone)
    refine .inr ⟨window_nil _ _, hm, ?_⟩
    rw [fine_after, hread]
    obtain hfine | ⟨-, rfl, hfine⟩ := hfine
    · exact and_iff_left hfine
    · rw [hfine, and_self]
  | false =>
    have hfine : Fine op f c (deletionAt k tie) w :=
      hfine.resolve_right fun h => by simp [h.1] at hg
    have hfine' : Fine op f c (deletionAt k tie)
        (w.after (.loRead 0 room) ⟨world db tie false, conn⟩) := by
      refine fine_after.mpr ⟨benign_of_there ?_, hfine⟩
      simp [hmeet, world, d.content]
    by_cases hw : window c (start + m.length) room = []
    · refine .inr ⟨hw, hm, iff_of_true hfine' ?_⟩
      rwa [eq_drop_of_window_nil hroom hm hw]
    · refine .inl ⟨hw, false, hnext _ _, ?_, isPrefix_append_window room hm, .inl hfine'⟩
      rwa [List.length_append, ← Nat.add_assoc]

end Check

/-! The lookups. -/

theorem benign_bucketByName (op : Op) (name : String) (s : Session) :
    op.Benign f c (.bucketByName name) s :=
  fun _ => by cases op <;> trivial

theorem benign_beginTx (op : Op) (s : Session) : op.Benign f c .beginTx s :=
  fun _ => by cases op <;> trivial

theorem benign_seekSet (op : Op) (fd n : ℤ) (s : Session) :
    op.Benign f c (.loLseek64 fd n .seekSet) s :=
  fun _ => by cases op <;> trivial

theorem not_benign_open (op : Op) {flags : ℕ} {s : Session}
    (h : s.db.objects f.blob = none) : ¬ op.Benign f c (.loOpen f.blob flags) s :=
  fun hb => by cases op <;> exact hb h rfl

theorem bucket_raced (d : Doomed db tie bucketName filename b f c) {op : Op} {gone : Bool}
    {w : Watched} (hr : Raced db tie k gone w) (hfine : Fine op f c (deletionAt k tie) w)
    {post : Outcome FileOpenError PostgresBucket → Watched → Prop}
    (h : ∀ gone' w', Raced db tie k gone' w' → Fine op f c (deletionAt k tie) w' →
      post (.ok ⟨b.id, b.defaultTtl.map Interval.delta⟩) w') :
    (Watch (deletionAt k tie)).wp (PostgresBackend.bucket bucketName) post w := by
  obtain ⟨gone', -, hmeet, hnext⟩ := hr.meet d.linked
  refine bucket_watched (deletionAt_faultless k tie) (by rw [hmeet]; exact d.findBucket gone') ?_
  rw [hmeet]
  exact h gone' _ (hnext _ _) (fine_after.mpr ⟨benign_bucketByName op _ _, hfine⟩)

/-- The second lookup of a handler, up to an open handle; `ok` is what a lookup needs
that finds no row. -/
theorem file_raced (d : Doomed db tie bucketName filename b f c) {op : Op} {gone : Bool}
    {w : Watched} (hr : Raced db tie k gone w) (hfine : Fine op f c (deletionAt k tie) w) {P : Prop}
    (hok : ∀ s : Session, s.db.objects f.blob = none →
      (op.Benign f c (.fileByName b.id filename) s ↔ P))
    {ttl : Option TimeDelta} {post : Outcome FileOpenError PostgresFileHandle → Watched → Prop}
    (missing : ∀ w', (Fine op f c (deletionAt k tie) w' ↔ P) → post (.err .doesNotExist) w')
    (unlinked : ∀ w' e, ¬ Fine op f c (deletionAt k tie) w' → post (.err (.ofHandle e)) w')
    (opened : ∀ gone' w', Raced db tie k gone' w' → Fine op f c (deletionAt k tie) w' →
      w'.1.session.conn.At f.blob 0 [] → post (.ok ⟨.ofFd 0, f.id⟩) w') :
    (Watch (deletionAt k tie)).wp (PostgresBucket.file ⟨b.id, ttl⟩ filename) post w := by
  obtain ⟨gone', -, hmeet, hnext⟩ := hr.meet d.linked
  refine file_watched (deletionAt_faultless k tie) (fun g hg => ?_) fun hn => ?_
  · rw [hmeet] at hg ⊢
    cases gone' with
    | true => simp [world, d.findFile_gone] at hg
    | false =>
      obtain rfl : g = f := Option.some.inj (hg.symm.trans d.row)
      have hr₁ := hnext (.fileByName b.id filename) w.1.session.conn
      have hfine₁ : Fine op g c (deletionAt k tie)
          (w.after (.fileByName b.id filename) ⟨world db tie false, w.1.session.conn⟩) := by
        refine fine_after.mpr ⟨benign_of_there ?_, hfine⟩
        simp [hmeet, world, d.content]
      obtain ⟨gone₂, -, hmeet₂, hnext₂⟩ := hr₁.meet d.linked
      have hr₂ := hnext₂ .beginTx (.inTx ⟨none, []⟩)
      obtain ⟨gone₃, -, hmeet₃, hnext₃⟩ := hr₂.meet d.linked
      refine new_watched (deletionAt_faultless k tie) (by rw [hmeet₂]) (fun c' conn hc hat => ?_)
        fun hn e => unlinked _ _ fun h => ?_
      · rw [hmeet₃]
        refine opened gone₃ _ (hnext₃ _ _) (fine_after.mpr ⟨benign_of_there (by simp [hc]), ?_⟩) hat
        exact fine_after.mpr ⟨benign_beginTx op _, hfine₁⟩
      · exact not_benign_open op hn (fine_after.mp h).1
  · rw [hmeet] at hn ⊢
    cases gone' with
    | false => simp [world, d.row] at hn
    | true =>
      refine missing _ ?_
      rw [fine_after, hok _ (by rw [hmeet]; exact d.objects_gone)]
      exact and_iff_left hfine

theorem check_raced (d : Doomed db tie bucketName filename b f c) {op : Op} {start : ℕ}
    {B : Bytes → Prop}
    (hB : ∀ m (room : ℕ) (s : Session), m <+: c.drop start → s.conn.cursor = start + m.length →
      s.db.objects f.blob = none → (op.Benign f c (.loRead 0 room) s ↔ B m))
    (hend : B (c.drop start)) (hn : start ≤ maxObjectSize) {gone : Bool} {w : Watched}
    (hr : Raced db tie k gone w) {pos : ℕ} (hat : w.1.session.conn.At f.blob pos [])
    (hfine : Fine op f c (deletionAt k tie) w ∨
      (gone = true ∧ (Fine op f c (deletionAt k tie) w ↔ B []))) (parts : List Bytes) :
    (Watch (deletionAt k tie)).wp (checkRangeMatches (frames parts) start (.ofFd 0)) (fun o w' =>
      ∃ v, o = .ok v ∧
        ((v = .isMatch ∧ parts.flatten <+: c.drop start ∧
            (Fine op f c (deletionAt k tie) w' ↔ B parts.flatten)) ∨
          (v ≠ .isMatch ∧ ((Fine op f c (deletionAt k tie) w' ∧ c.drop start ≠ parts.flatten) ∨
            ∃ m, m <+: c.drop start ∧ m.length < parts.flatten.length ∧
              (Fine op f c (deletionAt k tie) w' ↔ B m))))) w := by
  obtain ⟨gone', hg, hmeet, hnext⟩ := hr.meet d.linked
  obtain ⟨conn, hs, hat'⟩ := hat.seekStart (fun _ => false) (world db tie gone') hn
  have hkeep : Fine op f c (deletionAt k tie)
      (w.after (.loLseek64 0 start .seekSet) ⟨world db tie gone', conn⟩) ↔
      Fine op f c (deletionAt k tie) w :=
    fine_after.trans (and_iff_right (benign_seekSet op _ _ _))
  refine Logic.wp_mono ?_ (wp_checkRangeMatches (readsOn_raced d hB hend) hn
    (watched_call (deletionAt_faultless k tie) (hmeet ▸ hs) ⟨_, rfl, gone', hnext _ _, hat',
      List.nil_prefix, ?_⟩))
  · rintro _ w' ⟨v, rfl, ⟨rfl, hm, hf⟩ | ⟨hv, m, ⟨⟨hm, hf⟩, hl⟩ | ⟨⟨g, -, -, hm, hf⟩, hne⟩⟩⟩
    · exact ⟨_, rfl, .inl ⟨rfl, hm, hf⟩⟩
    · exact ⟨v, rfl, .inr ⟨hv, .inr ⟨m, hm, hl, hf⟩⟩⟩
    · refine ⟨v, rfl, .inr ⟨hv, .inl ⟨hf.resolve_right ?_, fun he => hne (he ▸ hm)⟩⟩⟩
      rintro ⟨-, rfl, -⟩
      exact hne List.nil_prefix
  · rw [hkeep]
    exact hfine.imp_right fun h => ⟨hg h.1, rfl, h.2⟩

/-! Appends. -/

/-- One of the two answers that the request could get. -/
def Timely (before after : StatusCode) (r : Outcome ApiError Unit) : Prop :=
  status r = some before ∨ status r = some after

section Post

variable {writeOffset : ℕ} {parts : List Bytes}

theorem postCheck_raced (d : Doomed db tie bucketName filename b f c)
    (hn : writeOffset ≤ c.length) {gone : Bool} {w : Watched} (hr : Raced db tie k gone w) {pos : ℕ}
    (hat : w.1.session.conn.At f.blob pos [])
    (hfine : Fine (.post bucketName filename writeOffset parts) f c (deletionAt k tie) w ∨
      (gone = true ∧ (Fine (.post bucketName filename writeOffset parts) f c (deletionAt k tie) w ↔
        ([] = parts.flatten ↔ c.drop writeOffset = parts.flatten)))) :
    (Watch (deletionAt k tie)).wp (do
        match ← (checkRangeMatches (frames parts) writeOffset (.ofFd 0)).mapErr .internalError with
        | .isMatch => return ()
        | .lengthMismatch => .err .fileExistsWithConflictingContent
        | .dataMismatch => .err .fileExistsWithConflictingContent : DbProg ApiError Unit)
      (fun r w => Timely (appendAt maxObjectSize c writeOffset parts.flatten).1 .notFound r ↔
        Fine (.post bucketName filename writeOffset parts) f c (deletionAt k tie) w) w := by
  have hl := d.linked.sizes _ _ d.content
  have hB : ∀ m (room : ℕ) (s : Session), m <+: c.drop writeOffset →
      s.conn.cursor = writeOffset + m.length → s.db.objects f.blob = none →
      ((Op.post bucketName filename writeOffset parts).Benign f c (.loRead 0 room) s ↔
        (m = parts.flatten ↔ c.drop writeOffset = parts.flatten)) := by
    intro m room s hm hcur hnone
    simp only [Op.Benign, hnone, true_imp_iff, hcur, List.drop_take, Nat.add_sub_cancel_left]
    rw [← List.prefix_iff_eq_take.mp hm]
  rw [appendAt_check hn]
  refine Logic.wp_then (Logic.wp_mono ?_ (check_raced d hB Iff.rfl (hn.trans hl) hr hat hfine parts))
  rintro _ w' ⟨v, rfl, ⟨rfl, -, hf⟩ | ⟨hv, hf⟩⟩
  · simp only [Outcome.mapErr, Logic.after_ok, Prog.pure_eq, Logic.wp_ret, hf, Timely, status]
    by_cases he : c.drop writeOffset = parts.flatten <;> simp [he]
  · have hf : Fine (.post bucketName filename writeOffset parts) f c (deletionAt k tie) w' ↔
        c.drop writeOffset ≠ parts.flatten := by
      obtain ⟨hf, hne⟩ | ⟨m, -, hlt, hf⟩ := hf
      · exact iff_of_true hf hne
      · have hne : m ≠ parts.flatten := fun he => hlt.ne (he ▸ rfl)
        simp only [hf, hne, false_iff, ne_eq]
    have hconflict : Timely (if c.drop writeOffset = parts.flatten then .ok else .conflict)
        .notFound (.err .fileExistsWithConflictingContent) ↔ c.drop writeOffset ≠ parts.flatten := by
      simp only [Timely, status, ApiError.statusCode]
      by_cases he : c.drop writeOffset = parts.flatten <;> simp [he]
    cases v with
    | isMatch => exact absurd rfl hv
    | lengthMismatch | dataMismatch => exact hconflict.trans hf.symm

/-- What follows a size test that the offset is past. -/
theorem upload_raced (d : Doomed db tie bucketName filename b f c)
    (hfit : c.length + parts.flatten.length ≤ maxObjectSize) (hpos : 0 < writeOffset) {gone : Bool}
    {w : Watched} (hr : Raced db tie k gone w) {pos : ℕ} (hat : w.1.session.conn.At f.blob pos [])
    {ok : Prop} (hok : ok ↔ ((0 < writeOffset ∨ parts.flatten = []) ↔
      (c.length < writeOffset ∨ c.drop writeOffset = parts.flatten)))
    (hfine : Fine (.post bucketName filename writeOffset parts) f c (deletionAt k tie) w ↔ ok)
    {id : FileId} :
    (Watch (deletionAt k tie)).wp (do
        (appendFrames ⟨.ofFd 0, id⟩ (frames parts)).mapErr .internalError
        (PostgresFileHandle.commit ⟨.ofFd 0, id⟩).mapErr .internalError : DbProg ApiError Unit)
      (fun r w => Timely (appendAt maxObjectSize c writeOffset parts.flatten).1 .notFound r ↔
        Fine (.post bucketName filename writeOffset parts) f c (deletionAt k tie) w) w := by
  refine append_watched (deletionAt_faultless k tie) hfit (I := fun w =>
    (∃ gone, Raced db tie k gone w) ∧
      (Fine (.post bucketName filename writeOffset parts) f c (deletionAt k tie) w ↔ ok)) ?_ ?_ ?_
    ⟨⟨_, hr⟩, hfine⟩ hat ?_
  · rintro w ⟨⟨gone, hr⟩, -⟩
    obtain ⟨gone', -, hm, -⟩ := hr.meet d.linked
    rw [hm, d.bytes_world]
    split
    · exact Nat.zero_le _
    · exact le_rfl
  · rintro w conn ⟨⟨gone, hr⟩, hf⟩
    obtain ⟨gone', -, hm, hn⟩ := hr.meet d.linked
    refine ⟨⟨gone', hm ▸ hn _ _⟩, ?_⟩
    rw [fine_after, hf]
    exact and_iff_right_of_imp fun h _ _ => hok.mp h
  · rintro w data conn ⟨⟨gone, hr⟩, hf⟩
    obtain ⟨gone', -, hm, hn⟩ := hr.meet d.linked
    exact ⟨⟨gone', hm ▸ hn _ _⟩, fine_after.trans (and_iff_right fun _ => trivial) |>.trans hf⟩
  · rintro w s s' ⟨-, hf⟩
    have hf' : Fine (.post bucketName filename writeOffset parts) f c (deletionAt k tie)
        ((w.after (.loClose 0) s).after .commitTx s') ↔ ok :=
      (fine_after.trans (and_iff_right fun _ => trivial)).trans
        ((fine_after.trans (and_iff_right fun _ => trivial)).trans hf)
    rw [hf', hok, Timely, appendAt_answer hfit]
    simp only [hpos, true_or, true_iff, status]
    split <;> simp [*]

theorem post_raced (d : Doomed db tie bucketName filename b f c)
    (hfit : c.length + parts.flatten.length ≤ maxObjectSize) (writeOffset : ℕ) {w : Watched}
    (hr : Raced db tie k false w)
    (hfine : Fine (.post bucketName filename writeOffset parts) f c (deletionAt k tie) w) :
    (Watch (deletionAt k tie)).wp (postAppendFilename bucketName filename writeOffset (frames parts))
      (fun r w => Timely (appendAt maxObjectSize c writeOffset parts.flatten).1 .notFound r ↔
        Fine (.post bucketName filename writeOffset parts) f c (deletionAt k tie) w) w := by
  have hl := d.linked.sizes _ _ d.content
  let op : Op := .post bucketName filename writeOffset parts
  let ok : Prop := (0 < writeOffset ∨ parts.flatten = []) ↔
    (c.length < writeOffset ∨ c.drop writeOffset = parts.flatten)
  refine Logic.wp_then (bucket_raced d hr hfine fun gone₁ w₁ hr₁ hfine₁ => ?_)
  refine Logic.wp_then (file_raced d hr₁ hfine₁ (P := True) (fun s hs => ?_) (fun w' hw' => ?_)
    (fun w' e hw' => ?_) fun gone₂ w₂ hr₂ hfine₂ hat₂ => ?_)
  · exact iff_of_true (fun _ => trivial) trivial
  · exact iff_of_true (.inr rfl) (hw'.mpr trivial)
  · refine iff_of_false (fun h => ?_) hw'
    rw [Timely, appendAt_answer hfit] at h
    simp only [status, FileOpenError.ofHandle, ApiError.fromBucketFileOpenError,
      ApiError.statusCode] at h
    split at h <;> simp at h
  obtain ⟨gone₃, hg₃, hmeet, hnext⟩ := hr₂.meet d.linked
  obtain ⟨conn, hs, hat₃⟩ := hat₂.seekEnd (fun _ => false) (world db tie gone₃) (by
    rw [applyAll_nil, d.bytes_world]
    split
    · exact Nat.zero_le _
    · exact hl)
  rw [applyAll_nil, d.bytes_world] at hs hat₃
  refine Logic.wp_then (BlobHandle.wp_seekEnd (watched_call (deletionAt_faultless k tie)
    (hmeet ▸ hs) ⟨_, rfl, ?_⟩))
  have hr₃ := hnext (.loLseek64 0 0 .seekEnd) conn
  have hprobe : Fine op f c (deletionAt k tie)
      (w₂.after (.loLseek64 0 0 .seekEnd) ⟨world db tie gone₃, conn⟩) ↔ (gone₃ = true → ok) := by
    rw [fine_after, and_iff_left hfine₂, hmeet]
    cases gone₃ with
    | false => exact iff_of_true (benign_of_there (by simp [world, d.content])) (by simp)
    | true =>
      simp only [op, Op.Benign, world, d.objects_gone, true_imp_iff, hat₂.cursor_eq, ok]
  simp only [Outcome.mapErr, Logic.after_ok]
  by_cases ho : writeOffset ≤ (if gone₃ = true then [] else c).length
  · rw [if_pos ho]
    cases gone₃ with
    | false => exact postCheck_raced d ho hr₃ hat₃ (.inl (hprobe.mpr (by simp)))
    | true =>
      obtain rfl : writeOffset = 0 := by simpa using ho
      refine postCheck_raced d (Nat.zero_le _) hr₃ hat₃ (.inr ⟨rfl, hprobe.trans ?_⟩)
      simp [ok, eq_comm]
  · rw [if_neg ho]
    have hok : Fine op f c (deletionAt k tie)
        (w₂.after (.loLseek64 0 0 .seekEnd) ⟨world db tie gone₃, conn⟩) ↔ ok := by
      refine hprobe.trans ⟨fun h => ?_, fun h _ => h⟩
      cases gone₃ with
      | true => exact h rfl
      | false =>
        have ho : c.length < writeOffset := by simpa using ho
        exact iff_of_true (.inl (Nat.zero_lt_of_lt ho)) (.inl ho)
    have hpos : 0 < writeOffset := by omega
    exact upload_raced d hfit hpos hr₃ hat₃ Iff.rfl hok

end Post

/-! Downloads. -/

section Get

variable {rooms : List ℕ+}

/-- What a client sees of a download before the deletion, or after it. -/
def TimelyGet (c : Bytes) (rooms : List ℕ+) (r : Outcome ApiError Response) : Prop :=
  seen (r.map some) = some (.ok, some (c.length, download c 0 rooms)) ∨
    seen (r.map some) = some (.notFound, none)

/-- A read after the deletion ends the body, early or not. -/
theorem readerStream_raced (d : Doomed db tie bucketName filename b f c) (rooms : List ℕ+)
    {gone : Bool} {w : Watched}
    (hr : Raced db tie k gone w) (hat : w.1.session.conn.At f.blob 0 [])
    (hfine : Fine (.get bucketName filename rooms) f c (deletionAt k tie) w) :
    (Watch (deletionAt k tie)).wp (readerStream (.ofFd 0) rooms) (fun o w' =>
      (o = .ok (download c 0 rooms) ∧
          Fine (.get bucketName filename rooms) f c (deletionAt k tie) w') ∨
        ∃ chunks, o = .ok (chunks, .eof) ∧ chunks.flatten.length < c.length ∧
          ¬ Fine (.get bucketName filename rooms) f c (deletionAt k tie) w') w := by
  let op : Op := .get bucketName filename rooms
  refine Logic.wp_mono ?_ (wp_readerStream_steady (c := c)
    (R := fun pos w => (∃ gone, Raced db tie k gone w) ∧ w.1.session.conn.At f.blob pos [] ∧
      Fine op f c (deletionAt k tie) w)
    (X := fun pos w => pos < c.length ∧ ¬ Fine op f c (deletionAt k tie) w) ?_
    ⟨⟨gone, hr⟩, hat, hfine⟩)
  · rintro _ w' (⟨rfl, -, -, -, hf⟩ | ⟨chunks, rfl, hl, hf⟩)
    · exact .inl ⟨rfl, hf⟩
    · exact .inr ⟨chunks, rfl, by simpa using hl, hf⟩
  · rintro pos w room ⟨⟨gone, hr⟩, hat, hfine⟩ hroom -
    obtain ⟨gone', -, hmeet, hnext⟩ := hr.meet d.linked
    obtain ⟨conn, hs, hat'⟩ := hat.read (fun _ => false) (world db tie gone') room
    rw [applyAll_nil, d.bytes_world] at hs hat'
    refine watched_call (deletionAt_faultless k tie) (hmeet ▸ hs) ?_
    cases gone' with
    | false =>
      refine .inl ⟨rfl, ⟨false, hnext _ _⟩, hat', fine_after.mpr ⟨benign_of_there ?_, hfine⟩⟩
      simp [hmeet, world, d.content]
    | true =>
      rw [if_pos rfl, window_nil] at hat' ⊢
      have hread : op.Benign f c (.loRead 0 room) (meet (deletionAt k tie) w.1) ↔ c.length ≤ pos := by
        simp only [op, Op.Benign, hmeet, world, d.objects_gone, true_imp_iff, hat.cursor_eq]
      by_cases hl : c.length ≤ pos
      · have hw := (window_eq_nil hroom).mpr hl
        rw [hw]
        exact .inl ⟨rfl, ⟨true, hnext _ _⟩, hat', fine_after.mpr ⟨hread.mpr hl, hfine⟩⟩
      · exact .inr ⟨rfl, not_le.mp hl, fun h => hl (hread.mp (fine_after.mp h).1)⟩

/-- What follows the length and the seek to the start. -/
theorem getBody_raced (d : Doomed db tie bucketName filename b f c) {gone : Bool} {w : Watched}
    (hr : Raced db tie k gone w) (hat : w.1.session.conn.At f.blob 0 [])
    (hfine : Fine (.get bucketName filename rooms) f c (deletionAt k tie) w) {length : ℕ}
    (hlen : gone = false → length = c.length) :
    (Watch (deletionAt k tie)).wp (do
        let lastModified ← (PostgresFileHandle.metadata ⟨.ofFd 0, f.id⟩).mapErr .internalError
        let (body, bodyEnd) ← readerStream (.ofFd 0) rooms
        return ⟨length, "application/octet-stream", lastModified, body, bodyEnd⟩ :
          DbProg ApiError Response)
      (fun r w => TimelyGet c rooms r ↔
        Fine (.get bucketName filename rooms) f c (deletionAt k tie) w) w := by
  obtain ⟨gone', hg, hmeet, hnext⟩ := hr.meet d.linked
  refine Logic.wp_then (PostgresFileHandle.wp_metadata ?_)
  cases gone' with
  | true =>
    have hs := hat.updatedAt_none (fun _ => false) _ d.findFileById_gone
    refine watched_call (deletionAt_faultless k tie) (by rw [hmeet]; exact hs) (.inr ⟨_, rfl, ?_⟩)
    refine iff_of_false (by rintro (h | h) <;> cases h) fun h => ?_
    exact (fine_after.mp h).1 (by rw [hmeet]; exact d.objects_gone)
  | false =>
    obtain rfl : length = c.length := hlen (by cases gone <;> simp_all)
    have hs := hat.updatedAt_some (fun _ => false) _
      (d.linked.findFileById_of_mem (Db.findFile_some d.row).1)
    have hthere : (meet (deletionAt k tie) w.1).db.objects f.blob ≠ none := by
      simp [hmeet, world, d.content]
    refine watched_call (deletionAt_faultless k tie) (by rw [hmeet]; exact hs) (.inl ⟨_, rfl, ?_⟩)
    refine (Logic.wp_bind ..).mpr (Logic.wp_mono ?_ (readerStream_raced d rooms
      (hnext (.updatedAt f.id) w.1.session.conn) hat
      (fine_after.mpr ⟨benign_of_there hthere, hfine⟩)))
    rintro _ w' (⟨rfl, hf⟩ | ⟨chunks, rfl, hlt, hf⟩)
    · exact iff_of_true (.inl rfl) hf
    · refine iff_of_false ?_ hf
      rintro (h | h)
      · have hd : (chunks, StreamEnd.eof) = download c 0 rooms :=
          (Prod.mk.inj (Option.some.inj (Prod.mk.inj (Option.some.inj h)).2)).2
        have hall : (download c 0 rooms).1.flatten = c.drop 0 := download_eof (by rw [← hd])
        rw [← hd, List.drop_zero] at hall
        exact hlt.ne (congrArg List.length hall)
      · cases h

theorem get_raced (d : Doomed db tie bucketName filename b f c) {w : Watched}
    (hr : Raced db tie k false w)
    (hfine : Fine (.get bucketName filename rooms) f c (deletionAt k tie) w) :
    (Watch (deletionAt k tie)).wp (getExplore bucketName filename rooms)
      (fun r w => TimelyGet c rooms r ↔
        Fine (.get bucketName filename rooms) f c (deletionAt k tie) w) w := by
  have hl := d.linked.sizes _ _ d.content
  refine Logic.wp_then (bucket_raced d hr hfine fun gone₁ w₁ hr₁ hfine₁ => ?_)
  refine Logic.wp_then (file_raced d hr₁ hfine₁ (P := True) (fun s hs => ?_) (fun w' hw' => ?_)
    (fun w' e hw' => ?_) fun gone₂ w₂ hr₂ hfine₂ hat₂ => ?_)
  · exact iff_of_true (fun _ => trivial) trivial
  · exact iff_of_true (.inr rfl) (hw'.mpr trivial)
  · exact iff_of_false (by rintro (h | h) <;> cases h) hw'
  obtain ⟨gone₃, hg₃, hmeet₃, hnext₃⟩ := hr₂.meet d.linked
  obtain ⟨conn₃, hs₃, hat₃⟩ := hat₂.seekEnd (fun _ => false) (world db tie gone₃) (by
    rw [applyAll_nil, d.bytes_world]
    split
    · exact Nat.zero_le _
    · exact hl)
  rw [applyAll_nil, d.bytes_world] at hs₃ hat₃
  refine Logic.wp_then (BlobHandle.wp_seekEnd (watched_call (deletionAt_faultless k tie)
    (hmeet₃ ▸ hs₃) ⟨_, rfl, ?_⟩))
  obtain ⟨gone₄, hg₄, hmeet₄, hnext₄⟩ := (hnext₃ (.loLseek64 0 0 .seekEnd) conn₃).meet d.linked
  obtain ⟨conn₄, hs₄, hat₄⟩ := hat₃.seekStart (fun _ => false) (world db tie gone₄) (Nat.zero_le _)
  refine Logic.wp_then (BlobHandle.wp_seekStart (Nat.zero_le _)
    (watched_call (deletionAt_faultless k tie) (hmeet₄ ▸ hs₄) ⟨0, rfl, ?_⟩))
  refine getBody_raced d (hnext₄ _ _) hat₄ (fine_after.mpr ⟨benign_seekSet _ _ _ _,
    fine_after.mpr ⟨fun _ => trivial, hfine₂⟩⟩) fun h => ?_
  rw [if_neg (by cases gone₃ <;> simp_all)]

end Get

/-! Uploads. -/

section Put

variable {parts : List Bytes} {now : DateTime}

theorem putCheck_raced (d : Doomed db tie bucketName filename b f c) {gone : Bool} {w : Watched}
    (hr : Raced db tie k gone w) (hat : w.1.session.conn.At f.blob 0 [])
    (hfine : Fine (.put bucketName filename parts now) f c (deletionAt k tie) w) :
    (Watch (deletionAt k tie)).wp (do
        match ← (checkRangeMatches (frames parts) 0 (.ofFd 0)).mapErr .internalError with
        | .isMatch => return ()
        | _ => .err .fileExistsWithConflictingContent : DbProg ApiError Unit)
      (fun r w => Timely (if c = parts.flatten then .ok else .conflict) .ok r ↔
        Fine (.put bucketName filename parts now) f c (deletionAt k tie) w) w := by
  have hB : ∀ m (room : ℕ) (s : Session), m <+: c.drop 0 → s.conn.cursor = 0 + m.length →
      s.db.objects f.blob = none →
      ((Op.put bucketName filename parts now).Benign f c (.loRead 0 room) s ↔
        (c = parts.flatten → c.length ≤ m.length)) := by
    intro m room s hm hcur hnone
    simp only [Op.Benign, hnone, true_imp_iff, hcur, Nat.zero_add]
  refine Logic.wp_then (Logic.wp_mono ?_ (check_raced d hB (by simp) (Nat.zero_le _) hr hat
    (.inl hfine) parts))
  rintro _ w' ⟨v, rfl, ⟨rfl, -, hf⟩ | ⟨hv, hf⟩⟩
  · exact iff_of_true (.inr rfl) (hf.mpr fun he => he ▸ le_rfl)
  · have hf : Fine (.put bucketName filename parts now) f c (deletionAt k tie) w' ↔
        c ≠ parts.flatten := by
      obtain ⟨hf, hne⟩ | ⟨m, -, hlt, hf⟩ := hf
      · exact iff_of_true hf (by rwa [List.drop_zero] at hne)
      · exact hf.trans ⟨fun h he => absurd (h he) (by rw [he]; omega), fun h he => absurd he h⟩
    have hconflict : Timely (if c = parts.flatten then .ok else .conflict)
        .ok (.err .fileExistsWithConflictingContent) ↔ c ≠ parts.flatten := by
      simp only [Timely, status, ApiError.statusCode]
      by_cases he : c = parts.flatten <;> simp [he]
    cases v with
    | isMatch => exact absurd rfl hv
    | lengthMismatch | dataMismatch => exact hconflict.trans hf.symm

theorem meet_late {w : Scheduled} (h : k < w.index) : meet (deletionAt k tie) w = w.session := by
  rw [meet, show (deletionAt k tie w.index).events = [] from if_neg h.ne']
  rfl

theorem late_after {w : Watched} (h : k < w.1.index) (q : Query) (s : Session) :
    k < (w.after q s).1.index :=
  h.trans (Nat.lt_succ_self _)

/-- The name is free again, and its next upload has made a row: a handle on it. -/
theorem newFile_raced (d : Doomed db tie bucketName filename b f c) {op : Op}
    {deleteAfter : Option Timestamp} {w : Watched}
    (hdb : w.1.session.db = (db.deleteBatch tie).withFile b.id filename deleteAfter)
    (hk : k < w.1.index) (hfine : Fine op f c (deletionAt k tie) w) {id : FileId}
    {post : Outcome FileHandleError PostgresFileHandle → Watched → Prop}
    (h : ∀ w' : Watched,
      w'.1.session.db = (db.deleteBatch tie).withFile b.id filename deleteAfter → k < w'.1.index →
      Fine op f c (deletionAt k tie) w' → w'.1.session.conn.At db.nextOid 0 [] →
      post (.ok ⟨.ofFd 0, id⟩) w') :
    (Watch (deletionAt k tie)).wp (PostgresFileHandle.new db.nextOid id) post w := by
  have hnew : ((db.deleteBatch tie).withFile b.id filename deleteAfter).objects db.nextOid =
      some [] := by
    simp [Db.withFile, Db.deleteBatch]
  have hk₁ := late_after hk .beginTx ⟨(meet (deletionAt k tie) w.1).db, .inTx ⟨none, []⟩⟩
  refine new_watched (deletionAt_faultless k tie) rfl (fun c' conn hc hat => ?_) fun hn e => ?_
  · refine h _ ?_ (late_after hk₁ _ _) (fine_after.mpr ⟨fun _ => ?_,
      fine_after.mpr ⟨benign_beginTx op _, hfine⟩⟩) hat
    · rw [Watched.after_session, meet_late hk₁, Watched.after_session, meet_late hk, hdb]
    · have hoid := (d.linked.blob_ne_nextOid (Db.findFile_some d.row).1).symm
      cases op <;> exact hoid
  · rw [meet_late hk₁, Watched.after_session, meet_late hk, hdb, hnew] at hn
    cases hn

/-- What is left of that upload. -/
theorem putNew_raced {deleteAfter : Option Timestamp} (hl : parts.flatten.length ≤ maxObjectSize)
    {w : Watched} (hdb : w.1.session.db = (db.deleteBatch tie).withFile b.id filename deleteAfter)
    (hk : k < w.1.index)
    (hfine : Fine (.put bucketName filename parts now) f c (deletionAt k tie) w) {id : FileId}
    {pos : ℕ} (hat : w.1.session.conn.At db.nextOid pos []) :
    (Watch (deletionAt k tie)).wp (do
        (appendFrames ⟨.ofFd 0, id⟩ (frames parts)).mapErr .internalError
        (PostgresFileHandle.commit ⟨.ofFd 0, id⟩).mapErr .internalError : DbProg ApiError Unit)
      (fun r w => Timely (if c = parts.flatten then .ok else .conflict) .ok r ↔
        Fine (.put bucketName filename parts now) f c (deletionAt k tie) w) w := by
  refine append_watched (deletionAt_faultless k tie) (n := 0) (by omega) (I := fun w =>
    w.1.session.db = (db.deleteBatch tie).withFile b.id filename deleteAfter ∧ k < w.1.index ∧
      Fine (.put bucketName filename parts now) f c (deletionAt k tie) w) ?_ ?_ ?_
    ⟨hdb, hk, hfine⟩ hat ?_
  · rintro w ⟨hdb, hk, -⟩
    rw [meet_late hk, hdb]
    simp [Db.bytes, Db.withFile, Db.deleteBatch]
  · rintro w conn ⟨hdb, hk, hf⟩
    exact ⟨meet_late hk ▸ hdb, late_after hk _ _, fine_after.mpr ⟨fun _ => trivial, hf⟩⟩
  · rintro w data conn ⟨hdb, hk, hf⟩
    exact ⟨meet_late hk ▸ hdb, late_after hk _ _, fine_after.mpr ⟨fun _ => trivial, hf⟩⟩
  · rintro w s s' ⟨-, -, hf⟩
    exact iff_of_true (.inr rfl)
      (fine_after.mpr ⟨fun _ => trivial, fine_after.mpr ⟨fun _ => trivial, hf⟩⟩)

theorem put_raced (d : Doomed db tie bucketName filename b f c) {deleteAfter : Option Timestamp}
    (hdead : Deadline b now deleteAfter) (hl : parts.flatten.length ≤ maxObjectSize) {w : Watched}
    (hr : Raced db tie k false w)
    (hfine : Fine (.put bucketName filename parts now) f c (deletionAt k tie) w) :
    (Watch (deletionAt k tie)).wp (putWriteFilename bucketName filename (frames parts) now)
      (fun r w => Timely (if c = parts.flatten then .ok else .conflict) .ok r ↔
        Fine (.put bucketName filename parts now) f c (deletionAt k tie) w) w := by
  have failed (e : BoxError) {w : Watched}
      (h : ¬ Fine (.put bucketName filename parts now) f c (deletionAt k tie) w) :
      Timely (if c = parts.flatten then .ok else .conflict) .ok (.err (.internalError e)) ↔
        Fine (.put bucketName filename parts now) f c (deletionAt k tie) w := by
    refine iff_of_false (fun ht => ?_) h
    simp only [Timely, status, ApiError.statusCode] at ht
    split at ht <;> simp at ht
  refine Logic.wp_then (bucket_raced d hr hfine fun gone₁ w₁ hr₁ hfine₁ => ?_)
  refine Logic.wp_try (PostgresBucket.wp_createFile hdead.1 ?_)
  obtain ⟨gone₂, -, hmeet, hnext⟩ := hr₁.meet d.linked
  have hr₂ := hnext (.insertFile b.id filename deleteAfter) w₁.1.session.conn
  cases gone₂ with
  | false =>
    have hins := Db.insertFile_exists hdead.2 d.row
    have hfine₂ : Fine (.put bucketName filename parts now) f c (deletionAt k tie)
        (w₁.after (.insertFile b.id filename deleteAfter) ⟨db, w₁.1.session.conn⟩) :=
      fine_after.mpr ⟨fun _ => trivial, hfine₁⟩
    refine watched_call (deletionAt_faultless k tie)
      (by rw [hmeet, world, Session.serve, hins]; rfl) (.inl ⟨rfl, ?_⟩)
    refine Logic.wp_then (file_raced d hr₂ hfine₂ (P := False) (fun s hs => ?_)
      (fun w' hw' => failed _ fun h => hw'.mp h) (fun w' e hw' => failed _ hw')
      fun gone₃ w₃ hr₃ hfine₃ hat₃ => ?_)
    · exact iff_of_false (fun hb => hb hs) id
    · exact putCheck_raced d hr₃ hat₃ hfine₃
  | true =>
    have hins := Db.insertFile_eq hdead.2 d.findFile_gone
      ⟨b, (Db.findBucket_some d.bucket).1, rfl⟩
    refine watched_call (deletionAt_faultless k tie)
      (by rw [hmeet, world, Session.serve, hins]; rfl) (.inr (.inr ⟨_, _, rfl, ?_⟩))
    have hk : k < w₁.1.index + 1 := hr₂.index.mp rfl
    refine newFile_raced d rfl hk (fine_after.mpr ⟨fun _ => trivial, hfine₁⟩)
      fun w' hdb hk hf hat => ?_
    exact putNew_raced hl hdb hk hf hat

end Put

/-! Any request. -/

/-- The answer is one from before the deletion, or from after it, and no internal error. -/
def BeforeOrAfter (before after x : Answer) : Prop :=
  status x ≠ some .internalServerError ∧ (seen x = seen before ∨ seen x = seen after)

theorem beforeOrAfter_iff {before after x : Answer} {vb va : Seen} (hb : seen before = some vb)
    (ha : seen after = some va) (hvb : vb.1 ≠ .internalServerError)
    (hva : va.1 ≠ .internalServerError) :
    BeforeOrAfter before after x ↔ seen x = some vb ∨ seen x = some va := by
  rw [BeforeOrAfter, hb, ha, and_iff_right_iff_imp, status_eq_seen]
  rintro (h | h) <;> rw [h] <;> simpa

/-- A request that answers without a body. -/
theorem timely_iff {sb sa : StatusCode} {r : Outcome ApiError Unit} :
    Timely sb sa r ↔ seen (r.map fun _ => none) = some (sb, none) ∨
      seen (r.map fun _ => none) = some (sa, none) := by
  cases r <;> simp [Timely, status, seen, Outcome.map]

/-- What is shown of a handler's outcome is shown of the answer made of it. -/
theorem after_map {β : Type} {sched : Schedule} {g : β → Option Response}
    {P : Answer → Watched → Prop} {r : Outcome ApiError β} {w : Watched} (h : P (r.map g) w) :
    (Watch sched).after (fun a => .ret (g a)) P r w := by
  cases r <;> exact h

/-- A request that races with the deletion of its file is answered as before it or as
after it if and only if each of its statements is a benign one. -/
theorem expiry_before_or_after_iff {op : Op} (d : Doomed db tie op.bucketName op.filename b f c)
    (hf : op.Fits db.buckets) (room : op.HasRoom c) (k : ℕ) :
    BeforeOrAfter (serveRequest db op.request).1 (serveRequest (db.deleteBatch tie) op.request).1
        (runScheduled (deletionAt k tie) op.request.handler db).1 ↔
      ∀ y ∈ steps (deletionAt k tie) op.request.handler db, op.Benign f c y.1 y.2 := by
  have hbefore := (serve_refines d.linked op hf).1
  have hafter := (serve_refines (d.linked.deleteBatch tie) op hf).1
  have hbucket : (archive db).buckets op.bucketName = true := by simp [archive, d.bucket]
  have hbucket' : (archive (db.deleteBatch tie)).buckets op.bucketName = true := hbucket
  have hfile : (archive db).files op.bucketName op.filename = some c :=
    (Db.content_of_find d.bucket d.row).trans d.content
  have hfile' : (archive (db.deleteBatch tie)).files op.bucketName op.filename = none :=
    Db.content_of_absent (d.findBucket true) d.findFile_gone
  have hr : Raced db tie k false (⟨⟨db, .idle⟩, 0⟩, []) := ⟨rfl, by simp⟩
  have hfine : Fine op f c (deletionAt k tie) (⟨⟨db, .idle⟩, 0⟩, []) := fun _ hy => by cases hy
  suffices h : (Watch (deletionAt k tie)).wp op.request.handler (fun x w =>
      BeforeOrAfter (serveRequest db op.request).1 (serveRequest (db.deleteBatch tie) op.request).1
        x ↔ Fine op f c (deletionAt k tie) w) (⟨⟨db, .idle⟩, 0⟩, []) by
    have h := steps_of_wp (P := fun x steps => BeforeOrAfter (serveRequest db op.request).1
      (serveRequest (db.deleteBatch tie) op.request).1 x ↔ ∀ y ∈ steps, op.Benign f c y.1 y.2) h
    simpa only [List.mem_reverse] using h
  cases op with
  | put bucketName filename parts now =>
    dsimp only [Op.bucketName, Op.filename] at d hbucket hbucket' hfile hfile'
    rw [Archive.serve, Archive.put_present hbucket hfile] at hbefore
    rw [Archive.serve, Archive.put_absent hbucket' hfile'] at hafter
    obtain ⟨deleteAfter, hdead⟩ := hf.2 b (Db.findBucket_some d.bucket).1 (Db.findBucket_some d.bucket).2
    refine (Logic.wp_bind ..).mpr (Logic.wp_mono (fun r w hw => after_map ?_)
      (put_raced d hdead hf.1 hr hfine))
    refine (beforeOrAfter_iff hbefore hafter ?_ fun h => by cases h).trans (timely_iff.symm.trans hw)
    dsimp only [Op.cut]
    split <;> decide
  | post bucketName filename writeOffset parts =>
    dsimp only [Op.bucketName, Op.filename] at d hbucket hbucket' hfile hfile'
    rw [Archive.serve, Archive.post_present hbucket hfile] at hbefore
    rw [Archive.serve, Archive.post_absent hbucket' hfile'] at hafter
    refine (Logic.wp_bind ..).mpr (Logic.wp_mono (fun r w hw => after_map ?_)
      (post_raced d room writeOffset hr hfine))
    refine (beforeOrAfter_iff hbefore hafter ?_ fun h => by cases h).trans (timely_iff.symm.trans hw)
    dsimp only [Op.cut]
    rw [appendAt_answer room]
    split <;> decide
  | get bucketName filename rooms =>
    dsimp only [Op.bucketName, Op.filename] at d hbucket hbucket' hfile hfile'
    rw [Archive.serve, Archive.get_present hbucket hfile] at hbefore
    rw [Archive.serve, Archive.get_absent hbucket' hfile'] at hafter
    refine (Logic.wp_bind ..).mpr (Logic.wp_mono (fun r w hw => after_map ?_)
      (get_raced d hr hfine))
    exact (beforeOrAfter_iff hbefore hafter (fun h => by cases h) fun h => by cases h).trans hw

end Race

/-- An upload is sent again, and its file expires once the insert has found it. -/
theorem put_expiry_internal_error :
    let db : Db := { (serveRequest (.created 0 "bucket" (some ⟨0, 0, 10⟩))
      (.put "bucket" "meow" (frames [[109]]) 5000)).2 with clock := 16 }
    let op : Op := .put "bucket" "meow" [[109]] 16000
    let tie : FileId → ℕ := fun _ => 0
    ¬ BeforeOrAfter (serveRequest db op.request).1 (serveRequest (db.deleteBatch tie) op.request).1
      (runScheduled (deletionAt 2 tie) op.request.handler db).1 := by
  intro db op tie h
  exact h.1 (by decide)

/-- The file expires after the download has read all of it. -/
theorem get_expiry_before_or_after_iff :
    let db : Db := { (serveRequest (.created 0 "bucket" (some ⟨0, 0, 10⟩))
      (.put "bucket" "meow" (frames [[109]]) 5000)).2 with clock := 16 }
    let op : Op := .get "bucket" "meow" [4, 4]
    let tie : FileId → ℕ := fun _ => 0
    BeforeOrAfter (serveRequest db op.request).1 (serveRequest (db.deleteBatch tie) op.request).1
        (runScheduled (deletionAt 8 tie) op.request.handler db).1 ↔
      ∀ y ∈ steps (deletionAt 8 tie) op.request.handler db,
        op.Benign ⟨⟨1⟩, ⟨0⟩, "meow", 16384, some 15, 0⟩ [109] y.1 y.2 := by
  intro db op tie
  have d : Doomed db tie op.bucketName op.filename ⟨⟨0⟩, "bucket", some ⟨0, 0, 10⟩⟩
      ⟨⟨1⟩, ⟨0⟩, "meow", 16384, some 15, 0⟩ [109] :=
    ⟨(serveRequest_linked (Db.linked_created 0 "bucket" _) _).tick 16, rfl, by decide, by decide,
      by decide, by decide⟩
  exact expiry_before_or_after_iff d trivial trivial 8

end LocallyEuclidean.Server
