import LocallyEuclidean.Server.Sequential

/-! Whole runs of uploads and downloads, one request at a time. -/

namespace LocallyEuclidean.Server
open Interact Postgres Storage

/-- The answer a client gets where the archive answers `expected`; a download has the
content's length, and all of its bytes if the client goes on to the end. -/
def Answered (op : Op) (x : Answer) (expected : StatusCode × Option Bytes) : Prop :=
  status x = some expected.1 ∧
    match op, expected.2 with
    | .get _ _ rooms, some c => ∃ r, x = .ok (some r) ∧ r.contentLength = c.length ∧
        r.body.flatten <+: c ∧ (r.bodyEnd = .eof → r.body.flatten = c) ∧
        (c.length < rooms.length → r.bodyEnd = .eof)
    | _, _ => True

theorem answered_of_cut {op : Op} {x : Answer} {expected : StatusCode × Option Bytes}
    (h : seen x = some (op.cut expected)) : Answered op x expected := by
  have hstatus := status_eq_seen x
  rw [h] at hstatus
  obtain ⟨answer, content⟩ := expected
  cases op with
  | put | post => exact ⟨hstatus, trivial⟩
  | get b f rooms =>
    refine ⟨hstatus, ?_⟩
    cases content with
    | none => trivial
    | some c =>
      cases x with
      | ok r =>
        obtain ⟨r, rfl, hr⟩ : ∃ r', r = some r' ∧
            (r'.contentLength, r'.body, r'.bodyEnd) = (c.length, download c 0 rooms) := by
          simpa [seen, Op.cut] using (Prod.mk.inj (Option.some.inj h)).2
        obtain ⟨hl, hd⟩ := Prod.mk.inj hr
        have hb : r.body = (download c 0 rooms).1 := congrArg Prod.fst hd
        have he : r.bodyEnd = (download c 0 rooms).2 := congrArg Prod.snd hd
        refine ⟨r, rfl, hl, ?_, fun heof => ?_, fun hrooms => ?_⟩
        · rw [hb]
          exact download_isPrefix c 0 rooms
        · rw [hb]
          exact download_eof (he ▸ heof)
        · rw [he]
          exact download_complete (Nat.zero_le _) (by omega)
      | err | panic | dropped => simp [seen, Op.cut] at h

/-! PUT and GET alone. -/

def Op.isPost : Op → Bool
  | .post _ _ _ _ => true
  | _ => false

namespace Archive

/-- Without appends nothing that is stored changes. -/
theorem serve_keeps {a : Archive UInt8} {op : Op} (hk : op.isPost = false) {b f : String}
    {c : Bytes} (hc : a.files b f = some c) : (a.serve op).2.files b f = some c := by
  cases op with
  | post => cases hk
  | get => exact hc
  | put b' f' parts now =>
    simp only [serve, put]
    split
    · split
      · rename_i hn
        simp only [store]
        rw [if_neg]
        · exact hc
        · rintro ⟨rfl, rfl⟩
          rw [hc] at hn
          cases hn
      · exact hc
    · exact hc

end Archive

/-- PUT and GET implement a write-once map. -/
theorem put_get_write_once {db : Db} (h : db.Linked) {ops : List Op}
    (hf : ∀ op ∈ ops, op.Fits db.buckets) (hk : ∀ op ∈ ops, op.isPost = false) :
    (archive db).Runs Answered ops (serveAll db (ops.map Op.request)).1
        (archive (serveAll db (ops.map Op.request)).2) ∧
      ∀ b f c, db.content b f = some c →
        (serveAll db (ops.map Op.request)).2.content b f = some c := by
  have hr := (serveAll_runs h hf).1
  refine ⟨hr.imp fun op x expected => answered_of_cut, fun b f c hc => ?_⟩
  exact hr.preserves (I := fun a => a.files b f = some c)
    (fun op ho a => Archive.serve_keeps (hk op ho)) hc

theorem put_get_write_once_meow :
    let db := Db.created 0 "bucket" none
    let ops : List Op := [.put "bucket" "meow" [[109], [], [101, 111]] 0,
      .put "bucket" "meow" [[109, 101]] 0, .get "bucket" "meow" [2, 2]]
    (archive db).Runs Answered ops (serveAll db (ops.map Op.request)).1
        (archive (serveAll db (ops.map Op.request)).2) ∧
      ∀ b f c, db.content b f = some c →
        (serveAll db (ops.map Op.request)).2.content b f = some c := by
  refine put_get_write_once (Db.linked_created 0 "bucket" none) ?_ (by decide)
  simp only [List.forall_mem_cons]
  exact ⟨put_fits (by decide) (by decide) 0, put_fits (by decide) (by decide) 0, trivial, by simp⟩

/-! Uploads in parts. -/

/-- The appends of an upload's later parts, each at the end of the earlier ones. -/
def appendOps (bucketName filename : String) : ℕ → List (List Bytes) → List Op
  | _, [] => []
  | writeOffset, part :: parts =>
    .post bucketName filename writeOffset part ::
      appendOps bucketName filename (writeOffset + part.flatten.length) parts

/-- The upload of a file in parts, each cut into frames. -/
def multipart (bucketName filename : String) (now : DateTime) (part : List Bytes)
    (parts : List (List Bytes)) : List Op :=
  .put bucketName filename part now :: appendOps bucketName filename part.flatten.length parts

/-- Every request succeeds, and a download afterwards gets exactly `d`. -/
def Delivers (db : Db) (ops : List Op) (bucketName filename : String) (d : Bytes) : Prop :=
  (∀ x ∈ (serveAll db (ops.map Op.request)).1, status x = some .ok) ∧
    ∀ rooms, Answered (.get bucketName filename rooms)
      (serveRequest (serveAll db (ops.map Op.request)).2 (.get bucketName filename rooms)).1
      (.ok, some d)

/-- An upload in parts arrives if and only if it is one part: the next part starts at
the end of the file, where it is taken for a replay of what is there. -/
theorem multipart_delivers_iff {db : Db} (h : db.Linked) {bucketName filename : String}
    {b : BucketRow} (hb : db.findBucket bucketName = some b)
    (absent : db.content bucketName filename = none) {now : DateTime}
    (hd : ∃ deleteAfter, Deadline b now deleteAfter) {part : List Bytes}
    {parts : List (List Bytes)} (nonempty : ∀ p ∈ part :: parts, p.flatten ≠ [])
    (fits : (part :: parts).flatten.flatten.length ≤ maxObjectSize) :
    Delivers db (multipart bucketName filename now part parts) bucketName filename
      (part :: parts).flatten.flatten ↔ parts = [] := by
  have hbucket : (archive db).buckets bucketName = true := by simp [archive, hb]
  have hl : part.flatten.length ≤ maxObjectSize := by
    refine le_trans ?_ fits
    simp
  obtain ⟨hs, ha, -⟩ := serve_refines h (.put bucketName filename part now)
    (put_fits_of_find h hb hl hd)
  have hl₁ := serveRequest_linked h (Op.put bucketName filename part now).request
  rw [Archive.serve, Archive.put_absent hbucket absent] at hs ha
  simp only [Delivers, multipart, List.map_cons, serveAll]
  generalize serveRequest db (Op.put bucketName filename part now).request = r at hs ha hl₁ ⊢
  obtain ⟨x₁, db₁⟩ := r
  have hbucket₁ : (archive db₁).buckets bucketName = true := by rw [ha]; exact hbucket
  have hstored : (archive db₁).files bucketName filename = some part.flatten := by
    rw [ha]
    exact Archive.store_files_self ..
  cases parts with
  | nil =>
    refine iff_of_true ⟨?_, fun rooms => answered_of_cut ?_⟩ rfl
    · intro x hx
      obtain rfl := List.mem_singleton.mp hx
      exact (status_eq_seen _).trans (congrArg _ hs)
    · have hg := (serve_refines hl₁ (.get bucketName filename rooms) trivial).1
      rw [Archive.serve, Archive.get_present hbucket₁ hstored] at hg
      rw [List.flatten_singleton]
      exact hg
  | cons q qs =>
    refine iff_of_false (fun hdel => ?_) (by simp)
    have hp := (serve_refines hl₁ (.post bucketName filename part.flatten.length q) trivial).1
    rw [Archive.serve, Archive.post_present hbucket₁ hstored, appendAt_check le_rfl,
      List.drop_length, if_neg (nonempty q (by simp)).symm] at hp
    simp only [appendOps, List.map_cons, serveAll] at hdel
    have hok : status (serveRequest db₁ (Op.post bucketName filename part.flatten.length q).request).1
        = some .ok := hdel.1 _ (List.mem_cons_of_mem _ List.mem_cons_self)
    rw [status_eq_seen, hp] at hok
    cases hok

/-- A file of four bytes in two parts. -/
theorem multipart_conflict :
    ¬ Delivers (.created 0 "bucket" none)
      (multipart "bucket" "meow" 0 [[109], [101]] [[[111, 119]]]) "bucket" "meow"
      [109, 101, 111, 119] :=
  fun h => absurd h.1 (by decide)

theorem multipart_delivers_iff_meow :
    Delivers (.created 0 "bucket" none) (multipart "bucket" "meow" 0 [[109, 101], [111, 119]] [])
      "bucket" "meow" [109, 101, 111, 119] ↔ ([] : List (List Bytes)) = [] :=
  multipart_delivers_iff (Db.linked_created 0 "bucket" none) rfl rfl ⟨none, rfl, rfl⟩
    (by decide) (by decide)

/-! Appends where the client said. -/

/-- What an answer to an append of `d` at `writeOffset` of the content `c` tells of the
content `c'` afterwards: success that `d` is there and nothing before it has changed; and a
place that is neither the end nor one where `d` is already is a conflict. -/
def StoredAt (c : Bytes) (writeOffset : ℕ) (d : Bytes) (answer : StatusCode) (c' : Bytes) : Prop :=
  (answer = .ok → c <+: c' ∧ window c' writeOffset d.length = d) ∧
    (d ≠ [] → writeOffset ≠ c.length → window c writeOffset d.length ≠ d →
      answer = .conflict ∧ c' = c)

theorem storedAt_appendAt {limit writeOffset : ℕ} {c d : Bytes} (hc : c.length ≤ limit) :
    StoredAt c writeOffset d (appendAt limit c writeOffset d).1 (appendAt limit c writeOffset d).2 ↔
      writeOffset ≤ c.length ∨ d = [] := by
  rcases le_or_gt writeOffset c.length with ho | ho
  · refine iff_of_true ?_ (.inl ho)
    rw [appendAt_check ho]
    by_cases hd : c.drop writeOffset = d
    · have hw : window c writeOffset d.length = d := by
        rw [window, hd, List.take_length]
      exact ⟨fun _ => ⟨List.prefix_refl c, hw⟩, fun _ _ hn => absurd hw hn⟩
    · simp only [if_neg hd]
      exact ⟨fun h => (by cases h), fun _ _ _ => ⟨rfl, rfl⟩⟩
  · by_cases hd : d = []
    · subst hd
      rw [appendAt_past ho (by simpa using hc)]
      exact iff_of_true ⟨fun _ => ⟨by simp, by simp [window]⟩, fun h => absurd rfl h⟩ (.inr rfl)
    · have hlen := List.length_pos_of_ne_nil hd
      have there {v : Bytes} (hv : v.length < writeOffset + d.length) :
          window v writeOffset d.length ≠ d := by
        intro h
        have := length_window v writeOffset d.length
        rw [h] at this
        omega
      refine iff_of_false (fun h => ?_) (by simp [hd, ho])
      rcases le_or_gt (c.length + d.length) limit with hfit | hbig
      · -- Past the end the bytes go to the end, which is somewhere else.
        rw [appendAt_past ho hfit] at h
        exact there (by rw [List.length_append]; omega) (h.1 rfl).2
      · rw [appendAt_full ho hbig] at h
        cases (h.2 hd (by omega) (there (by omega))).1

/-- An append's answer can be relied on if and only if its offset is not past the end of
the file, or it has no bytes. -/
theorem append_stored_iff {db : Db} (h : db.Linked) {bucketName filename : String}
    {b : BucketRow} (hb : db.findBucket bucketName = some b) {c : Bytes}
    (hc : db.content bucketName filename = some c) (writeOffset : ℕ) (parts : List Bytes) :
    let r := serveRequest db (Op.post bucketName filename writeOffset parts).request
    (∃ answer c', status r.1 = some answer ∧ r.2.content bucketName filename = some c' ∧
        StoredAt c writeOffset parts.flatten answer c') ↔
      writeOffset ≤ c.length ∨ parts.flatten = [] := by
  intro r
  obtain ⟨hs, ha, -⟩ := serve_refines h (.post bucketName filename writeOffset parts) trivial
  have hbucket : (archive db).buckets bucketName = true := by simp [archive, hb]
  rw [Archive.serve, Archive.post_present hbucket hc] at hs ha
  have hstatus : status r.1 = some (appendAt maxObjectSize c writeOffset parts.flatten).1 :=
    (status_eq_seen _).trans (congrArg _ hs)
  have hcontent : r.2.content bucketName filename =
      some (appendAt maxObjectSize c writeOffset parts.flatten).2 :=
    (congrArg (fun a => a.files bucketName filename) ha).trans (Archive.store_files_self ..)
  rw [← storedAt_appendAt (h.length_content_le hc)]
  constructor
  · rintro ⟨answer, c', ha', hc', hstored⟩
    rw [hstatus] at ha'
    rw [hcontent] at hc'
    rwa [Option.some.inj ha', Option.some.inj hc']
  · exact fun hstored => ⟨_, _, hstatus, hcontent, hstored⟩

/-- An append two bytes past the end: its bytes are acknowledged at offset 7 and stored at 5. -/
theorem append_stored_elsewhere :
    let db := (serveAll (.created 0 "bucket" none)
      [(Op.put "bucket" "meow" [[109, 101, 111, 119, 33]] 0).request]).2
    let r := serveRequest db (Op.post "bucket" "meow" 7 [[109, 101, 111, 119, 33]]).request
    status r.1 = some .ok ∧ ∃ c', r.2.content "bucket" "meow" = some c' ∧
      ¬ StoredAt [109, 101, 111, 119, 33] 7 [109, 101, 111, 119, 33] .ok c' := by
  intro db r
  have hc : r.2.content "bucket" "meow" =
      some [109, 101, 111, 119, 33, 109, 101, 111, 119, 33] := by decide
  exact ⟨by decide, _, hc, fun h => absurd (h.1 rfl).2 (by decide)⟩

theorem append_stored_iff_meow :
    let db := (serveAll (.created 0 "bucket" none)
      [(Op.put "bucket" "meow" [[109, 101, 111, 119, 33]] 0).request]).2
    let r := serveRequest db (Op.post "bucket" "meow" 3 [[119], [33]]).request
    (∃ answer c', status r.1 = some answer ∧ r.2.content "bucket" "meow" = some c' ∧
        StoredAt [109, 101, 111, 119, 33] 3 [119, 33] answer c') ↔
      3 ≤ [109, 101, 111, 119, 33].length ∨ [119, 33] = ([] : Bytes) := by
  intro db
  have hl : db.Linked := serveRequest_linked (Db.linked_created 0 "bucket" none)
    (Op.put "bucket" "meow" [[109, 101, 111, 119, 33]] 0).request
  exact append_stored_iff hl (b := ⟨⟨0⟩, "bucket", none⟩) (by decide) (by decide) 3 [[119], [33]]

/-! Appends sent again. -/

/-- An acknowledged append that is sent again later in the run succeeds and changes
nothing if and only if it is replayable: `c` is the content it was first sent to, `w`
what has been appended since it was acknowledged. Its body may be cut otherwise. -/
theorem replay_harmless_iff {db : Db} (h : db.Linked) (before after : List Op)
    (hf : ∀ op ∈ before ++ after, op.Fits db.buckets) (bucketName filename : String)
    (writeOffset : ℕ) (parts parts' : List Bytes) (same : parts'.flatten = parts.flatten) :
    let db₀ := (serveAll db (before.map Op.request)).2
    let first := serveRequest db₀ (Op.post bucketName filename writeOffset parts).request
    let db₂ := (serveAll first.2 (after.map Op.request)).2
    let again := serveRequest db₂ (Op.post bucketName filename writeOffset parts').request
    status first.1 = some .ok →
      ∃ c w, db₀.content bucketName filename = some c ∧
        first.2.content bucketName filename =
          some (appendAt maxObjectSize c writeOffset parts.flatten).2 ∧
        db₂.content bucketName filename =
          some ((appendAt maxObjectSize c writeOffset parts.flatten).2 ++ w) ∧
        (status again.1 = some .ok ∧
            again.2.content bucketName filename = db₂.content bucketName filename ↔
          Replayable c writeOffset parts.flatten w) := by
  intro db₀ first db₂ again hok
  obtain ⟨-, hl₀, hb₀⟩ := serveAll_runs h fun op ho => hf op (List.mem_append_left _ ho)
  obtain ⟨hs₁, ha₁, hb₁⟩ := serve_refines hl₀ (.post bucketName filename writeOffset parts) trivial
  have hl₁ := serveRequest_linked hl₀ (Op.post bucketName filename writeOffset parts).request
  obtain ⟨hr₂, hl₂, -⟩ := serveAll_runs hl₁ fun op ho =>
    (hb₁.trans hb₀).symm ▸ hf op (List.mem_append_right _ ho)
  obtain ⟨hs₃, ha₃, -⟩ := serve_refines hl₂ (.post bucketName filename writeOffset parts') trivial
  rw [status_eq_seen, hs₁] at hok
  obtain ⟨hbucket, c, hc, hfirst⟩ := Archive.post_ok (Option.some.inj hok)
  rw [Archive.serve, Archive.post_present hbucket hc] at ha₁
  have hc₁ : (archive first.2).files bucketName filename =
      some (appendAt maxObjectSize c writeOffset parts.flatten).2 := by
    rw [ha₁]
    exact Archive.store_files_self ..
  obtain ⟨hbuckets, hgrown⟩ := hr₂.extends
  obtain ⟨c₂, hc₂, w, rfl⟩ := hgrown _ _ _ hc₁
  have hbucket₂ : (archive db₂).buckets bucketName = true := by
    rw [show (archive db₂).buckets = _ from hbuckets, ha₁]
    exact hbucket
  rw [Archive.serve, Archive.post_present hbucket₂ hc₂, same] at hs₃ ha₃
  refine ⟨c, w, hc, hc₁, hc₂, ?_⟩
  rw [← appendAt_replay hfirst (hl₂.length_content_le hc₂)]
  have hstatus : status again.1 = some (appendAt maxObjectSize
      ((appendAt maxObjectSize c writeOffset parts.flatten).2 ++ w) writeOffset parts.flatten).1 :=
    (status_eq_seen _).trans (congrArg _ hs₃)
  have hcontent : again.2.content bucketName filename = some (appendAt maxObjectSize
      ((appendAt maxObjectSize c writeOffset parts.flatten).2 ++ w) writeOffset parts.flatten).2 := by
    rw [show again.2.content bucketName filename = (archive again.2).files bucketName filename from rfl,
      ha₃]
    exact Archive.store_files_self ..
  rw [hstatus, hcontent, show db₂.content bucketName filename = _ from hc₂, Option.some.injEq,
    Option.some.injEq, Prod.ext_iff]

/-- The requests of the e2e test, and then the append once more. -/
theorem replay_conflict :
    let append := (Op.post "bucket" "meow" 6 [[109, 101, 111, 119, 33]]).request
    let db₀ := (serveAll (.created 0 "bucket" none)
      [(Op.put "bucket" "meow" [[109, 101, 111, 119, 33]] 0).request]).2
    let first := serveRequest db₀ append
    status first.1 = some .ok ∧
      ¬ (status (serveRequest first.2 append).1 = some .ok ∧
        (serveRequest first.2 append).2.content "bucket" "meow" =
          first.2.content "bucket" "meow") := by
  decide

theorem replay_harmless_iff_meow :
    let db₀ := (serveAll (.created 0 "bucket" none)
      [(Op.put "bucket" "meow" [[109, 101, 111, 119, 33]] 0).request]).2
    let first := serveRequest db₀ (Op.post "bucket" "meow" 6 [[109, 101, 111, 119, 33]]).request
    let again := serveRequest first.2 (Op.post "bucket" "meow" 6 [[109, 101], [111, 119, 33]]).request
    ∃ c w, db₀.content "bucket" "meow" = some c ∧
      first.2.content "bucket" "meow" =
        some (appendAt maxObjectSize c 6 [109, 101, 111, 119, 33]).2 ∧
      first.2.content "bucket" "meow" =
        some ((appendAt maxObjectSize c 6 [109, 101, 111, 119, 33]).2 ++ w) ∧
      (status again.1 = some .ok ∧
          again.2.content "bucket" "meow" = first.2.content "bucket" "meow" ↔
        Replayable c 6 [109, 101, 111, 119, 33] w) := by
  refine replay_harmless_iff (Db.linked_created 0 "bucket" none)
    [.put "bucket" "meow" [[109, 101, 111, 119, 33]] 0] [] ?_ "bucket" "meow" 6
    [[109, 101, 111, 119, 33]] [[109, 101], [111, 119, 33]] (by decide) (by decide)
  simp only [List.append_nil, List.forall_mem_cons]
  exact ⟨put_fits (by decide) (by decide) 0, by simp⟩

end LocallyEuclidean.Server
