import LocallyEuclidean.Server.Correspondence
import LocallyEuclidean.Server.Faults

/-! What a file reports as its last modification, beside the transactions that
really changed its bytes, in any interleaving of requests. -/

namespace LocallyEuclidean.Server
open Interact Postgres Storage

variable {ε α : Type}

/-! A request opens a blob in a transaction that began after it had learnt of the blob. -/

/-- The answer names the blob of a row. -/
def names : (q : Query) → q.Reply → Oid → Prop
  | .fileByName _ _, .ok (some (_, oid)), o => o = oid
  | .insertFile _ _ _, .ok (_, oid), o => o = oid
  | _, _, _ => False

/-- The blobs that the answers so far have named. -/
def known (h : History Query.Reply) (o : Oid) : Prop := ∃ x ∈ h, names x.1 x.2 o

/-- The blobs that were known when the last transaction began. -/
def knownAtBegin : History Query.Reply → Oid → Prop
  | [], _ => False
  | ⟨.beginTx, _⟩ :: h, o => known h o
  | _ :: h, o => knownAtBegin h o

def Informed (h : History Query.Reply) : Query → Prop
  | .loOpen oid _ => knownAtBegin h oid
  | .insertBucket _ _ | .deleteOldFilesBatch _ => False
  | _ => True

/-- A program that keeps to this, whatever it is answered. -/
def Follows (p : DbProg ε α) : Prop :=
  ∀ h, (guarded Informed fun _ _ => True).wp p (fun _ _ => True) h

namespace Follows

theorem of_uses {p : DbProg ε α} (hp : p.Uses fun q => ∀ h, Informed h q) : Follows p := fun _ =>
  Logic.wp_of_uses (guarded Informed fun _ _ => True) (I := fun _ => True)
    (fun _ h hq _ => ⟨hq h, fun _ _ => trivial⟩) hp trivial

theorem bind {β : Type} {p : DbProg ε α} {f : α → DbProg ε β} (hp : Follows p)
    (hf : ∀ a, Follows (f a)) : Follows (p.bind f) := by
  refine fun h => (Logic.wp_bind ..).mpr (Logic.wp_mono (fun o h' _ => ?_) (hp h))
  cases o with
  | ok a => exact hf a h'
  | err | panic | dropped => trivial

theorem mapErr {ε' : Type} {p : DbProg ε α} (hp : Follows p) (f : ε → ε') : Follows (p.mapErr f) :=
  fun h => (Logic.wp_mapErr ..).mpr (hp h)

theorem attempt {ε' : Type} {p : DbProg ε α} (hp : Follows p) :
    Follows (p.attempt : DbProg ε' _) :=
  fun h => (Logic.wp_attempt ..).mpr (hp h)

theorem ret (a : α) : Follows (.ret a : DbProg ε α) := fun _ => trivial

theorem err (e : ε) : Follows (.err e : DbProg ε α) := fun _ => trivial

theorem onHandle {p : DbProg ε α} (hp : OnHandle p) : Follows p := by
  refine of_uses (hp.mono fun q hq h => ?_)
  cases q <;> trivial

end Follows

/-- A handle on a blob that is known. -/
theorem new_follows {oid : Oid} (id : FileId) {h : History Query.Reply} (hk : known h oid) :
    (guarded Informed fun _ _ => True).wp (PostgresFileHandle.new oid id) (fun _ _ => True) h := by
  simp only [PostgresFileHandle.new, BlobHandle.open, BlobHandleInner.open, Prog.bind_eq,
    Logic.wp_bind]
  refine wp_fetch ⟨trivial, fun a _ => ?_⟩
  cases a with
  | error e => trivial
  | ok =>
    refine (Logic.wp_bind ..).mpr (wp_fetch ⟨hk, fun a _ => ?_⟩)
    obtain e | _ | fd := a <;> trivial

theorem file_follows (b : PostgresBucket) (fileName : String) : Follows (b.file fileName) := by
  intro h
  simp only [PostgresBucket.file, Prog.bind_eq, Logic.wp_bind]
  refine wp_fetch ⟨trivial, fun a _ => ?_⟩
  match a with
  | .error e | .ok none => trivial
  | .ok (some (id, oid)) => exact (Logic.wp_mapErr ..).mpr (new_follows id ⟨_, List.mem_cons_self, rfl⟩)

theorem createFile_follows (b : PostgresBucket) (fileName : String) (now : DateTime) :
    Follows (b.createFile fileName now) := by
  obtain ⟨deleteAfter, hd⟩ | hm := b.deleteAfter_cases now
  · intro h
    simp only [PostgresBucket.createFile, hd, Prog.bind_eq, Prog.bind, Logic.wp_bind]
    refine ⟨trivial, fun a _ => ?_⟩
    obtain e | ⟨id, oid⟩ := a
    · cases e <;> trivial
    · exact (Logic.wp_mapErr ..).mpr (new_follows id ⟨_, List.mem_cons_self, rfl⟩)
  · intro h
    rw [PostgresBucket.createFile, hm]
    trivial

theorem bucket_follows (name : String) : Follows (PostgresBackend.bucket name) :=
  .of_uses (PostgresBackend.bucket_uses fun _ => trivial)

theorem upload_follows (file : PostgresFileHandle) (request : DataStream) :
    Follows (do
      (appendFrames file request).mapErr .internalError
      file.commit.mapErr .internalError : DbProg ApiError Unit) :=
  .bind (.mapErr (.onHandle (appendFrames_onHandle file request)) _) fun _ =>
    .mapErr (.of_uses (file.commit_uses (fun _ _ => trivial) fun _ => trivial)) _

theorem check_follows (stream : DataStream) (start : ℕ) (file : BlobHandle) :
    Follows (checkRangeMatches stream start file) :=
  .onHandle (checkRangeMatches_onHandle stream start file)

theorem put_follows (bucketName filename : String) (request : DataStream) (now : DateTime) :
    Follows (putWriteFilename bucketName filename request now) := by
  refine .bind (.mapErr (bucket_follows bucketName) _) fun bucket =>
    .bind (.attempt (createFile_follows bucket filename now)) fun created => ?_
  match created with
  | .ok file => exact upload_follows file request
  | .error .fileExists =>
    refine .bind (.mapErr (file_follows bucket filename) _) fun file =>
      .bind (.mapErr (check_follows request 0 file.blob) _) fun v => ?_
    cases v
    · exact .ret ()
    · exact .err _
    · exact .err _
  | .error .invalidName | .error (.otherError e) => exact .err _

theorem post_follows (bucketName filename : String) (writeOffset : ℕ) (request : DataStream) :
    Follows (postAppendFilename bucketName filename writeOffset request) := by
  refine .bind (.mapErr (bucket_follows bucketName) _) fun bucket =>
    .bind (.mapErr (file_follows bucket filename) _) fun file =>
    .bind (.mapErr (.onHandle (file.blob.seek_onHandle _)) _) fun size => ?_
  split
  · refine .bind (.mapErr (check_follows request writeOffset file.blob) _) fun v => ?_
    cases v
    · exact .ret ()
    · exact .err _
    · exact .err _
  · exact upload_follows file request

theorem get_follows (bucketName filename : String) (rooms : List ℕ+) :
    Follows (getExplore bucketName filename rooms) :=
  .bind (.mapErr (bucket_follows bucketName) _) fun bucket =>
    .bind (.mapErr (file_follows bucket filename) _) fun file =>
    .bind (.mapErr (.onHandle (file.blob.seek_onHandle _)) _) fun _ =>
    .bind (.mapErr (.onHandle (file.blob.seek_onHandle _)) _) fun _ =>
    .bind (.mapErr (.onHandle file.metadata_onHandle) _) fun _ =>
    .bind (.onHandle (readerStream_onHandle file.blob rooms)) fun _ => .ret _

theorem handler_follows (r : Request) : Follows r.handler := by
  cases r with
  | put b f body now => exact .bind (put_follows b f body now) fun _ => .ret _
  | post b f writeOffset body => exact .bind (post_follows b f writeOffset body) fun _ => .ret _
  | get b f rooms => exact .bind (get_follows b f rooms) fun _ => .ret _

/-! What is known only grows, and a blob is known once it is there. -/

def Query.begins : Query → Bool
  | .beginTx => true
  | _ => false

theorem known_cons {q : Query} {a : q.Reply} {h : History Query.Reply} {o : Oid} :
    known (⟨q, a⟩ :: h) o ↔ names q a o ∨ known h o := by
  simp [known]

theorem knownAtBegin_cons {q : Query} (hq : Query.begins q = false) (a : q.Reply)
    (h : History Query.Reply) : knownAtBegin (⟨q, a⟩ :: h) = knownAtBegin h := by
  cases q with
  | beginTx => cases hq
  | _ => rfl

theorem known_of_begin {h : History Query.Reply} {o : Oid} (hk : knownAtBegin h o) : known h o := by
  induction h with
  | nil => exact hk.elim
  | cons x h ih =>
    obtain ⟨q, a⟩ := x
    refine known_cons.mpr (.inr ?_)
    cases hq : Query.begins q with
    | false => exact ih (by rwa [knownAtBegin_cons hq] at hk)
    | true => cases q <;> first | exact hk | cases hq

/-- What an informed statement can make of the database: nothing, a new row, or a commit
to blobs that were known when the transaction began. -/
inductive Made (h : History Query.Reply) (q : Query) (db db' : Db) : Prop where
  | same (he : db' = db)
  | file {bucket : BucketId} {filename : String} {deleteAfter : Option Timestamp} {row : FileRow}
      (hq : Query.inTx q = false) (hr : db.insertFile bucket filename deleteAfter = .ok (row, db'))
  | commit (hq : Query.inTx q = true) (buckets : db'.buckets = db.buckets)
      (files : db'.files = db.files) (nextOid : db'.nextOid = db.nextOid)
      (known : ∀ oid, ¬ knownAtBegin h oid → db'.objects oid = db.objects oid)
      (grown : ∀ oid, db'.objects oid = some [] → db.objects oid = some [])

/-- One informed statement: what it makes of the database and of the transaction, and
what it tells. -/
theorem serve_informed {h : History Query.Reply} {q : Query} (hq : Informed h q) {s s' : Session}
    {a : q.Reply} (hs : s.serve (fun _ => false) q = some (a, s')) (linked : s.db.Linked)
    (within : s.conn.Within (knownAtBegin h)) :
    Made h q s.db s'.db ∧ s'.conn.Within (knownAtBegin (⟨q, a⟩ :: h)) ∧
      ∀ o, names q a o → o < s'.db.nextOid := by
  have quiet : q.Within (knownAtBegin h) → Query.begins q = false → (∀ o, ¬ names q a o) →
      Made h q s.db s'.db ∧ s'.conn.Within (knownAtBegin (⟨q, a⟩ :: h)) ∧
        ∀ o, names q a o → o < s'.db.nextOid := fun hw hb hn => by
    obtain ⟨hd, hc⟩ := Session.serve_within hw hs within
    rw [knownAtBegin_cons hb]
    exact ⟨.same hd, hc, fun o ho => (hn o ho).elim⟩
  cases q with
  | insertBucket | deleteOldFilesBatch => exact hq.elim
  | bucketByName | listBuckets | loLseek64 | loRead | loWrite | loClose | updatedAt =>
    exact quiet trivial rfl fun _ => id
  | loOpen oid mode => exact quiet hq rfl fun _ => id
  | fileByName bucket filename =>
    obtain ⟨rfl, rfl⟩ := Prod.mk.inj (Option.some.inj hs)
    refine ⟨.same rfl, within, fun o ho => ?_⟩
    cases hf : s.db.findFile bucket filename with
    | none =>
      rw [hf] at ho
      exact ho.elim
    | some f =>
      rw [hf] at ho
      obtain rfl : o = f.blob := ho
      exact linked.oidsUsed _ (linked.hasBlob f (Db.findFile_some hf).1)
  | beginTx =>
    obtain ⟨rfl, rfl⟩ := Prod.mk.inj (Option.some.inj hs)
    exact ⟨.same rfl, ⟨by simp, by simp⟩, fun _ => False.elim⟩
  | insertFile bucket filename deleteAfter =>
    cases hr : s.db.insertFile bucket filename deleteAfter with
    | error e =>
      obtain ⟨rfl, rfl⟩ : .error e = a ∧ s = s' := by
        simpa [Session.serve, Session.onPool, hr, Except.map] using hs
      exact ⟨.same rfl, within, fun _ => False.elim⟩
    | ok x =>
      obtain ⟨row, db'⟩ := x
      obtain ⟨rfl, rfl⟩ : .ok (row.id, row.blob) = a ∧ { s with db := db' } = s' := by
        simpa [Session.serve, Session.onPool, hr, Except.map] using hs
      refine ⟨.file rfl hr, within, fun o ho => ?_⟩
      obtain rfl : o = row.blob := ho
      obtain ⟨-, -, rfl, rfl⟩ := Db.insertFile_ok hr
      exact Nat.lt_succ_self _
  | commitTx =>
    have hs : s.commit = (a, s') := Option.some.inj hs
    obtain ⟨hb, hf, ho⟩ := Session.commit_within hs within
    have effect : s'.db.nextOid = s.db.nextOid ∧ s'.conn.Within (knownAtBegin h) ∧
        ∀ oid, s'.db.objects oid = some [] → s.db.objects oid = some [] := by
      unfold Session.commit at hs
      split at hs <;> obtain ⟨-, rfl⟩ := Prod.mk.inj hs
      · rename_i tx _ _
        refine ⟨rfl, trivial, fun oid hc => ?_⟩
        obtain ⟨c, hc, he⟩ := Option.map_eq_some_iff.mp hc
        have hle := length_le_applyAll tx.writes oid c
        rw [hc, List.eq_nil_of_length_eq_zero (Nat.le_zero.mp (hle.trans_eq (congrArg _ he)))]
      · exact ⟨rfl, trivial, fun _ hc => hc⟩
      · exact ⟨rfl, within, fun _ hc => hc⟩
    exact ⟨.commit rfl hb hf effect.1 ho effect.2.2, effect.2.1, fun _ => False.elim⟩

/-! The row of a file stays, and keeps the time of its insertion. -/

/-- The row of a file named by its bucket's name and its own. -/
def fileRow (db : Db) (bucketName filename : String) : Option FileRow := do
  let b ← db.findBucket bucketName
  db.findFile b.id filename

theorem content_eq_fileRow (db : Db) (bucketName filename : String) :
    db.content bucketName filename =
      (fileRow db bucketName filename).bind fun f => db.objects f.blob := by
  simp [Db.content, fileRow, Option.bind_assoc]

section Rows

variable {db db' : Db} {bucketName filename : String} {f : FileRow}

theorem fileRow_congr (hb : db'.buckets = db.buckets) (hf : db'.files = db.files) :
    fileRow db' bucketName filename = fileRow db bucketName filename := by
  simp only [fileRow, Db.findBucket, Db.findFile, hb, hf]

theorem mem_of_fileRow (hf : fileRow db bucketName filename = some f) : f ∈ db.files := by
  obtain ⟨b, -, hf⟩ := Option.bind_eq_some_iff.mp hf
  exact (Db.findFile_some hf).1

/-- A row is there already, or it is the one that has just been inserted. -/
theorem fileRow_insertFile {bucket : BucketId} {name : String} {deleteAfter : Option Timestamp}
    {row : FileRow} (hr : db.insertFile bucket name deleteAfter = .ok (row, db')) :
    fileRow db' bucketName filename = fileRow db bucketName filename ∨
      fileRow db bucketName filename = none ∧ fileRow db' bucketName filename = some row := by
  obtain ⟨-, -, -, hdb⟩ := Db.insertFile_ok hr
  have hbucket : db'.findBucket bucketName = db.findBucket bucketName := by rw [hdb]; rfl
  simp only [fileRow, hbucket]
  cases db.findBucket bucketName with
  | none => exact .inl rfl
  | some b =>
    have hfile : db'.findFile b.id filename = (db.findFile b.id filename).or
        ([row].find? fun f => f.bucketId = b.id ∧ f.filename = filename) := by
      rw [hdb, Db.findFile, List.find?_append, Db.findFile]
    simp only [Option.bind_eq_bind, Option.bind_some, hfile, List.find?_singleton]
    cases db.findFile b.id filename with
    | some f => exact .inl rfl
    | none =>
      rw [Option.none_or]
      split
      · exact .inr ⟨rfl, rfl⟩
      · exact .inl rfl

/-- No request removes or changes a row. -/
theorem Made.row_stays {h : History Query.Reply} {q : Query} (hm : Made h q db db')
    (hf : fileRow db bucketName filename = some f) : fileRow db' bucketName filename = some f := by
  cases hm with
  | same he => rwa [he]
  | file _ hr =>
    obtain he | ⟨hn, -⟩ := @fileRow_insertFile db db' bucketName filename _ _ _ _ hr
    · rwa [he]
    · rw [hf] at hn
      cases hn
  | commit _ hb hfiles => rwa [fileRow_congr hb hfiles]

end Rows

/-! Transactions, and the last one that changed the bytes. -/

section Stamps

variable {n : ℕ} (bucketName filename : String)

/-- When a transaction starts at this action: a statement on the pool is one of its own. -/
def starts (a : Action n Timestamp) (p : Pool n) : List Timestamp :=
  match a with
  | .env _ => []
  | .step i =>
    match p.progs i with
    | .call q _ => if Query.inTx q then [] else [p.shared.db.clock]
    | _ => []

/-- When the transactions of a run start. -/
def allStarts : List (Action n Timestamp) → Pool n → List Timestamp
  | [], _ => []
  | a :: as, p =>
    starts a p ++
      match (machine n).act a p with
      | some p' => allStarts as p'
      | none => []

/-- When each client's open transaction has begun, and when the last transaction that has
changed the file's bytes. -/
structure Stamps (n : ℕ) where
  begun : Fin n → Timestamp
  changed : Option Timestamp

/-- The action `a` has led from `p` to `p'`. -/
def Stamps.after (st : Stamps n) (a : Action n Timestamp) (p p' : Pool n) : Stamps n :=
  match a with
  | .env _ => st
  | .step i =>
    match p.progs i with
    | .call q _ =>
      { begun := if Query.begins q then Function.update st.begun i p.shared.db.clock else st.begun
        changed :=
          if p'.shared.db.content bucketName filename = p.shared.db.content bucketName filename then
            st.changed
          else some (if Query.inTx q then st.begun i else p.shared.db.clock) }
    | _ => st

def Stamps.run : List (Action n Timestamp) → Pool n → Stamps n → Stamps n
  | [], _, st => st
  | a :: as, p, st =>
    match (machine n).act a p with
    | some p' => run as p' (st.after bucketName filename a p p')
    | none => st

/-- What a download of the file reports. -/
def lastModified (db : Db) : Option Timestamp :=
  match (serveRequest db (.get bucketName filename [])).1 with
  | .ok (some response) => some response.lastModified
  | _ => none

theorem lastModified_eq {db : Db} (h : db.Linked) {f : FileRow}
    (hf : fileRow db bucketName filename = some f) :
    lastModified bucketName filename db = some f.updatedAt := by
  obtain ⟨b, hb, hf⟩ := Option.bind_eq_some_iff.mp hf
  obtain ⟨c, hc⟩ := h.objects_of_find hf
  have hr : (serveRequest db (.get bucketName filename [])).1 = .ok (some
      ⟨c.length, "application/octet-stream", f.updatedAt, [], .stopped⟩) := by
    refine runAlone_of_wp (P := fun o _ => o = _) ((Logic.wp_bind ..).mpr
      (Logic.wp_mono ?_ (get_alone h hb hf hc [])))
    rintro _ s ⟨rfl, -⟩
    rfl
  rw [lastModified, hr]

/-- A client of the database `db` whose open transaction has begun at `begun`: it can reach
the file's blob only if it began after the row was inserted. -/
def Aware (db : Db) (begun : Timestamp) (conn : Conn) (prog : DbProg ε α) : Prop :=
  ∃ h, (guarded Informed fun _ _ => True).wp prog (fun _ _ => True) h ∧
    (∀ o, known h o → o < db.nextOid) ∧ conn.Within (knownAtBegin h) ∧
    ∀ f, fileRow db bucketName filename = some f → knownAtBegin h f.blob → f.updatedAt < begun

/-- What is known at a point of a run, of whose transactions the starts `later` are to come. -/
structure Timed (p : Pool n) (st : Stamps n) (later : List Timestamp) : Prop where
  sound : p.shared.Sound
  aware : ∀ i, Aware bucketName filename p.shared.db (st.begun i) (p.shared.conns i) (p.progs i)
  older : ∀ f, fileRow p.shared.db bucketName filename = some f → ∀ t ∈ later, f.updatedAt < t
  changed : ∀ f c, fileRow p.shared.db bucketName filename = some f →
    p.shared.db.objects f.blob = some c →
    (c = [] → st.changed = some f.updatedAt) ∧
      (c ≠ [] → ∃ t, st.changed = some t ∧ f.updatedAt < t)

variable {bucketName filename}

theorem after_step {st : Stamps n} {i : Fin n} {p p' : Pool n} {q : Query}
    {k : q.Reply → DbProg ApiError (Option Response)} (hq : p.progs i = .call q k) :
    st.after bucketName filename (.step i) p p' =
      { begun := if Query.begins q then Function.update st.begun i p.shared.db.clock else st.begun
        changed :=
          if p'.shared.db.content bucketName filename = p.shared.db.content bucketName filename then
            st.changed
          else some (if Query.inTx q then st.begun i else p.shared.db.clock) } := by
  simp only [Stamps.after, hq]

theorem starts_step {i : Fin n} {p : Pool n} {q : Query}
    {k : q.Reply → DbProg ApiError (Option Response)} (hq : p.progs i = .call q k) :
    starts (.step i) p = if Query.inTx q then [] else [p.shared.db.clock] := by
  simp only [starts, hq]

/-- What an answered statement makes of the shared state. -/
theorem serve_made {s t : Shared n} (hs : s.Sound) {i : Fin n} {q : Query} {a : q.Reply}
    (ht : s.serve i q = some (some a, t)) {h : History Query.Reply} (hq : Informed h q)
    (within : (s.conns i).Within (knownAtBegin h)) :
    ∃ c, Made h q s.db t.db ∧ c.Within (knownAtBegin (⟨q, a⟩ :: h)) ∧
      (∀ o, names q a o → o < t.db.nextOid) ∧ t.conns = Function.update s.conns i c := by
  obtain ⟨-, rfl, hd, hc, -⟩ | ⟨c, -, ht, hc, -⟩ := Shared.serve_answered ht
  · refine ⟨.failed, .same hd, trivial, fun o ho => ?_, hc⟩
    cases q <;> exact ho.elim
  · obtain ⟨hm, hw, hn⟩ := serve_informed hq ht hs.linked within
    exact ⟨c, hm, hw, hn, hc⟩

theorem Made.nextOid_le {h : History Query.Reply} {q : Query} {db db' : Db} (hm : Made h q db db') :
    db.nextOid ≤ db'.nextOid := by
  cases hm with
  | same he => rw [he]
  | file _ hr =>
    obtain ⟨-, -, -, rfl⟩ := Db.insertFile_ok hr
    exact Nat.le_succ _
  | commit _ _ _ hn => exact hn.ge

/-- A row that was not there has just been inserted, by a statement on the pool. -/
theorem Made.row_cases {h : History Query.Reply} {q : Query} {db db' : Db} (hm : Made h q db db')
    {f : FileRow} (hf : fileRow db' bucketName filename = some f) :
    fileRow db bucketName filename = some f ∨
      fileRow db bucketName filename = none ∧ Query.inTx q = false ∧ f.updatedAt = db.clock ∧
        f.blob = db.nextOid ∧ db'.objects f.blob = some [] := by
  cases hm with
  | same he => exact .inl (he ▸ hf)
  | file hq hr =>
    obtain he | ⟨hn, he⟩ := @fileRow_insertFile db db' bucketName filename _ _ _ _ hr
    · exact .inl (he ▸ hf)
    · obtain ⟨-, -, hrow, hdb⟩ := Db.insertFile_ok hr
      obtain rfl := Option.some.inj (he.symm.trans hf)
      refine .inr ⟨hn, hq, by rw [hrow], by rw [hrow], ?_⟩
      rw [hdb, hrow]
      exact Function.update_self ..
  | commit _ hb hfiles => exact .inl (fileRow_congr hb hfiles ▸ hf)

/-- Another client's statement takes nothing from what is known. -/
theorem Aware.frame {db db' : Db} {begun : Timestamp} {conn : Conn} {prog : DbProg ε α}
    (ha : Aware bucketName filename db begun conn prog) (hn : db.nextOid ≤ db'.nextOid)
    (hr : ∀ f, fileRow db' bucketName filename = some f →
      fileRow db bucketName filename = some f ∨ f.blob = db.nextOid) :
    Aware bucketName filename db' begun conn prog := by
  obtain ⟨h, hw, hk, hc, hb⟩ := ha
  refine ⟨h, hw, fun o ho => (hk o ho).trans_le hn, hc, fun f hf hkf => ?_⟩
  obtain hf | hf := hr f hf
  · exact hb f hf hkf
  · exact absurd (hk _ (known_of_begin hkf)) (hf ▸ lt_irrefl _)

/-- The client's own statement: a transaction that begins now begins after every row. -/
theorem Aware.served {db db' : Db} {begun : Timestamp} {h : History Query.Reply} {q : Query}
    {k : q.Reply → DbProg ε α} {a : q.Reply} {conn : Conn}
    (hk : (guarded Informed fun _ _ => True).wp (k a) (fun _ _ => True) (⟨q, a⟩ :: h))
    (hlt : ∀ o, known h o → o < db.nextOid) (hb : ∀ f, fileRow db bucketName filename = some f →
      knownAtBegin h f.blob → f.updatedAt < begun)
    (clock : ∀ f, fileRow db bucketName filename = some f → Query.inTx q = false →
      f.updatedAt < db.clock)
    (hm : Made h q db db') (hc : conn.Within (knownAtBegin (⟨q, a⟩ :: h)))
    (hn : ∀ o, names q a o → o < db'.nextOid) :
    Aware bucketName filename db' (if Query.begins q then db.clock else begun) conn (k a) := by
  refine ⟨_, hk, fun o ho => ?_, hc, fun f hf hkf => ?_⟩
  · obtain ho | ho := known_cons.mp ho
    · exact hn o ho
    · exact (hlt o ho).trans_le hm.nextOid_le
  · have past : known h f.blob := by
      cases hq : Query.begins q with
      | false => exact known_of_begin (by rwa [knownAtBegin_cons hq] at hkf)
      | true => cases q <;> first | exact hkf | cases hq
    obtain hf | ⟨-, -, -, hblob, -⟩ := hm.row_cases hf
    · cases hq : Query.begins q with
      | false =>
        rw [knownAtBegin_cons hq] at hkf
        exact hb f hf hkf
      | true => exact clock f hf (by cases q <;> first | rfl | cases hq)
    · exact absurd (hlt _ past) (hblob ▸ lt_irrefl _)

theorem Aware.idle {db : Db} {begun : Timestamp} {conn : Conn} {prog : DbProg ε α}
    (ha : Aware bucketName filename db begun conn prog) :
    Aware bucketName filename db begun .idle prog := by
  obtain ⟨h, hw, hk, -, hb⟩ := ha
  exact ⟨h, hw, hk, trivial, hb⟩

/-- What a statement does to the bytes and to the time of their last change. -/
theorem Made.changed {h : History Query.Reply} {q : Query} {db db' : Db} (hm : Made h q db db')
    (linked : db.Linked) {begun : Timestamp} (hb : ∀ f, fileRow db bucketName filename = some f →
      knownAtBegin h f.blob → f.updatedAt < begun) {stamp : Option Timestamp}
    (hs : ∀ f c, fileRow db bucketName filename = some f → db.objects f.blob = some c →
      (c = [] → stamp = some f.updatedAt) ∧ (c ≠ [] → ∃ t, stamp = some t ∧ f.updatedAt < t))
    {f : FileRow} {c : Bytes} (hf : fileRow db' bucketName filename = some f)
    (hc : db'.objects f.blob = some c) {stamp' : Option Timestamp}
    (he : stamp' = if db'.content bucketName filename = db.content bucketName filename then stamp
      else some (if Query.inTx q then begun else db.clock)) :
    (c = [] → stamp' = some f.updatedAt) ∧ (c ≠ [] → ∃ t, stamp' = some t ∧ f.updatedAt < t) := by
  have hc' : db'.content bucketName filename = some c := by rw [content_eq_fileRow, hf]; exact hc
  obtain hold | ⟨hn, hq, htime, -, hnew⟩ := hm.row_cases hf
  · have hcold : db.content bucketName filename = db.objects f.blob := by
      rw [content_eq_fileRow, hold]; rfl
    by_cases hsame : db.objects f.blob = some c
    · rw [he, if_pos (by rw [hc', hcold, hsame])]
      exact hs f c hold hsame
    · rw [he, if_neg (by rw [hc', hcold]; exact Ne.symm hsame)]
      cases hm with
      | same hdb => exact absurd (hdb ▸ hc) hsame
      | file _ hr =>
        obtain ⟨-, -, -, rfl⟩ := Db.insertFile_ok hr
        exact absurd (by simpa [Function.update_of_ne (linked.blob_ne_nextOid (mem_of_fileRow hold))]
          using hc) hsame
      | commit hq _ _ _ hout hgrown =>
        have hin : knownAtBegin h f.blob := by
          by_contra hno
          exact hsame (hout _ hno ▸ hc)
        refine ⟨fun hnil => ?_, fun _ => ⟨begun, by rw [if_pos hq], hb f hold hin⟩⟩
        subst hnil
        exact absurd (hgrown _ hc) hsame
  · obtain rfl := Option.some.inj (hnew.symm.trans hc)
    refine ⟨fun _ => ?_, fun hne => absurd rfl hne⟩
    rw [he, if_neg (by rw [hc', content_eq_fileRow, hn]; simp), if_neg (by simp [hq]), htime]

/-- One action. -/
theorem Timed.step {a : Action n Timestamp} {p p' : Pool n} {st : Stamps n} {later : List Timestamp}
    (h : Timed bucketName filename p st (starts a p ++ later))
    (ordered : (starts a p ++ later).Pairwise (· < ·)) (ha : (machine n).act a p = some p') :
    Timed bucketName filename p' (st.after bucketName filename a p p') later ∧
      ∀ f, fileRow p.shared.db bucketName filename = some f →
        fileRow p'.shared.db bucketName filename = some f := by
  cases a with
  | env now =>
    obtain rfl : { p with shared := (machine n).env now p.shared } = p' := by
      simpa [Machine.act] using ha
    exact ⟨⟨⟨h.sound.linked.tick now, h.sound.bounded⟩, h.aware, h.older, h.changed⟩, fun _ hf => hf⟩
  | step i =>
    have sound := sound_of_life (.served ha) h.sound
    obtain ⟨q, k, hq, hcases⟩ := (machine n).act_step ha
    have clock : ∀ f, fileRow p.shared.db bucketName filename = some f → Query.inTx q = false →
        f.updatedAt < p.shared.db.clock := fun f hf hx =>
      h.older f hf _ (by rw [starts_step hq, hx]; exact List.mem_cons_self)
    rw [after_step hq]
    obtain ⟨a, s, hs, rfl⟩ | ⟨s, hs, rfl⟩ := hcases
    · obtain ⟨h₀, hw, hk, hc, hb⟩ := h.aware i
      rw [hq] at hw
      obtain ⟨c, hm, hc', hn, hconns⟩ := serve_made h.sound hs hw.1 hc
      rw [← settle_db i (k a) s] at hm hn
      refine ⟨⟨sound, fun j => ?_, fun f hf t ht => ?_, fun f c hf hf' => ?_⟩, fun f => hm.row_stays⟩
      · by_cases hj : j = i
        · subst hj
          have served := Aware.served (hw.2 a trivial) hk hb clock hm hc' hn
          have hbegun : (if Query.begins q then Function.update st.begun j p.shared.db.clock
              else st.begun) j = if Query.begins q then p.shared.db.clock else st.begun j := by
            split <;> simp
          simp only [Function.update_self, hbegun]
          obtain he | he := settle_conns_self j (k a) s
          · rw [he, hconns, Function.update_self]
            exact served
          · rw [he]
            exact served.idle
        · have hbegun : (if Query.begins q then Function.update st.begun i p.shared.db.clock
              else st.begun) j = st.begun j := by
            split <;> simp [Function.update_of_ne hj]
          simp only [Function.update_of_ne hj, hbegun]
          rw [settle_conns_of_ne hj, hconns, Function.update_of_ne hj]
          exact (h.aware j).frame hm.nextOid_le fun f hf =>
            (hm.row_cases hf).imp id fun hx => hx.2.2.2.1
      · obtain hf | ⟨-, hx, htime, -, -⟩ := hm.row_cases hf
        · exact h.older f hf t (List.mem_append_right _ ht)
        · rw [starts_step hq, hx] at ordered
          exact htime ▸ (List.pairwise_cons.mp ordered).1 t ht
      · exact hm.changed h.sound.linked hb h.changed hf hf' rfl
    · obtain ⟨hd, hc, -⟩ := Shared.serve_pending hs
      obtain ⟨fd, data, rfl⟩ := Shared.pending_write hs
      simp only [Query.begins, hd, if_true, Bool.false_eq_true, if_false]
      refine ⟨⟨sound, fun j => ?_, fun f hf t ht => ?_, fun f c hf hc => ?_⟩, fun _ hf => hf⟩
      · simp only [hd, hc]
        exact h.aware j
      · exact h.older f (hd ▸ hf) t (List.mem_append_right _ ht)
      · simp only [hd] at hf hc
        exact h.changed f c hf hc

theorem Timed.run {as : List (Action n Timestamp)} {p p' : Pool n} {st : Stamps n}
    {later : List Timestamp} (h : Timed bucketName filename p st (allStarts as p ++ later))
    (ordered : (allStarts as p ++ later).Pairwise (· < ·)) (hr : (machine n).run as p = some p') :
    Timed bucketName filename p' (st.run bucketName filename as p) later ∧
      ∀ f, fileRow p.shared.db bucketName filename = some f →
        fileRow p'.shared.db bucketName filename = some f := by
  induction as generalizing p st with
  | nil =>
    obtain rfl : p = p' := by simpa [Machine.run] using hr
    exact ⟨h, fun _ hf => hf⟩
  | cons a as ih =>
    obtain ⟨q, ha, hq⟩ := Option.bind_eq_some_iff.mp (by simpa only [Machine.run] using hr)
    simp only [allStarts, ha, List.append_assoc] at h ordered
    obtain ⟨h', rows⟩ := h.step ordered ha
    simp only [Stamps.run, ha]
    obtain ⟨h'', rows'⟩ := ih h' (List.pairwise_append.mp ordered).2.1 hq
    exact ⟨h'', fun f hf => rows' f (rows f hf)⟩

theorem allStarts_append {as bs : List (Action n Timestamp)} {p p' : Pool n}
    (hr : (machine n).run as p = some p') :
    allStarts (as ++ bs) p = allStarts as p ++ allStarts bs p' := by
  induction as generalizing p with
  | nil =>
    obtain rfl : p = p' := by simpa [Machine.run] using hr
    rfl
  | cons a as ih =>
    obtain ⟨q, ha, hq⟩ := Option.bind_eq_some_iff.mp (by simpa only [Machine.run] using hr)
    simp only [List.cons_append, allStarts, ha, ih hq, List.append_assoc]

/-- No transaction has changed the file's bytes that began after the reported time. -/
def Tracks (bucketName filename : String) (st : Stamps n) (db : Db) : Prop :=
  ∀ t, st.changed = some t → ∃ m, lastModified bucketName filename db = some m ∧ t ≤ m

theorem Timed.tracks_iff {p : Pool n} {st : Stamps n} {later : List Timestamp}
    (h : Timed bucketName filename p st later) {c : Bytes}
    (hc : p.shared.db.content bucketName filename = some c) :
    Tracks bucketName filename st p.shared.db ↔ c = [] := by
  rw [content_eq_fileRow] at hc
  obtain ⟨f, hf, hc⟩ := Option.bind_eq_some_iff.mp hc
  obtain ⟨hempty, hstored⟩ := h.changed f c hf hc
  have hm := lastModified_eq bucketName filename h.sound.linked hf
  constructor
  · intro ht
    by_contra hne
    obtain ⟨t, hs, hlt⟩ := hstored hne
    obtain ⟨m, he, hle⟩ := ht t hs
    obtain rfl := Option.some.inj (hm.symm.trans he)
    exact hle.not_gt hlt
  · rintro hnil t hs
    obtain rfl := Option.some.inj ((hempty hnil).symm.trans hs)
    exact ⟨_, hm, le_refl _⟩

theorem timed_start {db : Db} (h : db.Linked) (absent : db.content bucketName filename = none)
    (requests : Fin n → Request) (st : Stamps n) (later : List Timestamp) :
    Timed bucketName filename (Pool.start db requests) st later := by
  have none : ∀ f, fileRow db bucketName filename ≠ some f := fun f hf => by
    rw [content_eq_fileRow, hf] at absent
    have := h.hasBlob f (mem_of_fileRow hf)
    rw [show db.objects f.blob = .none from absent] at this
    cases this
  refine ⟨⟨h, fun _ => Shared.Sound.bounded_of_writes_nil rfl⟩, fun i => ?_,
    fun f hf => (none f hf).elim, fun f _ hf => (none f hf).elim⟩
  exact ⟨[], handler_follows (requests i) [], fun o ho => by simp [known] at ho, trivial,
    fun f hf => (none f hf).elim⟩

/-- The reported time is that of the row's insertion: it tracks the file's bytes as long as there
are none, and tells no two contents apart. -/
theorem last_modified_tracks_iff {db : Db} (h : db.Linked) {bucketName filename : String}
    (absent : db.content bucketName filename = none) (requests : Fin n → Request)
    {as bs : List (Action n Timestamp)} {p p' : Pool n}
    (hp : (machine n).run as (Pool.start db requests) = some p)
    (hp' : (machine n).run bs p = some p')
    (clock : (allStarts (as ++ bs) (Pool.start db requests)).Pairwise (· < ·)) {c : Bytes}
    (hc : p.shared.db.content bucketName filename = some c) (begun : Fin n → Timestamp) :
    (Tracks bucketName filename (Stamps.run bucketName filename as (Pool.start db requests) ⟨begun, none⟩)
        p.shared.db ↔ c = []) ∧
      ((p'.shared.db.content bucketName filename ≠ p.shared.db.content bucketName filename →
        lastModified bucketName filename p'.shared.db ≠ lastModified bucketName filename p.shared.db) ↔
        p'.shared.db.content bucketName filename = p.shared.db.content bucketName filename) := by
  rw [allStarts_append hp] at clock
  obtain ⟨timed, -⟩ := (timed_start h absent requests ⟨begun, none⟩ _).run clock hp
  have clock' := (List.pairwise_append.mp clock).2.1
  rw [← List.append_nil (allStarts bs p)] at timed clock'
  obtain ⟨timed', rows⟩ := timed.run clock' hp'
  refine ⟨timed.tracks_iff hc, ?_⟩
  rw [content_eq_fileRow] at hc
  obtain ⟨f, hf, -⟩ := Option.bind_eq_some_iff.mp hc
  rw [lastModified_eq bucketName filename timed.sound.linked hf,
    lastModified_eq bucketName filename timed'.sound.linked (rows f hf)]
  exact ⟨fun hne => by_contra fun hcc => hne hcc rfl, fun he hne => absurd he hne⟩

end Stamps

/-- The clock ticks, and client `i` sends its next statement. -/
def ticking {n : ℕ} (i : Fin n) (now : Timestamp) : List (Action n Timestamp) := [.env now, .step i]

/-- An upload, then an append past its end, at times 1 to 8 and 9 to 17. -/
def uploadThenAppend : Fin 2 → Request
  | 0 => .put "bucket" "meow" (frames [[109]]) 0
  | 1 => .post "bucket" "meow" 5 (frames [[97]])

def uploading : List (Action 2 Timestamp) := [1, 2, 3, 4, 5, 6, 7, 8].flatMap (ticking client0)

def appending : List (Action 2 Timestamp) :=
  [9, 10, 11, 12, 13, 14, 15, 16, 17].flatMap (ticking client1)

def uploadStart : Pool 2 := Pool.start (.created 0 "bucket" none) uploadThenAppend

theorem uploading_runs : ((machine 2).run uploading uploadStart).isSome := by decide +kernel

def uploaded : Pool 2 := ((machine 2).run uploading uploadStart).get uploading_runs

theorem run_uploading : (machine 2).run uploading uploadStart = some uploaded :=
  (Option.some_get uploading_runs).symm

theorem appending_runs : ((machine 2).run appending uploaded).isSome := by decide +kernel

def uploadedAppended : Pool 2 := ((machine 2).run appending uploaded).get appending_runs

theorem run_appending : (machine 2).run appending uploaded = some uploadedAppended :=
  (Option.some_get appending_runs).symm

/-- The append begins at time 11 and commits; the file goes on to report time 2. -/
theorem append_not_tracked :
    (machine 2).run (uploading ++ appending) uploadStart = some uploadedAppended ∧
      (allStarts (uploading ++ appending) uploadStart).Pairwise (· < ·) ∧
      ¬ Tracks "bucket" "meow" (Stamps.run "bucket" "meow" (uploading ++ appending) uploadStart
        ⟨fun _ => 0, none⟩) uploadedAppended.shared.db ∧
      uploadedAppended.shared.db.content "bucket" "meow" ≠ uploaded.shared.db.content "bucket" "meow" ∧
      lastModified "bucket" "meow" uploadedAppended.shared.db =
        lastModified "bucket" "meow" uploaded.shared.db := by
  have changed : (Stamps.run "bucket" "meow" (uploading ++ appending) uploadStart
      ⟨fun _ => 0, none⟩).changed = some 11 := by decide +kernel
  have reported : lastModified "bucket" "meow" uploadedAppended.shared.db = some 2 := by decide +kernel
  refine ⟨?_, by decide +kernel, fun tracks => ?_, by decide +kernel, by decide +kernel⟩
  · rw [Machine.run_append, run_uploading, Option.bind_some, run_appending]
  · obtain ⟨m, hm, hle⟩ := tracks 11 changed
    obtain rfl := Option.some.inj (reported.symm.trans hm)
    exact absurd hle (by decide)

theorem last_modified_tracks_iff_meow :
    (Tracks "bucket" "meow" (Stamps.run "bucket" "meow" uploading uploadStart ⟨fun _ => 0, none⟩)
        uploaded.shared.db ↔ [109] = ([] : Bytes)) ∧
      ((uploadedAppended.shared.db.content "bucket" "meow" ≠ uploaded.shared.db.content "bucket" "meow" →
        lastModified "bucket" "meow" uploadedAppended.shared.db ≠
          lastModified "bucket" "meow" uploaded.shared.db) ↔
        uploadedAppended.shared.db.content "bucket" "meow" =
          uploaded.shared.db.content "bucket" "meow") :=
  last_modified_tracks_iff (Db.linked_created 0 "bucket" none) rfl uploadThenAppend
    run_uploading run_appending (by decide +kernel)
    (by decide +kernel) fun _ => 0

end LocallyEuclidean.Server
