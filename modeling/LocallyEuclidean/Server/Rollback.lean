import LocallyEuclidean.Server.Faults
import LocallyEuclidean.Server.Races

/-! Appends that end without success, whatever fails and wherever the request is dropped. -/

namespace LocallyEuclidean.Server
open Interact Postgres Storage

variable {ε α : Type} {sched : Schedule} {db : Db} {bucketName filename : String}

/-- The object of the file that a request names, if there is one. -/
def Named (db : Db) (bucketName filename : String) (oid : Oid) : Prop :=
  ∃ b f, db.findBucket bucketName = some b ∧ db.findFile b.id filename = some f ∧ f.blob = oid

/-- A request whose end is known to the client has not been dropped from its commit once
that had taken effect. -/
def CommitHeard (sched : Schedule) (calls : List (Query × Scheduled)) : Prop :=
  ∀ x ∈ calls, Shared.isCommit x.1 = true → (sched x.2.index).fault ≠ .dropped true

/-- Nothing has been committed, and nothing but the object named is about to be. -/
def Pending (db : Db) (bucketName filename : String) (w : Watched) : Prop :=
  w.1.session.db = db ∧ w.1.session.conn.Within (Named db bucketName filename)

/-- The same rows, and the same objects but for the one named. -/
structure Spares (db : Db) (bucketName filename : String) (db' : Db) : Prop where
  buckets : db'.buckets = db.buckets
  files : db'.files = db.files
  objects : ∀ oid, ¬ Named db bucketName filename oid → db'.objects oid = db.objects oid

/-- What is to be shown of an append however it ends. -/
def RolledBack (sched : Schedule) (db : Db) (bucketName filename : String)
    (o : Outcome ApiError Unit) (w : Watched) : Prop :=
  (o ≠ .ok () → CommitHeard sched w.2 → w.1.session.db = db) ∧
    Spares db bucketName filename w.1.session.db

theorem rolledBack_of_db {w : Watched} (h : w.1.session.db = db) (o : Outcome ApiError Unit) :
    RolledBack sched db bucketName filename o w :=
  ⟨fun _ _ => h, by rw [h]; exact ⟨rfl, rfl, fun _ _ => rfl⟩⟩

/-- The logic of a watched request that may be dropped. -/
abbrev WatchTo (sched : Schedule) (gone : Watched → Prop) : Logic Query.Reply Watched :=
  alone (watched (scheduled sched)) gone

section Quiet

variable (quiet : Quiet sched) {gone : Watched → Prop}
  (hg : ∀ w, Pending db bucketName filename w → gone w)
include quiet hg

/-- A statement that commits nothing, with what its answer can be. -/
theorem pending_call {q : Query} (hq : q.Within (Named db bucketName filename)) {w : Watched}
    (hw : Pending db bucketName filename w) {Φ : q.Reply → Watched → Prop}
    (h : ∀ a w', Pending db bucketName filename w' →
      ((∃ s', Session.serve (fun _ => false) q w.1.session = some (a, s')) ∨
        a = .error .database) → Φ a w') :
    (WatchTo sched gone).call q Φ w := by
  refine watched_alone (quiet_call quiet (fun a s' hs => ?_) (fun _ => ?_) fun _ => hg _ hw)
  · have hs' := Session.serve_within hq hs hw.2
    have hw' : Pending db bucketName filename (⟨s', w.1.index + 1⟩, (q, w.1) :: w.2) :=
      ⟨hs'.1.trans hw.1, hs'.2⟩
    exact ⟨fun _ => h a _ hw' (.inl ⟨s', hs⟩), fun _ => hg _ hw'⟩
  · refine h _ _ ⟨(failed_db q _).trans hw.1, ?_⟩ (.inr rfl)
    unfold failed
    split
    · trivial
    · exact hw.2

theorem pending_uses {p : DbProg ε α} (hp : p.Uses (Query.Within (Named db bucketName filename)))
    {w : Watched} (hw : Pending db bucketName filename w) :
    (WatchTo sched gone).wp p (fun _ => Pending db bucketName filename) w :=
  (WatchTo sched gone).wp_of_uses (fun _ _ hq hI => pending_call quiet hg hq hI fun _ _ hw' _ => hw')
    hp hw

theorem bucket_pending {post : Outcome FileOpenError PostgresBucket → Watched → Prop} {w : Watched}
    (hw : Pending db bucketName filename w)
    (found : ∀ b w', db.findBucket bucketName = some b → Pending db bucketName filename w' →
      post (.ok ⟨b.id, b.defaultTtl.map Interval.delta⟩) w')
    (fails : ∀ e w', Pending db bucketName filename w' → post (.err e) w') :
    (WatchTo sched gone).wp (PostgresBackend.bucket bucketName) post w := by
  simp only [PostgresBackend.bucket, PostgresBucket.byName, Prog.bind_eq, Logic.wp_bind,
    Logic.wp_mapErr]
  refine wp_fetch (pending_call quiet hg (by trivial) hw fun a w' hw' ha => ?_)
  obtain ⟨s', hs⟩ | rfl := ha
  · obtain ⟨rfl, -⟩ := Prod.mk.inj (Option.some.inj hs)
    rw [hw.1]
    cases hb : db.findBucket bucketName with
    | none => exact fails _ w' hw'
    | some b =>
      obtain ⟨id, name, _ | ttl⟩ := b
      · exact found _ w' hb hw'
      · simp only [Option.map_some, fetched, Logic.after_ok, Interval.toTimeDelta_eq, Prog.pure_eq,
          Logic.wp_ret]
        exact found _ w' hb hw'
  · exact fails _ w' hw'

theorem file_pending {b : BucketRow} (hb : db.findBucket bucketName = some b)
    {ttl : Option TimeDelta} {post : Outcome FileOpenError PostgresFileHandle → Watched → Prop}
    {w : Watched} (hw : Pending db bucketName filename w)
    (ends : ∀ o w', Pending db bucketName filename w' → post o w') :
    (WatchTo sched gone).wp (PostgresBucket.file ⟨b.id, ttl⟩ filename) post w := by
  simp only [PostgresBucket.file, Prog.bind_eq, Logic.wp_bind]
  refine wp_fetch (pending_call quiet hg (by trivial) hw fun a w' hw' ha => ?_)
  obtain ⟨s', hs⟩ | rfl := ha
  · obtain ⟨rfl, -⟩ := Prod.mk.inj (Option.some.inj hs)
    rw [hw.1]
    cases hf : db.findFile b.id filename with
    | none => exact ends _ w' hw'
    | some f =>
      have hnew : (PostgresFileHandle.new f.blob f.id).Uses
          (Query.Within (Named db bucketName filename)) :=
        PostgresFileHandle.new_uses trivial ⟨b, f, hb, hf, rfl⟩ f.id
      simp only [Option.map_some, fetched, Logic.after_ok, Logic.wp_mapErr]
      exact Logic.wp_mono (fun o w' => ends _ w') (pending_uses quiet hg hnew hw')
  · exact ends _ w' hw'

end Quiet

section Commit

variable (quiet : Quiet sched)
include quiet

/-- The commit itself: until it has been answered or has taken effect nothing is committed. -/
theorem commitTx_rolledBack {w : Watched} (hw : Pending db bucketName filename w)
    {Φ : Except SqlxError Unit → Watched → Prop}
    (ok : ∀ w', RolledBack sched db bucketName filename (.ok ()) w' → Φ (.ok ()) w')
    (fails : ∀ e w', w'.1.session.db = db → Φ (.error e) w') :
    (WatchTo sched (RolledBack sched db bucketName filename .dropped)).call .commitTx Φ w := by
  have kept (s' : Session) (hs : s'.db = w.1.session.db) : s'.db = db := hs.trans hw.1
  refine watched_alone (quiet_call quiet (fun a s' hs => ?_) (fun _ => ?_) fun _ => ?_)
  · have hs : w.1.session.commit = (a, s') := Option.some.inj hs
    obtain ⟨hb, hf, ho⟩ := Session.commit_within hs hw.2
    have spares : Spares db bucketName filename s'.db := by
      rw [hw.1] at hb hf ho
      exact ⟨hb, hf, ho⟩
    refine ⟨fun _ => ?_, fun hd => ⟨fun _ heard => ?_, spares⟩⟩
    · cases a with
      | ok => exact ok _ ⟨fun h => absurd rfl h, spares⟩
      | error e =>
        refine fails e _ (kept s' ?_)
        unfold Session.commit at hs
        split at hs
        · cases hs
        · cases hs
        · rw [← (Prod.mk.inj hs).2]
    · exact absurd hd (heard (.commitTx, w.1) List.mem_cons_self rfl)
  · exact fails _ _ (kept _ (failed_db ..))
  · exact rolledBack_of_db (by exact hw.1) _

theorem commit_rolledBack {file : PostgresFileHandle} {w : Watched}
    (hw : Pending db bucketName filename w) {post : Outcome BoxError Unit → Watched → Prop}
    (ok : ∀ w', RolledBack sched db bucketName filename (.ok ()) w' → post (.ok ()) w')
    (fails : ∀ e w', w'.1.session.db = db → post (.err e) w') :
    (WatchTo sched (RolledBack sched db bucketName filename .dropped)).wp file.commit post w := by
  have hg (w : Watched) (hw : Pending db bucketName filename w) :
      RolledBack sched db bucketName filename .dropped w := rolledBack_of_db hw.1 _
  obtain ⟨⟨_ | inner⟩, id⟩ := file
  · exact fails _ _ hw.1
  · simp only [PostgresFileHandle.commit, BlobHandle.shutdown, BlobHandle.live, okOr,
      BlobHandleInner.close, Prog.bind_eq, Prog.bind, Logic.wp_bind, Logic.wp_mapErr]
    refine wp_fetch (pending_call quiet hg (by trivial) hw fun a w' hw' _ => ?_)
    obtain e | _ | r := a
    · exact fails _ _ hw'.1
    · exact fails _ _ hw'.1
    · refine (Logic.wp_bind ..).mpr (wp_fetch (commitTx_rolledBack quiet hw' (fun w'' h => ?_)
        fun e w'' h => ?_))
      · exact ok w'' h
      · exact fails _ w'' h

end Commit

theorem post_rolledBack (quiet : Quiet sched) (db : Db) (bucketName filename : String)
    (writeOffset : ℕ) (body : DataStream) :
    (WatchTo sched (RolledBack sched db bucketName filename .dropped)).wp
      (postAppendFilename bucketName filename writeOffset body)
      (RolledBack sched db bucketName filename) (⟨⟨db, .idle⟩, 0⟩, []) := by
  have hg (w : Watched) (hw : Pending db bucketName filename w) :
      RolledBack sched db bucketName filename .dropped w := rolledBack_of_db hw.1 _
  refine Logic.wp_then (bucket_pending quiet hg ⟨rfl, trivial⟩ (fun b w₁ hb hw₁ => ?_)
    fun e w₁ hw₁ => rolledBack_of_db hw₁.1 _)
  refine Logic.wp_then (file_pending quiet hg hb hw₁ fun o w₂ hw₂ => ?_)
  cases o with
  | err | panic | dropped => exact rolledBack_of_db hw₂.1 _
  | ok file =>
    refine Logic.wp_then (Logic.wp_mono ?_ (pending_uses quiet hg
      ((file.blob.seek_onHandle _).within _) hw₂))
    rintro o w₃ hw₃
    cases o with
    | err | panic | dropped => exact rolledBack_of_db hw₃.1 _
    | ok size =>
      simp only [Outcome.mapErr, Logic.after_ok]
      split
      · refine Logic.wp_then (Logic.wp_mono ?_ (pending_uses quiet hg
          ((checkRangeMatches_onHandle body writeOffset file.blob).within _) hw₃))
        rintro o w₄ hw₄
        cases o with
        | err | panic | dropped => exact rolledBack_of_db hw₄.1 _
        | ok v => cases v <;> exact rolledBack_of_db hw₄.1 _
      · refine Logic.wp_then (Logic.wp_mono ?_ (pending_uses quiet hg
          ((appendFrames_onHandle file body).within _) hw₃))
        rintro o w₄ hw₄
        cases o with
        | err | panic | dropped => exact rolledBack_of_db hw₄.1 _
        | ok =>
          simp only [Outcome.mapErr, Logic.after_ok, Logic.wp_mapErr]
          exact commit_rolledBack quiet hw₄ (fun w₅ h => h) fun e w₅ h => rolledBack_of_db h _

theorem Spares.content {db' : Db} (hs : Spares db bucketName filename db') (h : db.Linked)
    {bucket' filename' : String} (hne : ¬ (bucket' = bucketName ∧ filename' = filename)) :
    db'.content bucket' filename' = db.content bucket' filename' := by
  have hb (name : String) : db'.findBucket name = db.findBucket name := by
    rw [Db.findBucket, Db.findBucket, hs.buckets]
  have hf (id : BucketId) (name : String) : db'.findFile id name = db.findFile id name := by
    rw [Db.findFile, Db.findFile, hs.files]
  simp only [Db.content, hb, hf]
  cases hb' : db.findBucket bucket' with
  | none => rfl
  | some b' =>
    cases hf' : db.findFile b'.id filename' with
    | none => simp [hf']
    | some f' =>
      simp only [Option.bind_eq_bind, Option.bind_some, hf']
      refine hs.objects _ ?_
      rintro ⟨b, f, hb, hf, he⟩
      exact hne (h.names_eq hb hf hb' hf' he.symm)

/-- An append that is not acknowledged changes nothing, wherever it ends before its commit
takes effect; and no append makes a file, or touches one that it does not name. -/
theorem post_all_or_nothing (quiet : Quiet sched) (h : db.Linked) (bucketName filename : String)
    (writeOffset : ℕ) (body : DataStream) :
    let p := postAppendFilename bucketName filename writeOffset body
    let r := runScheduled sched p db
    (r.1 ≠ .ok () → CommitHeard sched (trace (scheduled sched) p ⟨⟨db, .idle⟩, 0⟩) → r.2 = db) ∧
      r.2.buckets = db.buckets ∧ r.2.files = db.files ∧
      ∀ bucket' filename', ¬ (bucket' = bucketName ∧ filename' = filename) →
        r.2.content bucket' filename' = db.content bucket' filename' := by
  intro p r
  obtain ⟨hfail, hspares⟩ := wp_watched (fun _ hw => hw)
    (post_rolledBack quiet db bucketName filename writeOffset body)
  refine ⟨fun ho heard => hfail ho fun x hx => heard x (List.mem_reverse.mp hx), hspares.buckets,
    hspares.files, fun _ _ hne => hspares.content h hne⟩

/-- An append whose body fails after two bytes have been written, and one that is dropped
from its commit before that takes effect. -/
theorem post_all_or_nothing_meow :
    let db := (serveAll (.created 0 "bucket" none)
      [(Op.put "bucket" "meow" [[109, 101, 111, 119, 33]] 0).request]).2
    let lost : Schedule := fun k => ⟨[], if k = 8 then .dropped false else .none⟩
    (runScheduled calm (postAppendFilename "bucket" "meow" 6 [.ok [109, 101], .error ()]) db).2 = db ∧
      (runScheduled lost (postAppendFilename "bucket" "meow" 6 (frames [[109, 101]])) db).2 = db := by
  intro db lost
  have h : db.Linked := serveRequest_linked (Db.linked_created 0 "bucket" none)
    (Op.put "bucket" "meow" [[109, 101, 111, 119, 33]] 0).request
  refine ⟨(post_all_or_nothing (fun _ => rfl) h "bucket" "meow" 6 _).1 (by decide) ?_,
    (post_all_or_nothing (fun _ => rfl) h "bucket" "meow" 6 _).1 (by decide) ?_⟩
  · exact fun _ _ _ hf => by cases hf
  · intro x _ _ hf
    simp only [lost] at hf
    split at hf <;> cases hf

end LocallyEuclidean.Server
