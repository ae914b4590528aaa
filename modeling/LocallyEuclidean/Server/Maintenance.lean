import LocallyEuclidean.Postgres.Deletion
import LocallyEuclidean.Server.Sequential

/-! `server::tasks`: the deletion of old files, one batch after another. -/

namespace LocallyEuclidean.Server
open Interact Postgres Storage

/-- The rows of `db` that are no longer in `db'`. -/
def removed (db db' : Db) : List FileRow := db.files.filter fun f => f ∉ db'.files

/-- What a batch makes of a database: of the expired rows it takes the oldest, up to its
limit, and with each row the blob; all else stays. -/
structure Batched (db db' : Db) : Prop where
  count : (removed db db').length = min db.expiredFiles.length 1000
  expired : ∀ f ∈ removed db db', f ∈ db.expiredFiles
  oldest : ∀ f ∈ db'.files, f.expired db.clock → ∀ g ∈ removed db db', ∀ s t,
    g.deleteAfter = some s → f.deleteAfter = some t → s ≤ t
  files : db'.files = db.files.filter fun f => f ∉ removed db db'
  objects : ∀ oid, db'.objects oid =
    if oid ∈ (removed db db').map FileRow.blob then none else db.objects oid
  rest : db' = { db with files := db'.files, objects := db'.objects }

theorem removed_deleteBatch (db : Db) (tie : FileId → ℕ) : removed db (db.deleteBatch tie) =
    db.files.filter fun f => f.id ∈ (db.deletionBatch tie).map FileRow.id := by
  refine List.filter_congr fun f hf => ?_
  rw [decide_eq_decide, Db.mem_deleteBatch]
  simp [hf, Db.Removes]

theorem batched_deleteBatch {db : Db} (h : db.Linked) (tie : FileId → ℕ) :
    Batched db (db.deleteBatch tie) := by
  have hperm := h.removed_perm tie
  have hmem {f : FileRow} : f ∈ removed db (db.deleteBatch tie) ↔ f ∈ db.deletionBatch tie :=
    hperm.mem_iff
  refine ⟨?_, fun f hf => ?_, fun f hf he g hg s t hs ht => ?_, ?_, fun oid => ?_, rfl⟩
  · rw [removed, hperm.length_eq, Db.length_deletionBatch, min_comm]
    rfl
  · exact Db.mem_expiredFiles.mpr (Db.deletionBatch_subset (hmem.mp hf))
  · obtain ⟨hf, hkept⟩ := Db.mem_deleteBatch.mp hf
    rw [h.removes_iff] at hkept
    exact FileRow.deleteAfter_le ((Db.deletionBatch_full hf he hkept).2 g (hmem.mp hg)) hs ht
  · refine List.filter_congr fun f hf => ?_
    rw [removed_deleteBatch, decide_eq_decide, List.mem_filter]
    simp [hf]
  · rw [removed_deleteBatch]
    rfl

theorem deleteOldFilesBatch_alone {db : Db} (h : db.Linked) (tie : FileId → ℕ) :
    runAlone (PostgresBackend.deleteOldFilesBatch tie) db = (.ok (), db.deleteBatch tie) := by
  obtain ⟨k, hk⟩ := h.deleteOldFilesBatch_eq tie
  have hs : Session.serve (fun _ => false) (.deleteOldFilesBatch tie) ⟨db, .idle⟩ =
      some (.ok k, ⟨db.deleteBatch tie, .idle⟩) := by
    simp only [Session.serve, hk, Session.onPool]
  obtain ⟨ho, hdb⟩ := runAlone_of_wp (p := PostgresBackend.deleteOldFilesBatch tie)
    (P := fun o db' => o = .ok () ∧ db' = db.deleteBatch tie)
    ((Logic.wp_bind ..).mpr (wp_fetch (served hs ⟨rfl, rfl⟩)))
  exact Prod.ext ho hdb

/-- One turn of the maintenance loop: when its batch runs, and how Postgres orders equals. -/
structure Turn where
  now : Timestamp
  tie : FileId → ℕ

def Turn.run (turn : Turn) (db : Db) : Outcome SqlxError Unit × Db :=
  runAlone (PostgresBackend.deleteOldFilesBatch turn.tie) { db with clock := turn.now }

def runTurns (db : Db) (turns : List Turn) : Db := turns.foldl (fun db turn => (turn.run db).2) db

/-- The rows that have expired at `now`. -/
def due (now : Timestamp) (db : Db) : List FileRow := db.files.filter fun f => f.expired now

/-- At its time the same rows of `db` have expired as at `now`. -/
def Turn.Steady (now : Timestamp) (db : Db) (turn : Turn) : Prop :=
  ∀ f ∈ db.files, f.expired turn.now = f.expired now

section Turns

variable {now : Timestamp} {db : Db} {turn : Turn} (h : db.Linked)
include h

theorem run_batched (turn : Turn) :
    (turn.run db).1 = .ok () ∧ Batched { db with clock := turn.now } (turn.run db).2 := by
  rw [Turn.run, deleteOldFilesBatch_alone (h.tick turn.now)]
  exact ⟨rfl, batched_deleteBatch (h.tick turn.now) turn.tie⟩

theorem linked_run (turn : Turn) : (turn.run db).2.Linked :=
  runAlone_linked _ (h.tick turn.now)

/-- A turn takes from what is due as much as it may. -/
theorem length_due_run (hs : turn.Steady now db) :
    (due now (turn.run db).2).length = (due now db).length - 1000 := by
  obtain ⟨-, hb⟩ := run_batched h turn
  have hdue : ({ db with clock := turn.now } : Db).expiredFiles = due now db :=
    List.filter_congr fun f hf => hs f hf
  have hcount := hb.count
  rw [hdue] at hcount
  have hrest : due now (turn.run db).2 =
      (due now db).filter fun f => f ∉ removed { db with clock := turn.now } (turn.run db).2 := by
    rw [due, hb.files, due, List.filter_filter, List.filter_filter]
    exact List.filter_congr fun f _ => Bool.and_comm _ _
  have hgone : (due now db).filter
      (fun f => f ∈ removed { db with clock := turn.now } (turn.run db).2) =
        removed { db with clock := turn.now } (turn.run db).2 := by
    rw [due, List.filter_filter]
    refine List.filter_congr fun f hf => ?_
    by_cases hr : f ∈ removed { db with clock := turn.now } (turn.run db).2
    · have he : f.expired now = true := by
        rw [← hs f hf]
        exact (Db.mem_expiredFiles.mp (hb.expired f hr)).2
      simpa [hr, he] using (List.mem_filter.mp hr).2
    · have hkept : f ∈ (turn.run db).2.files := by
        simpa [removed, hf] using hr
      simp [hr, hkept]
  have hsum := List.length_eq_length_filter_add
    (fun f => decide (f ∈ removed { db with clock := turn.now } (turn.run db).2)) (l := due now db)
  simp only [← decide_not] at hsum
  rw [hgone, ← hrest] at hsum
  omega

/-- Once nothing is due, a turn changes nothing. -/
theorem run_eq_self (hs : turn.Steady now db) (hdue : due now db = []) :
    (turn.run db).2 = { db with clock := turn.now } := by
  obtain ⟨-, hb⟩ := run_batched h turn
  have hexp : ({ db with clock := turn.now } : Db).expiredFiles = due now db :=
    List.filter_congr fun f hf => hs f hf
  have hnone : removed { db with clock := turn.now } (turn.run db).2 = [] := by
    refine List.eq_nil_of_length_eq_zero ?_
    rw [hb.count, hexp, hdue]
    rfl
  have hfiles : (turn.run db).2.files = db.files := by
    simpa [hnone] using hb.files
  have hobjects : (turn.run db).2.objects = db.objects := by
    funext oid
    simpa [hnone] using hb.objects oid
  rw [hb.rest, hfiles, hobjects]

theorem runTurns_due {turns : List Turn} (hs : ∀ turn ∈ turns, turn.Steady now db) :
    (runTurns db turns).Linked ∧ (∀ f ∈ (runTurns db turns).files, f ∈ db.files) ∧
      (due now (runTurns db turns)).length = (due now db).length - 1000 * turns.length := by
  induction turns generalizing db with
  | nil => exact ⟨h, fun f hf => hf, by simp [runTurns]⟩
  | cons turn turns ih =>
    have hstep := length_due_run h (hs turn List.mem_cons_self)
    have sub : ∀ f ∈ (turn.run db).2.files, f ∈ db.files := by
      intro f hf
      rw [(run_batched h turn).2.files] at hf
      exact (List.mem_filter.mp hf).1
    obtain ⟨hl, hsub, hlen⟩ := ih (linked_run h turn) fun t ht f hf =>
      hs t (List.mem_cons_of_mem _ ht) f (sub f hf)
    refine ⟨hl, fun f hf => sub f (hsub f hf), ?_⟩
    rw [runTurns, List.foldl_cons, ← runTurns, hlen, hstep, List.length_cons]
    omega

theorem runTurns_eq_self {turns : List Turn} (hs : ∀ turn ∈ turns, turn.Steady now db)
    (hdue : due now db = []) : ∃ clock, runTurns db turns = { db with clock := clock } := by
  induction turns generalizing db with
  | nil => exact ⟨db.clock, rfl⟩
  | cons turn turns ih =>
    have hrun := run_eq_self h (hs turn List.mem_cons_self) hdue
    obtain ⟨clock, he⟩ := ih (h.tick turn.now)
      (fun t ht => hs t (List.mem_cons_of_mem _ ht)) hdue
    exact ⟨clock, by rw [runTurns, List.foldl_cons, hrun, ← runTurns, he]⟩

/-- Every batch takes the oldest of the expired rows, up to a thousand. Turn after turn they
drain if nothing newly expires, and from then on nothing changes. -/
theorem old_files_drain :
    (∀ turn : Turn, (turn.run db).1 = .ok () ∧
        Batched { db with clock := turn.now } (turn.run db).2) ∧
      ∀ now (turns : List Turn), (∀ turn ∈ turns, turn.Steady now db) →
        (due now db).length ≤ 1000 * turns.length →
          due now (runTurns db turns) = [] ∧
            ∀ more : List Turn, (∀ turn ∈ more, turn.Steady now (runTurns db turns)) →
              ∃ clock, runTurns (runTurns db turns) more =
                { runTurns db turns with clock := clock } := by
  refine ⟨run_batched h, fun now turns hs enough => ?_⟩
  obtain ⟨hl, -, hlen⟩ := runTurns_due h hs
  have hdue : due now (runTurns db turns) = [] :=
    List.eq_nil_of_length_eq_zero (by rw [hlen]; omega)
  exact ⟨hdue, fun more hmore => runTurns_eq_self hl hmore hdue⟩

end Turns

/-- Two files of a bucket that keeps none, and one turn. -/
theorem old_files_drain_meow :
    let db := (serveAll (.created 0 "bucket" (some ⟨0, 0, 0⟩))
      [(Op.put "bucket" "meow" [[109]] 0).request, (Op.put "bucket" "mew" [[109]] 0).request]).2
    (∀ turn : Turn, (turn.run db).1 = .ok () ∧
        Batched { db with clock := turn.now } (turn.run db).2) ∧
      ∀ now (turns : List Turn), (∀ turn ∈ turns, turn.Steady now db) →
        (due now db).length ≤ 1000 * turns.length →
          due now (runTurns db turns) = [] ∧
            ∀ more : List Turn, (∀ turn ∈ more, turn.Steady now (runTurns db turns)) →
              ∃ clock, runTurns (runTurns db turns) more =
                { runTurns db turns with clock := clock } :=
  old_files_drain (serveRequest_linked (serveRequest_linked
    (Db.linked_created 0 "bucket" (some ⟨0, 0, 0⟩)) (Op.put "bucket" "meow" [[109]] 0).request)
    (Op.put "bucket" "mew" [[109]] 0).request)

end LocallyEuclidean.Server
