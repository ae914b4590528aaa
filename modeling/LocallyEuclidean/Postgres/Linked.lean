import LocallyEuclidean.Postgres.Statement

/-! What every statement keeps of a committed database: the unique indexes, the
foreign key, and one large object for each row of `files`. -/

namespace LocallyEuclidean.Postgres
open Interact

structure Db.Linked (db : Db) : Prop where
  bucketIds : (db.buckets.map BucketRow.id).Nodup
  bucketNames : (db.buckets.map BucketRow.name).Nodup
  ids : (db.files.map FileRow.id).Nodup
  names : (db.files.map fun f => (f.bucketId, f.filename)).Nodup
  blobs : (db.files.map FileRow.blob).Nodup
  inBucket : ∀ f ∈ db.files, ∃ b ∈ db.buckets, b.id = f.bucketId
  hasBlob : ∀ f ∈ db.files, (db.objects f.blob).isSome
  owned : ∀ oid, (db.objects oid).isSome → ∃ f ∈ db.files, f.blob = oid
  oidsUsed : ∀ oid, (db.objects oid).isSome → oid < db.nextOid
  bucketsUsed : ∀ b ∈ db.buckets, b.id.uuid < db.nextUuid
  filesUsed : ∀ f ∈ db.files, f.id.uuid < db.nextUuid
  sizes : ∀ oid c, db.objects oid = some c → c.length ≤ maxObjectSize

/-- No pending write reaches past the largest object. -/
def Conn.Bounded (c : Conn) : Prop := ∀ w ∈ c.writes, w.pos + w.data.length ≤ maxObjectSize

/-! Rows by their keys. -/

theorem eq_of_nodup_map {α β : Type} {f : α → β} {l : List α} (h : (l.map f).Nodup) {a b : α}
    (ha : a ∈ l) (hb : b ∈ l) (he : f a = f b) : a = b :=
  List.inj_on_of_nodup_map h ha hb he

theorem find?_eq_some_of_nodup {α β : Type} [DecidableEq β] {f : α → β} {l : List α}
    (h : (l.map f).Nodup) {a : α} (ha : a ∈ l) : l.find? (fun x => f x = f a) = some a := by
  cases hf : l.find? (fun x => f x = f a) with
  | none => simpa using List.find?_eq_none.mp hf a ha
  | some b =>
    have he : f b = f a := by simpa using List.find?_some hf
    rw [eq_of_nodup_map h (List.mem_of_find?_eq_some hf) ha he]

namespace Db

theorem findBucket_some {db : Db} {name : String} {b : BucketRow}
    (h : db.findBucket name = some b) : b ∈ db.buckets ∧ b.name = name :=
  ⟨List.mem_of_find?_eq_some h, by simpa using List.find?_some h⟩

theorem findFile_some {db : Db} {bucket : BucketId} {filename : String} {f : FileRow}
    (h : db.findFile bucket filename = some f) :
    f ∈ db.files ∧ f.bucketId = bucket ∧ f.filename = filename :=
  ⟨List.mem_of_find?_eq_some h, by simpa using List.find?_some h⟩

theorem findFile_none {db : Db} {bucket : BucketId} {filename : String}
    (h : db.findFile bucket filename = none) {f : FileRow} (hf : f ∈ db.files)
    (hb : f.bucketId = bucket) : f.filename ≠ filename := by
  simpa [hb] using List.find?_eq_none.mp h f hf

namespace Linked

variable {db : Db} (h : db.Linked)
include h

theorem findBucket_of_mem {b : BucketRow} (hb : b ∈ db.buckets) :
    db.findBucket b.name = some b :=
  find?_eq_some_of_nodup h.bucketNames hb

theorem findFile_of_mem {f : FileRow} (hf : f ∈ db.files) :
    db.findFile f.bucketId f.filename = some f := by
  simpa [findFile] using find?_eq_some_of_nodup h.names hf

theorem findFileById_of_mem {f : FileRow} (hf : f ∈ db.files) :
    db.findFileById f.id = some f :=
  find?_eq_some_of_nodup h.ids hf

theorem blob_inj {f g : FileRow} (hf : f ∈ db.files) (hg : g ∈ db.files)
    (he : f.blob = g.blob) : f = g :=
  eq_of_nodup_map h.blobs hf hg he

theorem bucket_eq {b c : BucketRow} (hb : b ∈ db.buckets) (hc : c ∈ db.buckets)
    (he : b.id = c.id) : b = c :=
  eq_of_nodup_map h.bucketIds hb hc he

/-- A blob the next `lo_create(0)` hands out is no row's. -/
theorem blob_ne_nextOid {f : FileRow} (hf : f ∈ db.files) : f.blob ≠ db.nextOid :=
  (h.oidsUsed _ (h.hasBlob f hf)).ne

end Linked

theorem linked_migrated (clock : Timestamp) : (migrated clock).Linked := by
  constructor <;> simp [migrated]

theorem Linked.tick {db : Db} (h : db.Linked) (now : Timestamp) :
    ({ db with clock := now } : Db).Linked :=
  { h with }

theorem insertBucket_ok {db db' : Db} {name : String} {ttl : Option Interval} {id : BucketId}
    (hr : db.insertBucket name ttl = .ok (id, db')) :
    ∃ row, db'.buckets = db.buckets ++ [row] ∧ db'.files = db.files := by
  unfold Db.insertBucket at hr
  split at hr
  · cases hr
  · obtain ⟨-, rfl⟩ := Prod.mk.inj (Except.ok.inj hr)
    exact ⟨_, rfl, rfl⟩

/-- A new bucket is found by its name. -/
theorem findBucket_insertBucket {db db' : Db} {name : String} {ttl : Option Interval} {id : BucketId}
    (hr : db.insertBucket name ttl = .ok (id, db')) :
    db'.findBucket name = some ⟨id, name, ttl⟩ := by
  unfold Db.insertBucket at hr
  split at hr
  · cases hr
  · rename_i hn
    obtain ⟨rfl, rfl⟩ := Prod.mk.inj (Except.ok.inj hr)
    rw [Bool.not_eq_true, Option.isSome_eq_false_iff, Option.isNone_iff_eq_none, findBucket] at hn
    rw [findBucket, List.find?_append, hn]
    simp

theorem Linked.insertBucket {db db' : Db} (h : db.Linked) {name : String}
    {ttl : Option Interval} {id : BucketId} (hr : db.insertBucket name ttl = .ok (id, db')) :
    db'.Linked := by
  unfold Db.insertBucket at hr
  split at hr
  · cases hr
  · rename_i hn
    obtain ⟨-, rfl⟩ := Prod.mk.inj (Except.ok.inj hr)
    have fresh : ∀ b ∈ db.buckets, b.name ≠ name := by
      simpa [findBucket, List.find?_eq_none] using hn
    have ids : (⟨db.nextUuid⟩ : BucketId) ∉ db.buckets.map BucketRow.id := by
      simp only [List.mem_map, not_exists, not_and]
      intro b hb he
      have := h.bucketsUsed b hb
      rw [he] at this
      exact lt_irrefl _ this
    refine { h with
      bucketIds := ?_, bucketNames := ?_, inBucket := ?_, bucketsUsed := ?_, filesUsed := ?_ }
    · simpa [List.nodup_append, h.bucketIds] using ids
    · simpa [List.nodup_append, h.bucketNames] using fresh
    · intro f hf
      obtain ⟨b, hb, he⟩ := h.inBucket f hf
      exact ⟨b, List.mem_append_left _ hb, he⟩
    · intro b hb
      rcases List.mem_append.mp hb with hb | hb
      · exact (h.bucketsUsed b hb).trans (Nat.lt_succ_self _)
      · obtain rfl := List.mem_singleton.mp hb
        exact Nat.lt_succ_self _
    · exact fun f hf => (h.filesUsed f hf).trans (Nat.lt_succ_self _)

/-- A migrated database in which one bucket has been created. -/
def created (clock : Timestamp) (name : String) (ttl : Option Interval) : Db :=
  { migrated clock with buckets := [⟨⟨0⟩, name, ttl⟩], nextUuid := 1 }

theorem linked_created (clock : Timestamp) (name : String) (ttl : Option Interval) :
    (created clock name ttl).Linked :=
  have hr : (migrated clock).insertBucket name ttl = .ok (⟨0⟩, created clock name ttl) := rfl
  (linked_migrated clock).insertBucket hr

/-- What a successful insert does. -/
theorem insertFile_ok {db db' : Db} {bucket : BucketId} {filename : String}
    {deleteAfter : Option Timestamp} {row : FileRow}
    (hr : db.insertFile bucket filename deleteAfter = .ok (row, db')) :
    db.findFile bucket filename = none ∧ (∃ b ∈ db.buckets, b.id = bucket) ∧
      row = ⟨⟨db.nextUuid⟩, bucket, filename, db.nextOid, deleteAfter, db.clock⟩ ∧
      db' = { db with
        files := db.files ++ [row]
        objects := Function.update db.objects db.nextOid (some [])
        nextOid := db.nextOid + 1
        nextUuid := db.nextUuid + 1 } := by
  unfold Db.insertFile at hr
  split at hr
  · cases hr
  · split at hr
    · cases hr
    · rename_i hn
      split at hr
      · cases hr
      · rename_i hb
        obtain ⟨rfl, rfl⟩ := Prod.mk.inj (Except.ok.inj hr)
        refine ⟨by simpa using hn, by simpa using hb, rfl, rfl⟩

theorem Linked.insertFile {db db' : Db} (h : db.Linked) {bucket : BucketId} {filename : String}
    {deleteAfter : Option Timestamp} {row : FileRow}
    (hr : db.insertFile bucket filename deleteAfter = .ok (row, db')) : db'.Linked := by
  obtain ⟨hn, hb, rfl, rfl⟩ := insertFile_ok hr
  refine { h with
    ids := ?_, names := ?_, blobs := ?_, inBucket := ?_, hasBlob := ?_, owned := ?_
    oidsUsed := ?_, bucketsUsed := ?_, filesUsed := ?_, sizes := ?_ }
  · rw [List.map_append, List.nodup_append]
    refine ⟨h.ids, by simp, ?_⟩
    intro a ha b hb he
    obtain ⟨f, hf, rfl⟩ := List.mem_map.mp ha
    have hlt := h.filesUsed f hf
    have hid : f.id = ⟨db.nextUuid⟩ := by simpa [he] using hb
    rw [hid] at hlt
    exact lt_irrefl _ hlt
  · rw [List.map_append, List.nodup_append]
    refine ⟨h.names, by simp, ?_⟩
    intro a ha b hb he
    obtain ⟨f, hf, rfl⟩ := List.mem_map.mp ha
    obtain ⟨hfb, hff⟩ : f.bucketId = bucket ∧ f.filename = filename := by simpa [← he] using hb
    exact findFile_none hn hf hfb hff
  · rw [List.map_append, List.nodup_append]
    refine ⟨h.blobs, by simp, ?_⟩
    intro a ha b hb he
    obtain ⟨f, hf, rfl⟩ := List.mem_map.mp ha
    exact h.blob_ne_nextOid hf (by simpa [← he] using hb)
  · intro f hf
    rcases List.mem_append.mp hf with hf | hf
    · exact h.inBucket f hf
    · obtain rfl := List.mem_singleton.mp hf
      exact hb
  · intro f hf
    rcases List.mem_append.mp hf with hf | hf
    · simpa [Function.update_of_ne (h.blob_ne_nextOid hf)] using h.hasBlob f hf
    · obtain rfl := List.mem_singleton.mp hf
      simp
  · intro oid ho
    by_cases he : oid = db.nextOid
    · exact ⟨_, List.mem_append_right _ (List.mem_singleton.mpr rfl), he.symm⟩
    · obtain ⟨f, hf, hfo⟩ := h.owned oid (by simpa [Function.update_of_ne he] using ho)
      exact ⟨f, List.mem_append_left _ hf, hfo⟩
  · intro oid ho
    by_cases he : oid = db.nextOid
    · simp [he]
    · exact (h.oidsUsed oid (by simpa [Function.update_of_ne he] using ho)).trans (Nat.lt_succ_self _)
  · exact fun b hb => (h.bucketsUsed b hb).trans (Nat.lt_succ_self _)
  · intro f hf
    rcases List.mem_append.mp hf with hf | hf
    · exact (h.filesUsed f hf).trans (Nat.lt_succ_self _)
    · obtain rfl := List.mem_singleton.mp hf
      exact Nat.lt_succ_self _
  · intro oid c hc
    by_cases he : oid = db.nextOid
    · obtain rfl : [] = c := by simpa [he] using hc
      exact Nat.zero_le _
    · exact h.sizes oid c (by simpa [Function.update_of_ne he] using hc)

/-! Deletion. -/

/-- A row the batch removes. -/
def Removes (db : Db) (tie : FileId → ℕ) (f : FileRow) : Prop :=
  f ∈ db.files ∧ f.id ∈ (db.deletionBatch tie).map FileRow.id

theorem deletionBatch_subset {db : Db} {tie : FileId → ℕ} {f : FileRow}
    (h : f ∈ db.deletionBatch tie) : f ∈ db.files ∧ f.expired db.clock := by
  have h := (List.perm_insertionSort _ _).mem_iff.mp (List.mem_of_mem_take h)
  simpa [expiredFiles] using h

/-- The join on `id` finds the batch's own rows. -/
theorem Linked.removes_iff {db : Db} (h : db.Linked) {tie : FileId → ℕ} {f : FileRow} :
    db.Removes tie f ↔ f ∈ db.deletionBatch tie := by
  constructor
  · rintro ⟨hf, hid⟩
    obtain ⟨g, hg, he⟩ := List.mem_map.mp hid
    rwa [← eq_of_nodup_map h.ids (deletionBatch_subset hg).1 hf he]
  · exact fun hf => ⟨(deletionBatch_subset hf).1, List.mem_map_of_mem hf⟩

theorem mem_deleteBatch {db : Db} {tie : FileId → ℕ} {f : FileRow} :
    f ∈ (db.deleteBatch tie).files ↔ f ∈ db.files ∧ ¬ db.Removes tie f := by
  simp only [deleteBatch, Removes, List.mem_filter, decide_eq_true_eq]
  tauto

theorem Linked.objects_deleteBatch {db : Db} (h : db.Linked) (tie : FileId → ℕ) {f : FileRow}
    (hf : f ∈ db.files) [Decidable (db.Removes tie f)] :
    (db.deleteBatch tie).objects f.blob =
      if db.Removes tie f then none else db.objects f.blob := by
  have key : f.blob ∈ (db.files.filter fun g => g.id ∈ (db.deletionBatch tie).map FileRow.id).map
      FileRow.blob ↔ db.Removes tie f := by
    simp only [Removes, List.mem_map, List.mem_filter, decide_eq_true_eq]
    constructor
    · rintro ⟨g, ⟨hg, hid⟩, he⟩
      rw [← h.blob_inj hg hf he]
      exact ⟨hg, hid⟩
    · exact fun hr => ⟨f, hr, rfl⟩
  simp only [deleteBatch, key]

theorem objects_deleteBatch_some {db : Db} {tie : FileId → ℕ} {oid : Oid} {c : Bytes}
    (hc : (db.deleteBatch tie).objects oid = some c) :
    db.objects oid = some c ∧ ∀ f, db.Removes tie f → f.blob ≠ oid := by
  simp only [deleteBatch] at hc
  split at hc
  · cases hc
  · rename_i hne
    refine ⟨hc, fun f hf he => hne ?_⟩
    exact List.mem_map.mpr ⟨f, by simpa [Removes] using hf, he⟩

theorem Linked.deleteBatch {db : Db} (h : db.Linked) (tie : FileId → ℕ) :
    (db.deleteBatch tie).Linked := by
  classical
  have sub : (db.deleteBatch tie).files.Sublist db.files := List.filter_sublist
  refine { h with
    ids := h.ids.sublist (sub.map _), names := h.names.sublist (sub.map _)
    blobs := h.blobs.sublist (sub.map _), inBucket := fun f hf => h.inBucket f (sub.subset hf)
    hasBlob := ?_, owned := ?_, oidsUsed := ?_
    filesUsed := fun f hf => h.filesUsed f (sub.subset hf), sizes := ?_ }
  · intro f hf
    obtain ⟨hm, hr⟩ := mem_deleteBatch.mp hf
    simpa [h.objects_deleteBatch tie hm, hr] using h.hasBlob f hm
  · intro oid ho
    obtain ⟨c, hc⟩ := Option.isSome_iff_exists.mp ho
    obtain ⟨hc, hr⟩ := objects_deleteBatch_some hc
    obtain ⟨f, hf, he⟩ := h.owned oid (by simp [hc])
    exact ⟨f, mem_deleteBatch.mpr ⟨hf, fun hd => hr f hd he⟩, he⟩
  · intro oid ho
    obtain ⟨c, hc⟩ := Option.isSome_iff_exists.mp ho
    exact h.oidsUsed oid (by simp [(objects_deleteBatch_some hc).1])
  · exact fun oid c hc => h.sizes oid c (objects_deleteBatch_some hc).1

/-- In a linked database the batch never meets a missing blob. -/
theorem Linked.deleteOldFilesBatch_eq {db : Db} (h : db.Linked) (tie : FileId → ℕ) :
    ∃ k, db.deleteOldFilesBatch tie = .ok (k, db.deleteBatch tie) := by
  refine ⟨_, if_pos ?_⟩
  simp only [List.all_eq_true, List.mem_filter]
  exact fun f hf => h.hasBlob f hf.1

/-! Commit. -/

theorem length_apply_le {ws : List Write} {n : ℕ} (hw : ∀ w ∈ ws, w.pos + w.data.length ≤ n)
    (oid : Oid) {c : Bytes} (hc : c.length ≤ n) :
    (ws.foldl (fun c w => w.apply oid c) c).length ≤ n := by
  induction ws generalizing c with
  | nil => exact hc
  | cons w ws ih =>
    refine ih (fun v hv => hw v (List.mem_cons_of_mem _ hv)) ?_
    dsimp only [Write.apply]
    split
    · rw [length_patch]
      exact max_le hc (hw w List.mem_cons_self)
    · exact hc

/-- Writes to other objects change nothing. -/
theorem apply_of_ne {ws : List Write} {oid : Oid} (hw : ∀ w ∈ ws, w.oid ≠ oid) (c : Bytes) :
    ws.foldl (fun c w => w.apply oid c) c = c := by
  induction ws generalizing c with
  | nil => rfl
  | cons w ws ih =>
    rw [List.foldl_cons, Write.apply, if_neg (hw w List.mem_cons_self)]
    exact ih (fun v hv => hw v (List.mem_cons_of_mem _ hv)) c

theorem Linked.commit {db : Db} (h : db.Linked) {tx : Tx} (hb : (Conn.inTx tx).Bounded) :
    (db.commit tx).Linked := by
  have some_iff : ∀ oid, ((db.commit tx).objects oid).isSome = (db.objects oid).isSome := by
    simp [Db.commit]
  refine { h with hasBlob := ?_, owned := ?_, oidsUsed := ?_, sizes := ?_ }
  · exact fun f hf => (some_iff _).trans (h.hasBlob f hf)
  · exact fun oid ho => h.owned oid ((some_iff oid).symm.trans ho)
  · exact fun oid ho => h.oidsUsed oid ((some_iff oid).symm.trans ho)
  · intro oid c hc
    obtain ⟨c₀, hc₀, rfl⟩ := Option.map_eq_some_iff.mp hc
    exact length_apply_le hb oid (h.sizes oid c₀ hc₀)

end Db

end LocallyEuclidean.Postgres
