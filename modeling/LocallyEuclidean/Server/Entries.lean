import LocallyEuclidean.Server.Depot
import LocallyEuclidean.Server.Maintenance

/-! The depot that a database holds: each name with its row, and with the object that the row
points to. -/

namespace LocallyEuclidean.Server
open Interact Postgres Storage

/-- The row of a name. -/
def rowOf (db : Db) (k : String × String) : Option FileRow := do
  let b ← db.findBucket k.1
  db.findFile b.id k.2

def entry (db : Db) (bucket filename : String) : Option Entry := do
  let f ← rowOf db (bucket, filename)
  let c ← db.objects f.blob
  return ⟨c, f.deleteAfter, f.updatedAt⟩

def depot (db : Db) : Depot where
  buckets := db.buckets.map fun b => (b.name, b.defaultTtl.map Interval.delta)
  entries := entry db
  clock := db.clock

theorem depot_ttl (db : Db) (name : String) :
    (depot db).ttl name = (db.findBucket name).map fun b => b.defaultTtl.map Interval.delta := by
  rw [Depot.ttl, depot, List.find?_map, Option.map_map]
  rfl

section Rows

variable {db : Db} {k k' : String × String} {b : BucketRow} {f g : FileRow} {c : Bytes}

theorem rowOf_eq (hb : db.findBucket k.1 = some b) : rowOf db k = db.findFile b.id k.2 := by
  simp [rowOf, hb]

theorem rowOf_eq_some : rowOf db k = some f ↔
    ∃ b, db.findBucket k.1 = some b ∧ db.findFile b.id k.2 = some f := by
  simp [rowOf, Option.bind_eq_some_iff]

theorem mem_of_rowOf (hf : rowOf db k = some f) : f ∈ db.files := by
  obtain ⟨b, -, hf⟩ := rowOf_eq_some.mp hf
  exact (Db.findFile_some hf).1

/-- Two names of one blob are one. -/
theorem rowOf_inj (h : db.Linked) (hf : rowOf db k = some f) (hg : rowOf db k' = some g)
    (he : g.blob = f.blob) : k' = k := by
  obtain ⟨b, hb, hf⟩ := rowOf_eq_some.mp hf
  obtain ⟨b', hb', hg⟩ := rowOf_eq_some.mp hg
  obtain ⟨h₁, h₂⟩ := h.names_eq hb hf hb' hg he
  exact Prod.ext h₁ h₂

theorem entry_of_row (hf : rowOf db k = some f) (hc : db.objects f.blob = some c) :
    entry db k.1 k.2 = some ⟨c, f.deleteAfter, f.updatedAt⟩ := by
  simp [entry, hf, hc]

theorem entry_of_no_row (hf : rowOf db k = none) : entry db k.1 k.2 = none := by
  simp [entry, hf]

/-- The name that a row is found by. -/
def nameOf (db : Db) (f : FileRow) : String × String :=
  (((db.buckets.find? fun b => b.id = f.bucketId).map BucketRow.name).getD "", f.filename)

theorem rowOf_nameOf (h : db.Linked) (hf : f ∈ db.files) : rowOf db (nameOf db f) = some f := by
  obtain ⟨b, hb, hid⟩ := h.inBucket f hf
  have hfind : db.buckets.find? (fun b => b.id = f.bucketId) = some b := by
    rw [← hid]
    exact find?_eq_some_of_nodup h.bucketIds hb
  refine rowOf_eq_some.mpr ⟨b, ?_, ?_⟩
  · rw [nameOf, hfind]
    exact h.findBucket_of_mem hb
  · rw [hid]
    exact h.findFile_of_mem hf

theorem nameOf_inj (h : db.Linked) (hf : f ∈ db.files) (hg : g ∈ db.files)
    (he : nameOf db f = nameOf db g) : f = g := by
  have hrow := rowOf_nameOf h hf
  rw [he, rowOf_nameOf h hg] at hrow
  exact (Option.some.inj hrow).symm

theorem entry_eq_some (h : db.Linked) {e : Entry} : entry db k.1 k.2 = some e ↔
    ∃ f ∈ db.files, nameOf db f = k ∧
      ∃ c, db.objects f.blob = some c ∧ e = ⟨c, f.deleteAfter, f.updatedAt⟩ := by
  constructor
  · intro he
    simp only [entry, Option.bind_eq_bind, Option.bind_eq_some_iff] at he
    obtain ⟨f, hf, c, hc, he⟩ := he
    have hm := mem_of_rowOf hf
    exact ⟨f, hm, rowOf_inj h hf (rowOf_nameOf h hm) rfl, c, hc, (Option.some.inj he).symm⟩
  · rintro ⟨f, hf, rfl, c, hc, rfl⟩
    exact entry_of_row (rowOf_nameOf h hf) hc

end Rows

/-! What leaves the file of a name as it is. -/

structure Elsewhere (k : String × String) (db db' : Db) : Prop where
  bucket : db'.findBucket k.1 = db.findBucket k.1
  row : rowOf db' k = rowOf db k
  object : ∀ f, rowOf db k = some f → db'.objects f.blob = db.objects f.blob

namespace Elsewhere

variable {k : String × String} {db db' db'' : Db}

theorem refl (k : String × String) (db : Db) : Elsewhere k db db := ⟨rfl, rfl, fun _ _ => rfl⟩

theorem trans (h : Elsewhere k db db') (h' : Elsewhere k db' db'') : Elsewhere k db db'' :=
  ⟨h'.bucket.trans h.bucket, h'.row.trans h.row, fun f hf =>
    (h'.object f (h.row.trans hf)).trans (h.object f hf)⟩

theorem entry (h : Elsewhere k db db') : entry db' k.1 k.2 = entry db k.1 k.2 := by
  cases hf : rowOf db k with
  | none => rw [entry_of_no_row hf, entry_of_no_row (h.row.trans hf)]
  | some f =>
    simp only [Server.entry, h.row, hf, Option.bind_eq_bind, Option.bind_some, h.object f hf]

/-- New bytes of another file. -/
theorem store (h : db.Linked) {k' : String × String} {f : FileRow} (hf : rowOf db k = some f)
    (hk : k' ≠ k) (c : Bytes) : Elsewhere k' db (db.store f.blob c) :=
  ⟨rfl, rfl, fun _ hg => Db.store_objects_of_ne (fun he => hk (rowOf_inj h hf hg he)) c⟩

theorem rowOf_withFile (h : db.Linked) {b : BucketRow} (hb : db.findBucket k.1 = some b)
    (hf : rowOf db k = none) (deadline : Option Timestamp) (k' : String × String) :
    rowOf (db.withFile b.id k.2 deadline) k' =
      if k' = k then some (db.newRow b.id k.2 deadline) else rowOf db k' := by
  rw [rowOf_eq hb] at hf
  have hfb : ∀ name, (db.withFile b.id k.2 deadline).findBucket name = db.findBucket name :=
    fun _ => rfl
  simp only [rowOf, hfb]
  cases hb' : db.findBucket k'.1 with
  | none =>
    rw [if_neg (by rintro rfl; cases hb.symm.trans hb')]
    rfl
  | some b' =>
    have key : (b'.id = b.id ∧ k'.2 = k.2) ↔ k' = k := by
      constructor
      · rintro ⟨he, h₂⟩
        refine Prod.ext ?_ h₂
        rw [← (Db.findBucket_some hb').2, ← (Db.findBucket_some hb).2,
          h.bucket_eq (Db.findBucket_some hb').1 (Db.findBucket_some hb).1 he]
      · rintro rfl
        rw [Option.some.inj (hb.symm.trans hb')]
        exact ⟨rfl, rfl⟩
    simp only [Option.bind_eq_bind, Option.bind_some, Db.findFile_withFile b.id k.2 deadline hf, key]

/-- A new file of another name. -/
theorem withFile (h : db.Linked) {k' : String × String} {b : BucketRow}
    (hb : db.findBucket k.1 = some b) (hf : rowOf db k = none) (deadline : Option Timestamp)
    (hk : k' ≠ k) : Elsewhere k' db (db.withFile b.id k.2 deadline) := by
  refine ⟨rfl, ?_, fun g hg => ?_⟩
  · rw [rowOf_withFile h hb hf, if_neg hk]
  · simp [Db.withFile, Function.update_of_ne (h.blob_ne_nextOid (mem_of_rowOf hg))]

end Elsewhere

section Depot

variable {db : Db}

/-- A new bucket has no files. -/
theorem depot_insertBucket (h : db.Linked) {db' : Db} {name : String} {ttl : Option Interval}
    {id : BucketId} (hr : db.insertBucket name ttl = .ok (id, db')) :
    depot db' = { depot db with buckets := (depot db).buckets ++ [(name, ttl.map Interval.delta)] } := by
  have found := Db.findBucket_insertBucket hr
  unfold Db.insertBucket at hr
  split at hr
  · cases hr
  · rename_i hn
    obtain ⟨rfl, rfl⟩ := Prod.mk.inj (Except.ok.inj hr)
    ext1
    · simp [depot]
    · funext b' f'
      simp only [depot, entry, rowOf]
      by_cases hb : b' = name
      · subst hb
        have empty : db.findFile ⟨db.nextUuid⟩ f' = none := by
          refine List.find?_eq_none.mpr fun f hf => ?_
          obtain ⟨b, hb, he⟩ := h.inBucket f hf
          have used := h.bucketsUsed b hb
          simp only [decide_eq_true_eq, not_and]
          rintro hid -
          rw [he, hid] at used
          exact lt_irrefl _ used
        rw [found, Option.not_isSome_iff_eq_none.mp hn]
        simp only [Option.bind_eq_bind, Option.bind_some, Option.bind_none]
        exact Option.bind_eq_none_iff.mpr fun f hf => by cases empty.symm.trans hf
      · have old : ∀ row : BucketRow, row.name = name →
            (db.buckets ++ [row]).find? (fun b => b.name = b') = db.findBucket b' := by
          rintro row rfl
          rw [List.find?_append, List.find?_singleton, if_neg (by simpa using Ne.symm hb),
            Option.or_none, Db.findBucket]
        simp only [Db.findBucket] at old ⊢
        rw [old ⟨⟨db.nextUuid⟩, name, ttl⟩ rfl]
        rfl
    · rfl

/-- As many names as rows. -/
theorem ncard_names (h : db.Linked) (rows : List FileRow) (hn : rows.Nodup)
    (hs : ∀ f ∈ rows, f ∈ db.files) : { k | ∃ f ∈ rows, nameOf db f = k }.ncard = rows.length := by
  have inj : Set.InjOn (nameOf db) { f | f ∈ rows } :=
    fun f hf g hg he => nameOf_inj h (hs f hf) (hs g hg) he
  have himage : { k | ∃ f ∈ rows, nameOf db f = k } = Set.image (nameOf db) { f | f ∈ rows } := rfl
  rw [himage, inj.ncard_image, ← List.coe_toFinset, Set.ncard_coe_finset,
    List.toFinset_card_of_nodup hn]

theorem expiredKeys_depot (h : db.Linked) :
    (depot db).expiredKeys = { k | ∃ f ∈ db.expiredFiles, nameOf db f = k } := by
  ext k
  constructor
  · rintro ⟨e, he, t, ht, hlt⟩
    obtain ⟨f, hf, hk, c, hc, rfl⟩ := (entry_eq_some h).mp he
    exact ⟨f, Db.mem_expiredFiles.mpr ⟨hf, FileRow.expired_iff.mpr ⟨t, ht, hlt⟩⟩, hk⟩
  · rintro ⟨f, hf, hk⟩
    obtain ⟨hm, hx⟩ := Db.mem_expiredFiles.mp hf
    obtain ⟨c, hc⟩ := Option.isSome_iff_exists.mp (h.hasBlob f hm)
    exact ⟨_, (entry_eq_some h).mpr ⟨f, hm, hk, c, hc, rfl⟩, FileRow.expired_iff.mp hx⟩

section Batch

variable (h : db.Linked) (tie : FileId → ℕ)
include h

/-- A row that is kept keeps its entry. -/
theorem entry_deleteBatch {e : Entry} {k : String × String}
    (he : entry (db.deleteBatch tie) k.1 k.2 = some e) :
    entry db k.1 k.2 = some e ∧ ∃ f ∈ (db.deleteBatch tie).files, nameOf db f = k := by
  obtain ⟨f, hf, hk, c, hc, rfl⟩ := (entry_eq_some (h.deleteBatch tie)).mp he
  refine ⟨(entry_eq_some h).mpr ⟨f, ?_, hk, c, ?_, rfl⟩, f, hf, hk⟩
  · exact (Db.mem_deleteBatch.mp hf).1
  · exact (Db.objects_deleteBatch_some hc).1

theorem removedKeys_depot : (depot db).removedKeys (depot (db.deleteBatch tie)) =
    { k | ∃ f ∈ removed db (db.deleteBatch tie), nameOf db f = k } := by
  ext k
  constructor
  · rintro ⟨hk, hgone⟩
    obtain ⟨e, he⟩ := Option.isSome_iff_exists.mp hk
    obtain ⟨f, hf, hk, -⟩ := (entry_eq_some h).mp he
    refine ⟨f, ?_, hk⟩
    simp only [removed, List.mem_filter, decide_eq_true_eq]
    refine ⟨hf, fun hf' => ?_⟩
    obtain ⟨c, hc⟩ := Option.isSome_iff_exists.mp ((h.deleteBatch tie).hasBlob f hf')
    cases hgone.symm.trans ((entry_eq_some (h.deleteBatch tie)).mpr ⟨f, hf', hk, c, hc, rfl⟩)
  · rintro ⟨f, hf, hk⟩
    simp only [removed, List.mem_filter, decide_eq_true_eq] at hf
    obtain ⟨c, hc⟩ := Option.isSome_iff_exists.mp (h.hasBlob f hf.1)
    have he := (entry_eq_some h).mpr ⟨f, hf.1, hk, c, hc, rfl⟩
    refine ⟨Option.isSome_iff_exists.mpr ⟨_, he⟩, ?_⟩
    by_contra hne
    obtain ⟨e, hkept⟩ := Option.ne_none_iff_exists'.mp hne
    obtain ⟨-, g, hg, hk'⟩ := entry_deleteBatch h tie hkept
    refine hf.2 ?_
    rwa [nameOf_inj h hf.1 (Db.mem_deleteBatch.mp hg).1 (hk.trans hk'.symm)]

theorem swept_deleteBatch : (depot db).Swept (depot (db.deleteBatch tie)) := by
  have batched := batched_deleteBatch h tie
  have nodup : db.files.Nodup := h.ids.of_map _
  refine ⟨rfl, rfl, fun b f => ?_, ?_, ?_, ?_⟩
  · cases he : (depot (db.deleteBatch tie)).entries b f with
    | none => exact .inr rfl
    | some e => exact .inl (entry_deleteBatch h tie (k := (b, f)) he).1.symm
  · rw [removedKeys_depot h, expiredKeys_depot h]
    rintro k ⟨f, hf, hk⟩
    exact ⟨f, batched.expired f hf, hk⟩
  · intro b f e b' f' e' he hgone he' hx s t hs ht
    have hk : (b, f) ∈ (depot db).removedKeys (depot (db.deleteBatch tie)) := ⟨by simp [he], hgone⟩
    rw [removedKeys_depot h] at hk
    obtain ⟨g, hg, hname⟩ := hk
    obtain ⟨g', hg', hname', c', -, rfl⟩ := (entry_eq_some (h.deleteBatch tie) (k := (b', f'))).mp he'
    obtain ⟨g₀, hg₀, hname₀, c, -, rfl⟩ := (entry_eq_some h (k := (b, f))).mp he
    obtain rfl : g₀ = g :=
      nameOf_inj h hg₀ (List.mem_of_mem_filter hg) (hname₀.trans hname.symm)
    exact batched.oldest g' hg' (FileRow.expired_iff.mpr hx) g₀ hg s t hs ht
  · have hexp := ncard_names h db.expiredFiles (nodup.filter _)
      fun f hf => (Db.mem_expiredFiles.mp hf).1
    have hrem := ncard_names h (removed db (db.deleteBatch tie)) (nodup.filter _)
      fun f hf => List.mem_of_mem_filter hf
    rw [removedKeys_depot h, expiredKeys_depot h, hexp, hrem, batched.count]

end Batch

end Depot

end LocallyEuclidean.Server
