import LocallyEuclidean.Postgres.Linked

/-! What a batch removes: the expired rows with the earliest deadlines, up to the limit. -/

namespace LocallyEuclidean.Postgres

/-- What a prefix of a sorted list leaves out comes after all of it, and the prefix is full. -/
theorem length_take_of_not_mem {α : Type} {r : α → α → Prop} {l : List α} (hl : l.Pairwise r)
    {k : ℕ} {x : α} (hx : x ∈ l) (hk : x ∉ l.take k) :
    (l.take k).length = k ∧ ∀ y ∈ l.take k, r y x := by
  rw [← List.take_append_drop k l] at hx hl
  have hd : x ∈ l.drop k := (List.mem_append.mp hx).resolve_left hk
  refine ⟨?_, fun y hy => (List.pairwise_append.mp hl).2.2 y hy x hd⟩
  rw [List.length_take, min_eq_left]
  have := List.length_pos_of_mem hd
  rw [List.length_drop] at this
  omega

instance (tie : FileId → ℕ) : Std.Total (FileRow.expiresBefore tie) where
  total f g := by
    rcases lt_trichotomy (f.deleteAfter.getD 0) (g.deleteAfter.getD 0) with h | h | h
    · exact .inl (.inl h)
    · exact (le_total (tie f.id) (tie g.id)).imp (fun ht => .inr ⟨h, ht⟩) (fun ht => .inr ⟨h.symm, ht⟩)
    · exact .inr (.inl h)

instance (tie : FileId → ℕ) : IsTrans FileRow (FileRow.expiresBefore tie) where
  trans f g h := by
    rintro (h₁ | ⟨h₁, t₁⟩) (h₂ | ⟨h₂, t₂⟩)
    · exact .inl (h₁.trans h₂)
    · exact .inl (h₂ ▸ h₁)
    · exact .inl (h₁ ▸ h₂)
    · exact .inr ⟨h₁.trans h₂, t₁.trans t₂⟩

theorem FileRow.expired_iff {f : FileRow} {now : Timestamp} :
    f.expired now = true ↔ ∃ t, f.deleteAfter = some t ∧ t < now := by
  unfold expired
  split <;> simp_all

/-- A deadline that comes before another's. -/
theorem FileRow.deleteAfter_le {tie : FileId → ℕ} {f g : FileRow} (h : g.expiresBefore tie f)
    {s t : Timestamp} (hg : g.deleteAfter = some s) (hf : f.deleteAfter = some t) : s ≤ t := by
  unfold expiresBefore at h
  simp only [hg, hf, Option.getD_some] at h
  exact h.elim le_of_lt fun h => h.1.le

namespace Db

variable {db : Db} {tie : FileId → ℕ}

theorem mem_expiredFiles {f : FileRow} :
    f ∈ db.expiredFiles ↔ f ∈ db.files ∧ f.expired db.clock := by
  simp [expiredFiles]

theorem length_deletionBatch (db : Db) (tie : FileId → ℕ) :
    (db.deletionBatch tie).length = min batchLimit db.expiredFiles.length := by
  rw [deletionBatch, List.length_take, List.length_insertionSort]

/-- An expired row that the batch leaves is behind a full batch. -/
theorem deletionBatch_full {f : FileRow} (hf : f ∈ db.files) (he : f.expired db.clock)
    (hb : f ∉ db.deletionBatch tie) : (db.deletionBatch tie).length = batchLimit ∧
      ∀ g ∈ db.deletionBatch tie, g.expiresBefore tie f := by
  refine length_take_of_not_mem (List.pairwise_insertionSort _ _) ?_ hb
  exact (List.mem_insertionSort _).mpr (mem_expiredFiles.mpr ⟨hf, he⟩)

/-- The rows that the delete removes are the batch. -/
theorem Linked.removed_perm (h : db.Linked) (tie : FileId → ℕ) :
    (db.files.filter fun f => f ∉ (db.deleteBatch tie).files).Perm (db.deletionBatch tie) := by
  have nodup : db.files.Nodup := h.ids.of_map _
  refine (List.perm_ext_iff_of_nodup (nodup.filter _) ?_).mpr fun f => ?_
  · refine List.Nodup.sublist (List.take_sublist _ _) ?_
    exact (List.perm_insertionSort _ _).nodup_iff.mpr (nodup.filter _)
  · rw [← h.removes_iff, List.mem_filter, decide_eq_true_eq, mem_deleteBatch]
    constructor
    · rintro ⟨hf, hn⟩
      exact not_not.mp fun hr => hn ⟨hf, hr⟩
    · exact fun hr => ⟨hr.1, fun hn => hn.2 hr⟩

end Db

end LocallyEuclidean.Postgres
