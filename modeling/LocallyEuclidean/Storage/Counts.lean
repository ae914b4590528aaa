import LocallyEuclidean.Interact.Liveness
import LocallyEuclidean.Storage.Rules

/-! How many statements the storage code sends, whatever they are answered. -/

namespace LocallyEuclidean.Storage
open Interact Postgres

variable {ε α : Type}

theorem fetch_atMost (q : Query) (wrap : SqlxError → ε) : (fetch q wrap).AtMost 1 := by
  intro a
  cases a <;> trivial

theorem okOr_atMost (x : Option α) (e : ε) : (okOr x e : DbProg ε α).AtMost 0 := by
  cases x <;> trivial

namespace BlobHandle

theorem open_atMost (oid : Oid) (mode : OpenMode) : (BlobHandle.open oid mode).AtMost 2 :=
  .bind (m := 2) (k := 0) (.bind (m := 1) (k := 1) (fetch_atMost _ _) fun _ =>
    .bind (m := 1) (k := 0) (fetch_atMost _ _) fun _ =>
      .bind (m := 0) (k := 0) (okOr_atMost _ _) fun _ => .ret 0 _) fun _ => .ret 0 _

variable (h : BlobHandle)

theorem live_atMost {f : BlobHandleInner → DbProg FileHandleError α} {m : ℕ}
    (hf : ∀ inner, (f inner).AtMost m) : (do let inner ← h.live; f inner).AtMost m := by
  rw [← Nat.zero_add m]
  exact .bind (okOr_atMost _ _) hf

theorem answer_atMost (q : Query) (wrap : SqlxError → ε) (f : q.Row → Option α) (e : ε) :
    (do let row ← fetch q wrap; okOr (f row) e).AtMost 1 :=
  .bind (m := 1) (k := 0) (fetch_atMost q wrap) fun _ => okOr_atMost _ _

theorem seek_atMost (position : SeekFrom) : (h.seek position).AtMost 1 := by
  refine .bind (m := 1) (k := 0) (.mapErr (h.live_atMost fun inner => ?_) _) fun offset => ?_
  · cases position <;> exact answer_atMost (.loLseek64 _ _ _) _ id _
  · split
    · exact .ret 0 _
    · exact .panic 0 _

theorem read_atMost (room : ℕ) : (h.read room).AtMost 1 := by
  unfold BlobHandle.read
  dsimp only
  split
  · refine .bind (m := 1) (k := 0) (.mapErr (h.live_atMost fun inner =>
      answer_atMost (.loRead _ _) _ id _) _) fun data => ?_
    split
    · exact .ret 0 _
    · exact .panic 0 _
  · exact .panic 1 _

theorem write_atMost (data : Bytes) : (h.write data).AtMost 1 := by
  refine .bind (m := 1) (k := 0) (.mapErr (h.live_atMost fun inner =>
    answer_atMost (.loWrite _ _) _ id _) _) fun written => ?_
  split
  · exact .ret 0 _
  · exact .panic 0 _

theorem shutdown_atMost : h.shutdown.AtMost 2 :=
  .mapErr (h.live_atMost fun _ => .bind (m := 1) (k := 1) (fetch_atMost _ _) fun _ =>
    .bind (m := 0) (k := 1) (okOr_atMost _ _) fun _ => fetch_atMost _ _) _

theorem readExact_atMost (len : ℕ) : (h.readExact len).AtMost len := by
  suffices ∀ turns buf, (h.readExactLoop len turns buf).AtMost turns from this len []
  intro turns
  induction turns with
  | zero =>
    intro buf
    unfold readExactLoop
    split
    · exact .ret 0 _
    · exact .err 0 _
  | succ turns ih =>
    intro buf
    unfold readExactLoop
    split
    · exact .ret _ _
    · rw [Nat.add_comm]
      refine .bind (h.read_atMost _) fun data => ?_
      split
      · exact .err _ _
      · exact ih _

theorem readU8_atMost : h.readU8.AtMost 1 := by
  refine .bind (m := 1) (k := 0) (h.read_atMost 1) fun data => ?_
  cases data with
  | nil => exact .err 0 _
  | cons b rest => exact .ret 0 _

theorem writeAll_atMost (data : Bytes) : (h.writeAll data).AtMost data.length := by
  suffices ∀ turns buf, (h.writeAllLoop turns buf).AtMost turns from this _ data
  intro turns
  induction turns with
  | zero =>
    intro buf
    unfold writeAllLoop
    split
    · exact .ret 0 _
    · exact .err 0 _
  | succ turns ih =>
    intro buf
    unfold writeAllLoop
    split
    · exact .ret _ _
    · rw [Nat.add_comm]
      refine .bind (h.write_atMost _) fun n => ?_
      split
      · exact .panic _ _
      · split
        · exact .err _ _
        · exact ih _

end BlobHandle

namespace PostgresFileHandle

theorem new_atMost (oid : Oid) (id : FileId) : (PostgresFileHandle.new oid id).AtMost 2 :=
  .bind (m := 2) (k := 0) (BlobHandle.open_atMost oid .readWrite) fun _ => .ret 0 _

theorem append_atMost (h : PostgresFileHandle) (data : Bytes) :
    (h.append data).AtMost (1 + data.length) :=
  .bind (.mapErr (BlobHandle.seek_atMost _ _) _) fun _ => .mapErr (BlobHandle.writeAll_atMost _ _) _

theorem metadata_atMost (h : PostgresFileHandle) : h.metadata.AtMost 1 := by
  unfold PostgresFileHandle.metadata
  split
  · exact .panic 1 _
  · exact fetch_atMost _ _

end PostgresFileHandle

theorem PostgresBackend.bucket_atMost (name : String) : (PostgresBackend.bucket name).AtMost 1 := by
  refine .bind (m := 1) (k := 0) (.mapErr (.bind (m := 1) (k := 0)
    (fetch_atMost (.bucketByName name) _) fun row => ?_) _) fun b => ?_
  · obtain _ | ⟨id, _ | ttl⟩ := row
    · exact .ret 0 _
    · exact .ret 0 _
    · dsimp only
      split
      · exact .ret 0 _
      · exact .panic 0 _
  · cases b with
    | none => exact .err 0 _
    | some b => exact .ret 0 _

namespace PostgresBucket

theorem file_atMost (b : PostgresBucket) (fileName : String) : (b.file fileName).AtMost 3 := by
  refine .bind (m := 1) (k := 2) (fetch_atMost (.fileByName b.id fileName) _) fun row => ?_
  cases row with
  | none => exact .err 2 _
  | some row => exact .mapErr (PostgresFileHandle.new_atMost _ _) _

theorem createFile_atMost (b : PostgresBucket) (fileName : String) (now : DateTime) :
    (b.createFile fileName now).AtMost 3 := by
  obtain ⟨deleteAfter, hd⟩ | hd := b.deleteAfter_cases now
  · simp only [PostgresBucket.createFile, hd, Prog.bind_eq, Prog.bind]
    refine .bind (m := 1) (k := 2) (.ask (m := 0) _) fun a => ?_
    obtain (_ | _ | _ | _) | row := a
    · exact .err 2 _
    · exact .err 2 _
    · exact .err 2 _
    · exact .err 2 _
    · exact .mapErr (PostgresFileHandle.new_atMost _ _) _
  · simp only [PostgresBucket.createFile, hd, Prog.bind_eq, Prog.bind]
    exact .panic 3 _

end PostgresBucket

end LocallyEuclidean.Storage
