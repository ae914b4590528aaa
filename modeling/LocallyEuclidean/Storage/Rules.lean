import LocallyEuclidean.Interact.Protocol
import LocallyEuclidean.Storage.Reader

/-! Rules for the storage code in any logic of calls: what is left to show of an
operation is what its statements do. The loops take a family of assertions
indexed by the bytes that have gone by. -/

namespace LocallyEuclidean.Storage
open Interact Postgres

variable {S ε α : Type} {L : Logic Query.Reply S}

theorem asI64_of_le {n : ℕ} (h : n ≤ maxObjectSize) : asI64 n = n := by
  unfold maxObjectSize at h
  exact Int.bmod_eq_of_le (by omega) (by omega)

theorem asI32_of_le {n : ℕ} (h : n ≤ 8 * mib) : asI32 n = n := by
  unfold mib at h
  exact Int.bmod_eq_of_le (by omega) (by omega)

@[simp] theorem wp_send (q : Query) (post : Outcome ε q.Reply → S → Prop) (s : S) :
    L.wp (send q) post s ↔ L.call q (fun a s' => post (.ok a) s') s := Iff.rfl

/-- The two ends of a statement that the code sends with `?`. -/
def fetched {q : Query} (wrap : SqlxError → ε) (post : Outcome ε q.Row → S → Prop) :
    q.Reply → S → Prop
  | .ok row, s => post (.ok row) s
  | .error e, s => post (.err (wrap e)) s

theorem wp_fetch {q : Query} {wrap : SqlxError → ε} {post : Outcome ε q.Row → S → Prop} {s : S}
    (h : L.call q (fetched wrap post) s) : L.wp (fetch q wrap) post s := by
  simp only [fetch, Prog.bind_eq, Logic.wp_bind, wp_send]
  refine L.mono (fun a s' ha => ?_) h
  cases a <;> exact ha

namespace BlobHandle

variable {fd : ℤ}

/-- A handle that has not been shut down. -/
abbrev ofFd (fd : ℤ) : BlobHandle := ⟨some ⟨fd⟩⟩

theorem wp_open {oid : Oid} {mode : OpenMode} {post : Outcome FileHandleError BlobHandle → S → Prop}
    {s : S}
    (h : L.call .beginTx (fun a s₁ => a = .ok () ∧ L.call (.loOpen oid mode.bits) (fun a s' =>
      (∃ fd, a = .ok (some fd) ∧ post (.ok (ofFd fd)) s') ∨
        ∃ e, a = .error e ∧ post (.err (.queryFailed "select lo_open($1, $2)" e)) s') s₁) s) :
    L.wp (BlobHandle.open oid mode) post s := by
  simp only [BlobHandle.open, BlobHandleInner.open, Prog.bind_eq, Logic.wp_bind]
  refine wp_fetch (L.mono ?_ h)
  rintro _ s₁ ⟨rfl, h⟩
  simp only [fetched, Logic.after_ok, Logic.wp_bind]
  refine wp_fetch (L.mono ?_ h)
  rintro _ s' (⟨fd, rfl, h⟩ | ⟨e, rfl, h⟩)
  · exact h
  · exact h

theorem wp_seek {position : SeekFrom} {n : ℤ} {whence : Whence} {post : Outcome IoError ℕ → S → Prop}
    {s : S}
    (hp : (match position with
      | .start n => (asI64 n, .seekSet)
      | .current n => (n, .seekCur)
      | .fromEnd n => (n, .seekEnd)) = (n, whence))
    (h : L.call (.loLseek64 fd n whence) (fun a s' =>
      (∃ k : ℕ, a = .ok (some (k : ℤ)) ∧ post (.ok k) s') ∨
        ∃ e, a = .error e ∧
          post (.err (.other (.queryFailed "select lo_lseek64($1, $2, $3)" e))) s') s) :
    L.wp ((ofFd fd).seek position) post s := by
  have he : BlobHandleInner.lseek64 ⟨fd⟩ position =
      (fetch (.loLseek64 fd n whence) (.queryFailed "select lo_lseek64($1, $2, $3)")).bind
        fun result => okOr result .emptyLseek64 := by
    cases position <;>
      (obtain ⟨rfl, rfl⟩ := Prod.mk.inj hp; simp only [BlobHandleInner.lseek64, Prog.bind_eq])
  simp only [BlobHandle.seek, live, okOr, Prog.bind_eq, Prog.bind, Logic.wp_bind, Logic.wp_mapErr, he]
  refine wp_fetch (L.mono ?_ h)
  rintro _ s' (⟨k, rfl, h⟩ | ⟨e, rfl, h⟩)
  · simpa only [fetched, Logic.after_ok, okOr, Logic.wp_ret, Outcome.mapErr, Int.natCast_nonneg,
      if_true, Prog.pure_eq, Int.toNat_natCast] using h
  · exact h

theorem wp_seekEnd {post : Outcome IoError ℕ → S → Prop} {s : S}
    (h : L.call (.loLseek64 fd 0 .seekEnd) (fun a s' =>
      ∃ k : ℕ, a = .ok (some (k : ℤ)) ∧ post (.ok k) s') s) :
    L.wp ((ofFd fd).seek (.fromEnd 0)) post s :=
  wp_seek rfl (L.mono (fun _ _ => .inl) h)

theorem wp_seekStart {n : ℕ} (hn : n ≤ maxObjectSize) {post : Outcome IoError ℕ → S → Prop} {s : S}
    (h : L.call (.loLseek64 fd n .seekSet) (fun a s' =>
      ∃ k : ℕ, a = .ok (some (k : ℤ)) ∧ post (.ok k) s') s) :
    L.wp ((ofFd fd).seek (.start n)) post s :=
  wp_seek (congrArg (·, Whence.seekSet) (asI64_of_le hn)) (L.mono (fun _ _ => .inl) h)

theorem wp_read {room : ℕ} {post : Outcome IoError Bytes → S → Prop} {s : S}
    (h : L.call (.loRead fd (min room (8 * mib) : ℕ)) (fun a s' =>
      ∃ data, a = .ok (some data) ∧ data.length ≤ room ∧ post (.ok data) s') s) :
    L.wp ((ofFd fd).read room) post s := by
  have hc : min room (8 * mib) ≤ 8 * mib := min_le_right _ _
  have hlt : min room (8 * mib) < 2 ^ 32 := lt_of_le_of_lt hc (by decide)
  simp only [BlobHandle.read, if_pos hlt, live, okOr, BlobHandleInner.read, Prog.bind_eq, Prog.bind,
    Logic.wp_bind, Logic.wp_mapErr]
  rw [asI32_of_le hc]
  refine wp_fetch (L.mono ?_ h)
  rintro _ s' ⟨data, rfl, hl, h⟩
  simpa only [fetched, Logic.after_ok, okOr, Logic.wp_ret, Outcome.mapErr, if_pos hl,
    Prog.pure_eq] using h

theorem wp_write {data : Bytes} {post : Outcome IoError ℕ → S → Prop} {s : S}
    (h : L.call (.loWrite fd data) (fun a s' =>
      (∃ n : ℕ, a = .ok (some (n : ℤ)) ∧ post (.ok n) s') ∨
        ∃ e, a = .error e ∧
          post (.err (.other (.queryFailed "select lowrite($1, $2)" e))) s') s) :
    L.wp ((ofFd fd).write data) post s := by
  simp only [BlobHandle.write, live, okOr, BlobHandleInner.write, Prog.bind_eq, Prog.bind,
    Logic.wp_bind, Logic.wp_mapErr]
  refine wp_fetch (L.mono ?_ h)
  rintro _ s' (⟨n, rfl, h⟩ | ⟨e, rfl, h⟩)
  · simpa only [fetched, Logic.after_ok, okOr, Logic.wp_ret, Outcome.mapErr, Int.natCast_nonneg,
      if_true, Prog.pure_eq, Int.toNat_natCast] using h
  · exact h

/-- Postgres takes the whole buffer in one write, or none of it. -/
theorem wp_writeAll {data : Bytes} {post : Outcome IoError Unit → S → Prop} {s : S}
    (h0 : data = [] → post (.ok ()) s)
    (h : data ≠ [] → L.call (.loWrite fd data) (fun a s' =>
      (a = .ok (some (data.length : ℤ)) ∧ post (.ok ()) s') ∨
        ∃ e, a = .error e ∧
          post (.err (.other (.queryFailed "select lowrite($1, $2)" e))) s') s) :
    L.wp ((ofFd fd).writeAll data) post s := by
  by_cases hd : data = []
  · subst hd
    exact h0 rfl
  have done : ∀ turns, writeAllLoop (ofFd fd) turns [] = .ret () := by
    intro turns
    cases turns <;> simp [writeAllLoop]
  obtain ⟨turns, ht⟩ := Nat.exists_eq_succ_of_ne_zero (mt List.eq_nil_of_length_eq_zero hd)
  rw [writeAll, ht]
  simp only [writeAllLoop, if_neg hd, Prog.bind_eq, Logic.wp_bind]
  refine wp_write (L.mono ?_ (h hd))
  rintro _ s' (⟨rfl, h⟩ | ⟨e, rfl, h⟩)
  · have hz : data.length ≠ 0 := by omega
    refine .inl ⟨data.length, rfl, ?_⟩
    simpa only [Logic.after_ok, lt_irrefl, if_false, if_neg hz, List.drop_length, done,
      Logic.wp_ret] using h
  · exact .inr ⟨e, rfl, h⟩

theorem wp_shutdown {post : Outcome IoError Unit → S → Prop} {s : S}
    (h : L.call (.loClose fd) (fun a s₁ => (∃ r, a = .ok (some r)) ∧
      L.call .commitTx (fun a s' => a = .ok () ∧ post (.ok ()) s') s₁) s) :
    L.wp (ofFd fd).shutdown post s := by
  simp only [shutdown, live, okOr, BlobHandleInner.close, Prog.bind_eq, Prog.bind, Logic.wp_bind,
    Logic.wp_mapErr]
  refine wp_fetch (L.mono ?_ h)
  rintro _ s₁ ⟨⟨r, rfl⟩, h⟩
  simp only [fetched, Logic.after_ok, Logic.wp_bind, Logic.wp_ret]
  refine wp_fetch (L.mono ?_ h)
  rintro _ s' ⟨rfl, h⟩
  exact h

/-! Reading on: `A m` holds once the bytes `m` have been read, `E m` once the end of
the file has been met there. -/

section Reading

variable {A E : Bytes → S → Prop}

/-- What every read must do for the rules below. -/
def ReadsOn (L : Logic Query.Reply S) (fd : ℤ) (A E : Bytes → S → Prop) : Prop :=
  ∀ m s (room : ℕ), A m s → 0 < room → room ≤ 8 * mib →
    L.call (.loRead fd room) (fun a s' => ∃ data, a = .ok (some data) ∧ data.length ≤ room ∧
      ((data ≠ [] ∧ A (m ++ data) s') ∨ (data = [] ∧ E m s'))) s

theorem ReadsOn.wp_read (hr : ReadsOn L fd A E) {m : Bytes} {s : S} (hA : A m s) {room : ℕ}
    (hroom : 0 < room) : L.wp ((ofFd fd).read room) (fun o s' => ∃ data, o = .ok data ∧
      data.length ≤ room ∧ ((data ≠ [] ∧ A (m ++ data) s') ∨ (data = [] ∧ E m s'))) s := by
  have pos : 0 < min room (8 * mib) := lt_min hroom (by decide)
  refine BlobHandle.wp_read (L.mono ?_ (hr m s _ hA pos (min_le_right _ _)))
  rintro _ s' ⟨data, rfl, hl, h⟩
  have hle := hl.trans (min_le_left _ _)
  exact ⟨data, rfl, hle, data, rfl, hle, h⟩

theorem ReadsOn.reader (hr : ReadsOn L fd A E) : Reader.ReadsOn L (ofFd fd).reader A E :=
  fun _ _ _ hA hroom => hr.wp_read hA hroom

end Reading

end BlobHandle

/-! Writing on: `W w` holds once the bytes `w` of `body` have been appended. -/

section Writing

variable {fd : ℤ} {body : Bytes} {W : Bytes → S → Prop} {F : SqlxError → S → Prop}

/-- What the two statements of an append must do for the rules below. -/
def WritesOn (L : Logic Query.Reply S) (fd : ℤ) (body : Bytes) (W : Bytes → S → Prop)
    (F : SqlxError → S → Prop) : Prop :=
  ∀ w data rest s, w ++ data ++ rest = body → W w s →
    L.call (.loLseek64 fd 0 .seekEnd) (fun a s₁ => ∃ k : ℕ, a = .ok (some (k : ℤ)) ∧
      (data = [] → W w s₁) ∧
      (data ≠ [] → L.call (.loWrite fd data) (fun a s' =>
        (a = .ok (some (data.length : ℤ)) ∧ W (w ++ data) s') ∨
          ∃ e, a = .error e ∧ F e s') s₁)) s

/-- How a failed write reaches a request handler. -/
def writeError (e : SqlxError) : BoxError :=
  .io (.other (.queryFailed "select lowrite($1, $2)" e))

theorem WritesOn.wp_append (hw : WritesOn L fd body W F) {id : FileId} {w data rest : Bytes} {s : S}
    (hb : w ++ data ++ rest = body) (hW : W w s) :
    L.wp (PostgresFileHandle.append ⟨.ofFd fd, id⟩ data) (fun o s' =>
      (o = .ok () ∧ W (w ++ data) s') ∨ ∃ e, o = .err (writeError e) ∧ F e s') s := by
  simp only [PostgresFileHandle.append, Prog.bind_eq, Logic.wp_bind, Logic.wp_mapErr]
  refine BlobHandle.wp_seekEnd (L.mono ?_ (hw w data rest s hb hW))
  rintro _ s₁ ⟨k, rfl, hempty, hwrite⟩
  refine ⟨k, rfl, ?_⟩
  simp only [Outcome.mapErr, Logic.after_ok, Logic.wp_mapErr]
  refine BlobHandle.wp_writeAll (fun hd => ?_) (fun hd => L.mono ?_ (hwrite hd))
  · refine .inl ⟨rfl, ?_⟩
    rw [hd, List.append_nil]
    exact hempty hd
  · rintro _ s' (⟨rfl, hW'⟩ | ⟨e, rfl, hF⟩)
    · exact .inl ⟨rfl, .inl ⟨rfl, hW'⟩⟩
    · exact .inr ⟨e, rfl, .inr ⟨e, rfl, hF⟩⟩

end Writing

/-! Looking things up. -/

namespace PostgresBackend

theorem wp_bucket {name : String} {post : Outcome FileOpenError PostgresBucket → S → Prop} {s : S}
    (h : L.call (.bucketByName name) (fun a s' =>
      (a = .ok none ∧ post (.err .doesNotExist) s') ∨
        ∃ id ttl, a = .ok (some (id, ttl)) ∧ post (.ok ⟨id, ttl.map Interval.delta⟩) s') s) :
    L.wp (PostgresBackend.bucket name) post s := by
  simp only [PostgresBackend.bucket, PostgresBucket.byName, Prog.bind_eq, Logic.wp_bind,
    Logic.wp_mapErr]
  refine wp_fetch (L.mono ?_ h)
  rintro _ s' (⟨rfl, h⟩ | ⟨id, _ | ttl, rfl, h⟩)
  · exact h
  · exact h
  · simp only [fetched, Logic.after_ok, Interval.toTimeDelta_eq, Prog.pure_eq, Logic.wp_ret]
    exact h

end PostgresBackend

namespace PostgresFileHandle

theorem wp_new {oid : Oid} {id : FileId}
    {post : Outcome FileHandleError PostgresFileHandle → S → Prop} {s : S}
    (h : L.call .beginTx (fun a s₁ => a = .ok () ∧
      L.call (.loOpen oid (OpenMode.bits .readWrite)) (fun a s' =>
        (∃ fd, a = .ok (some fd) ∧ post (.ok ⟨.ofFd fd, id⟩) s') ∨
          ∃ e, a = .error e ∧ post (.err (.queryFailed "select lo_open($1, $2)" e)) s') s₁) s) :
    L.wp (PostgresFileHandle.new oid id) post s := by
  simp only [PostgresFileHandle.new, Prog.bind_eq, Logic.wp_bind]
  exact BlobHandle.wp_open h

theorem wp_commit {fd : ℤ} {id : FileId} {post : Outcome BoxError Unit → S → Prop} {s : S}
    (h : L.call (.loClose fd) (fun a s₁ => (∃ r, a = .ok (some r)) ∧
      L.call .commitTx (fun a s' => a = .ok () ∧ post (.ok ()) s') s₁) s) :
    L.wp (PostgresFileHandle.commit ⟨.ofFd fd, id⟩) post s := by
  rw [PostgresFileHandle.commit, Logic.wp_mapErr]
  exact BlobHandle.wp_shutdown h

theorem wp_metadata {fd : ℤ} {id : FileId} {post : Outcome BoxError Timestamp → S → Prop} {s : S}
    (h : L.call (.updatedAt id) (fun a s' => (∃ t, a = .ok t ∧ post (.ok t) s') ∨
      ∃ e, a = .error e ∧ post (.err (.handle
        (.queryFailed "select updated_at from files where id = $1" e))) s') s) :
    L.wp (PostgresFileHandle.metadata ⟨.ofFd fd, id⟩) post s := by
  refine wp_fetch (L.mono ?_ h)
  rintro _ s' (⟨t, rfl, h⟩ | ⟨e, rfl, h⟩)
  · exact h
  · exact h

end PostgresFileHandle

namespace PostgresBucket

theorem deleteAfter_cases (p : PostgresBucket) (now : DateTime) :
    (∃ deleteAfter, p.deleteAfter now = .ret deleteAfter) ∨
      p.deleteAfter now = .panic "DateTime + TimeDelta overflowed" := by
  unfold PostgresBucket.deleteAfter
  split
  · exact .inl ⟨_, rfl⟩
  · split
    · exact .inl ⟨_, rfl⟩
    · exact .inr rfl

theorem wp_file {b : PostgresBucket} {fileName : String}
    {post : Outcome FileOpenError PostgresFileHandle → S → Prop} {s : S}
    (h : L.call (.fileByName b.id fileName) (fun a s₁ =>
      (a = .ok none ∧ post (.err .doesNotExist) s₁) ∨
        ∃ id oid, a = .ok (some (id, oid)) ∧ L.wp (PostgresFileHandle.new oid id)
          (fun o s' => post (o.mapErr .ofHandle) s') s₁) s) :
    L.wp (b.file fileName) post s := by
  simp only [PostgresBucket.file, Prog.bind_eq, Logic.wp_bind]
  refine wp_fetch (L.mono ?_ h)
  rintro _ s' (⟨rfl, h⟩ | ⟨id, oid, rfl, h⟩)
  · exact h
  · simpa only [fetched, Logic.after_ok, Logic.wp_mapErr] using h

theorem wp_createFile {b : PostgresBucket} {fileName : String} {now : DateTime}
    {deleteAfter : Option Timestamp} (hd : b.deleteAfter now = .ret deleteAfter)
    {post : Outcome FileCreateError PostgresFileHandle → S → Prop} {s : S}
    (h : L.call (.insertFile b.id fileName deleteAfter) (fun a s₁ =>
      (a = .error .uniqueViolation ∧ post (.err .fileExists) s₁) ∨
        (a = .error .database ∧ post (.err (.ofBucket ⟨createFileSql, .database⟩)) s₁) ∨
        ∃ id oid, a = .ok (id, oid) ∧ L.wp (PostgresFileHandle.new oid id)
          (fun o s' => post (o.mapErr .ofHandle) s') s₁) s) :
    L.wp (b.createFile fileName now) post s := by
  simp only [PostgresBucket.createFile, hd, Prog.bind_eq, Prog.bind, Logic.wp_bind]
  refine L.mono ?_ h
  rintro _ s' (⟨rfl, h⟩ | ⟨rfl, h⟩ | ⟨id, oid, rfl, h⟩)
  · exact h
  · exact h
  · simp only [Logic.wp_ret, Logic.after_ok, Logic.wp_mapErr]
    exact h

end PostgresBucket

/-! What a protocol asks of a statement and of an optional column. -/

section Protocol

variable {P : Type} (R : Protocol Query.Reply P)

theorem fetch_steps (c : P) (q : Query) {K : q.Row → P → Prop} (h : R.allows c q)
    (hp : ∀ row, K row (R.next c q (.ok row))) (wrap : SqlxError → ε) :
    R.Steps (fetch q wrap) K c := by
  refine wp_fetch ⟨h, fun a => ?_⟩
  cases a with
  | ok row =>
    rintro _ ⟨⟩
    exact hp row
  | error e => rintro _ ⟨⟩

variable {R} in
theorem okOr_steps {K : α → P → Prop} {c : P} (x : Option α) (e : ε)
    (h : ∀ a, x = some a → K a c) : R.Steps (okOr x e) K c := by
  cases x with
  | none => exact .err e
  | some a => exact .ret (h a rfl)

end Protocol

end LocallyEuclidean.Storage
