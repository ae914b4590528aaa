import LocallyEuclidean.Server.Errand
import LocallyEuclidean.Server.Progress
import LocallyEuclidean.Server.Tasks

/-! The requests, the maintenance loop, new buckets and the clock in any interleaving: who may
touch which file, and when a file goes. -/

namespace LocallyEuclidean.Server
open Interact Postgres Storage

variable {n : ℕ} {k k' : String × String} {db db' db₀ : Db} {f g : FileRow}

/-- The row of this name, whether it is still there or not. -/
def Bears (db : Db) (k : String × String) (f : FileRow) : Prop :=
  f.filename = k.2 ∧ ∃ b ∈ db.buckets, b.id = f.bucketId ∧ b.name = k.1

theorem Bears.mono (hb : db.buckets ⊆ db'.buckets) (h : Bears db k f) : Bears db' k f := by
  obtain ⟨hf, b, hm, hid⟩ := h
  exact ⟨hf, b, hb hm, hid⟩

theorem Bears.unique (h : db.Linked) (hk : Bears db k f) (hk' : Bears db k' f) : k = k' := by
  obtain ⟨hf, b, hb, hid, hn⟩ := hk
  obtain ⟨hf', b', hb', hid', hn'⟩ := hk'
  obtain rfl := h.bucket_eq hb hb' (hid.trans hid'.symm)
  exact Prod.ext (hn.symm.trans hn') (hf.symm.trans hf')

theorem bears_of_rowOf (hf : rowOf db k = some f) : Bears db k f := by
  obtain ⟨b, hb, hf⟩ := rowOf_eq_some.mp hf
  obtain ⟨-, hid, hname⟩ := Db.findFile_some hf
  exact ⟨hname, b, (Db.findBucket_some hb).1, hid.symm, (Db.findBucket_some hb).2⟩

theorem rowOf_of_bears (h : db.Linked) (hf : f ∈ db.files) (hk : Bears db k f) :
    rowOf db k = some f := by
  obtain ⟨hname, b, hb, hid, hn⟩ := hk
  refine rowOf_eq_some.mpr ⟨b, hn ▸ h.findBucket_of_mem hb, ?_⟩
  rw [hid, ← hname]
  exact h.findFile_of_mem hf

/-- A row that nobody touches is found as before. -/
theorem elsewhere_of_row (h' : db'.Linked) (buckets : db.buckets ⊆ db'.buckets)
    (bucket : db'.findBucket k.1 = db.findBucket k.1)
    (rows : ∀ f, Bears db' k f → (f ∈ db'.files ↔ f ∈ db.files))
    (objects : ∀ f, rowOf db k = some f → db'.objects f.blob = db.objects f.blob) :
    Elsewhere k db db' := by
  refine ⟨bucket, ?_, objects⟩
  cases hf : rowOf db k with
  | some f =>
    have hk := (bears_of_rowOf hf).mono buckets
    exact rowOf_of_bears h' ((rows f hk).mpr (mem_of_rowOf hf)) hk
  | none =>
    cases hg : rowOf db' k with
    | none => rfl
    | some g =>
      have hk := bears_of_rowOf hg
      have hm := (rows g hk).mp (mem_of_rowOf hg)
      obtain ⟨b, hb, hfile⟩ := rowOf_eq_some.mp hg
      rw [rowOf_eq (bucket ▸ hb)] at hf
      exact absurd hk.1 (Db.findFile_none hf hm (Db.findFile_some hfile).2.1)

namespace System

def deleted (s : System n) : List FileRow := s.batches.flatMap Prod.snd

/-- Every row that has been there. -/
def rows (s : System n) : List FileRow := s.shared.db.files ++ s.deleted

theorem rows_of_files {s : System n} {t : Shared n} (h : t.db.files = s.shared.db.files) :
    ({ s with shared := t } : System n).rows = s.rows := by
  rw [rows, h]
  rfl

/-- A blob that the name has or has had. -/
def Of (s : System n) (k : String × String) (oid : Oid) : Prop :=
  ∃ f ∈ s.rows, Bears s.shared.db k f ∧ f.blob = oid

/-- A batch has deleted a file of this name, or its bucket has been made. -/
def Disturbed (s : System n) (db₀ : Db) (k : String × String) : Prop :=
  (∃ f ∈ s.deleted, Bears s.shared.db k f) ∨
    db₀.findBucket k.1 = none ∧ (s.shared.db.findBucket k.1).isSome

end System

/-- Nobody else writes to the file of this request. -/
def Sole (requests : Fin n → Request) (i : Fin n) : Prop :=
  ∀ j ≠ i, (requests j).writes = true → (requests j).name ≠ (requests i).name

/-- Only downloads name it. -/
def Unwritten (requests : Fin n → Request) (k : String × String) : Prop :=
  ∀ i, (requests i).writes = true → (requests i).name ≠ k

/-- What only grows, and what is left alone. -/
structure Advances (requests : Fin n → Request) (db₀ : Db) (s t : System n) : Prop where
  buckets : s.shared.db.buckets <+: t.shared.db.buckets
  rows : ∀ f ∈ s.rows, f ∈ t.rows
  deleted : ∀ f ∈ s.deleted, f ∈ t.deleted
  unwritten : ∀ k, Unwritten requests k → t.Disturbed db₀ k ∨ Elsewhere k s.shared.db t.shared.db

theorem findBucket_longer {name : String} {b : BucketRow} (hp : db.buckets <+: db'.buckets)
    (hb : db.findBucket name = some b) : db'.findBucket name = some b := by
  obtain ⟨more, he⟩ := hp
  unfold Db.findBucket at hb ⊢
  rw [← he, List.find?_append, hb]
  rfl

theorem System.Disturbed.mono {s t : System n} (h : s.Disturbed db₀ k)
    (hb : s.shared.db.buckets <+: t.shared.db.buckets) (hd : ∀ f ∈ s.deleted, f ∈ t.deleted) :
    t.Disturbed db₀ k := by
  obtain ⟨f, hf, hk⟩ | ⟨hn, hs⟩ := h
  · exact .inl ⟨f, hd f hf, hk.mono hb.subset⟩
  · obtain ⟨b, hs⟩ := Option.isSome_iff_exists.mp hs
    exact .inr ⟨hn, by rw [findBucket_longer hb hs]; rfl⟩

theorem System.Of.mono {s t : System n} {oid : Oid} (h : s.Of k oid)
    (hb : s.shared.db.buckets <+: t.shared.db.buckets) (hr : ∀ f ∈ s.rows, f ∈ t.rows) :
    t.Of k oid := by
  obtain ⟨f, hf, hk, ho⟩ := h
  exact ⟨f, hr f hf, hk.mono hb.subset, ho⟩

namespace Advances

variable {requests : Fin n → Request} {s t u : System n}

theorem refl (requests : Fin n → Request) (db₀ : Db) (s : System n) : Advances requests db₀ s s :=
  ⟨List.prefix_rfl, fun _ h => h, fun _ h => h, fun k _ => .inr (.refl k _)⟩

theorem trans (h : Advances requests db₀ s t) (h' : Advances requests db₀ t u) :
    Advances requests db₀ s u where
  buckets := h.buckets.trans h'.buckets
  rows f hf := h'.rows f (h.rows f hf)
  deleted f hf := h'.deleted f (h.deleted f hf)
  unwritten k hk := by
    obtain hd | he := h.unwritten k hk
    · exact .inl (hd.mono h'.buckets h'.deleted)
    · obtain hd | he' := h'.unwritten k hk
      · exact .inl hd
      · exact .inr (he.trans he')

end Advances

/-- What holds of the service at all times. -/
structure Upheld (requests : Fin n → Request) (db₀ : Db) (s : System n) : Prop where
  linked : s.shared.db.Linked
  bounded : ∀ i, (s.shared.conns i).Bounded
  /-- A connection is on the blob of its own request. -/
  conns : ∀ i, (s.shared.conns i).Within (s.Of (requests i).name)
  reads : ∀ i, (requests i).writes = false → s.shared.writes i = []
  free : ∀ i, Sole requests i → s.shared.waits i = .free
  /-- No blob is handed out twice, nor after its deletion. -/
  blobs : (s.rows.map FileRow.blob).Nodup
  used : ∀ f ∈ s.rows, f.blob < s.shared.db.nextOid
  buckets : db₀.buckets <+: s.shared.db.buckets

namespace Upheld

variable {requests : Fin n → Request} {s t : System n}

theorem start (h : db₀.Linked) : Upheld requests db₀ (.start n db₀) where
  linked := h
  bounded _ := by simp [System.start, Shared.start, Conn.Bounded, Conn.writes]
  conns _ := trivial
  reads _ _ := rfl
  free _ _ := rfl
  blobs := by simpa [System.rows, System.deleted, System.start, Shared.start] using h.blobs
  used f hf := h.oidsUsed _ (h.hasBlob f (by
    simpa [System.rows, System.deleted, System.start, Shared.start] using hf))
  buckets := List.prefix_rfl

/-- The blob tells the name. -/
theorem name_eq (h : Upheld requests db₀ s) {oid : Oid} (hk : s.Of k oid) (hk' : s.Of k' oid) :
    k = k' := by
  obtain ⟨f, hf, hn, rfl⟩ := hk
  obtain ⟨g, hg, hn', he⟩ := hk'
  obtain rfl := eq_of_nodup_map h.blobs hf hg he.symm
  exact hn.unique h.linked hn'

theorem of_rowOf (hf : rowOf s.shared.db k = some f) : s.Of k f.blob :=
  ⟨f, List.mem_append_left _ (mem_of_rowOf hf), bears_of_rowOf hf, rfl⟩

/-- Only on a page of its own file does a client wait, and for one that writes there. -/
theorem not_pending (h : Upheld requests db₀ s) {i : Fin n} {q : Query} {t : Shared n}
    (hs : s.shared.serve i q = some (none, t)) : ¬ Sole requests i := by
  intro sole
  obtain ⟨-, fd, data, tx, w, m, tx', j, rfl, hc, hw, hj, ⟨v, hv, ho⟩, rfl⟩ :=
    Shared.pending_blocks hs
  obtain ⟨d, hd, -, -, rfl, -, -⟩ := Tx.lowrite_ok hw
  have own := h.conns i
  rw [hc] at own
  have hvo : d.oid = v.oid := (overlaps_iff.mp ho).1
  have hname := h.name_eq (own.1 d hd) (hvo ▸ (h.conns j).writes hv)
  refine sole j hj ?_ hname.symm
  by_contra hr
  have hnil := h.reads j (by simpa using hr)
  rw [hnil] at hv
  cases hv

end Upheld

/-! What one statement of a request does. -/

/-- The request `r` has left the database as it was, or made its file, or written to a blob of
its own. -/
inductive Wrought (s : System n) (r : Request) : Db → Prop where
  | same : Wrought s r s.shared.db
  | file {b : BucketRow} {due : Option Timestamp} {row : FileRow} {db' : Db}
      (hb : b ∈ s.shared.db.buckets) (hn : b.name = r.name.1) (dates : r.Dates b.defaultTtl due)
      (hr : s.shared.db.insertFile b.id r.name.2 due = .ok (row, db')) : Wrought s r db'
  | commit {db' : Db} (hw : r.writes = true) (buckets : db'.buckets = s.shared.db.buckets)
      (files : db'.files = s.shared.db.files) (nextOid : db'.nextOid = s.shared.db.nextOid)
      (others : ∀ oid, ¬ s.Of r.name oid → db'.objects oid = s.shared.db.objects oid) :
      Wrought s r db'

theorem Request.Dates.writes {r : Request} {ttl : Option Interval} {due : Option Timestamp}
    (h : r.Dates ttl due) : r.writes = true := by
  obtain ⟨b, f, body, now, rfl, -⟩ := h
  rfl

namespace Wrought

variable {s : System n} {r : Request}

theorem buckets (h : Wrought s r db') : db'.buckets = s.shared.db.buckets := by
  cases h with
  | same => rfl
  | file _ _ _ hr =>
    obtain ⟨-, -, -, rfl⟩ := Db.insertFile_ok hr
    rfl
  | commit _ hb => exact hb

theorem nextOid_le (h : Wrought s r db') : s.shared.db.nextOid ≤ db'.nextOid := by
  cases h with
  | same => exact le_rfl
  | file _ _ _ hr =>
    obtain ⟨-, -, -, rfl⟩ := Db.insertFile_ok hr
    exact Nat.le_succ _
  | commit _ _ _ hn => exact hn.ge

theorem files (h : Wrought s r db') : db'.files = s.shared.db.files ∨
    ∃ row, db'.files = s.shared.db.files ++ [row] ∧ row.blob = s.shared.db.nextOid ∧
      s.shared.db.nextOid < db'.nextOid ∧ Bears db' r.name row ∧
      ∃ b ∈ s.shared.db.buckets, b.id = row.bucketId ∧ r.Dates b.defaultTtl row.deleteAfter := by
  cases h with
  | same => exact .inl rfl
  | @file b _ _ _ hb hn dates hr =>
    obtain ⟨-, -, rfl, rfl⟩ := Db.insertFile_ok hr
    exact .inr ⟨_, rfl, rfl, Nat.lt_succ_self _, ⟨rfl, b, hb, rfl, hn⟩, b, hb, rfl, dates⟩
  | commit _ _ hf => exact .inl hf

/-- Files of other names stay as they are, and under a download every file. -/
theorem elsewhere {requests : Fin n → Request} (h : Wrought s r db') (hs : Upheld requests db₀ s)
    (linked : db'.Linked) (hk : r.writes = true → r.name ≠ k) : Elsewhere k s.shared.db db' := by
  refine elsewhere_of_row linked (fun _ hb => h.buckets ▸ hb)
    (by rw [Db.findBucket, h.buckets, Db.findBucket]) (fun f hf => ?_) fun f hf => ?_
  · obtain he | ⟨row, he, -, -, hrow, b, -, -, dates⟩ := h.files
    · rw [he]
    · rw [he, List.mem_append, List.mem_singleton]
      refine ⟨fun hm => hm.resolve_right ?_, .inl⟩
      rintro rfl
      exact hk dates.writes (hrow.unique linked hf)
  · cases h with
    | same => rfl
    | file _ _ _ hr =>
      obtain ⟨-, -, -, rfl⟩ := Db.insertFile_ok hr
      exact Function.update_of_ne (hs.linked.blob_ne_nextOid (mem_of_rowOf hf)) ..
    | commit hw _ _ _ others =>
      exact others _ fun ho => hk hw (hs.name_eq ho (Upheld.of_rowOf hf))

end Wrought

namespace Upheld

variable {requests : Fin n → Request} {s : System n}

theorem grows (h : Upheld requests db₀ s) {i : Fin n} {t : Shared n}
    (hw : Wrought s (requests i) t.db) (linked : t.db.Linked) :
    Advances requests db₀ s { s with shared := t } where
  buckets := hw.buckets ▸ List.prefix_rfl
  rows f hf := by
    refine (List.mem_append.mp hf).elim (fun hf => List.mem_append_left _ ?_)
      (List.mem_append_right _)
    obtain he | ⟨row, he, -⟩ := hw.files <;> simp [he, hf]
  deleted _ hf := hf
  unwritten k hk := .inr (hw.elsewhere h linked (hk i))

/-- Client `i` has been answered, and its session has come to another database and to `c`. -/
theorem wrought (h : Upheld requests db₀ s) {i : Fin n} {t : Shared n} {c : Conn}
    (hw : Wrought s (requests i) t.db) (linked : t.db.Linked) (bounded : c.Bounded)
    (hc : t.conns = Function.update s.shared.conns i c)
    (within : c.Within (({ s with shared := t } : System n).Of (requests i).name))
    (reads : (requests i).writes = false → c.writes = [])
    (waits : ∀ j, t.waits j ≠ .free → s.shared.waits j ≠ .free) :
    Upheld requests db₀ { s with shared := t } ∧ ∀ j ≠ i, t.conns j = s.shared.conns j ∧
      (Sole requests j → Elsewhere (requests j).name s.shared.db t.db) := by
  have grows := h.grows hw linked
  have self : t.conns i = c := by rw [hc, Function.update_self]
  have other : ∀ j ≠ i, t.conns j = s.shared.conns j := fun j hj => by
    rw [hc, Function.update_of_ne hj]
  refine ⟨⟨linked, fun j => ?_, fun j => ?_, fun j hj => ?_, fun j hj => ?_, ?_, fun f hf => ?_, ?_⟩,
    fun j hj => ⟨other j hj, fun sole => hw.elsewhere h linked (sole i hj.symm)⟩⟩
  · by_cases hj : j = i
    · rw [hj]
      exact self ▸ bounded
    · exact other j hj ▸ h.bounded j
  · by_cases hj : j = i
    · rw [hj]
      exact self ▸ within
    · exact (other j hj ▸ h.conns j).mono fun oid ho => ho.mono grows.buckets grows.rows
  · rw [Shared.writes]
    by_cases he : j = i
    · subst he
      exact self ▸ reads hj
    · exact other j he ▸ h.reads j hj
  · by_contra hne
    exact waits j hne (h.free j hj)
  · obtain he | ⟨row, he, hrow, -⟩ := hw.files
    · rw [System.rows, he]
      exact h.blobs
    · rw [System.rows, he, List.append_assoc, List.singleton_append, List.map_append, List.map_cons,
        List.nodup_middle, ← List.map_append, List.nodup_cons]
      refine ⟨fun hm => ?_, h.blobs⟩
      obtain ⟨f, hf, hblob⟩ := List.mem_map.mp hm
      exact (h.used f hf).ne (hblob.trans hrow)
  · have old : f ∈ s.rows → f.blob < t.db.nextOid := fun hf => (h.used f hf).trans_le hw.nextOid_le
    obtain he | ⟨row, he, hrow, hlt, -⟩ := hw.files
    · rw [System.rows, he] at hf
      exact old hf
    · rw [System.rows, he, List.append_assoc, List.singleton_append, List.mem_append,
        List.mem_cons] at hf
      obtain hf | rfl | hf := hf
      · exact old (List.mem_append_left _ hf)
      · exact hrow ▸ hlt
      · exact old (List.mem_append_right _ hf)
  · exact h.buckets.trans grows.buckets

end Upheld

theorem onTx_writes {α : Type} {r r' : Session} {f : Tx → Except SqlxError (α × Tx)}
    (keeps : ∀ {tx y tx'}, f tx = .ok (y, tx') → tx'.writes = tx.writes) {x : Except SqlxError α}
    (h : r.onTx f = (x, r')) : r'.conn.writes = r.conn.writes ∨ r'.conn.writes = [] := by
  unfold Session.onTx at h
  split at h
  · rename_i tx hc
    split at h <;> obtain ⟨-, rfl⟩ := Prod.mk.inj h
    · rename_i y tx' hf
      exact .inl (by simp [Conn.writes, hc, keeps hf])
    · exact .inr rfl
  · obtain ⟨-, rfl⟩ := Prod.mk.inj h
    exact .inl rfl

/-- Only a write adds to what is pending. -/
theorem serve_writes {busy : Write → Bool} {q : Query} (hq : isWrite q = false) {r r' : Session}
    {a : q.Reply} (h : r.serve busy q = some (a, r')) :
    r'.conn.writes = r.conn.writes ∨ r'.conn.writes = [] := by
  cases q with
  | loWrite => cases hq
  | bucketByName | listBuckets | fileByName | updatedAt =>
    obtain ⟨-, rfl⟩ := Prod.mk.inj (Option.some.inj h)
    exact .inl rfl
  | insertBucket | insertFile | deleteOldFilesBatch =>
    exact .inl (by rw [(Session.onPool_conn (Option.some.inj h)).1])
  | beginTx =>
    obtain ⟨-, rfl⟩ := Prod.mk.inj (Option.some.inj h)
    exact .inr rfl
  | loOpen => exact onTx_writes Tx.lo_open_writes (Option.some.inj h)
  | loLseek64 => exact onTx_writes Tx.lo_lseek64_writes (Option.some.inj h)
  | loRead => exact onTx_writes Tx.loread_writes (Option.some.inj h)
  | loClose => exact onTx_writes Tx.lo_close_writes (Option.some.inj h)
  | commitTx =>
    have h : r.commit = (a, r') := Option.some.inj h
    unfold Session.commit at h
    split at h <;> obtain ⟨-, rfl⟩ := Prod.mk.inj h
    · exact .inr rfl
    · exact .inr rfl
    · exact .inl rfl

/-- What the request has learnt is so. -/
structure Knows (r : Request) (s : System n) (c : Learnt) : Prop where
  bucket : ∀ id ttl, c.bucket = some (id, ttl) →
    ∃ b ∈ s.shared.db.buckets, b.id = id ∧ b.name = r.name.1 ∧ b.defaultTtl = ttl
  blob : ∀ oid, c.blob = some oid → s.Of r.name oid

namespace Knows

variable {r : Request} {s t : System n} {c : Learnt}

theorem nothing (r : Request) (s : System n) : Knows r s .nothing where
  bucket _ _ h := by cases h
  blob _ h := by cases h

theorem mono (h : Knows r s c) (hb : s.shared.db.buckets <+: t.shared.db.buckets)
    (hr : ∀ f ∈ s.rows, f ∈ t.rows) : Knows r t c where
  bucket id ttl hc := by
    obtain ⟨b, hm, hb'⟩ := h.bucket id ttl hc
    exact ⟨b, hb.subset hm, hb'⟩
  blob oid hc := (h.blob oid hc).mono hb hr

/-- An answer that tells of no bucket and no blob. -/
theorem same (h : Knows r s c) {q : Query} {a : q.Reply} (hn : c.next q a = c) :
    Knows r s (c.next q a) := hn.symm ▸ h

end Knows

/-- One statement of an errand. -/
theorem Upheld.served {requests : Fin n → Request} {s : System n} (h : Upheld requests db₀ s)
    {i : Fin n} {q : Query} {c : Learnt} (know : Knows (requests i) s c)
    (allowed : c.allows (requests i) q) {a : q.Reply} {db : Db} {conn : Conn}
    (hs : Session.serve (fun _ => false) q ⟨s.shared.db, s.shared.conns i⟩ = some (a, ⟨db, conn⟩)) :
    Wrought s (requests i) db ∧ ∀ t : System n, t.shared.db = db → Advances requests db₀ s t →
      conn.Within (t.Of (requests i).name) ∧ Knows (requests i) t (c.next q a) := by
  have quiet : q.Within (s.Of (requests i).name) → (db = s.shared.db →
      ∀ t : System n, Advances requests db₀ s t → Knows (requests i) t (c.next q a)) →
        Wrought s (requests i) db ∧ ∀ t : System n, t.shared.db = db → Advances requests db₀ s t →
          conn.Within (t.Of (requests i).name) ∧ Knows (requests i) t (c.next q a) := by
    intro hq hk
    obtain ⟨hd, hc⟩ := Session.serve_within hq hs (h.conns i)
    obtain rfl : db = s.shared.db := hd
    exact ⟨.same, fun t _ ht =>
      ⟨Conn.Within.mono hc fun oid ho => ho.mono ht.buckets ht.rows, hk rfl t ht⟩⟩
  have stays : c.next q a = c → (db = s.shared.db →
      ∀ t : System n, Advances requests db₀ s t → Knows (requests i) t (c.next q a)) :=
    fun hn _ t ht => hn.symm ▸ know.mono ht.buckets ht.rows
  cases q with
  | insertBucket | deleteOldFilesBatch => exact allowed.elim
  | listBuckets | beginTx | loLseek64 | loRead | loWrite | loClose | updatedAt =>
    exact quiet trivial (stays rfl)
  | loOpen oid mode => exact quiet (know.blob oid allowed) (stays rfl)
  | bucketByName name =>
    obtain rfl : name = (requests i).name.1 := allowed
    refine quiet trivial fun _ t ht => ?_
    obtain ⟨rfl, -⟩ := Prod.mk.inj (Option.some.inj hs)
    refine ⟨fun id ttl found => ?_, (know.mono ht.buckets ht.rows).blob⟩
    obtain ⟨b, hb, he⟩ := Option.map_eq_some_iff.mp found
    obtain ⟨rfl, rfl⟩ := Prod.mk.inj he
    exact ⟨b, ht.buckets.subset (Db.findBucket_some hb).1, rfl, (Db.findBucket_some hb).2, rfl⟩
  | fileByName id filename =>
    obtain ⟨rfl, ttl, hc⟩ := allowed
    refine quiet trivial fun _ t ht => ?_
    obtain ⟨rfl, -⟩ := Prod.mk.inj (Option.some.inj hs)
    have know' := know.mono ht.buckets ht.rows
    cases hf : s.shared.db.findFile id (requests i).name.2 with
    | none => exact know'
    | some f =>
      obtain ⟨hm, hid, hname⟩ := Db.findFile_some hf
      obtain ⟨b, hb, hid', hn, -⟩ := know'.bucket id ttl hc
      refine ⟨know'.bucket, fun oid ho => ?_⟩
      exact ⟨f, ht.rows f (List.mem_append_left _ hm), ⟨hname, b, hb, hid'.trans hid.symm, hn⟩,
        Option.some.inj ho⟩
  | insertFile id filename due =>
    obtain ⟨rfl, ttl, hc, dates⟩ := allowed
    obtain ⟨b, hb, rfl, hn, rfl⟩ := know.bucket id ttl hc
    cases hr : s.shared.db.insertFile b.id (requests i).name.2 due with
    | error e =>
      obtain ⟨rfl, rfl, rfl⟩ : .error e = a ∧ s.shared.db = db ∧ s.shared.conns i = conn := by
        simpa [Session.serve, Session.onPool, hr, Except.map] using hs
      exact ⟨.same, fun t _ ht => ⟨(h.conns i).mono fun oid ho => ho.mono ht.buckets ht.rows,
        know.mono ht.buckets ht.rows⟩⟩
    | ok x =>
      obtain ⟨row, db'⟩ := x
      obtain ⟨rfl, rfl, rfl⟩ : .ok (row.id, row.blob) = a ∧ db' = db ∧ s.shared.conns i = conn := by
        simpa [Session.serve, Session.onPool, hr, Except.map] using hs
      have hw : Wrought s (requests i) db' := .file hb hn dates hr
      refine ⟨hw, fun t htd ht => ⟨(h.conns i).mono fun oid ho => ho.mono ht.buckets ht.rows,
        (know.mono ht.buckets ht.rows).bucket, fun oid ho => ?_⟩⟩
      obtain ⟨-, -, rfl, rfl⟩ := Db.insertFile_ok hr
      refine ⟨_, List.mem_append_left _ ?_, ⟨rfl, b, ht.buckets.subset hb, rfl, hn⟩,
        Option.some.inj ho⟩
      rw [htd]
      exact List.mem_append_right _ List.mem_cons_self
  | commitTx =>
    have hs : Session.commit ⟨s.shared.db, s.shared.conns i⟩ = (a, ⟨db, conn⟩) := Option.some.inj hs
    obtain ⟨hb, hf, ho⟩ := Session.commit_within hs (h.conns i)
    have hconn : db.nextOid = s.shared.db.nextOid ∧ conn.Within (s.Of (requests i).name) := by
      unfold Session.commit at hs
      split at hs <;> obtain ⟨-, hst⟩ := Prod.mk.inj hs <;> obtain ⟨rfl, rfl⟩ := Session.mk.inj hst
      · exact ⟨rfl, trivial⟩
      · exact ⟨rfl, trivial⟩
      · exact ⟨rfl, h.conns i⟩
    exact ⟨.commit allowed hb hf hconn.1 ho, fun t _ ht =>
      ⟨hconn.2.mono fun oid ho => ho.mono ht.buckets ht.rows, know.mono ht.buckets ht.rows⟩⟩

/-! What else happens. -/

namespace Upheld

variable {requests : Fin n → Request} {s : System n}

theorem tick (h : Upheld requests db₀ s) (now : Timestamp) :
    Upheld requests db₀ (s.withDb { s.shared.db with clock := now }) where
  linked := h.linked.tick now
  bounded := h.bounded
  conns := h.conns
  reads := h.reads
  free := h.free
  blobs := h.blobs
  used := h.used
  buckets := h.buckets

theorem elsewhere_tick (db : Db) (now : Timestamp) (k : String × String) :
    Elsewhere k db { db with clock := now } :=
  ⟨rfl, rfl, fun _ _ => rfl⟩

/-- Waiting, and leaving, changes nothing that is committed. -/
theorem of_conns (h : Upheld requests db₀ s) {t : Shared n} (hd : t.db = s.shared.db)
    (conns : ∀ i, t.conns i = s.shared.conns i ∨ t.conns i = .idle)
    (free : ∀ i, Sole requests i → t.waits i = .free) :
    Upheld requests db₀ { s with shared := t } where
  linked := hd ▸ h.linked
  bounded i := by
    obtain hc | hc := conns i <;> rw [hc]
    · exact h.bounded i
    · simp [Conn.Bounded, Conn.writes]
  conns i := by
    obtain hc | hc := conns i <;> rw [hc]
    · refine (h.conns i).mono fun oid ho => ho.mono ?_ fun f hf => ?_
      · rw [hd]
      · rwa [System.rows_of_files (by rw [hd])]
    · trivial
  reads i hi := by
    rw [Shared.writes]
    obtain hc | hc := conns i <;> rw [hc]
    · exact h.reads i hi
    · rfl
  free := free
  blobs := by
    rw [System.rows_of_files (by rw [hd])]
    exact h.blobs
  used f hf := by
    rw [System.rows_of_files (by rw [hd])] at hf
    rw [hd]
    exact h.used f hf
  buckets := by simpa only [hd] using h.buckets

theorem leave (h : Upheld requests db₀ s) (i : Fin n) :
    Upheld requests db₀ { s with shared := s.shared.leave i } := by
  refine h.of_conns rfl (fun j => ?_) fun j hj => ?_
  · by_cases he : j = i
    · exact .inr (by rw [Shared.leave_conns, he, Function.update_self])
    · exact .inl (by rw [Shared.leave_conns, Function.update_of_ne he])
  · by_contra hne
    exact Shared.wake_waits (s := { s.shared with conns := Function.update s.shared.conns i .idle })
      hne (h.free j hj)

theorem pending (h : Upheld requests db₀ s) {i : Fin n} {q : Query} {t : Shared n}
    (hs : s.shared.serve i q = some (none, t)) : Upheld requests db₀ { s with shared := t } := by
  obtain ⟨hd, hc, -⟩ := Shared.serve_pending hs
  refine h.of_conns hd (fun j => .inl (by rw [hc])) fun j hj => ?_
  by_contra hne
  obtain rfl | hw := Shared.pending_waits hs j hne
  · exact h.not_pending hs hj
  · exact hw (h.free j hj)

end Upheld

theorem insertBucket_made {name : String} {ttl : Option Interval} {id : BucketId}
    (hr : db.insertBucket name ttl = .ok (id, db')) : db.findBucket name = none ∧
      db' = { db with
        buckets := db.buckets ++ [⟨⟨db.nextUuid⟩, name, ttl⟩]
        nextUuid := db.nextUuid + 1 } := by
  unfold Db.insertBucket at hr
  split at hr
  · cases hr
  · rename_i hn
    exact ⟨Option.not_isSome_iff_eq_none.mp hn, (Prod.mk.inj (Except.ok.inj hr)).2.symm⟩

/-- The rows that a batch leaves, and those that it takes. -/
theorem files_perm (hb : Batched db db') :
    (db'.files ++ removed db db').Perm db.files := by
  rw [hb.files]
  refine List.Perm.trans (List.perm_append_comm.trans ?_)
    (List.filter_append_perm (fun f => f ∉ db'.files) db.files)
  refine List.Perm.append_left _ (List.Perm.of_eq (List.filter_congr fun f hf => ?_))
  simp [removed, hf]

/-- What the rest of the service leaves: every client as it was, and each name as it was or
disturbed. -/
structure Beside (requests : Fin n → Request) (db₀ : Db) (s t : System n) : Prop where
  upheld : Upheld requests db₀ t
  grows : Advances requests db₀ s t
  names : ∀ k, t.Disturbed db₀ k ∨ Elsewhere k s.shared.db t.shared.db

namespace Upheld

variable {requests : Fin n → Request} {s : System n}

theorem insertBucket (h : Upheld requests db₀ s) {name : String} {ttl : Option Interval}
    {id : BucketId} (hr : s.shared.db.insertBucket name ttl = .ok (id, db')) :
    Beside requests db₀ s (s.withDb db') := by
  have linked := h.linked.insertBucket hr
  have found := Db.findBucket_insertBucket hr
  obtain ⟨fresh, hdb⟩ := insertBucket_made hr
  have hf : db'.files = s.shared.db.files := by rw [hdb]
  have prefixed : s.shared.db.buckets <+: db'.buckets := by
    rw [hdb]
    exact List.prefix_append _ _
  have names : ∀ k, (s.withDb db').Disturbed db₀ k ∨ Elsewhere k s.shared.db db' := by
    intro k
    by_cases hk : k.1 = name
    · refine .inl (.inr ⟨?_, Option.isSome_iff_exists.mpr ⟨_, hk ▸ found⟩⟩)
      cases hb : db₀.findBucket k.1 with
      | none => rfl
      | some b => cases fresh.symm.trans (hk ▸ findBucket_longer h.buckets hb)
    · refine .inr (elsewhere_of_row linked prefixed.subset ?_ (fun _ _ => by rw [hf])
        fun _ _ => by rw [hdb])
      rw [hdb, Db.findBucket, List.find?_append, List.find?_singleton,
        if_neg (by simpa using Ne.symm hk), Option.or_none, Db.findBucket]
  have rows : (s.withDb db').rows = s.rows := System.rows_of_files hf
  exact
    { upheld := { h with
        linked := linked
        conns := fun i => (h.conns i).mono fun oid ho => ho.mono prefixed fun _ hm => rows ▸ hm
        blobs := rows ▸ h.blobs
        used := fun f hm => by
          rw [System.withDb, hdb]
          exact h.used f (rows ▸ hm)
        buckets := h.buckets.trans prefixed }
      grows := ⟨prefixed, fun _ hm => rows ▸ hm, fun _ hm => hm, fun k _ => names k⟩
      names := names }

theorem batch (h : Upheld requests db₀ s) {t : System n} (hb : Batched s.shared.db db')
    (linked : db'.Linked) (hs : t.shared = { s.shared with db := db' })
    (ht : t.batches = (s.shared.db.clock, removed s.shared.db db') :: s.batches) :
    Beside requests db₀ s t := by
  have hd : t.shared.db = db' := by rw [hs]
  have deleted : t.deleted = removed s.shared.db db' ++ s.deleted := by
    rw [System.deleted, ht, List.flatMap_cons, System.deleted]
  have perm : t.rows.Perm s.rows := by
    rw [System.rows, System.rows, hd, deleted, ← List.append_assoc]
    exact (files_perm hb).append_right _
  have buckets : t.shared.db.buckets = s.shared.db.buckets := by rw [hd, hb.rest]
  have prefixed : s.shared.db.buckets <+: t.shared.db.buckets := buckets ▸ List.prefix_rfl
  have names : ∀ k, t.Disturbed db₀ k ∨ Elsewhere k s.shared.db t.shared.db := by
    intro k
    by_cases hk : ∃ f ∈ removed s.shared.db db', Bears t.shared.db k f
    · obtain ⟨f, hf, hk⟩ := hk
      exact .inl (.inl ⟨f, deleted ▸ List.mem_append_left _ hf, hk⟩)
    · refine .inr (elsewhere_of_row (hd ▸ linked) prefixed.subset
        (by rw [Db.findBucket, buckets, Db.findBucket]) (fun f hf => ?_) fun f hf => ?_)
      · rw [hd, hb.files, List.mem_filter, decide_eq_true_eq]
        exact and_iff_left fun hm => hk ⟨f, hm, hf⟩
      · rw [hd, hb.objects, if_neg fun hm => ?_]
        obtain ⟨g, hg, he⟩ := List.mem_map.mp hm
        obtain rfl := h.linked.blob_inj (List.mem_of_mem_filter hg) (mem_of_rowOf hf) he
        exact hk ⟨g, hg, (bears_of_rowOf hf).mono prefixed.subset⟩
  refine ⟨⟨hd ▸ linked, ?_, fun i => ?_, ?_, ?_, ?_, fun f hf => ?_, h.buckets.trans prefixed⟩,
    ⟨prefixed, fun f hf => perm.mem_iff.mpr hf, fun f hf => ?_, fun k _ => names k⟩, names⟩
  · rw [hs]
    exact h.bounded
  · rw [hs]
    exact (h.conns i).mono fun oid ho => ho.mono prefixed fun _ hm => perm.mem_iff.mpr hm
  · rw [hs]
    exact h.reads
  · rw [hs]
    exact h.free
  · exact (perm.map FileRow.blob).nodup_iff.mpr h.blobs
  · rw [hd, hb.rest]
    exact h.used f (perm.mem_iff.mp hf)
  · exact deleted ▸ List.mem_append_right _ hf

/-- Whatever happens beside the requests. -/
theorem happen {δ : Type} (parseDuration : String → Except δ Duration) (h : Upheld requests db₀ s)
    (e : Happening) : Beside requests db₀ s (s.happen parseDuration e) := by
  have same : ∀ t : System n, t.shared = s.shared → t.batches = s.batches →
      Beside requests db₀ s t := by
    rintro ⟨_, cancelled, loop, _⟩ rfl rfl
    exact ⟨{ h with }, ⟨List.prefix_rfl, fun _ hf => hf, fun _ hf => hf,
      fun k _ => .inr (.refl k _)⟩, fun k => .inr (.refl k _)⟩
  cases e with
  | tick now =>
    exact ⟨h.tick now, ⟨List.prefix_rfl, fun _ hf => hf, fun _ hf => hf,
      fun k _ => .inr (elsewhere_tick _ now k)⟩, fun k => .inr (elsewhere_tick _ now k)⟩
  | createBucket name ttl =>
    obtain hsame | ⟨ttl', id, hr, -⟩ :=
      createBucketCommand_effect parseDuration name ttl s.shared.db
    · simp only [System.happen, hsame]
      exact same _ rfl rfl
    · exact h.insertBucket hr
  | interrupt => exact same _ rfl rfl
  | wake =>
    simp only [System.happen, System.wake]
    split <;> exact same _ rfl rfl
  | batch tie ending =>
    simp only [System.happen, System.batch]
    split
    · split
      · rw [deleteOldFilesBatch_alone h.linked]
        exact h.batch (batched_deleteBatch h.linked tie) (h.linked.deleteBatch tie) rfl rfl
      · exact same _ rfl rfl
    · exact same _ rfl rfl

end Upheld

end LocallyEuclidean.Server
