import LocallyEuclidean.Server.Accesses
import LocallyEuclidean.Server.Shared

/-! The first upload of a file beside other uploads and downloads of it, in any interleaving of
their statements. -/

namespace LocallyEuclidean.Server
open Interact Postgres Storage

def isInsert : Query → Bool
  | .insertFile _ _ _ => true
  | _ => false

namespace Shared

variable {n : ℕ}

def inserted (s : Shared n) (i : Fin n) : Bool :=
  s.history.any fun r => r.client = i ∧ isInsert r.query

def committed (s : Shared n) (i : Fin n) : Bool :=
  s.history.any fun r => r.client = i ∧ isCommit r.query

section Recorded

variable {s t : Shared n} {i : Fin n} {q : Query} {a : q.Reply}
  (h : t.history = recorded i q a s.history)
include h

theorem inserted_mono (j : Fin n) (hj : s.inserted j = true) : t.inserted j = true := by
  rw [inserted, h]
  cases a with
  | ok r => simp only [recorded, List.any_cons, Bool.or_eq_true]; exact .inr hj
  | error e => exact hj

theorem committed_of_not_commit (hq : isCommit q = false) (j : Fin n) :
    t.committed j = s.committed j := by
  rw [committed, h]
  cases a with
  | ok r => simp [recorded, hq, committed]
  | error e => rfl

theorem committed_mono (j : Fin n) (hj : s.committed j = true) : t.committed j = true := by
  rw [committed, h]
  cases a with
  | ok r => simp only [recorded, List.any_cons, Bool.or_eq_true]; exact .inr hj
  | error e => exact hj

theorem committed_of_ne {j : Fin n} (hj : j ≠ i) : t.committed j = s.committed j := by
  rw [committed, h]
  cases a with
  | ok r => simp [recorded, hj.symm, committed]
  | error e => rfl

end Recorded

end Shared

/-- The statements that tell which bytes a file has, or how many. -/
def observes : Query → Bool
  | .loLseek64 _ _ .seekEnd | .loRead _ _ => true
  | _ => false

/-- Nobody looks at a file between its insertion and the commit of its bytes, unless there are
none to commit, or for a comparison that fails before and after. -/
def Settled {n : ℕ} (accesses : Fin n → Access) (j : Fin n) (q : Query) (s : Shared n) : Prop :=
  observes q = true → ∀ i ≠ j, s.inserted i = true → s.committed i = false →
    (accesses i).body = [] ∨ (accesses j).Unlike (accesses i).body

instance {n : ℕ} (accesses : Fin n → Access) (j : Fin n) (q : Query) (s : Shared n) :
    Decidable (Settled accesses j q s) := by
  unfold Settled
  infer_instance

/-- The requests that have taken effect, in order, with their answers; and who has made the
file, with its row. -/
abbrev Story (n : ℕ) := List (Fin n × Seen) × Option (Fin n × FileRow)

section Contract

variable {n : ℕ} (accesses : Fin n → Access) (db₀ : Db) (bucketName filename : String)

/-- The archive once the file has been made, its bytes included. -/
def promised : Option (Fin n × FileRow) → Archive UInt8
  | none => archive db₀
  | some (o, _) => (archive db₀).store bucketName filename (accesses o).body

/-- Client `o` has made the row `f`, and alone writes to its object. -/
structure MadeBy (o : Fin n) (f : FileRow) (s : Shared n) (log : List (Fin n × Seen)) : Prop where
  found : ∃ b, db₀.findBucket bucketName = some b ∧ s.db.findFile b.id filename = some f
  byId : s.db.findFileById f.id = some f
  stored : s.db.objects f.blob = some (if s.committed o then (accesses o).body else [])
  inserted : s.inserted o = true
  entered : (o, .ok, none) ∈ log
  others : ∀ i ≠ o, s.writes i = []
  free : s.waits o = .free

structure Published (x : Shared n × Story n) : Prop where
  buckets : x.1.db.buckets = db₀.buckets
  serial : Serial (fun i => (accesses i).apply bucketName filename) (archive db₀) x.2.1
    (promised accesses db₀ bucketName filename x.2.2)
  once : (x.2.1.map Prod.fst).Nodup
  before : x.2.2 = none → (∃ now, x.1.db = { db₀ with clock := now }) ∧
    ∀ i, x.1.writes i = [] ∧ x.1.waits i = .free
  after : ∀ o f, x.2.2 = some (o, f) → MadeBy accesses db₀ bucketName filename o f x.1 x.2.1

/-- The client's own entry, if it makes one now: it leaves the archive alone. -/
def Tells (i : Fin n) (x : Shared n × Story n) (log : List (Fin n × Seen)) : Prop :=
  log = x.2.1 ∨ (∀ a, (i, a) ∉ x.2.1) ∧ ∃ a, log = x.2.1 ++ [(i, a)] ∧
    (accesses i).apply bucketName filename (promised accesses db₀ bucketName filename x.2.2) =
      (a, promised accesses db₀ bucketName filename x.2.2)

variable {accesses db₀ bucketName filename}

theorem Tells.subset {i : Fin n} {x : Shared n × Story n} {log : List (Fin n × Seen)}
    (h : Tells accesses db₀ bucketName filename i x log) : x.2.1 ⊆ log := by
  obtain rfl | ⟨-, a, rfl, -⟩ := h
  · exact List.Subset.refl _
  · exact List.subset_append_left _ _

theorem Tells.other {i : Fin n} {x : Shared n × Story n} {log : List (Fin n × Seen)}
    (h : Tells accesses db₀ bucketName filename i x log) {j : Fin n} (hj : j ≠ i) (a : Seen) :
    (j, a) ∈ log ↔ (j, a) ∈ x.2.1 := by
  obtain rfl | ⟨-, b, rfl, -⟩ := h
  · rfl
  · simp [hj]

section Published

variable {x : Shared n × Story n} (h : Published accesses db₀ bucketName filename x)
include h

theorem Published.tells {i : Fin n} {log : List (Fin n × Seen)}
    (tells : Tells accesses db₀ bucketName filename i x log) :
    Published accesses db₀ bucketName filename (x.1, log, x.2.2) := by
  refine { h with serial := ?_, once := ?_, after := fun o f hm => ?_ }
  · obtain rfl | ⟨-, a, rfl, ha⟩ := tells
    · exact h.serial
    · exact h.serial.snoc ha
  · obtain rfl | ⟨new, a, rfl, -⟩ := tells
    · exact h.once
    · exact nodup_snoc h.once new
  · have made := h.after o f hm
    exact { made with entered := tells.subset made.entered }

/-- A step that neither makes the row nor commits its bytes. -/
theorem Published.next {t : Shared n}
    (clock : ∃ now, t.db = { x.1.db with clock := now })
    (writes : ∀ i, t.writes i = x.1.writes i ∨ t.writes i = [] ∨ ∃ f, x.2.2 = some (i, f))
    (waits : ∀ i, t.waits i ≠ .free → x.1.waits i ≠ .free ∨ ∃ o f, x.2.2 = some (o, f) ∧ i ≠ o)
    (inserted : ∀ i, x.1.inserted i = true → t.inserted i = true)
    (committed : ∀ i, t.committed i = x.1.committed i) :
    Published accesses db₀ bucketName filename (t, x.2) := by
  obtain ⟨now, clock⟩ := clock
  refine ⟨clock ▸ h.buckets, h.serial, h.once, fun hm => ⟨?_, fun j => ⟨?_, ?_⟩⟩, fun o f hm => ?_⟩
  · obtain ⟨⟨now', hd⟩, -⟩ := h.before hm
    exact ⟨now, by rw [clock, hd]⟩
  · obtain he | he | ⟨f, hf⟩ := writes j
    · rw [he, ((h.before hm).2 j).1]
    · exact he
    · rw [hm] at hf
      cases hf
  · by_contra hne
    obtain hw | ⟨o, f, hf, -⟩ := waits j hne
    · exact hw ((h.before hm).2 j).2
    · rw [hm] at hf
      cases hf
  · have made := h.after o f hm
    refine ⟨?_, ?_, ?_, inserted o made.inserted, made.entered, fun j hj => ?_, ?_⟩
    · rw [clock]
      exact made.found
    · rw [clock]
      exact made.byId
    · rw [clock, committed]
      exact made.stored
    · obtain he | he | ⟨g, hg⟩ := writes j
      · rw [he, made.others j hj]
      · exact he
      · rw [hm] at hg
        cases hg
        exact absurd rfl hj
    · by_contra hne
      obtain hw | ⟨o', g, hg, hno⟩ := waits o hne
      · exact hw made.free
      · rw [hm] at hg
        cases hg
        exact absurd rfl hno

/-- Only the maker has written. -/
theorem Published.maker_of_writes {i : Fin n} (hw : x.1.writes i ≠ []) :
    ∃ f, x.2.2 = some (i, f) := by
  cases hm : x.2.2 with
  | none => exact absurd ((h.before hm).2 i).1 hw
  | some m =>
    obtain ⟨o, f⟩ := m
    by_cases hi : i = o
    · exact ⟨f, by rw [hi]⟩
    · exact absurd ((h.after o f hm).others i hi) hw

end Published

/-- Who has made the file has made it, and what is committed stays so. -/
structure Grows (x y : Shared n × Story n) : Prop where
  maker : ∀ m, x.2.2 = some m → y.2.2 = some m
  committed : ∀ o, x.1.committed o = true → y.1.committed o = true

/-- A client's transaction, its commit and its entry are its own. -/
structure Owns (i : Fin n) (x y : Shared n × Story n) : Prop where
  conn : y.1.conns i = x.1.conns i
  committed : y.1.committed i = x.1.committed i
  log : ∀ a, (i, a) ∈ y.2.1 ↔ (i, a) ∈ x.2.1

/-- The client's answer is the one entered. -/
def Told (i : Fin n) (o : Answer) (x : Shared n × Story n) : Prop :=
  ∃ a, (i, a) ∈ x.2.1 ∧ seen o = some a

variable (accesses db₀ bucketName filename)

def publishing : Terms (machine n) (Story n) ApiError (Option Response) where
  cond i q s := Settled accesses i q s ∧ (isWrite q = false → s.waits i = .free)
  inv := Published accesses db₀ bucketName filename
  grows := Grows
  keeps := Owns
  post := Told
  grows_refl _ := ⟨fun _ hm => hm, fun _ ho => ho⟩
  grows_trans h h' := ⟨fun m hm => h'.maker m (h.maker m hm),
    fun o ho => h'.committed o (h.committed o ho)⟩
  keeps_refl _ _ := ⟨rfl, rfl, fun _ => Iff.rfl⟩
  keeps_trans _ _ _ _ h h' := ⟨h'.conn.trans h.conn, h'.committed.trans h.committed,
    fun a => (h'.log a).trans (h.log a)⟩
  pending {i q s t} g hx hs := by
    obtain ⟨hd, hc, hh⟩ := Shared.serve_pending hs
    obtain ⟨j, hj, hw⟩ := Shared.pending_writes hs
    obtain ⟨f, hm⟩ := hx.maker_of_writes hw
    have hcommitted : ∀ k, t.committed k = s.committed k := fun k => by
      rw [Shared.committed, hh, Shared.committed]
    refine ⟨hx.next ⟨s.db.clock, hd⟩ (fun k => .inl (congrArg Conn.writes (congrFun hc k)))
        (fun k hk => ?_) (fun k hk => ?_) hcommitted,
      ⟨fun _ hm => hm, fun o ho => (hcommitted o).trans ho⟩,
      fun k => ⟨congrFun hc k, hcommitted k, fun _ => Iff.rfl⟩⟩
    · obtain rfl | hk := Shared.pending_waits hs k hk
      · exact .inr ⟨j, f, hm, hj.symm⟩
      · exact .inl hk
    · rw [Shared.inserted, hh]
      exact hk
  env now s g hx := ⟨hx.next ⟨now, rfl⟩ (fun _ => .inl rfl) (fun _ hk => .inl hk) (fun _ hk => hk)
      (fun _ => rfl),
    ⟨fun _ hm => hm, fun _ ho => ho⟩, fun _ => ⟨rfl, rfl, fun _ => Iff.rfl⟩⟩
  leave i s g hx := by
    refine ⟨hx.next ⟨s.db.clock, rfl⟩ (fun j => ?_) (fun j hj => .inl ?_) (fun _ hk => hk)
      (fun _ => rfl), ⟨fun _ hm => hm, fun _ ho => ho⟩, fun j hj =>
      ⟨Function.update_of_ne hj .., rfl, fun _ => Iff.rfl⟩⟩
    · exact (Shared.writes_still (Shared.leave_conns s i) (.inr rfl) j).imp_right .inl
    · exact Shared.wake_waits (s := { s with conns := Function.update s.conns i .idle }) hj
  post_stable h hp := by
    obtain ⟨a, ha, hs⟩ := hp
    exact ⟨a, (h.log a).mpr ha, hs⟩
  post_leave hp := hp

end Contract

section Calls

variable {n : ℕ} {accesses : Fin n → Access} {db₀ : Db} {bucketName filename : String} {i : Fin n}
  {x : Shared n × Story n}

/-- The state after a statement that leaves the database as it is. -/
theorem Published.answered (hx : Published accesses db₀ bucketName filename x) {q : Query}
    {a : q.Reply} {c : Conn} {log : List (Fin n × Seen)} {t : Shared n}
    (ht : Shared.Answered i q a x.1 x.1.db c t) (hq : Shared.isCommit q = false)
    (hcw : c.writes = x.1.writes i ∨ ∃ f, x.2.2 = some (i, f))
    (htells : Tells accesses db₀ bucketName filename i x log) :
    Published accesses db₀ bucketName filename (t, log, x.2.2) ∧ Grows x (t, log, x.2.2) ∧
      ∀ j ≠ i, Owns j x (t, log, x.2.2) := by
  have hcommitted := Shared.committed_of_not_commit ht.history hq
  refine ⟨(hx.tells htells).next ⟨x.1.db.clock, ht.db⟩ (fun j => ?_)
    (fun j hj => .inl (ht.waits j hj)) (Shared.inserted_mono ht.history) hcommitted,
    ⟨fun _ hm => hm, fun o ho => (hcommitted o).trans ho⟩, fun j hj =>
      ⟨by rw [ht.conns, Function.update_of_ne hj], hcommitted j, htells.other hj⟩⟩
  by_cases hj : j = i
  · subst hj
    obtain he | hm := hcw
    · exact .inl ((Shared.writes_self ht.conns).trans he)
    · exact .inr (.inr hm)
  · exact .inl (Shared.writes_of_ne ht.conns hj)

/-- A statement that leaves the database as it is. -/
theorem call_still {q : Query} {Φ : q.Reply → Shared n × Story n → Prop}
    (hx : Published accesses db₀ bucketName filename x) (hq : Shared.isCommit q = false)
    (hw : isWrite q = true → ∃ f, x.2.2 = some (i, f))
    (h : ∀ y, Published accesses db₀ bucketName filename y → Grows x y → Owns i x y →
      Settled accesses i q y.1 → ∃ a c log,
        (Session.mk y.1.db (y.1.conns i)).serve (fun _ => false) q = some (a, ⟨y.1.db, c⟩) ∧
        (c.writes = y.1.writes i ∨ ∃ f, y.2.2 = some (i, f)) ∧
        Tells accesses db₀ bucketName filename i y log ∧
        ∀ t, t.db = y.1.db → t.conns i = c → (∀ j, t.committed j = y.1.committed j) →
          Published accesses db₀ bucketName filename (t, log, y.2.2) → Φ a (t, log, y.2.2)) :
    ((publishing accesses db₀ bucketName filename).contract.logic i).call q Φ x := by
  refine call_served (T := publishing accesses db₀ bucketName filename) hx
    fun y hy hgrows hkeeps hcond => ⟨?_, ?_⟩
  · cases hiw : isWrite q with
    | false => exact hcond.2 hiw
    | true =>
      obtain ⟨f, hm⟩ := hw hiw
      exact (Published.after hy i f (hgrows.maker _ hm)).free
  · obtain ⟨a, c, log, hs, hcw, htells, hΦ⟩ := h y hy hgrows hkeeps hcond.1
    refine ⟨a, y.1.db, c, hs, fun t ht => ⟨(log, y.2.2), ?_⟩⟩
    have hnext := Published.answered hy ht hq hcw htells
    exact ⟨hnext, hΦ t ht.db (by rw [ht.conns, Function.update_self])
      (Shared.committed_of_not_commit ht.history hq) hnext.1⟩

/-- What a client knows of `y` from what it knew of `x`. -/
structure Learned (i : Fin n) (x y : Shared n × Story n) : Prop where
  grows : Grows x y
  committed : y.1.committed i = x.1.committed i
  log : ∀ a, (i, a) ∈ y.2.1 ↔ (i, a) ∈ x.2.1

namespace Learned

variable {y z : Shared n × Story n}

theorem trans (h : Learned i x y) (h' : Learned i y z) : Learned i x z :=
  ⟨⟨fun m hm => h'.grows.maker m (h.grows.maker m hm),
      fun o ho => h'.grows.committed o (h.grows.committed o ho)⟩,
    h'.committed.trans h.committed, fun a => (h'.log a).trans (h.log a)⟩

theorem of_owns (hg : Grows x y) (hk : Owns i x y) : Learned i x y :=
  ⟨hg, hk.committed, hk.log⟩

/-- A statement of its own that tells nothing. -/
theorem step (hg : Grows x y) (hk : Owns i x y) {t : Shared n}
    (ht : ∀ j, t.committed j = y.1.committed j) : Learned i x (t, y.2) :=
  trans (of_owns hg hk) ⟨⟨fun _ hm => hm, fun o ho => (ht o).trans ho⟩, ht i, fun _ => Iff.rfl⟩

end Learned

section Opening

variable {o : Fin n} {f : FileRow}

theorem MadeBy.findFile {s : Shared n} {log : List (Fin n × Seen)}
    (made : MadeBy accesses db₀ bucketName filename o f s log) {b : BucketRow}
    (hb : db₀.findBucket bucketName = some b) : s.db.findFile b.id filename = some f := by
  obtain ⟨b', hb', hfile⟩ := made.found
  obtain rfl := Option.some.inj (hb.symm.trans hb')
  exact hfile

/-- A new handle on a file that has been made. -/
theorem new_beside (hx : Published accesses db₀ bucketName filename x) (hm : x.2.2 = some (o, f)) :
    ((publishing accesses db₀ bucketName filename).contract.logic i).wp
      (PostgresFileHandle.new f.blob f.id) (fun r y => r = .ok ⟨.ofFd 0, f.id⟩ ∧
        Published accesses db₀ bucketName filename y ∧ Learned i x y ∧
        (y.1.conns i).At f.blob 0 []) x := by
  refine PostgresFileHandle.wp_new (call_still hx rfl (fun h => by cases h) fun y hy hg hk _ => ?_)
  refine ⟨.ok (), .inTx ⟨none, []⟩, y.2.1, rfl, ?_, .inl rfl, fun t hd hc hcom ht => ⟨rfl, ?_⟩⟩
  · by_cases hw : y.1.writes i = []
    · exact .inl hw.symm
    · exact .inr (hy.maker_of_writes hw)
  have follows : Learned i x (t, y.2) := .step hg hk hcom
  refine call_still ht rfl (fun h => by cases h) fun z hz hg' hk' _ => ?_
  have made := hz.after o f (hg'.maker _ (follows.grows.maker _ hm))
  obtain ⟨conn, hs, hat⟩ :=
    Conn.At.opened (fun _ => false) (OpenMode.ofFlags_bits .readWrite) made.stored
  have hbegun : z.1.conns i = .inTx ⟨none, []⟩ := hk'.conn.trans hc
  rw [← hbegun] at hs
  refine ⟨_, conn, z.2.1, hs, .inl ?_, .inl rfl, fun u _ hc' hcom' hu => ?_⟩
  · rw [hat.writes_eq, Shared.writes, hbegun]
    rfl
  · exact .inl ⟨0, rfl, rfl, hu, follows.trans (.step hg' hk' hcom'), by rw [hc']; exact hat⟩

end Opening

section Lookup

variable {b : BucketRow}

theorem promised_buckets (accesses : Fin n → Access) (db₀ : Db) (bucketName filename : String)
    (m : Option (Fin n × FileRow)) :
    (promised accesses db₀ bucketName filename m).buckets = (archive db₀).buckets := by
  cases m <;> rfl

theorem promised_has (accesses : Fin n → Access) (filename : String)
    (hb : db₀.findBucket bucketName = some b) (m : Option (Fin n × FileRow)) :
    (promised accesses db₀ bucketName filename m).buckets bucketName = true := by
  rw [promised_buckets]
  simp [archive, hb]

/-- The bucket is there, or the client has been told that it is not. -/
theorem bucket_lookup (hx : Published accesses db₀ bucketName filename x)
    (hn : ∀ a, (i, a) ∉ x.2.1) :
    ((publishing accesses db₀ bucketName filename).contract.logic i).wp
      (PostgresBackend.bucket bucketName) (fun r y => Published accesses db₀ bucketName filename y ∧
        ((r = .err .doesNotExist ∧ (i, .notFound, none) ∈ y.2.1) ∨
          ∃ b, db₀.findBucket bucketName = some b ∧
            r = .ok ⟨b.id, b.defaultTtl.map Interval.delta⟩ ∧ Learned i x y)) x := by
  refine PostgresBackend.wp_bucket (call_still hx rfl (fun h => by cases h) fun y hy hg hk _ => ?_)
  have hfind : y.1.db.findBucket bucketName = db₀.findBucket bucketName := by
    rw [Db.findBucket, hy.buckets, Db.findBucket]
  cases hb : db₀.findBucket bucketName with
  | none =>
    have tells : Tells accesses db₀ bucketName filename i y
        (y.2.1 ++ [(i, .notFound, none)]) := by
      refine .inr ⟨fun a ha => hn a ((hk.log a).mp ha), _, rfl, Access.apply_of_no_bucket ?_ _⟩
      rw [promised_buckets]
      simp [archive, hb]
    refine ⟨_, y.1.conns i, _, by rw [Session.serve, hfind, hb]; rfl, .inl rfl, tells,
      fun t _ _ _ ht => .inl ⟨rfl, ht, .inl ⟨rfl, ?_⟩⟩⟩
    exact List.mem_append_right _ List.mem_cons_self
  | some b =>
    refine ⟨_, y.1.conns i, _, by rw [Session.serve, hfind, hb]; rfl, .inl rfl, .inl rfl,
      fun t _ _ hcom ht => .inr ⟨b.id, b.defaultTtl, rfl, ht, .inr ⟨b, rfl, rfl, .step hg hk hcom⟩⟩⟩

/-- The file has been made: it is found. -/
theorem file_lookup {o : Fin n} {f : FileRow} (hb : db₀.findBucket bucketName = some b)
    {p : PostgresBucket} (hp : p.id = b.id) (hx : Published accesses db₀ bucketName filename x)
    (hm : x.2.2 = some (o, f)) :
    ((publishing accesses db₀ bucketName filename).contract.logic i).wp (p.file filename)
      (fun r y => r = .ok ⟨.ofFd 0, f.id⟩ ∧ Published accesses db₀ bucketName filename y ∧
        Learned i x y ∧ (y.1.conns i).At f.blob 0 []) x := by
  refine PostgresBucket.wp_file (call_still hx rfl (fun h => by cases h) fun y hy hg hk _ => ?_)
  have hfile := (hy.after o f (hg.maker _ hm)).findFile hb
  rw [← hp] at hfile
  refine ⟨_, y.1.conns i, _, by rw [Session.serve, hfile]; rfl, .inl rfl, .inl rfl,
    fun t _ _ hcom ht => .inr ⟨f.id, f.blob, rfl, ?_⟩⟩
  have follows : Learned i x (t, y.2) := .step hg hk hcom
  refine Logic.wp_mono ?_ (new_beside ht (follows.grows.maker _ hm))
  rintro _ z ⟨rfl, hz, hfollows, hat⟩
  exact ⟨rfl, hz, follows.trans hfollows, hat⟩

end Lookup

/-! A download takes effect when it finds the row, or does not. -/

section Download

variable {b : BucketRow} {o : Fin n} {f : FileRow}

theorem Published.stored (h : Published accesses db₀ bucketName filename x)
    (hm : x.2.2 = some (o, f)) (hfull : x.1.committed o = true ∨ (accesses o).body = []) :
    x.1.db.objects f.blob = some (accesses o).body := by
  rw [(h.after o f hm).stored]
  obtain hc | he := hfull
  · rw [if_pos hc]
  · rw [he, ite_self]

theorem Settled.full {q : Query} (h : Settled accesses i q x.1) (hq : observes q = true)
    (hx : Published accesses db₀ bucketName filename x) (hm : x.2.2 = some (o, f)) (ho : o ≠ i) :
    (x.1.committed o = true ∨ (accesses o).body = []) ∨
      x.1.committed o = false ∧ (accesses i).Unlike (accesses o).body := by
  cases hc : x.1.committed o with
  | true => exact .inl (.inl rfl)
  | false =>
    obtain he | hu := h hq o ho (hx.after o f hm).inserted hc
    · exact .inl (.inr he)
    · exact .inr ⟨rfl, hu⟩

/-- The client goes through the bytes of `o`, which are all there, and its answer is `a`. -/
structure Fetching (accesses : Fin n → Access) (db₀ : Db) (bucketName filename : String)
    (i o : Fin n) (f : FileRow) (a : Seen) (pos : ℕ) (x : Shared n × Story n) : Prop where
  inv : Published accesses db₀ bucketName filename x
  maker : x.2.2 = some (o, f)
  full : x.1.committed o = true ∨ (accesses o).body = []
  told : (i, a) ∈ x.2.1
  conn : (x.1.conns i).At f.blob pos []

namespace Fetching

variable {a : Seen} {pos : ℕ} {y : Shared n × Story n}

theorem bytes (h : Fetching accesses db₀ bucketName filename i o f a pos x) :
    x.1.db.bytes f.blob = (accesses o).body :=
  Db.bytes_of_objects (h.inv.stored h.maker h.full)

theorem later (h : Fetching accesses db₀ bucketName filename i o f a pos x)
    (hy : Published accesses db₀ bucketName filename y) (hg : Grows x y) (hk : Owns i x y) :
    Fetching accesses db₀ bucketName filename i o f a pos y :=
  ⟨hy, hg.maker _ h.maker, h.full.imp (hg.committed o) id, (hk.log a).mpr h.told,
    by rw [hk.conn]; exact h.conn⟩

theorem served (h : Fetching accesses db₀ bucketName filename i o f a pos x) {t : Shared n}
    {conn : Conn} {pos' : ℕ} (hat : conn.At f.blob pos' []) (hc : t.conns i = conn)
    (hcom : ∀ j, t.committed j = x.1.committed j)
    (ht : Published accesses db₀ bucketName filename (t, x.2)) :
    Fetching accesses db₀ bucketName filename i o f a pos' (t, x.2) :=
  ⟨ht, h.maker, h.full.imp (fun ho => (hcom o).trans ho) id, h.told, by rw [hc]; exact hat⟩

/-- A statement on the handle that moves its cursor to `pos'`. -/
theorem call (h : Fetching accesses db₀ bucketName filename i o f a pos x) {q : Query} {r : q.Reply}
    {pos' : ℕ} (hq : Shared.isCommit q = false) (hw : isWrite q = false)
    (hs : ∀ db conn, db.bytes f.blob = (accesses o).body → db.findFileById f.id = some f →
      conn.At f.blob pos [] → ∃ conn', (Session.mk db conn).serve (fun _ => false) q =
        some (r, ⟨db, conn'⟩) ∧ conn'.At f.blob pos' [])
    {Φ : q.Reply → Shared n × Story n → Prop}
    (hΦ : ∀ t, Fetching accesses db₀ bucketName filename i o f a pos' t → Φ r t) :
    ((publishing accesses db₀ bucketName filename).contract.logic i).call q Φ x := by
  refine call_still h.inv hq (fun h => by rw [hw] at h; cases h) fun y hy hg hk _ => ?_
  have hr := h.later hy hg hk
  obtain ⟨conn', hs, hat⟩ := hs _ _ hr.bytes (hy.after o f hr.maker).byId hr.conn
  refine ⟨r, conn', y.2.1, hs, .inl ?_, .inl rfl,
    fun t _ hc hcom ht => hΦ _ (hr.served hat hc hcom ht)⟩
  exact hat.writes_eq.trans hr.conn.writes_eq.symm

end Fetching

theorem get_lookup (hb : db₀.findBucket bucketName = some b)
    (hf : db₀.findFile b.id filename = none) {p : PostgresBucket} (hp : p.id = b.id)
    {rooms : List ℕ+} (hi : accesses i = .get rooms)
    (hx : Published accesses db₀ bucketName filename x) (hn : ∀ a, (i, a) ∉ x.2.1) :
    ((publishing accesses db₀ bucketName filename).contract.logic i).wp (p.file filename)
      (fun r y => Published accesses db₀ bucketName filename y ∧
        ((r = .err .doesNotExist ∧ (i, .notFound, none) ∈ y.2.1) ∨
          ∃ o f, o ≠ i ∧ r = .ok ⟨.ofFd 0, f.id⟩ ∧ y.2.2 = some (o, f) ∧
            (i, downloaded (accesses o).body rooms) ∈ y.2.1 ∧ (y.1.conns i).At f.blob 0 [])) x := by
  refine PostgresBucket.wp_file (call_still hx rfl (fun h => by cases h) fun y hy hg hk _ => ?_)
  have hn' : ∀ a, (i, a) ∉ y.2.1 := fun a ha => hn a ((hk.log a).mp ha)
  have has := promised_has accesses filename hb y.2.2
  cases hm : y.2.2 with
  | none =>
    obtain ⟨⟨now, hd⟩, -⟩ := hy.before hm
    have hfile : y.1.db.findFile p.id filename = none := by
      rw [hd, hp]
      exact hf
    have tells : Tells accesses db₀ bucketName filename i y (y.2.1 ++ [(i, .notFound, none)]) := by
      refine .inr ⟨hn', _, rfl, ?_⟩
      rw [hi, Access.apply_get_absent has]
      rw [hm]
      exact Db.content_of_absent hb hf
    refine ⟨_, y.1.conns i, _, by rw [Session.serve, hfile]; rfl, .inl rfl, tells,
      fun t _ _ _ ht => .inl ⟨rfl, ht, .inl ⟨rfl, ?_⟩⟩⟩
    exact List.mem_append_right _ List.mem_cons_self
  | some m =>
    obtain ⟨o, f⟩ := m
    have made := hy.after o f hm
    have ho : o ≠ i := fun he => hn' _ (he ▸ made.entered)
    have hfile := made.findFile hb
    rw [← hp] at hfile
    have tells : Tells accesses db₀ bucketName filename i y
        (y.2.1 ++ [(i, downloaded (accesses o).body rooms)]) := by
      refine .inr ⟨hn', _, rfl, ?_⟩
      rw [hi, Access.apply_get_present has]
      · rfl
      · rw [hm]
        exact Archive.store_files_self ..
    refine ⟨_, y.1.conns i, _, by rw [Session.serve, hfile]; rfl, .inl rfl, tells,
      fun t _ _ hcom ht => .inr ⟨f.id, f.blob, rfl, ?_⟩⟩
    refine Logic.wp_mono ?_ (new_beside ht rfl)
    rintro _ z ⟨rfl, hz, hfollows, hat⟩
    refine ⟨hz, .inr ⟨o, f, ho, rfl, hfollows.grows.maker _ rfl, ?_, hat⟩⟩
    exact (hfollows.log _).mpr (List.mem_append_right _ List.mem_cons_self)

theorem get_beside
    (absent : ∀ b, db₀.findBucket bucketName = some b → db₀.findFile b.id filename = none)
    (sizes : ∀ o, (accesses o).body.length ≤ maxObjectSize) {rooms : List ℕ+}
    (hi : accesses i = .get rooms) (hx : Published accesses db₀ bucketName filename x)
    (hn : ∀ a, (i, a) ∉ x.2.1) :
    ((publishing accesses db₀ bucketName filename).contract.logic i).wp
      (getExplore bucketName filename rooms)
      (fun r y => Published accesses db₀ bucketName filename y ∧ Told i (r.map some) y) x := by
  refine Logic.wp_then (Logic.wp_mono ?_ (bucket_lookup hx hn))
  rintro _ y ⟨hy, ⟨rfl, hin⟩ | ⟨b, hb, rfl, hfollows⟩⟩
  · exact ⟨hy, _, hin, rfl⟩
  refine Logic.wp_then (Logic.wp_mono ?_ (get_lookup hb (absent b hb) rfl hi hy
    fun a ha => hn a ((hfollows.log a).mp ha)))
  rintro _ z ⟨hz, ⟨rfl, hin⟩ | ⟨o, f, ho, rfl, hm, hin, hat⟩⟩
  · exact ⟨hz, _, hin, rfl⟩
  -- the size is the first that the client sees of the bytes
  refine Logic.wp_then (BlobHandle.wp_seekEnd (call_still hz rfl (fun h => by cases h)
    fun u hu hg hk settled => ?_))
  have hmu := hg.maker _ hm
  obtain hfull | ⟨-, hunlike⟩ := settled.full rfl hu hmu ho
  · have hr : Fetching accesses db₀ bucketName filename i o f
        (downloaded (accesses o).body rooms) 0 u :=
      ⟨hu, hmu, hfull, (hk.log _).mpr hin, by rw [hk.conn]; exact hat⟩
    obtain ⟨conn, hs, hat'⟩ := hr.conn.seekEnd (fun _ => false) u.1.db (by
      rw [applyAll_nil, hr.bytes]
      exact sizes o)
    rw [applyAll_nil, hr.bytes] at hs hat'
    refine ⟨_, conn, u.2.1, hs, .inl (hat'.writes_eq.trans hr.conn.writes_eq.symm), .inl rfl,
      fun t _ hc hcom ht => ⟨_, rfl, ?_⟩⟩
    have ht := hr.served hat' hc hcom ht
    refine Logic.wp_then (BlobHandle.wp_seekStart (Nat.zero_le _) (ht.call rfl rfl
      (fun db conn _ _ hat => hat.seekStart (fun _ => false) db (Nat.zero_le _))
      fun t₁ ht₁ => ⟨0, rfl, ?_⟩))
    refine Logic.wp_then (PostgresFileHandle.wp_metadata (ht₁.call rfl rfl
      (fun db conn _ hrow hat => ⟨conn, hat.updatedAt_some (fun _ => false) db hrow, hat⟩)
      fun t₂ ht₂ => .inl ⟨_, rfl, ?_⟩))
    refine (Logic.wp_bind ..).mpr (Logic.wp_mono ?_ (wp_readerStream_steady
      (c := (accesses o).body)
      (R := Fetching accesses db₀ bucketName filename i o f (downloaded (accesses o).body rooms))
      (X := fun _ _ => False) (fun pos w room hw _ _ => ?_) ht₂))
    · rintro _ w (⟨rfl, pos, hw⟩ | ⟨-, -, hX⟩)
      · exact ⟨hw.inv, _, hw.told, rfl⟩
      · exact hX.elim
    · refine hw.call rfl rfl (fun db conn hbytes _ hat => ?_) fun t₃ ht₃ => .inl ⟨rfl, ht₃⟩
      have hread := hat.read (fun _ => false) db room
      rwa [applyAll_nil, hbytes] at hread
  · rw [hi] at hunlike
    exact hunlike.elim

end Download

/-! An upload takes effect when it makes the row, or finds that it has been made. -/

section Upload

variable {b : BucketRow} {parts : List Bytes} {now : DateTime} {deleteAfter : Option Timestamp}

/-- Before anybody has made the row, it can be made. -/
theorem Published.unmade (hx : Published accesses db₀ bucketName filename x) (h : db₀.Linked)
    (hb : db₀.findBucket bucketName = some b) (hf : db₀.findFile b.id filename = none)
    (hm : x.2.2 = none) : x.1.db.Linked ∧ x.1.db.findFile b.id filename = none ∧
      ∃ b' ∈ x.1.db.buckets, b'.id = b.id := by
  obtain ⟨⟨clock, hdb⟩, -⟩ := hx.before hm
  rw [hdb]
  exact ⟨h.tick clock, hf, b, (Db.findBucket_some hb).1, rfl⟩

/-- The client makes the row: its upload has taken effect. -/
theorem Published.insert (hx : Published accesses db₀ bucketName filename x) (h : db₀.Linked)
    (hb : db₀.findBucket bucketName = some b) (hf : db₀.findFile b.id filename = none)
    (hi : accesses i = .put parts now) (hd : deleteAfter.any (· < minTimestamp) = false)
    (hm : x.2.2 = none) (hcom : x.1.committed i = false) (hn : ∀ a, (i, a) ∉ x.2.1)
    {a : FileId × Oid} {c : Conn} {t : Shared n}
    (ht : Shared.Answered i (.insertFile b.id filename deleteAfter) (.ok a) x.1
      (x.1.db.withFile b.id filename deleteAfter) c t) :
    Published accesses db₀ bucketName filename (t, x.2.1 ++ [(i, .ok, none)],
        some (i, x.1.db.newRow b.id filename deleteAfter)) ∧
      Grows x (t, x.2.1 ++ [(i, .ok, none)], some (i, x.1.db.newRow b.id filename deleteAfter)) ∧
      ∀ j ≠ i, Owns j x (t, x.2.1 ++ [(i, .ok, none)],
        some (i, x.1.db.newRow b.id filename deleteAfter)) := by
  obtain ⟨-, hbefore⟩ := hx.before hm
  obtain ⟨hlinked, hfile, hbucket⟩ := hx.unmade h hb hf hm
  have hlinked' := hlinked.insertFile (Db.insertFile_eq hd hfile hbucket)
  have hfound : (x.1.db.withFile b.id filename deleteAfter).findFile b.id filename =
      some (x.1.db.newRow b.id filename deleteAfter) := by
    rw [Db.findFile_withFile _ _ _ hfile, if_pos ⟨rfl, rfl⟩]
  have hcommitted := Shared.committed_of_not_commit ht.history rfl
  have hserial := hx.serial
  rw [hm] at hserial
  refine ⟨⟨?_, hserial.snoc ?_, nodup_snoc hx.once hn, ?_, fun o f ho => ?_⟩,
    ⟨fun m hm' => ?_, fun o ho => (hcommitted o).trans ho⟩, fun j hj =>
      ⟨by rw [ht.conns, Function.update_of_ne hj], hcommitted j, fun a => by simp [hj]⟩⟩
  · rw [ht.db]
    exact hx.buckets
  · have hnone : (archive db₀).files bucketName filename = none := Db.content_of_absent hb hf
    show (accesses i).apply bucketName filename (archive db₀) =
      ((.ok, none), (archive db₀).store bucketName filename (accesses i).body)
    rw [hi, Access.apply_put_absent (by simp [archive, hb]) hnone]
    rfl
  · intro hm'
    cases hm'
  · cases ho
    refine ⟨⟨b, hb, by rw [ht.db, hfound]⟩, ?_, ?_, ?_, List.mem_append_right _ List.mem_cons_self,
      fun j hj => ?_, ?_⟩
    · rw [ht.db]
      exact hlinked'.findFileById_of_mem (Db.findFile_some hfound).1
    · rw [ht.db, hcommitted, hcom]
      simp [Db.withFile, Db.newRow]
    · simp [Shared.inserted, ht.history, Shared.recorded, isInsert]
    · rw [Shared.writes_of_ne ht.conns hj, (hbefore j).1]
    · by_contra hne
      exact ht.waits i hne (hbefore i).2
  · rw [hm] at hm'
    cases hm'

theorem create_beside (h : db₀.Linked) (hb : db₀.findBucket bucketName = some b)
    (hf : db₀.findFile b.id filename = none) (hi : accesses i = .put parts now)
    (hd : Deadline b now deleteAfter) (hx : Published accesses db₀ bucketName filename x)
    (hcom : x.1.committed i = false) (hn : ∀ a, (i, a) ∉ x.2.1) :
    ((publishing accesses db₀ bucketName filename).contract.logic i).wp
      (PostgresBucket.createFile ⟨b.id, b.defaultTtl.map Interval.delta⟩ filename now)
      (fun r y => Published accesses db₀ bucketName filename y ∧
        ((∃ f, r = .ok ⟨.ofFd 0, f.id⟩ ∧ y.2.2 = some (i, f) ∧ y.1.committed i = false ∧
            (y.1.conns i).At f.blob 0 []) ∨
          ∃ o f, o ≠ i ∧ r = .err .fileExists ∧ y.2.2 = some (o, f) ∧
            (i, compared (accesses o).body parts.flatten) ∈ y.2.1)) x := by
  refine PostgresBucket.wp_createFile hd.1
    (call_served (T := publishing accesses db₀ bucketName filename) hx
      fun y hy hg hk hcond => ⟨hcond.2 rfl, ?_⟩)
  have hn' : ∀ a, (i, a) ∉ y.2.1 := fun a ha => hn a ((hk.log a).mp ha)
  have hcom' : y.1.committed i = false := hk.committed.trans hcom
  cases hm : y.2.2 with
  | none =>
    obtain ⟨-, hfile, hbucket⟩ := Published.unmade hy h hb hf hm
    have hins := Db.insertFile_eq hd.2 hfile hbucket
    refine ⟨_, _, y.1.conns i, by rw [Session.serve, hins]; rfl, fun t ht => ?_⟩
    obtain ⟨hinv, hgrows, hholds⟩ := Published.insert hy h hb hf hi hd.2 hm hcom' hn' ht
    refine ⟨_, ⟨hinv, hgrows, hholds⟩,
      .inr (.inr ⟨_, _, rfl, Logic.wp_mono ?_ (new_beside hinv rfl)⟩)⟩
    rintro _ z ⟨rfl, hz, hfollows, hat⟩
    refine ⟨hz, .inl ⟨_, rfl, hfollows.grows.maker _ rfl, ?_, hat⟩⟩
    rw [hfollows.committed, Shared.committed_of_not_commit ht.history rfl]
    exact hcom'
  | some m =>
    obtain ⟨o, f⟩ := m
    have made := Published.after hy o f hm
    have ho : o ≠ i := fun he => hn' _ (he ▸ made.entered)
    have hins := Db.insertFile_exists hd.2 (made.findFile hb)
    have tells : Tells accesses db₀ bucketName filename i y
        (y.2.1 ++ [(i, compared (accesses o).body parts.flatten)]) := by
      refine .inr ⟨hn', _, rfl, ?_⟩
      rw [hi, Access.apply_put_present (promised_has accesses filename hb _)]
      · rfl
      · rw [hm]
        exact Archive.store_files_self ..
    refine ⟨_, _, y.1.conns i, by rw [Session.serve, hins]; rfl, fun t ht => ⟨_,
      Published.answered hy ht rfl (.inl rfl) tells, .inl ⟨rfl, ?_⟩⟩⟩
    refine ⟨(Published.answered hy ht rfl (.inl rfl) tells).1, .inr ⟨o, f, ho, rfl, hm, ?_⟩⟩
    exact List.mem_append_right _ List.mem_cons_self

/-- The maker has not committed. -/
structure Making (accesses : Fin n → Access) (db₀ : Db) (bucketName filename : String) (i : Fin n)
    (f : FileRow) (x : Shared n × Story n) : Prop where
  inv : Published accesses db₀ bucketName filename x
  maker : x.2.2 = some (i, f)
  uncommitted : x.1.committed i = false

namespace Making

variable {f : FileRow} {y : Shared n × Story n}

theorem objects (h : Making accesses db₀ bucketName filename i f x) :
    x.1.db.objects f.blob = some [] := by
  rw [(h.inv.after i f h.maker).stored, h.uncommitted]
  rfl

theorem bytes (h : Making accesses db₀ bucketName filename i f x) : x.1.db.bytes f.blob = [] :=
  Db.bytes_of_objects h.objects

theorem later (h : Making accesses db₀ bucketName filename i f x)
    (hy : Published accesses db₀ bucketName filename y) (hg : Grows x y) (hk : Owns i x y) :
    Making accesses db₀ bucketName filename i f y :=
  ⟨hy, hg.maker _ h.maker, hk.committed.trans h.uncommitted⟩

theorem served (h : Making accesses db₀ bucketName filename i f x) {t : Shared n}
    (hcom : ∀ j, t.committed j = x.1.committed j)
    (ht : Published accesses db₀ bucketName filename (t, x.2)) :
    Making accesses db₀ bucketName filename i f (t, x.2) :=
  ⟨ht, h.maker, (hcom i).trans h.uncommitted⟩

end Making

/-- The bytes `w` have been written to a new object. -/
def HasWritten (oid : Oid) (w : Bytes) (conn : Conn) : Prop :=
  ∃ pos ws, conn.At oid pos ws ∧ (∀ v ∈ ws, v.oid = oid) ∧ applyAll ws oid [] = w

theorem writesOn_making {f : FileRow} {body : Bytes} (hl : body.length ≤ maxObjectSize) :
    WritesOn ((publishing accesses db₀ bucketName filename).contract.logic i) 0 body
      (fun w x => Making accesses db₀ bucketName filename i f x ∧ HasWritten f.blob w (x.1.conns i))
      (fun _ _ => False) := by
  rintro w data rest x rfl ⟨hx, pos, ws, hat, hown, hw⟩
  simp only [List.length_append] at hl
  refine call_still hx.inv rfl (fun h => by cases h) fun y hy hg hk _ => ?_
  have hy := hx.later hy hg hk
  rw [← hk.conn] at hat
  obtain ⟨conn, hs, hat₁⟩ := hat.seekEnd (fun _ => false) y.1.db (by
    rw [hy.bytes, hw]
    omega)
  rw [hy.bytes, hw] at hs hat₁
  refine ⟨_, conn, y.2.1, hs, .inr ⟨f, hy.maker⟩, .inl rfl, fun t _ hc hcom ht => ?_⟩
  have ht := hy.served hcom ht
  refine ⟨_, rfl, fun _ => ⟨ht, _, ws, hc ▸ hat₁, hown, hw⟩, fun hd => ?_⟩
  refine call_still ht.inv rfl (fun _ => ⟨f, ht.maker⟩) fun z hz hg' hk' _ => ?_
  have hz := ht.later hz hg' hk'
  have hatz : (z.1.conns i).At f.blob w.length ws := by
    rw [hk'.conn, hc]
    exact hat₁
  obtain ⟨conn₂, hs₂, hat₂⟩ := hatz.write (fun _ => false) z.1.db hd (by omega) rfl
  refine ⟨_, conn₂, z.2.1, hs₂, .inr ⟨f, hz.maker⟩, .inl rfl, fun u _ hc' hcom' hu =>
    .inl ⟨rfl, hz.served hcom' hu, _, _, hc' ▸ hat₂, fun v hv => ?_, applyAll_append_end hw data⟩⟩
  obtain hv | hv := List.mem_append.mp hv
  · exact hown v hv
  · rw [List.mem_singleton.mp hv]

/-- The maker commits: its bytes can be seen. -/
theorem Making.commit {f : FileRow} (hx : Making accesses db₀ bucketName filename i f x)
    {c : Conn} {t : Shared n} (ht : Shared.Answered i .commitTx (.ok ()) x.1
      (x.1.db.store f.blob (accesses i).body) c t) :
    Published accesses db₀ bucketName filename (t, x.2) ∧ Grows x (t, x.2) ∧
      ∀ j ≠ i, Owns j x (t, x.2) := by
  have made := hx.inv.after i f hx.maker
  have hcommitted : t.committed i = true := by
    simp [Shared.committed, ht.history, Shared.recorded, Shared.isCommit]
  refine ⟨⟨?_, hx.inv.serial, hx.inv.once, fun hm => ?_, fun o g hm => ?_⟩,
    ⟨fun _ hm => hm, Shared.committed_mono ht.history⟩, fun j hj =>
      ⟨by rw [ht.conns, Function.update_of_ne hj], Shared.committed_of_ne ht.history hj,
        fun _ => Iff.rfl⟩⟩
  · rw [ht.db]
    exact hx.inv.buckets
  · rw [hx.maker] at hm
    cases hm
  · rw [hx.maker] at hm
    cases hm
    refine ⟨?_, ?_, ?_, Shared.inserted_mono ht.history i made.inserted, made.entered,
      fun j hj => ?_, ?_⟩
    · rw [ht.db]
      exact made.found
    · rw [ht.db]
      exact made.byId
    · rw [ht.db, hcommitted, Db.store_objects_self]
      rfl
    · rw [Shared.writes_of_ne ht.conns hj, made.others j hj]
    · by_contra hne
      exact ht.waits i hne made.free

theorem commit_making {f : FileRow} (hx : Making accesses db₀ bucketName filename i f x)
    (hw : HasWritten f.blob (accesses i).body (x.1.conns i)) :
    ((publishing accesses db₀ bucketName filename).contract.logic i).wp
      (PostgresFileHandle.commit ⟨.ofFd 0, f.id⟩) (fun r y => r = .ok () ∧
        Published accesses db₀ bucketName filename y ∧ (i, .ok, none) ∈ y.2.1) x := by
  obtain ⟨pos, ws, hat, hown, hw⟩ := hw
  refine PostgresFileHandle.wp_commit (call_still hx.inv rfl (fun h => by cases h)
    fun y hy hg hk _ => ?_)
  have hy := hx.later hy hg hk
  rw [← hk.conn] at hat
  refine ⟨_, _, y.2.1, hat.close (fun _ => false) y.1.db, .inr ⟨f, hy.maker⟩, .inl rfl,
    fun t _ hc hcom ht => ⟨⟨_, rfl⟩, ?_⟩⟩
  have ht := hy.served hcom ht
  refine call_served (T := publishing accesses db₀ bucketName filename) ht.inv
    fun z hz hg' hk' hcond => ⟨hcond.2 rfl, ?_⟩
  have hz := ht.later hz hg' hk'
  have hconn : z.1.conns i = .inTx ⟨none, ws⟩ := hk'.conn.trans hc
  have hcommit := Db.commit_eq_store hown hz.objects none
  rw [hw] at hcommit
  refine ⟨.ok (), z.1.db.store f.blob (accesses i).body, .idle, ?_, fun u hu => ⟨z.2, ?_⟩⟩
  · rw [hconn, ← hcommit]
    rfl
  · have hcommitted := hz.commit hu
    exact ⟨hcommitted, rfl, rfl, hcommitted.1, (hz.inv.after i f hz.maker).entered⟩

/-- A later upload has read `m`, which `o` has committed. -/
structure Matching (accesses : Fin n → Access) (db₀ : Db) (bucketName filename : String)
    (i o : Fin n) (f : FileRow) (m : Bytes) (x : Shared n × Story n) : Prop where
  inv : Published accesses db₀ bucketName filename x
  maker : x.2.2 = some (o, f)
  told : (i, compared (accesses o).body (accesses i).body) ∈ x.2.1
  conn : (x.1.conns i).At f.blob m.length []
  read : m <+: (accesses o).body
  seen : m ≠ [] → x.1.committed o = true

/-- It has met the end of the file after `m`: of the whole file, or before there are any bytes. -/
structure Matched (accesses : Fin n → Access) (db₀ : Db) (bucketName filename : String)
    (i o : Fin n) (m : Bytes) (x : Shared n × Story n) : Prop where
  inv : Published accesses db₀ bucketName filename x
  told : (i, compared (accesses o).body (accesses i).body) ∈ x.2.1
  read : m = (accesses o).body ∨ m = [] ∧ (accesses i).Unlike (accesses o).body

theorem readsOn_checking {o : Fin n} {f : FileRow} (ho : o ≠ i) :
    BlobHandle.ReadsOn ((publishing accesses db₀ bucketName filename).contract.logic i) 0
      (Matching accesses db₀ bucketName filename i o f)
      (Matched accesses db₀ bucketName filename i o) := by
  intro m x room hA hroom _
  refine call_still hA.inv rfl (fun h => by cases h) fun y hy hg hk settled => ?_
  have hm := hg.maker _ hA.maker
  have hat : (y.1.conns i).At f.blob m.length [] := by
    rw [hk.conn]
    exact hA.conn
  obtain ⟨conn, hs, hat'⟩ := hat.read (fun _ => false) y.1.db room
  rw [applyAll_nil] at hs hat'
  refine ⟨_, conn, y.2.1, hs, .inl (hat'.writes_eq.trans hat.writes_eq.symm), .inl rfl,
    fun t _ hc hcom ht => ⟨_, rfl, length_window_le _ _ _, ?_⟩⟩
  have told := (hk.log _).mpr hA.told
  have read : m <+: (accesses o).body.drop 0 := hA.read
  obtain hfull | ⟨hopen, hunlike⟩ := settled.full rfl hy hm ho
  · rw [Db.bytes_of_objects (hy.stored hm hfull)] at hat' ⊢
    have more := isPrefix_append_window room read
    rw [Nat.zero_add] at more
    by_cases hd : window (accesses o).body m.length room = []
    · exact .inr ⟨hd, ht, told, .inl (eq_drop_of_window_nil hroom read (by rwa [Nat.zero_add]))⟩
    · refine .inl ⟨hd, ht, hm, told, ?_, more, fun _ => ?_⟩
      · rw [hc, List.length_append]
        exact hat'
      · obtain hcommitted | hempty := hfull
        · exact (hcom o).trans hcommitted
        · simp [hempty, window] at hd
  · have hbytes : y.1.db.bytes f.blob = [] := by
      refine Db.bytes_of_objects ?_
      rw [(hy.after o f hm).stored, hopen]
      rfl
    have hnil : m = [] := by
      by_contra hne
      have := hg.committed o (hA.seen hne)
      rw [hopen] at this
      cases this
    exact .inr ⟨by simp [hbytes, window], ht, told, .inr ⟨hnil, hunlike⟩⟩

theorem check_making {o : Fin n} {f : FileRow} (ho : o ≠ i) (hi : accesses i = .put parts now)
    (hx : Published accesses db₀ bucketName filename x) (hm : x.2.2 = some (o, f))
    (told : (i, compared (accesses o).body (accesses i).body) ∈ x.2.1) {pos : ℕ}
    (hat : (x.1.conns i).At f.blob pos []) :
    ((publishing accesses db₀ bucketName filename).contract.logic i).wp
      (checkRangeMatches (frames parts) 0 (.ofFd 0)) (fun r y => ∃ v, r = .ok v ∧
        Published accesses db₀ bucketName filename y ∧
        (i, if v = .isMatch then .ok else .conflict, none) ∈ y.2.1) x := by
  have hbody : (accesses i).body = parts.flatten := by rw [hi]; rfl
  refine Logic.wp_mono ?_ (wp_checkRangeMatches (readsOn_checking (f := f) ho) (Nat.zero_le _)
    (call_still hx rfl (fun h => by cases h) fun y hy hg hk _ => ?_))
  · rintro _ y ⟨v, rfl, hv⟩
    refine ⟨v, rfl, ?_⟩
    rw [← hbody] at hv
    obtain ⟨rfl, hE⟩ | ⟨hne, m, ⟨hE, hl⟩ | ⟨hA, hno⟩⟩ := hv
    · refine ⟨hE.inv, ?_⟩
      have he := hE.told
      obtain hread | ⟨hnil, hunlike⟩ := hE.read
      · rwa [compared, if_pos hread.symm] at he
      · rw [hi] at hunlike hnil
        exact absurd hnil hunlike.1
    · refine ⟨hE.inv, ?_⟩
      have he := hE.told
      rw [if_neg hne]
      have hdiff : (accesses o).body ≠ (accesses i).body := fun hsame => by
        obtain hread | ⟨-, hunlike⟩ := hE.read
        · rw [hread, hsame] at hl
          exact lt_irrefl _ hl
        · rw [hsame, hi] at hunlike
          exact hunlike.2 rfl
      rwa [compared, if_neg hdiff] at he
    · refine ⟨hA.inv, ?_⟩
      have he := hA.told
      have hdiff : (accesses o).body ≠ (accesses i).body := fun hsame => hno (hsame ▸ hA.read)
      rw [if_neg hne]
      rwa [compared, if_neg hdiff] at he
  · rw [← hk.conn] at hat
    obtain ⟨conn, hs, hat'⟩ := hat.seekStart (fun _ => false) y.1.db (Nat.zero_le _)
    refine ⟨_, conn, y.2.1, hs, .inl (hat'.writes_eq.trans hat.writes_eq.symm), .inl rfl,
      fun t _ hc _ ht => ⟨_, rfl, ht, hg.maker _ hm, (hk.log _).mpr told, hc ▸ hat',
        List.nil_prefix, fun hne => absurd rfl hne⟩⟩

theorem put_beside (h : db₀.Linked)
    (absent : ∀ b, db₀.findBucket bucketName = some b → db₀.findFile b.id filename = none)
    (fits : ((accesses i).op bucketName filename).Fits db₀.buckets)
    (hi : accesses i = .put parts now)
    (hx : Published accesses db₀ bucketName filename x) (hcom : x.1.committed i = false)
    (hn : ∀ a, (i, a) ∉ x.2.1) :
    ((publishing accesses db₀ bucketName filename).contract.logic i).wp
      (putWriteFilename bucketName filename (frames parts) now)
      (fun r y => Published accesses db₀ bucketName filename y ∧
        ∃ a, (i, a, none) ∈ y.2.1 ∧ status r = some a) x := by
  have hbody : (accesses i).body = parts.flatten := by rw [hi]; rfl
  rw [hi] at fits
  obtain ⟨hl, hdeadline⟩ := fits
  refine Logic.wp_then (Logic.wp_mono ?_ (bucket_lookup hx hn))
  rintro _ y ⟨hy, ⟨rfl, hin⟩ | ⟨b, hb, rfl, hfollows⟩⟩
  · exact ⟨hy, _, hin, rfl⟩
  obtain ⟨deleteAfter, hd⟩ := hdeadline b (Db.findBucket_some hb).1 (Db.findBucket_some hb).2
  refine Logic.wp_try (Logic.wp_mono ?_ (create_beside h hb (absent b hb) hi hd hy
    (hfollows.committed.trans hcom) fun a ha => hn a ((hfollows.log a).mp ha)))
  rintro _ z ⟨hz, ⟨f, rfl, hm, huncommitted, hat⟩ | ⟨o, f, ho, rfl, hm, told⟩⟩
  · refine Logic.wp_then (Logic.wp_mono ?_ (wp_appendFrames (writesOn_making (f := f) hl)
      (List.nil_append _) ⟨⟨hz, hm, huncommitted⟩, 0, [], hat, by simp, rfl⟩))
    rintro _ u (⟨rfl, hu, hwritten⟩ | ⟨_, -, hF⟩)
    · rw [← hbody] at hwritten
      refine (Logic.wp_mapErr ..).mpr (Logic.wp_mono ?_ (commit_making hu hwritten))
      rintro _ w ⟨rfl, hw, hin⟩
      exact ⟨hw, _, hin, rfl⟩
    · exact hF.elim
  · rw [← hbody] at told
    refine Logic.wp_then (Logic.wp_mono ?_ (file_lookup hb rfl hz hm))
    rintro _ u ⟨rfl, hu, hfollows', hat⟩
    refine Logic.wp_then (Logic.wp_mono ?_ (check_making ho hi hu (hfollows'.grows.maker _ hm)
      ((hfollows'.log _).mpr told) hat))
    rintro _ w ⟨v, rfl, hw, hin⟩
    cases v with
    | isMatch => exact ⟨hw, _, hin, rfl⟩
    | lengthMismatch | dataMismatch => exact ⟨hw, _, hin, rfl⟩

end Upload

theorem access_beside (h : db₀.Linked)
    (absent : ∀ b, db₀.findBucket bucketName = some b → db₀.findFile b.id filename = none)
    (fits : ∀ i, ((accesses i).op bucketName filename).Fits db₀.buckets)
    (hx : Published accesses db₀ bucketName filename x) (hcom : x.1.committed i = false)
    (hn : ∀ a, (i, a) ∉ x.2.1) :
    ((publishing accesses db₀ bucketName filename).contract.logic i).wp
      ((accesses i).request bucketName filename).handler
      (fun r y => Published accesses db₀ bucketName filename y ∧ Told i r y) x := by
  have sizes : ∀ o, (accesses o).body.length ≤ maxObjectSize := fun o => by
    have hfit := fits o
    cases ho : accesses o with
    | put parts now =>
      rw [ho] at hfit
      exact hfit.1
    | get rooms => exact Nat.zero_le _
  cases hi : accesses i with
  | put parts now =>
    refine (Logic.wp_bind ..).mpr (Logic.wp_mono ?_ (put_beside h absent (fits i) hi hx hcom hn))
    rintro r y ⟨hy, a, hin, hr⟩
    cases r with
    | ok | err =>
      refine ⟨hy, _, hin, ?_⟩
      obtain rfl := Option.some.inj hr
      rfl
    | panic | dropped => cases hr
  | get rooms =>
    refine (Logic.wp_bind ..).mpr (Logic.wp_mono ?_ (get_beside absent sizes hi hx hn))
    rintro r y ⟨hy, htold⟩
    cases r with
    | ok | err => exact ⟨hy, htold⟩
    | panic | dropped =>
      obtain ⟨_, -, hs⟩ := htold
      cases hs

end Calls

/-- Sent one after another in `order`, the requests get the answers they have got. -/
structure Atomic {n : ℕ} (accesses : Fin n → Access) (bucketName filename : String) (db : Db)
    (p : Pool n) (order : List (Fin n)) : Prop where
  once : order.Nodup
  answers : ∀ i o, answer p i = some o → (i, seen o) ∈ order.zip
    ((serveAll db (order.map fun i => (accesses i).request bucketName filename)).1.map seen)

/-- What that means for the uploads and downloads: all that are acknowledged are of one body. -/
structure OneBody {n : ℕ} (accesses : Fin n → Access) (p : Pool n) : Prop where
  agree : ∀ i j, (accesses i).IsPut → (accesses j).IsPut →
    (answer p i).map status = some (some .ok) → (answer p j).map status = some (some .ok) →
      (accesses i).body = (accesses j).body
  same : ∀ i j, (accesses i).IsPut → (accesses j).IsPut →
    (answer p i).map status = some (some .ok) → (accesses j).body = (accesses i).body →
      (answer p j).map status ≠ some (some .conflict)
  gets : ∀ i rooms o, accesses i = .get rooms → answer p i = some o →
    seen o = some (.notFound, none) ∨ ∃ j, (accesses j).IsPut ∧
      seen o = some (downloaded (accesses j).body rooms) ∧
      ∀ o', answer p j = some o' → seen o' = some (.ok, none)

section Run

variable {n : ℕ} {accesses : Fin n → Access} {bucketName filename : String} {db : Db} {p : Pool n}
  {story : Story n}

theorem told_of_ended (hp : (publishing accesses db bucketName filename).contract.Holds p story)
    {i : Fin n} {o : Answer} (ho : answer p i = some o) : ∃ a, (i, a) ∈ story.1 ∧ seen o = some a :=
  ((publishing accesses db bucketName filename).contract.post_of_ended hp ho).2

theorem atomic_of_holds (h : db.Linked)
    (fits : ∀ i, ((accesses i).op bucketName filename).Fits db.buckets)
    (hx : Published accesses db bucketName filename (p.shared, story))
    (hp : (publishing accesses db bucketName filename).contract.Holds p story) :
    Atomic accesses bucketName filename db p (story.1.map Prod.fst) := by
  refine ⟨hx.once, fun i o ho => ?_⟩
  rw [seen_of_serial h fits hx.serial, List.zip_map']
  obtain ⟨a, ha, hs⟩ := told_of_ended hp ho
  exact List.mem_map.mpr ⟨(i, a), ha, by rw [hs]⟩

theorem entered_of_status (hp : (publishing accesses db bucketName filename).contract.Holds p story)
    {i : Fin n} {code : StatusCode} (hi : (answer p i).map status = some (some code)) :
    ∃ a, (i, a) ∈ story.1 ∧ a.1 = code := by
  obtain ⟨o, ho, hs⟩ := Option.map_eq_some_iff.mp hi
  obtain ⟨a, ha, hseen⟩ := told_of_ended hp ho
  rw [status_eq_seen, hseen] at hs
  exact ⟨a, ha, Option.some.inj hs⟩

/-- Nobody has made the file. -/
theorem oneBody_of_nothing (hp : (publishing accesses db bucketName filename).contract.Holds p story)
    (hnone : ∀ x ∈ story.1, x.2 = (.notFound, none)) : OneBody accesses p := by
  have never : ∀ {i : Fin n}, (answer p i).map status ≠ some (some .ok) := by
    intro i hi
    obtain ⟨a, ha, hok⟩ := entered_of_status hp hi
    obtain rfl : a = (.notFound, none) := hnone _ ha
    cases hok
  refine ⟨fun i _ _ _ hi => absurd hi never, fun i _ _ _ hi => absurd hi never,
    fun i rooms o _ ho => .inl ?_⟩
  obtain ⟨a, ha, hs⟩ := told_of_ended hp ho
  exact hs.trans (congrArg some (hnone _ ha))

/-- `k` has made it, and is answered 200. -/
theorem oneBody_of_maker (once : (story.1.map Prod.fst).Nodup)
    (hp : (publishing accesses db bucketName filename).contract.Holds p story) {k : Fin n}
    (hput : (accesses k).IsPut) (hin : (k, .ok, none) ∈ story.1)
    (hall : ∀ x ∈ story.1,
      x.2 = (.notFound, none) ∨ x.2 = (accesses x.1).against (accesses k).body) :
    OneBody accesses p := by
  have acknowledged : ∀ {i : Fin n}, (accesses i).IsPut →
      (answer p i).map status = some (some .ok) → (accesses k).body = (accesses i).body := by
    intro i hi hok
    obtain ⟨a, ha, hok⟩ := entered_of_status hp hok
    obtain rfl | rfl : a = (.notFound, none) ∨ a = (accesses i).against (accesses k).body :=
      hall _ ha
    · cases hok
    · rw [hi.against] at hok
      exact eq_of_compared_ok hok
  refine ⟨fun i j hi hj hok hok' => (acknowledged hi hok).symm.trans (acknowledged hj hok'),
    fun i j hi hj hok hbody hconflict => ?_, fun i rooms o hi ho => ?_⟩
  · obtain ⟨a, ha, hconflict⟩ := entered_of_status hp hconflict
    have hsame : (accesses k).body = (accesses j).body := (acknowledged hi hok).trans hbody.symm
    obtain rfl | rfl : a = (.notFound, none) ∨ a = (accesses j).against (accesses k).body :=
      hall _ ha
    · cases hconflict
    · rw [hj.against, compared, if_pos hsame] at hconflict
      cases hconflict
  · obtain ⟨a, ha, hs⟩ := told_of_ended hp ho
    obtain hno | hagainst : a = (.notFound, none) ∨ a = (accesses i).against (accesses k).body :=
      hall _ ha
    · exact .inl (hs.trans (congrArg some hno))
    · rw [hi, Access.against] at hagainst
      refine .inr ⟨k, hput, hs.trans (congrArg some hagainst), fun o' ho' => ?_⟩
      obtain ⟨b, hb, hs'⟩ := told_of_ended hp ho'
      obtain rfl : b = (.ok, none) := (Prod.mk.inj (eq_of_nodup_map once hb hin rfl)).2
      exact hs'

theorem oneBody_of_holds (absent : db.content bucketName filename = none)
    (hx : Published accesses db bucketName filename (p.shared, story))
    (hp : (publishing accesses db bucketName filename).contract.Holds p story) :
    OneBody accesses p := by
  obtain hnone | ⟨k, hput, hin, hall⟩ := answers_of_serial absent hx.serial
  · exact oneBody_of_nothing hp hnone
  · exact oneBody_of_maker hx.once hp hput hin hall

/-- No statement has been sent. -/
theorem published_start (accesses : Fin n → Access) :
    Published accesses db bucketName filename (Shared.start n db, [], none) :=
  ⟨rfl, .nil _, List.nodup_nil, fun _ => ⟨⟨db.clock, rfl⟩, fun _ => ⟨rfl, rfl⟩⟩,
    fun o f hm => by cases hm⟩

/-- As long as nobody looks at the file between its insertion and the commit of its bytes, uploads
and downloads beside each other are uploads and downloads one after another. -/
theorem puts_atomic (h : db.Linked) (absent : db.content bucketName filename = none)
    (accesses : Fin n → Access) (fits : ∀ i, ((accesses i).op bucketName filename).Fits db.buckets)
    {as : List (Action n Timestamp)}
    (settled : (machine n).Meets (Settled accesses) as
      (Pool.start db fun i => (accesses i).request bucketName filename))
    (hp : (machine n).run as (Pool.start db fun i => (accesses i).request bucketName filename) =
      some p) :
    (∃ order, Atomic accesses bucketName filename db p order) ∧ OneBody accesses p := by
  have waits : WaitsAtWrite (Pool.start db fun i => (accesses i).request bucketName filename) :=
    fun i hi => absurd rfl hi
  have none : ∀ b, db.findBucket bucketName = some b → db.findFile b.id filename = none := by
    intro b hb
    by_contra hne
    obtain ⟨f, hf⟩ := Option.ne_none_iff_exists'.mp hne
    obtain ⟨c, hc⟩ := h.objects_of_find hf
    rw [Db.content_of_find hb hf, hc] at absent
    cases absent
  have start : (publishing accesses db bucketName filename).inv
      ((Pool.start db fun i => (accesses i).request bucketName filename).shared, [], .none) :=
    published_start accesses
  obtain ⟨story, hx, -, hh⟩ := Terms.run_holds (T := publishing accesses db bucketName filename)
    start (fun i => access_beside h none fits start rfl fun a ha => by cases ha)
    (meets_waiting waits settled) hp
  exact ⟨⟨_, atomic_of_holds h fits hx hh⟩, oneBody_of_holds absent hx hh⟩

end Run

/-- An upload of one byte, and a download, of a file in a fresh bucket. -/
def putAndGet : Fin 2 → Access
  | 0 => .put [[109]] 0
  | 1 => .get [4, 4]

def putAndGetStart : Pool 2 := Pool.start (.created 0 "bucket" none) fun i =>
  (putAndGet i).request "bucket" "meow"

/-- The row is made, the download finds it and waits with its handle, and the upload commits. -/
def getAfterCommit : List (Action 2 Timestamp) :=
  List.replicate 2 (.step client0) ++ List.replicate 4 (.step client1) ++
    List.replicate 6 (.step client0) ++ List.replicate 5 (.step client1)

/-- The whole download runs between the insertion and the commit. -/
def getBeforeCommit : List (Action 2 Timestamp) :=
  List.replicate 2 (.step client0) ++ List.replicate 8 (.step client1) ++
    List.replicate 6 (.step client0)

theorem getBeforeCommit_runs : ((machine 2).run getBeforeCommit putAndGetStart).isSome := by
  decide +kernel

def emptyGot : Pool 2 := ((machine 2).run getBeforeCommit putAndGetStart).get getBeforeCommit_runs

theorem getAfterCommit_runs : ((machine 2).run getAfterCommit putAndGetStart).isSome := by
  decide +kernel

/-- The upload and the download are both answered 200, the download with no bytes. -/
theorem get_before_commit :
    (machine 2).run getBeforeCommit putAndGetStart = some emptyGot ∧
      (answer emptyGot 0).map seen = some (some (.ok, none)) ∧
      (answer emptyGot 1).map seen = some (some (.ok, some (0, [], .eof))) ∧
      (∀ order, ¬ Atomic putAndGet "bucket" "meow" (.created 0 "bucket" none) emptyGot order) ∧
      ¬ OneBody putAndGet emptyGot := by
  have upload : (answer emptyGot 0).map seen = some (some (.ok, none)) := by decide +kernel
  have got : (answer emptyGot 1).map seen = some (some (.ok, some (0, [], .eof))) := by
    decide +kernel
  obtain ⟨o, ho, hs⟩ := Option.map_eq_some_iff.mp got
  have alone : ∀ order ∈ orders,
      ((1 : Fin 2), some ((.ok, some (0, [], .eof)) : Seen)) ∉ order.zip ((serveAll
        (.created 0 "bucket" none) (order.map fun i => (putAndGet i).request "bucket" "meow")).1.map
          seen) := by
    decide +kernel
  refine ⟨(Option.some_get _).symm, upload, got, fun order h => ?_, fun h => ?_⟩
  · refine alone order (mem_orders h.once) ?_
    rw [← hs]
    exact h.answers 1 o ho
  · obtain hno | ⟨j, hj, hdown, -⟩ := h.gets 1 [4, 4] o rfl ho
    · rw [hs] at hno
      cases hno
    · obtain ⟨parts, now, hput⟩ := hj
      rw [hs] at hdown
      obtain rfl | rfl : j = 0 ∨ j = 1 := by omega
      · exact absurd hdown (by decide +kernel)
      · cases hput

theorem puts_atomic_meow :
    (∃ order, Atomic putAndGet "bucket" "meow" (.created 0 "bucket" none)
      (((machine 2).run getAfterCommit putAndGetStart).get getAfterCommit_runs) order) ∧
      OneBody putAndGet (((machine 2).run getAfterCommit putAndGetStart).get getAfterCommit_runs) :=
  puts_atomic (Db.linked_created 0 "bucket" none) rfl putAndGet
    (fun i => by
      obtain rfl | rfl : i = 0 ∨ i = 1 := by omega
      · exact put_fits (by simp [Db.created]) (by decide) 0
      · trivial)
    (by decide +kernel) (Option.some_get _).symm

end LocallyEuclidean.Server
