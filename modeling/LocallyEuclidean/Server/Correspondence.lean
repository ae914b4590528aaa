import LocallyEuclidean.Server.Shared
import LocallyEuclidean.Storage.Rules
import LocallyEuclidean.Storage.Tables

/-! Rows of `files` and large objects, over the whole life of a server: any number
of clients run any programs of statements, which may fail or be abandoned. -/

namespace LocallyEuclidean.Server
open Interact Postgres Storage

variable {n : ℕ} {ε α : Type}

abbrev Clients (n : ℕ) (ε α : Type) := Interact.Pool n Query.Reply (Shared n) ε α

/-- Client `i`'s statement fails. -/
def Shared.fail (i : Fin n) (q : Query) (s : Shared n) : Shared n :=
  { s with
    conns := Function.update s.conns i (failed q ⟨s.db, s.conns i⟩).2.conn
    waits := Function.update s.waits i .free }

/-- Who takes a step: the clock, a client, or one that begins anew. -/
inductive Who (n : ℕ) where
  | clock
  | client (i : Fin n)
  | arrival (i : Fin n)

/-- A step of the server. -/
inductive Life : Who n → Clients n ε α → Clients n ε α → Prop where
  | tick (now : Timestamp) (p : Clients n ε α) :
      Life .clock p { p with shared := (machine n).env now p.shared }
  | served {i : Fin n} {p p' : Clients n ε α} (h : (machine n).act (.step i) p = some p') :
      Life (.client i) p p'
  | fails {i : Fin n} {p : Clients n ε α} {q : Query} {k : q.Reply → DbProg ε α}
      (h : p.progs i = .call q k) :
      Life (.client i) p ⟨(machine n).settle i (k (.error .database)) (p.shared.fail i q),
        Function.update p.progs i (k (.error .database))⟩
  /-- A program takes the place of one that has ended, or whose future is dropped. -/
  | arrives (i : Fin n) (prog : DbProg ε α) (p : Clients n ε α) :
      Life (.arrival i) p ⟨p.shared.leave i, Function.update p.progs i prog⟩

/-- The states of a server that has started on a migrated database. -/
inductive Reachable : Clients n ε α → Prop where
  | start (clock : Timestamp) (progs : Fin n → DbProg ε α) :
      Reachable ⟨Shared.start n (Db.migrated clock), progs⟩
  | step {who : Who n} {p p' : Clients n ε α} : Reachable p → Life who p p' → Reachable p'

/-! The invariant. -/

structure Shared.Sound (s : Shared n) : Prop where
  linked : s.db.Linked
  bounded : ∀ i, (s.conns i).Bounded

namespace Shared.Sound

theorem update {s t : Shared n} (h : s.Sound) {i : Fin n} {c : Conn} (hd : t.db.Linked)
    (hc : t.conns = Function.update s.conns i c) (hb : c.Bounded) : t.Sound := by
  refine ⟨hd, fun j => ?_⟩
  rw [hc]
  by_cases hj : j = i
  · subst hj
    simpa using hb
  · simpa [Function.update_of_ne hj] using h.bounded j

theorem bounded_of_writes_nil {c : Conn} (h : c.writes = []) : c.Bounded := by
  simp [Conn.Bounded, h]

theorem leave {s : Shared n} (h : s.Sound) (i : Fin n) : (s.leave i).Sound :=
  h.update h.linked rfl (bounded_of_writes_nil rfl)

theorem settle {s : Shared n} (h : s.Sound) (i : Fin n) (p : DbProg ε α) :
    ((machine n).settle i p s).Sound := by
  unfold Machine.settle
  split
  · exact h.leave i
  · exact h

theorem fail {s : Shared n} (h : s.Sound) (i : Fin n) (q : Query) : (s.fail i q).Sound := by
  refine h.update h.linked rfl ?_
  unfold failed
  split
  · exact bounded_of_writes_nil rfl
  · exact h.bounded i

theorem answered {s t : Shared n} (h : s.Sound) {i : Fin n} {q : Query} {a : q.Reply}
    (ht : s.serve i q = some (some a, t)) : t.Sound := by
  obtain ⟨-, -, hd, hc, -⟩ | ⟨c, -, hs, hc, -⟩ := serve_answered ht
  · exact h.update (hd ▸ h.linked) hc (bounded_of_writes_nil rfl)
  · obtain ⟨hl, hb⟩ := Session.serve_linked hs h.linked (h.bounded i)
    exact h.update hl hc hb

theorem pending {s t : Shared n} (h : s.Sound) {i : Fin n} {q : Query}
    (ht : s.serve i q = some (none, t)) : t.Sound := by
  obtain ⟨hd, hc, -⟩ := serve_pending ht
  exact ⟨hd ▸ h.linked, hc ▸ h.bounded⟩

end Shared.Sound

theorem sound_of_life {who : Who n} {p p' : Clients n ε α} (hl : Life who p p')
    (h : p.shared.Sound) : p'.shared.Sound := by
  cases hl with
  | tick now => exact ⟨h.linked.tick now, h.bounded⟩
  | served ha =>
    obtain ⟨q, k, -, ⟨a, s, hs, rfl⟩ | ⟨s, hs, rfl⟩⟩ := (machine n).act_step ha
    · exact (h.answered hs).settle _ _
    · exact h.pending hs
  | fails hq => exact (h.fail _ _).settle _ _
  | arrives i prog => exact h.leave i

theorem sound_of_reachable {p : Clients n ε α} (h : Reachable p) : p.shared.Sound := by
  induction h with
  | start clock progs =>
    exact ⟨Db.linked_migrated clock, fun _ => Shared.Sound.bounded_of_writes_nil rfl⟩
  | step _ hl ih => exact sound_of_life hl ih

@[simp] theorem settle_db (i : Fin n) (p : DbProg ε α) (s : Shared n) :
    ((machine n).settle i p s).db = s.db := by
  unfold Machine.settle
  split <;> rfl

/-- What a step makes of the rows: those that come have objects that were not used before. -/
theorem life_rows {who : Who n} {p p' : Clients n ε α} (hl : Life who p p') :
    p.shared.db.nextOid ≤ p'.shared.db.nextOid ∧
      ∀ f ∈ p'.shared.db.files, f ∈ p.shared.db.files ∨ p.shared.db.nextOid ≤ f.blob := by
  have same {db : Db} (hd : db = p.shared.db) : p.shared.db.nextOid ≤ db.nextOid ∧
      ∀ f ∈ db.files, f ∈ p.shared.db.files ∨ p.shared.db.nextOid ≤ f.blob := by
    subst hd
    exact ⟨le_refl _, fun _ hf => .inl hf⟩
  cases hl with
  | tick now => exact ⟨le_refl _, fun _ hf => .inl hf⟩
  | served ha =>
    obtain ⟨q, k, -, ⟨a, s, hs, rfl⟩ | ⟨s, hs, rfl⟩⟩ := (machine n).act_step ha
    · simp only [settle_db]
      obtain ⟨-, -, hd, -⟩ | ⟨c, -, ht, -⟩ := Shared.serve_answered hs
      · exact same hd
      · exact (Session.serve_effect ht).1.rows
    · exact same (Shared.serve_pending hs).1
  | fails hq =>
    simp only [settle_db]
    exact same rfl
  | arrives i prog => exact same rfl

/-- Rows and large objects are in one-to-one correspondence. -/
structure Correspondence (db : Db) : Prop where
  inBucket : ∀ f ∈ db.files, ∃ b ∈ db.buckets, b.id = f.bucketId
  hasBlob : ∀ f ∈ db.files, (db.objects f.blob).isSome
  blobs : db.files.Pairwise fun f g => f.blob ≠ g.blob
  names : db.files.Pairwise fun f g => (f.bucketId, f.filename) ≠ (g.bucketId, g.filename)
  owned : ∀ oid, (db.objects oid).isSome → ∃! f, f ∈ db.files ∧ f.blob = oid

theorem correspondence_of_linked {db : Db} (h : db.Linked) : Correspondence db where
  inBucket := h.inBucket
  hasBlob := h.hasBlob
  blobs := List.pairwise_map.mp h.blobs
  names := List.pairwise_map.mp h.names
  owned oid ho := by
    obtain ⟨f, hf, he⟩ := h.owned oid ho
    exact ⟨f, ⟨hf, he⟩, fun g ⟨hg, hge⟩ => h.blob_inj hg hf (hge.trans he.symm)⟩

/-! One client, and the handle that it comes by. -/

section Handle

variable {ε' : Type} {i : Fin n} {who : Who n} {p q r : Clients n ε α}

theorem settle_conns_self (i : Fin n) (prog : DbProg ε α) (s : Shared n) :
    ((machine n).settle i prog s).conns i = s.conns i ∨
      ((machine n).settle i prog s).conns i = .idle := by
  unfold Machine.settle
  split
  · exact .inr (Function.update_self ..)
  · exact .inl rfl

theorem settle_conns_of_ne {i j : Fin n} (hj : j ≠ i) (prog : DbProg ε α) (s : Shared n) :
    ((machine n).settle i prog s).conns j = s.conns j := by
  unfold Machine.settle
  split
  · exact Function.update_of_ne hj ..
  · rfl

/-- A client's statement stays pending, has failed, or has been served. -/
theorem life_client (hl : Life (.client i) q r) : ∃ query k, q.progs i = .call query k ∧
    ((r.progs = q.progs ∧ r.shared.db = q.shared.db ∧ r.shared.conns = q.shared.conns) ∨
      ∃ a c, r.progs i = k a ∧ (r.shared.conns i = c ∨ r.shared.conns i = .idle) ∧
        ((r.shared.db = q.shared.db ∧ (∃ e, a = .error e) ∧ (c = .failed ∨ c = q.shared.conns i)) ∨
          Session.serve (fun _ => false) query ⟨q.shared.db, q.shared.conns i⟩ =
            some (a, ⟨r.shared.db, c⟩))) := by
  cases hl with
  | served ha =>
    obtain ⟨query, k, hq, ⟨a, s, hs, rfl⟩ | ⟨s, hs, rfl⟩⟩ := (machine n).act_step ha
    · refine ⟨query, k, hq, .inr
        ⟨a, s.conns i, Function.update_self .., settle_conns_self i (k a) s, ?_⟩⟩
      simp only [settle_db]
      obtain ⟨-, rfl, hd, hc, -⟩ | ⟨c, -, ht, hc, -⟩ := Shared.serve_answered hs
      · exact .inl ⟨hd, ⟨_, rfl⟩, .inl (by rw [hc, Function.update_self])⟩
      · refine .inr ?_
        rwa [hc, Function.update_self]
    · obtain ⟨hd, hc, -⟩ := Shared.serve_pending hs
      exact ⟨query, k, hq, .inl ⟨rfl, hd, hc⟩⟩
  | @fails _ _ query k hq =>
    refine ⟨query, k, hq, .inr ⟨.error .database, (q.shared.fail i query).conns i,
      Function.update_self .., settle_conns_self .., .inl ⟨by simp [Shared.fail], ⟨_, rfl⟩, ?_⟩⟩⟩
    simp only [Shared.fail, Function.update_self, failed]
    split
    · exact .inl rfl
    · exact .inr rfl

/-- Nobody else touches a client's program or its connection. -/
theorem life_other (hl : Life who q r) (hc : who ≠ .client i) (ha : who ≠ .arrival i) :
    r.progs i = q.progs i ∧ r.shared.conns i = q.shared.conns i := by
  cases hl with
  | tick now => exact ⟨rfl, rfl⟩
  | @served j _ _ hact =>
    have hne : i ≠ j := fun he => hc (he ▸ rfl)
    obtain ⟨query, k, -, ⟨a, s, hs, rfl⟩ | ⟨s, hs, rfl⟩⟩ := (machine n).act_step hact
    · refine ⟨Function.update_of_ne hne .., (settle_conns_of_ne hne _ _).trans ?_⟩
      obtain ⟨-, -, -, hconns, -⟩ | ⟨c, -, -, hconns, -⟩ := Shared.serve_answered hs
      · rw [hconns, Function.update_of_ne hne]
      · rw [hconns, Function.update_of_ne hne]
    · exact ⟨rfl, by rw [(Shared.serve_pending hs).2.1]⟩
  | @fails j _ query k hq =>
    have hne : i ≠ j := fun he => hc (he ▸ rfl)
    exact ⟨Function.update_of_ne hne ..,
      (settle_conns_of_ne hne _ _).trans (Function.update_of_ne hne ..)⟩
  | arrives j prog =>
    have hne : i ≠ j := fun he => ha (he ▸ rfl)
    exact ⟨Function.update_of_ne hne .., Function.update_of_ne hne ..⟩

/-- The states that a run goes through from `p` on while client `i` stays. -/
inductive Since (i : Fin n) (p : Clients n ε α) : Clients n ε α → Prop where
  | refl : Since i p p
  | step {who : Who n} {q r : Clients n ε α} (h : Since i p q) (hl : Life who q r)
      (stays : who ≠ .arrival i) : Since i p r

theorem since_of_run {acts : List (Action n Timestamp)} (i : Fin n)
    (hr : (machine n).run acts p = some q) : Since i p q := by
  suffices ∀ m, Since i p m → (machine n).run acts m = some q → Since i p q from this p .refl hr
  clear hr
  intro m hm hr
  induction acts generalizing m with
  | nil =>
    obtain rfl : m = q := by simpa [Machine.run] using hr
    exact hm
  | cons a acts ih =>
    obtain ⟨m', ha, hr'⟩ := Option.bind_eq_some_iff.mp (by simpa only [Machine.run] using hr)
    cases a with
    | step j => exact ih m' (hm.step (.served ha) (by simp)) hr'
    | env now =>
      obtain rfl := Option.some.inj ha
      exact ih _ (hm.step (.tick now m) (by simp)) hr'

theorem Since.reachable (h : Since i p q) (hp : Reachable p) : Reachable q := by
  induction h with
  | refl => exact hp
  | step _ hl _ ih => exact ih.step hl

/-- The row has been there between `p` and `q`. -/
def HasBeen (i : Fin n) (p q : Clients n ε α) (f : FileRow) : Prop :=
  ∃ r, Since i p r ∧ Since i r q ∧ f ∈ r.shared.db.files

theorem HasBeen.step {f : FileRow} (h : HasBeen i p q f) (hl : Life who q r)
    (stays : who ≠ .arrival i) : HasBeen i p r f := by
  obtain ⟨m, hm, hq, hf⟩ := h
  exact ⟨m, hm, hq.step hl stays, hf⟩

/-- No step of client `i` takes a file away or changes it, unless it is one of these. -/
def SparesBut (i : Fin n) (q : Clients n ε α) (but : FileRow → Prop) : Prop :=
  ∀ r, Life (.client i) q r → ∀ f ∈ q.shared.db.files, ¬ but f →
    f ∈ r.shared.db.files ∧ r.shared.db.objects f.blob = q.shared.db.objects f.blob

/-- The object of this row is no other row's, now or ever. -/
def Apart (f : FileRow) (db : Db) : Prop :=
  f.blob < db.nextOid ∧ ∀ g ∈ db.files, g ≠ f → g.blob ≠ f.blob

theorem apart_of_mem {f : FileRow} {db : Db} (h : db.Linked) (hf : f ∈ db.files) : Apart f db :=
  ⟨h.oidsUsed _ (h.hasBlob f hf), fun _ hg hne he => hne (h.blob_inj hg hf he)⟩

theorem Apart.life {f : FileRow} (h : Apart f q.shared.db) (hl : Life who q r) :
    Apart f r.shared.db := by
  obtain ⟨hle, hrows⟩ := life_rows hl
  refine ⟨h.1.trans_le hle, fun g hg hne => ?_⟩
  obtain hg | hg := hrows g hg
  · exact h.2 g hg hne
  · exact (h.1.trans_le hg).ne'

/-- A client with a handle of the file `g`, and what it has pending. -/
structure Holding (i : Fin n) (g : FileRow) (q : Clients n ε α) : Prop where
  uses : ByHandle (q.progs i)
  conn : (q.shared.conns i).Within fun oid => oid = g.blob
  apart : Apart g q.shared.db

theorem within_of_answer {N : Oid → Prop} {c c' c₀ : Conn} (h : c₀.Within N)
    (hc : c = .failed ∨ c = c₀) (hc' : c' = c ∨ c' = .idle) : c'.Within N := by
  obtain rfl | rfl := hc' <;> obtain rfl | rfl := hc <;> first | exact h | trivial

/-- A statement of the handle goes to no object but its own. -/
theorem serve_byHandle {N : Oid → Prop} {query : Query} (hq : query.byHandle = true)
    {s s' : Session} {a : query.Reply} (hs : s.serve (fun _ => false) query = some (a, s'))
    (hc : s.conn.Within N) : s'.db.files = s.db.files ∧
      (∀ oid, ¬ N oid → s'.db.objects oid = s.db.objects oid) ∧ s'.conn.Within N := by
  have within (hw : query.Within N) : s'.db.files = s.db.files ∧
      (∀ oid, ¬ N oid → s'.db.objects oid = s.db.objects oid) ∧ s'.conn.Within N := by
    obtain ⟨hd, hc'⟩ := Session.serve_within hw hs hc
    rw [hd]
    exact ⟨rfl, fun _ _ => rfl, hc'⟩
  cases query with
  | insertBucket | insertFile | deleteOldFilesBatch | loOpen | bucketByName | listBuckets
  | fileByName | beginTx => cases hq
  | loLseek64 | loRead | loWrite | loClose | updatedAt => exact within trivial
  | commitTx =>
    have hs : s.commit = (a, s') := Option.some.inj hs
    obtain ⟨-, hf, ho⟩ := Session.commit_within hs hc
    refine ⟨hf, ho, ?_⟩
    unfold Session.commit at hs
    split at hs <;> obtain ⟨-, rfl⟩ := Prod.mk.inj hs
    · trivial
    · trivial
    · exact hc

theorem Holding.client {g : FileRow} (h : Holding i g q) (hl : Life (.client i) q r) :
    Holding i g r ∧ ∀ f ∈ q.shared.db.files, f ≠ g →
      f ∈ r.shared.db.files ∧ r.shared.db.objects f.blob = q.shared.db.objects f.blob := by
  have apart := h.apart.life hl
  obtain ⟨query, k, hq, ⟨hp, hd, hc⟩ | ⟨a, c, hp, hconn, hcase⟩⟩ := life_client hl
  · rw [hd]
    exact ⟨⟨hp ▸ h.uses, hc ▸ h.conn, apart⟩, fun _ hf _ => ⟨hf, rfl⟩⟩
  · have uses : ByHandle (.call query k) := hq ▸ h.uses
    obtain ⟨hd, -, hc⟩ | hs := hcase
    · refine ⟨⟨hp ▸ uses.2 a, within_of_answer h.conn hc hconn, apart⟩, ?_⟩
      rw [hd]
      exact fun _ hf _ => ⟨hf, rfl⟩
    · obtain ⟨hfiles, hobjects, hc⟩ := serve_byHandle uses.1 hs h.conn
      refine ⟨⟨hp ▸ uses.2 a, within_of_answer hc (.inr rfl) hconn, apart⟩, fun f hf hne => ?_⟩
      exact ⟨hfiles ▸ hf, hobjects _ (h.apart.2 f hf hne)⟩

theorem Holding.step {g : FileRow} (h : Holding i g q) (hl : Life who q r)
    (stays : who ≠ .arrival i) : Holding i g r := by
  by_cases hw : who = .client i
  · subst hw
    exact (h.client hl).1
  · obtain ⟨hp, hc⟩ := life_other hl hw stays
    exact ⟨hp ▸ h.uses, hc ▸ h.conn, h.apart.life hl⟩

theorem Holding.since {g : FileRow} (h : Holding i g q) (hr : Since i q r) : Holding i g r := by
  induction hr with
  | refl => exact h
  | step _ hl stays ih => exact ih.step hl stays

/-! How it comes by the handle: the object that it opens is that of the row it has found. -/

/-- The row found, and whether a transaction has begun since. -/
abbrev Found := Option (FileId × Oid) × Bool

def opening (bucket : PostgresBucket) (filename : String) : Protocol Query.Reply Found where
  allows c
    | .fileByName b f | .insertFile b f _ => b = bucket.id ∧ f = filename
    | .beginTx => True
    | .loOpen oid _ => c.2 = true ∧ ∃ id, c.1 = some (id, oid)
    | _ => False
  next c
    | .fileByName _ _, .ok (some x) => (some x, false)
    | .insertFile _ _ _, .ok x => (some x, false)
    | .beginTx, .ok _ => (c.1, true)
    | _, _ => c

/-- The handle is of the row that was found. -/
def OfFound (h : PostgresFileHandle) (c : Found) : Prop :=
  c.2 = true ∧ ∃ oid, c.1 = some (h.id, oid)

/-- The two ways to come by a handle of a file. -/
inductive Opens (bucket : PostgresBucket) (filename : String) :
    DbProg ε' PostgresFileHandle → Prop where
  | file (wrap : FileOpenError → ε') : Opens bucket filename ((bucket.file filename).mapErr wrap)
  | createFile (now : DateTime) (wrap : FileCreateError → ε') :
      Opens bucket filename ((bucket.createFile filename now).mapErr wrap)

variable {bucket : PostgresBucket} {filename : String}

theorem new_opening {c : Found} {id : FileId} {oid : Oid} (hc : c.1 = some (id, oid)) :
    (opening bucket filename).Steps (PostgresFileHandle.new oid id) OfFound c := by
  let K (c' : Found) : Prop := c' = (some (id, oid), true)
  suffices (opening bucket filename).Steps (BlobHandleInner.open oid .readWrite) (fun _ => K) c from
    .bind (K := fun _ => K) (.bind (K := fun _ => K) this fun _ _ h => .ret h) fun _ _ h =>
      .ret ⟨congrArg Prod.snd h, oid, congrArg Prod.fst h⟩
  refine .bind (fetch_steps (opening bucket filename) c .beginTx (K := fun _ => K) trivial
    (fun _ => congrArg (·, true) hc) _) fun _ c' (h : K c') => ?_
  subst h
  refine .bind (fetch_steps (opening bucket filename) _ (.loOpen oid (OpenMode.bits .readWrite))
    (K := fun _ => K) ⟨rfl, id, rfl⟩ (fun _ => rfl) _) fun fd _ (h : K _) => ?_
  exact .bind (okOr_steps (K := fun _ => K) fd _ fun _ _ => h) fun _ _ h => .ret h

theorem Opens.steps {op : DbProg ε' PostgresFileHandle} (h : Opens bucket filename op) (c : Found) :
    (opening bucket filename).Steps op OfFound c := by
  cases h with
  | file wrap =>
    refine .mapErr (.bind (fetch_steps (opening bucket filename) c (.fileByName bucket.id filename)
      (K := fun row c' => ∀ x, row = some x → c'.1 = some x) ⟨rfl, rfl⟩ ?_ _)
      fun row c' hc => ?_) _
    · rintro _ x rfl
      rfl
    · cases row with
      | none => exact .err _
      | some x => exact .mapErr (new_opening (hc x rfl)) _
  | createFile now wrap =>
    refine .mapErr ?_ _
    obtain ⟨due, hd⟩ | hd := bucket.deleteAfter_cases now
    · simp only [PostgresBucket.createFile, hd, Prog.bind_eq, Prog.bind]
      refine (Logic.wp_bind ..).mpr ⟨⟨rfl, rfl⟩, fun a => ?_⟩
      obtain e | x := a
      · cases e <;> exact Protocol.Steps.err (R := opening bucket filename) _
      · exact Protocol.Steps.mapErr (new_opening rfl) _
    · simp only [PostgresBucket.createFile, hd, Prog.bind_eq, Prog.bind]
      exact .panic _

/-- A client at such a program, `k` being what comes next. -/
structure Looking (i : Fin n) (p q : Clients n ε α) (bucket : PostgresBucket) (filename : String)
    (k : Except ε' PostgresFileHandle → DbProg ε α) (op : DbProg ε' PostgresFileHandle)
    (c : Found) : Prop where
  since : Since i p q
  prog : q.progs i = op.attempt.bind k
  steps : (opening bucket filename).Steps op OfFound c
  row : ∀ id oid, c.1 = some (id, oid) → ∃ g, HasBeen i p q g ∧ g.id = id ∧ g.blob = oid ∧
    g.bucketId = bucket.id ∧ g.filename = filename ∧ Apart g q.shared.db
  conn : c.2 = true → (q.shared.conns i).Within fun oid => ∃ id, c.1 = some (id, oid)

/-- What has come of a client that was about to open a file. Once it has the handle, it is that of
a row of this name, and from then on the client's steps leave every other file alone, also one
that has got the name since. -/
inductive HasOpened (i : Fin n) (p q : Clients n ε α) (bucket : PostgresBucket) (filename : String)
    (k : Except ε' PostgresFileHandle → DbProg ε α) : Prop where
  | opening (op : DbProg ε' PostgresFileHandle) (unfinished : ∀ h, op ≠ .ret h)
      (prog : q.progs i = op.attempt.bind k) (spares : SparesBut i q fun _ => False)
  | refused (e : ε') (rest : (k (.error e)).Leads (q.progs i))
  | handle (h : PostgresFileHandle) (g : FileRow) (rest : (k (.ok h)).Leads (q.progs i))
      (row : HasBeen i p q g) (id : g.id = h.id) (bucketId : g.bucketId = bucket.id)
      (name : g.filename = filename) (spares : ∀ r, Since i q r → SparesBut i r fun f => f = g)

/-- The same with what the proof needs of the rest of the run. -/
inductive Tracked (i : Fin n) (p q : Clients n ε α) (bucket : PostgresBucket) (filename : String)
    (k : Except ε' PostgresFileHandle → DbProg ε α) : Prop where
  | looking {query : Query} {next : query.Reply → DbProg ε' PostgresFileHandle} {c : Found}
      (h : Looking i p q bucket filename k (.call query next) c)
  | panicked {m : String} (prog : q.progs i = .panic m)
  | refused (e : ε') (rest : (k (.error e)).Leads (q.progs i))
  | holding (h : PostgresFileHandle) (g : FileRow) (rest : (k (.ok h)).Leads (q.progs i))
      (row : HasBeen i p q g) (id : g.id = h.id) (bucketId : g.bucketId = bucket.id)
      (name : g.filename = filename) (holding : Holding i g q)

variable {k : Except ε' PostgresFileHandle → DbProg ε α} {op : DbProg ε' PostgresFileHandle}
  {c : Found}

/-- The lookup goes on, or it has come to its end. -/
theorem Looking.tracked (hk : ∀ h, ByHandle (k (.ok h)))
    (h : Looking i p q bucket filename k op c) : Tracked i p q bucket filename k := by
  obtain ⟨since, prog, steps, row, conn⟩ := h
  cases op with
  | call query next => exact .looking ⟨since, prog, steps, row, conn⟩
  | panic m => exact .panicked prog
  | err e => exact .refused e (prog ▸ .refl _)
  | ret h =>
    obtain ⟨begun, oid, hc⟩ := steps h rfl
    obtain ⟨g, hbeen, hid, rfl, hbucket, hname, apart⟩ := row _ _ hc
    refine .holding h g (prog ▸ .refl _) hbeen hid hbucket hname ⟨prog ▸ hk h, ?_, apart⟩
    refine (conn begun).mono ?_
    rintro oid ⟨id, ho⟩
    exact (Prod.mk.inj (Option.some.inj (hc.symm.trans ho))).2.symm

theorem Looking.found (h : Looking i p q bucket filename k op c) (hl : Life who q r)
    (stays : who ≠ .arrival i) : ∀ id oid, c.1 = some (id, oid) → ∃ g, HasBeen i p r g ∧ g.id = id ∧
      g.blob = oid ∧ g.bucketId = bucket.id ∧ g.filename = filename ∧ Apart g r.shared.db := by
  intro id oid hc
  obtain ⟨g, hbeen, hid, hblob, hbucket, hname, apart⟩ := h.row id oid hc
  exact ⟨g, hbeen.step hl stays, hid, hblob, hbucket, hname, apart.life hl⟩

/-- A step that finds nothing new. -/
theorem Looking.stays {op' : DbProg ε' PostgresFileHandle}
    (h : Looking i p q bucket filename k op c) (hl : Life who q r) (stays : who ≠ .arrival i)
    (prog : r.progs i = op'.attempt.bind k) (steps : (opening bucket filename).Steps op' OfFound c)
    (conn : ∀ N, (q.shared.conns i).Within N → (r.shared.conns i).Within N) :
    Looking i p r bucket filename k op' c :=
  ⟨h.since.step hl stays, prog, steps, h.found hl stays, fun hc => conn _ (h.conn hc)⟩

/-- A step of a client that looks for its file changes none. -/
theorem Looking.client {query : Query} {next : query.Reply → DbProg ε' PostgresFileHandle}
    (sound : q.shared.Sound) (h : Looking i p q bucket filename k (.call query next) c)
    (hl : Life (.client i) q r) : (∃ op c', Looking i p r bucket filename k op c') ∧
      ∀ f ∈ q.shared.db.files, f ∈ r.shared.db.files ∧
        r.shared.db.objects f.blob = q.shared.db.objects f.blob := by
  have stays : Who.client i ≠ .arrival i := by simp
  have same (hd : r.shared.db = q.shared.db) : ∀ f ∈ q.shared.db.files, f ∈ r.shared.db.files ∧
      r.shared.db.objects f.blob = q.shared.db.objects f.blob := by
    rw [hd]
    exact fun _ hf => ⟨hf, rfl⟩
  have prog : q.progs i = .call query fun a => (next a).attempt.bind k := h.prog
  obtain ⟨allowed, goes⟩ := h.steps
  obtain ⟨query', k', hq, ⟨hp, hd, hc⟩ | ⟨a, c₁, hp, hconn, hcase⟩⟩ := life_client hl
  · exact ⟨⟨_, _, h.stays hl stays (hp ▸ h.prog) h.steps fun N hN => hc ▸ hN⟩, same hd⟩
  obtain ⟨rfl, hk⟩ := Prog.call.inj (prog.symm.trans hq)
  obtain rfl := eq_of_heq hk
  obtain ⟨hd, ⟨e, rfl⟩, hc⟩ | hserve := hcase
  · have hnext : (opening bucket filename).next c query (.error e) = c := by cases query <;> rfl
    refine ⟨⟨_, _, h.stays hl stays hp ?_ fun N hN => within_of_answer hN hc hconn⟩, same hd⟩
    exact hnext ▸ goes (.error e)
  cases query with
  | insertBucket | deleteOldFilesBatch | bucketByName | listBuckets | updatedAt | loLseek64 | loRead
  | loWrite | loClose | commitTx => exact allowed.elim
  | fileByName b name =>
    obtain ⟨rfl, rfl⟩ := allowed
    obtain ⟨rfl, hsession⟩ := Prod.mk.inj (Option.some.inj hserve)
    obtain ⟨hd, hc⟩ := Session.mk.inj hsession
    refine ⟨?_, same hd.symm⟩
    have conn : ∀ N, (q.shared.conns i).Within N → (r.shared.conns i).Within N := fun N hN =>
      within_of_answer hN (.inr hc.symm) hconn
    cases hf : q.shared.db.findFile bucket.id name with
    | none =>
      rw [hf] at hp
      exact ⟨_, c, h.stays hl stays hp (goes (.ok none)) conn⟩
    | some g =>
      obtain ⟨hg, hbucket, hname⟩ := Db.findFile_some hf
      rw [hf] at hp
      refine ⟨_, _, h.since.step hl stays, hp, goes (.ok (some (g.id, g.blob))), ?_,
        by simp [opening]⟩
      rintro id oid ⟨⟩
      exact ⟨g, ⟨q, h.since, .step .refl hl stays, hg⟩, rfl, rfl, hbucket, hname,
        (apart_of_mem sound.linked hg).life hl⟩
  | insertFile b name due =>
    obtain ⟨rfl, rfl⟩ := allowed
    cases hr : q.shared.db.insertFile bucket.id name due with
    | error e =>
      obtain ⟨rfl, hd, hc⟩ : .error e = a ∧ q.shared.db = r.shared.db ∧ q.shared.conns i = c₁ := by
        simpa [Session.serve, Session.onPool, hr, Except.map] using hserve
      exact ⟨⟨_, c, h.stays hl stays hp (goes (.error e)) fun N hN =>
        within_of_answer hN (.inr hc.symm) hconn⟩, same hd.symm⟩
    | ok x =>
      obtain ⟨g, db'⟩ := x
      obtain ⟨rfl, rfl, -⟩ : .ok (g.id, g.blob) = a ∧ db' = r.shared.db ∧
          q.shared.conns i = c₁ := by
        simpa [Session.serve, Session.onPool, hr, Except.map] using hserve
      have linked := sound.linked.insertFile hr
      obtain ⟨-, -, hrow, hdb⟩ := Db.insertFile_ok hr
      have hg : g ∈ r.shared.db.files := by
        rw [hdb]
        exact List.mem_append_right _ List.mem_cons_self
      refine ⟨⟨_, _, h.since.step hl stays, hp, goes (.ok (g.id, g.blob)), ?_, by simp [opening]⟩,
        fun f hf => ⟨?_, ?_⟩⟩
      · rintro id oid ⟨⟩
        exact ⟨g, ⟨r, h.since.step hl stays, .refl, hg⟩, rfl, rfl, by rw [hrow], by rw [hrow],
          apart_of_mem linked hg⟩
      · rw [hdb]
        exact List.mem_append_left _ hf
      · rw [hdb]
        exact Function.update_of_ne (sound.linked.blob_ne_nextOid hf) ..
  | beginTx =>
    obtain ⟨rfl, hsession⟩ := Prod.mk.inj (Option.some.inj hserve)
    obtain ⟨hd, hc⟩ := Session.mk.inj hsession
    have empty : (Conn.inTx ⟨none, []⟩).Within fun oid => ∃ id, c.1 = some (id, oid) :=
      And.intro (by simp) (by simp)
    have fresh : (r.shared.conns i).Within fun oid => ∃ id, c.1 = some (id, oid) :=
      within_of_answer empty (.inr hc.symm) hconn
    exact ⟨⟨_, _, h.since.step hl stays, hp, goes (.ok ()), h.found hl stays, fun _ => fresh⟩,
      same hd.symm⟩
  | loOpen oid mode =>
    obtain ⟨begun, id, hoid⟩ := allowed
    let N (o : Oid) : Prop := ∃ id, c.1 = some (id, o)
    obtain ⟨hd, hc⟩ := Session.serve_within (N := N) (q := .loOpen oid mode) ⟨id, hoid⟩ hserve
      (h.conn begun)
    exact ⟨⟨_, c, h.since.step hl stays, hp, goes a, h.found hl stays, fun _ =>
      within_of_answer hc (.inr rfl) hconn⟩, same hd⟩

theorem Tracked.step (hk : ∀ h, ByHandle (k (.ok h))) (sound : q.shared.Sound)
    (h : Tracked i p q bucket filename k) (hl : Life who q r) (stays : who ≠ .arrival i) :
    Tracked i p r bucket filename k := by
  have leads {rest : DbProg ε α} (hr : rest.Leads (q.progs i)) : rest.Leads (r.progs i) := by
    by_cases hw : who = .client i
    · subst hw
      obtain ⟨query, next, hq, ⟨hp, -⟩ | ⟨a, -, hp, -⟩⟩ := life_client hl
      · rwa [hp]
      · rw [hp]
        exact .next (hq ▸ hr) a
    · rwa [(life_other hl hw stays).1]
  cases h with
  | looking h =>
    by_cases hw : who = .client i
    · subst hw
      obtain ⟨⟨op, c', h'⟩, -⟩ := h.client sound hl
      exact h'.tracked hk
    · obtain ⟨hp, hc⟩ := life_other hl hw stays
      exact .looking (h.stays hl stays (hp.trans h.prog) h.steps fun N hN => hc ▸ hN)
  | panicked prog =>
    by_cases hw : who = .client i
    · subst hw
      obtain ⟨query, next, hq, -⟩ := life_client hl
      cases prog.symm.trans hq
    · exact .panicked ((life_other hl hw stays).1.trans prog)
  | refused e rest => exact .refused e (leads rest)
  | holding h g rest row id bucketId name holding =>
    exact .holding h g (leads rest) (row.step hl stays) id bucketId name (holding.step hl stays)

theorem Tracked.opened (sound : q.shared.Sound) (h : Tracked i p q bucket filename k) :
    HasOpened i p q bucket filename k := by
  cases h with
  | looking h =>
    exact .opening _ (fun _ he => by cases he) h.prog fun r hl f hf _ => (h.client sound hl).2 f hf
  | @panicked m prog =>
    refine .opening (.panic m) (fun _ he => by cases he) prog fun r hl => ?_
    obtain ⟨query, next, hq, -⟩ := life_client hl
    cases prog.symm.trans hq
  | refused e rest => exact .refused e rest
  | holding h g rest row id bucketId name holding =>
    exact .handle h g rest row id bucketId name fun r hr r' hl => ((holding.since hr).client hl).2

end Handle

/-- In every reachable state files and blobs correspond one to one; hence a client that opens a
file, and goes on with the handle alone, changes no other file, whatever becomes of its own. -/
theorem reachable_correspondence {δ : Type} {p : Clients n ε α} (h : Reachable p) :
    Correspondence p.shared.db ∧
      ∀ i bucket filename (op : DbProg δ PostgresFileHandle) k, Opens bucket filename op →
        p.progs i = op.attempt.bind k → (∀ h, ByHandle (k (.ok h))) →
        ∀ q, Since i p q → HasOpened i p q bucket filename k := by
  refine ⟨correspondence_of_linked (sound_of_reachable h).linked, ?_⟩
  intro i bucket filename op k hop prog hk q hq
  have start : Looking i p p bucket filename k op (none, false) :=
    ⟨.refl, prog, hop.steps _, by simp, by simp⟩
  suffices Tracked i p q bucket filename k from this.opened (sound_of_reachable (hq.reachable h))
  induction hq with
  | refl => exact start.tracked hk
  | step hs hl stays ih => exact ih.step hk (sound_of_reachable (hs.reachable h)) hl stays

/-- Appends to a file that is gone when the append is committed, and there is a new one of its
name. -/
def staleAppend : Except FileCreateError PostgresFileHandle → DbProg BoxError Unit
  | .ok h => do
    h.append [109]
    h.commit
  | .error e => .err (.fileCreate e)

/-- A bucket that keeps nothing. -/
def staleBucket : PostgresBucket := ⟨⟨0⟩, some ⟨0, by decide⟩⟩

def staleClients : Clients 2 BoxError Unit :=
  ⟨Shared.start 2 (Db.migrated 0), fun i =>
    if i = client0 then do
      let bucket ← (PostgresBucket.create "bucket" staleBucket.defaultTtl).mapErr .fileCreate
      staleAppend (← ((bucket.createFile "meow" 0).mapErr id).attempt)
    else do
      (PostgresBackend.deleteOldFilesBatch fun _ => 0).mapErr fun _ => .body
      let _ ← (staleBucket.createFile "meow" 0).mapErr .fileCreate⟩

/-- The one client has its bucket. -/
def staleStart : Option (Clients 2 BoxError Unit) := (machine 2).run [.step client0] staleClients

theorem staleStart_isSome : staleStart.isSome = true := by decide +kernel

/-- It has the handle, the batch has run, the other has made the file anew, and the bytes are
written. -/
def staleEnd : Option (Clients 2 BoxError Unit) :=
  (machine 2).run (List.replicate 3 (.step client0) ++ [.env 1, .step client1, .step client1] ++
    List.replicate 3 (.step client0)) (staleStart.get staleStart_isSome)

theorem staleEnd_isSome : staleEnd.isSome = true := by decide +kernel

theorem reachable_correspondence_meow :
    let p := staleStart.get staleStart_isSome
    let q := staleEnd.get staleEnd_isSome
    (q.shared.db.files.map FileRow.blob = [16385] ∧
        q.shared.writes client0 = [⟨16384, 0, [109]⟩]) ∧
      Correspondence p.shared.db ∧ HasOpened client0 p q staleBucket "meow" staleAppend := by
  intro p q
  refine ⟨⟨by decide +kernel, by decide +kernel⟩, ?_⟩
  have hp := Since.reachable (since_of_run client0 (Option.some_get staleStart_isSome).symm)
    (.start 0 _)
  have hq : Since client0 p q := since_of_run client0 (Option.some_get staleEnd_isSome).symm
  obtain ⟨correspondence, opened⟩ := reachable_correspondence (δ := FileCreateError) hp
  refine ⟨correspondence, opened client0 _ _ _ _ (.createFile 0 id) rfl (fun h => ?_) q hq⟩
  exact .bind (h.append_onHandle _).byHandle fun _ => h.commit_byHandle

end LocallyEuclidean.Server
