import LocallyEuclidean.Server.Errand
import LocallyEuclidean.Server.Halting
import LocallyEuclidean.Server.Operation

/-! What a fault leaves of an upload: what it has found, the empty file that it has made, or all
that it does. -/

namespace LocallyEuclidean.Server
open Interact Postgres Storage

variable {ε α : Type} {sched : Schedule}

theorem quiet_falters (quiet : Quiet sched) : Falters serveAlone (scheduled sched) isFailure
    (fun w s => w.session = s) (fun w s => w.session.db = s.db) := by
  rintro q w _ rfl
  obtain ⟨⟨a, s'⟩, hs⟩ := Session.serve_free q w.session
  have hserve : serveAlone q w.session = (some a, s') := by rw [serveAlone, hs]
  have hw := meet_of_quiet quiet w
  refine ⟨a, s', hserve, ?_⟩
  cases hf : (sched w.index).fault with
  | none =>
    refine .inl ⟨⟨s', w.index + 1⟩, ?_, rfl⟩
    simp only [scheduled, hf, hw, hserve]
  | fails =>
    refine .inr (.inl ⟨(failed q w.session).1, ⟨(failed q w.session).2, w.index + 1⟩, ?_, rfl,
      failed_db q w.session⟩)
    simp only [scheduled, hf, hw]
  | dropped took =>
    cases took with
    | true =>
      refine .inr (.inr ⟨⟨s', w.index + 1⟩, ?_, .inr rfl⟩)
      simp only [scheduled, hf, hw, hserve]
    | false =>
      refine .inr (.inr ⟨⟨w.session, w.index + 1⟩, ?_, .inl rfl⟩)
      simp only [scheduled, hf, hw]

theorem runScheduled_cases (quiet : Quiet sched) {F : Outcome ε α → Prop} (hd : F .dropped)
    {p : DbProg ε α} (hp : halting.logic.wp p (fun o c => c = .failed → F o) .going) (db : Db) :
    runScheduled sched p db = runAlone p db ∨
      (F (runScheduled sched p db).1 ∧ ∃ s, Passes serveAlone p ⟨db, .idle⟩ s ∧
        (runScheduled sched p db).2 = s.db) := by
  obtain ⟨ho, hv⟩ | h := run_faulty (quiet_falters quiet) hd hp
    (show (⟨⟨db, .idle⟩, 0⟩ : Scheduled).session = ⟨db, .idle⟩ from rfl)
  · exact .inl (Prod.ext ho (congrArg Session.db hv))
  · exact .inr h

/-- The client cannot tell what has become of its request. -/
def Unsure (o : Outcome ApiError α) : Prop :=
  status o = none ∨ status o = some .internalServerError

theorem Halts.unsure {p : DbProg ApiError α} (h : Halts p) :
    halting.logic.wp p (fun o c => c = .failed → Unsure o) .going := by
  refine Logic.wp_mono ?_ h
  rintro (a | e | m | _) c ⟨hok, herr⟩ hc
  · exact absurd hc (hok a rfl)
  · exact .inr (congrArg some (herr e rfl hc))
  · exact .inl rfl
  · exact .inl rfl

theorem handler_halts {r : Request} (hw : r.writes = true) : Halts r.handler := by
  cases r with
  | put b f body now => exact Protocol.StepsOr.bind (put_halts b f body now) fun _ _ hc => .ret hc
  | post b f writeOffset body =>
    exact Protocol.StepsOr.bind (post_halts b f writeOffset body) fun _ _ hc => .ret hc
  | get => cases hw

/-- The database in which an upload has made its file, and nothing more. -/
def Begun (r : Request) (db db' : Db) : Prop :=
  ∃ b due, db.findBucket r.name.1 = some b ∧ r.Dates b.defaultTtl due ∧
    due.any (· < minTimestamp) = false ∧ db.findFile b.id r.name.2 = none ∧
    db' = db.withFile b.id r.name.2 due

/-- A request on its way, which has learnt only what is so. -/
def Underway (r : Request) (db : Db) (c : Learnt × Course) (s : Session) : Prop :=
  c.2 = .going → (c.1.bucket = none ∨
      ∃ b, db.findBucket r.name.1 = some b ∧ c.1.bucket = some (b.id, b.defaultTtl)) ∧
    (s.db = db ∨ Begun r db s.db)

theorem Conn.within_all (c : Conn) : c.Within fun _ => True := by
  cases c <;> simp [Conn.Within, Tx.Within]

/-- The statements that neither change what is committed nor name a bucket. -/
theorem Underway.same {r : Request} {db : Db} {c c' : Learnt × Course} {s s' : Session}
    (h : Underway r db c s) (hc : c.2 = .going) (hb : c'.1.bucket = c.1.bucket)
    (hs : s'.db = s.db) : Underway r db c' s' := by
  intro _
  rw [hb, hs]
  exact h hc

theorem Underway.insert {r : Request} {db db' : Db} {s : Session} {id : BucketId}
    {ttl : Option Interval} {due : Option Timestamp} {row : FileRow} {b : BucketRow}
    (hb : db.findBucket r.name.1 = some b) (hid : (id, ttl) = (b.id, b.defaultTtl))
    (hd : r.Dates ttl due) (hdb : s.db = db ∨ Begun r db s.db)
    (hr : s.db.insertFile id r.name.2 due = .ok (row, db')) : Begun r db db' := by
  obtain ⟨rfl, rfl⟩ := Prod.mk.inj hid
  obtain ⟨hf, hex, -⟩ := Db.insertFile_ok hr
  have hdue := Db.insertFile_deadline hr
  obtain hsame | ⟨b', due', hb', -, -, hf', hsame⟩ := hdb
  · rw [hsame] at hr hf hex
    rw [Db.insertFile_eq hdue hf hex] at hr
    exact ⟨b, due, hb, hd, hdue, hf, (Prod.mk.inj (Except.ok.inj hr)).2.symm⟩
  · obtain rfl := Option.some.inj (hb.symm.trans hb')
    rw [hsame, Db.findFile_withFile _ _ _ hf', if_pos ⟨rfl, rfl⟩] at hf
    cases hf

theorem Underway.step {r : Request} {db : Db} {q : Query} {c : Learnt × Course} {s s' : Session}
    {a : q.Reply} (hq : ((errand r).prod halting).allows c q) (h : Underway r db c s)
    (hs : serveAlone q s = (some a, s')) :
    Underway r db (((errand r).prod halting).next c q a) s' := by
  obtain ⟨l, c⟩ := c
  obtain ⟨hallowed, rfl⟩ := hq
  obtain ⟨⟨a', s₁⟩, hserve⟩ := Session.serve_free q s
  rw [serveAlone, hserve] at hs
  obtain ⟨ha, rfl⟩ := Prod.mk.inj hs
  obtain rfl := Option.some.inj ha
  have hwithin := Conn.within_all s.conn
  cases q with
  | insertBucket | deleteOldFilesBatch => exact hallowed.elim
  | commitTx =>
    intro hc
    have hnext : (if isFailure .commitTx a' then Course.failed else .closed) = .going := hc
    split at hnext <;> cases hnext
  | bucketByName name =>
    obtain rfl : name = r.name.1 := hallowed
    obtain ⟨rfl, rfl⟩ := Prod.mk.inj (Option.some.inj hserve)
    intro _
    obtain ⟨-, hdb⟩ := h rfl
    refine ⟨?_, hdb⟩
    have hfind : s.db.findBucket r.name.1 = db.findBucket r.name.1 := by
      obtain hsame | ⟨_, _, -, -, -, -, hsame⟩ := hdb <;> rw [hsame]
      rfl
    simp only [Protocol.prod, errand, Learnt.next, hfind]
    cases hb : db.findBucket r.name.1 with
    | none => exact .inl rfl
    | some b => exact .inr ⟨b, rfl, rfl⟩
  | insertFile id filename due =>
    obtain ⟨rfl, ttl, hl, hd⟩ := hallowed
    obtain ⟨hb | ⟨b, hb, hl'⟩, hdb⟩ := h rfl
    · cases hb.symm.trans hl
    · intro _
      have hbucket : (Learnt.next l (.insertFile id r.name.2 due) a').bucket = l.bucket := by
        rcases a' with e | ⟨_, _⟩ <;> rfl
      refine ⟨.inr ⟨b, hb, hbucket.trans hl'⟩, ?_⟩
      obtain ⟨rfl, rfl⟩ := Prod.mk.inj (Option.some.inj hserve)
      cases hr : s.db.insertFile id r.name.2 due with
      | error e => exact hdb
      | ok x =>
        obtain ⟨row, db'⟩ := x
        exact .inr (Underway.insert hb (Option.some.inj (hl.symm.trans hl')) hd hdb hr)
  | fileByName id filename =>
    refine h.same rfl ?_ (Session.serve_within (q := .fileByName id filename) trivial hserve
      hwithin).1
    rcases a' with e | _ | ⟨_, _⟩ <;> rfl
  | listBuckets | beginTx | loOpen | loLseek64 | loRead | loWrite | loClose | updatedAt =>
    refine h.same rfl rfl (Session.serve_within ?_ hserve hwithin).1
    trivial

/-- What is committed while a request that writes runs alone. -/
theorem upload_passes {r : Request} (hw : r.writes = true) {db : Db} {s : Session}
    (h : Passes serveAlone r.handler ⟨db, .idle⟩ s) :
    s.db = db ∨ Begun r db s.db ∨ s.db = (serveRequest db r).2 := by
  obtain ⟨q, hq⟩ | rfl := h
  · have keeps : ((errand r).prod halting).Keeps r.handler (.nothing, .going) :=
      .prod (handler_errand r) (Logic.wp_mono (fun _ _ _ _ _ => trivial) (handler_halts hw))
    obtain ⟨c, hc, hJ⟩ := keeps.trace (J := Underway r db)
      (fun q c s a s' hq hJ hs => hJ.step hq hs) (fun _ => ⟨.inl rfl, .inl rfl⟩) hq
    exact (hJ hc.2).2.imp_right .inl
  · exact .inr (.inr rfl)

end LocallyEuclidean.Server
