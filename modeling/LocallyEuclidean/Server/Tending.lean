import LocallyEuclidean.Server.Upkeep

/-! The whole service in any interleaving. Old files go, at a thousand a batch, and no other
file does; and a request on a file that nobody else writes does not notice the others. -/

namespace LocallyEuclidean.Server
open Interact Postgres Storage

variable {n : ℕ} {δ : Type} {requests : Fin n → Request} {db db' db₀ : Db} {s : System n}

/-! Retention. -/

theorem FileRow.expired_mono {f : FileRow} {t u : Timestamp} (h : f.expired t = true) (hle : t ≤ u) :
    f.expired u = true := by
  obtain ⟨d, hd, hlt⟩ := FileRow.expired_iff.mp h
  exact FileRow.expired_iff.mpr ⟨d, hd, hlt.trans_le hle⟩

theorem due_perm (hb : Batched db db') (t : Timestamp) :
    (due t db' ++ (removed db db').filter fun f => f.expired t).Perm (due t db) := by
  rw [due, due, ← List.filter_append]
  exact (files_perm hb).filter _

/-- A batch that runs at `t` or later takes a thousand of the rows that are due at `t`, or all. -/
theorem due_batch (hb : Batched db db') {t : Timestamp} (ht : t ≤ db.clock) :
    (due t db').length ≤ (due t db).length - 1000 := by
  have hperm := (due_perm hb t).length_eq
  rw [List.length_append] at hperm
  rcases List.eq_nil_or_concat (due t db') with hnil | ⟨rest, f, he⟩
  · simp [hnil]
  · have hf : f ∈ db'.files ∧ f.expired t = true := by
      have hm : f ∈ due t db' := by simp [he]
      exact List.mem_filter.mp hm
    have hx := FileRow.expired_mono hf.2 ht
    obtain ⟨d, hd, hlt⟩ := FileRow.expired_iff.mp hf.2
    -- A row is left behind: all that are gone come before it, and the batch is full.
    have older : (removed db db').filter (fun f => f.expired t) = removed db db' := by
      refine List.filter_eq_self.mpr fun g hg => ?_
      obtain ⟨c, hc, -⟩ := FileRow.expired_iff.mp (Db.mem_expiredFiles.mp (hb.expired g hg)).2
      exact FileRow.expired_iff.mpr ⟨c, hc, (hb.oldest f hf.1 hx g hg c d hc hd).trans_lt hlt⟩
    have full : (removed db db').length = 1000 := by
      have hclock := (due_perm hb db.clock).length_eq
      have all : (removed db db').filter (fun f => f.expired db.clock) = removed db db' :=
        List.filter_eq_self.mpr fun g hg => (Db.mem_expiredFiles.mp (hb.expired g hg)).2
      have left : 0 < (due db.clock db').length :=
        List.length_pos_of_mem (List.mem_filter.mpr ⟨hf.1, hx⟩)
      have hcount := hb.count
      rw [List.length_append, all] at hclock
      have same : (due db.clock db).length = db.expiredFiles.length := rfl
      omega
    rw [older, full] at hperm
    omega

theorem due_batch_le (hb : Batched db db') (t : Timestamp) :
    (due t db').length ≤ (due t db).length := by
  have hperm := (due_perm hb t).length_eq
  rw [List.length_append] at hperm
  omega

/-- Whatever is uploaded is due at `t` or later. -/
structure Mild (requests : Fin n → Request) (db₀ : Db) (t : Timestamp) : Prop where
  forward : ∀ b ∈ db₀.buckets, Forward b.defaultTtl
  sent : ∀ i b f body now, requests i = .put b f body now → t ≤ now.toTimestamp

structure Retained (requests : Fin n → Request) (db₀ : Db) (s : System n) : Prop where
  expired : ∀ b ∈ s.batches, ∀ f ∈ b.2, f.expired b.1 = true
  forward : ∀ b ∈ s.shared.db.buckets, b ∈ db₀.buckets ∨ Forward b.defaultTtl
  drained : ∀ t, Mild requests db₀ t → (due t s.shared.db).length ≤
    (due t db₀).length - 1000 * s.batches.countP fun b => t ≤ b.1

theorem toTimestamp_mono {x y : DateTime} (h : x ≤ y) : x.toTimestamp ≤ y.toTimestamp :=
  Int.tdiv_le_tdiv (by decide) h

/-- No upload dates its file before the time it was sent. -/
theorem Request.Dates.not_expired {r : Request} {ttl : Option Interval} {due : Option Timestamp}
    (h : r.Dates ttl due) (forward : Forward ttl) {t : Timestamp}
    (sent : ∀ b f body now, r = .put b f body now → t ≤ now.toTimestamp) {f : FileRow}
    (hf : f.deleteAfter = due) : f.expired t = false := by
  obtain ⟨b, name, body, now, hr, hd⟩ := h
  by_contra hx
  obtain ⟨d, hd', hlt⟩ := FileRow.expired_iff.mp (by simpa using hx)
  obtain rfl := hf.symm.trans hd'
  cases ttl with
  | none => cases Option.some.inj hd
  | some interval =>
    simp only [Option.map_some, Depot.deadline] at hd
    obtain ⟨x, hx, he⟩ := Option.map_eq_some_iff.mp hd
    have hle : now ≤ x := by
      unfold DateTime.add at hx
      split at hx
      · rw [← Option.some.inj hx]
        refine le_add_of_nonneg_right ?_
        rw [interval.delta_nanos]
        exact mul_nonneg (forward interval rfl) (by decide)
      · cases hx
    exact hlt.not_ge ((sent b name body now hr).trans
      ((toTimestamp_mono hle).trans (Option.some.inj he).le))

namespace Retained

theorem start (requests : Fin n → Request) (db₀ : Db) : Retained requests db₀ (.start n db₀) where
  expired := by simp [System.start]
  forward b hb := .inl hb
  drained t _ := by simp [System.start, Shared.start]

/-- What touches neither a batch nor a file. -/
theorem of_files (h : Retained requests db₀ s) {t : System n} (hb : t.batches = s.batches)
    (hf : t.shared.db.files = s.shared.db.files)
    (forward : ∀ b ∈ t.shared.db.buckets, b ∈ s.shared.db.buckets ∨ Forward b.defaultTtl) :
    Retained requests db₀ t where
  expired := hb ▸ h.expired
  forward b hm := (forward b hm).elim (h.forward b) .inr
  drained t hm := by
    rw [due, hf, hb]
    exact h.drained t hm

/-- A statement of a request. -/
theorem wrought (h : Retained requests db₀ s) {i : Fin n} {t : Shared n}
    (hw : Wrought s (requests i) t.db) : Retained requests db₀ { s with shared := t } := by
  have forward : ∀ b ∈ t.db.buckets, b ∈ s.shared.db.buckets ∨ Forward b.defaultTtl :=
    fun b hb => .inl (hw.buckets ▸ hb)
  obtain hf | ⟨row, hf, -, -, -, b, hb, -, dates⟩ := hw.files
  · exact h.of_files rfl hf forward
  · refine ⟨h.expired, fun b hm => (forward b hm).elim (h.forward b) .inr, fun t₀ hm => ?_⟩
    have hx : row.expired t₀ = false := dates.not_expired
      ((h.forward b hb).elim (hm.forward b) id) (hm.sent i) rfl
    rw [due, hf, List.filter_append, List.filter_singleton, hx]
    simpa [due] using h.drained t₀ hm

theorem batch (h : Retained requests db₀ s) {t : System n} (hb : Batched s.shared.db db')
    (hd : t.shared.db = db')
    (ht : t.batches = (s.shared.db.clock, removed s.shared.db db') :: s.batches) :
    Retained requests db₀ t where
  expired b hm f hf := by
    rw [ht, List.mem_cons] at hm
    obtain rfl | hm := hm
    · exact (Db.mem_expiredFiles.mp (hb.expired f hf)).2
    · exact h.expired b hm f hf
  forward b hm := h.forward b (by rwa [hd, hb.rest] at hm)
  drained t₀ hm := by
    have old := h.drained t₀ hm
    rw [hd, ht, List.countP_cons]
    split
    · rename_i hle
      refine (due_batch hb (by simpa using hle)).trans ((Nat.sub_le_sub_right old 1000).trans_eq ?_)
      rw [Nat.sub_sub, Nat.mul_succ]
    · exact (due_batch_le hb t₀).trans old

theorem happen (parseDuration : String → Except δ Duration) (hs : Upheld requests db₀ s)
    (h : Retained requests db₀ s) (e : Happening) :
    Retained requests db₀ (s.happen parseDuration e) := by
  cases e with
  | tick now => exact h.of_files rfl rfl fun b hb => .inl hb
  | createBucket name ttl =>
    obtain hsame | ⟨ttl', id, hr, forward⟩ :=
      createBucketCommand_effect parseDuration name ttl s.shared.db
    · simp only [System.happen, hsame]
      exact h
    · obtain ⟨-, hdb⟩ := insertBucket_made hr
      refine h.of_files rfl (by rw [System.happen, System.withDb, hdb]) fun b hb => ?_
      rw [System.happen, System.withDb, hdb, List.mem_append, List.mem_singleton] at hb
      refine hb.imp_right ?_
      rintro rfl
      exact forward
  | interrupt => exact h.of_files rfl rfl fun b hb => .inl hb
  | wake =>
    simp only [System.happen, System.wake]
    split <;> exact h.of_files rfl rfl fun b hb => .inl hb
  | batch tie ending =>
    simp only [System.happen, System.batch]
    split
    · split
      · rw [deleteOldFilesBatch_alone hs.linked]
        exact h.batch (batched_deleteBatch hs.linked tie) rfl rfl
      · exact h.of_files rfl rfl fun b hb => .inl hb
    · exact h

end Retained

/-! The service as a composition of its requests. -/

/-- What the others leave client `i`: its connection, and its file if nobody else writes it. -/
structure Left (requests : Fin n → Request) (db₀ : Db) (i : Fin n) (s t : System n) : Prop where
  conn : t.shared.conns i = s.shared.conns i
  grows : Advances requests db₀ s t
  file : Sole requests i → t.Disturbed db₀ (requests i).name ∨
    Elsewhere (requests i).name s.shared.db t.shared.db

namespace Left

variable {i : Fin n} {t u : System n}

theorem trans (h : Left requests db₀ i s t) (h' : Left requests db₀ i t u) :
    Left requests db₀ i s u := by
  refine ⟨h'.conn.trans h.conn, h.grows.trans h'.grows, fun sole => ?_⟩
  obtain hd | he := h.file sole
  · exact .inl (hd.mono h'.grows.buckets h'.grows.deleted)
  · exact (h'.file sole).imp_right he.trans

end Left

/-- Nothing that is committed has changed. -/
theorem grows_of_db {t : Shared n} (hd : t.db = s.shared.db) :
    Advances requests db₀ s { s with shared := t } := by
  refine ⟨by rw [hd], fun f hf => ?_, fun _ hf => hf, fun k _ => .inr ?_⟩
  · rwa [System.rows_of_files (by rw [hd])]
  · rw [hd]
    exact .refl k _

theorem left_of_db {i : Fin n} {t : Shared n} (hd : t.db = s.shared.db)
    (hc : t.conns i = s.shared.conns i) : Left requests db₀ i s { s with shared := t } :=
  ⟨hc, grows_of_db hd, fun _ => .inr (by rw [hd]; exact .refl _ _)⟩

theorem happen_conns (parseDuration : String → Except δ Duration) (s : System n) (e : Happening) :
    (s.happen parseDuration e).shared.conns = s.shared.conns := by
  cases e with
  | tick | createBucket | interrupt => rfl
  | wake =>
    simp only [System.happen, System.wake]
    split <;> rfl
  | batch tie ending =>
    simp only [System.happen, System.batch]
    split
    · split <;> rfl
    · rfl

def tending (parseDuration : String → Except δ Duration) (requests : Fin n → Request) (db₀ : Db) :
    Terms (system parseDuration n) Unit ApiError (Option Response) where
  cond _ _ _ := True
  inv x := Upheld requests db₀ x.1 ∧ Retained requests db₀ x.1
  grows x y := Advances requests db₀ x.1 y.1
  keeps i x y := Left requests db₀ i x.1 y.1
  post i o x := Sole requests i → x.1.Disturbed db₀ (requests i).name ∨
    Serves (fun _ => True) db₀ (requests i) o ⟨x.1.shared.db, x.1.shared.conns i⟩
  grows_refl x := .refl _ _ x.1
  grows_trans := .trans
  keeps_refl i x := ⟨rfl, .refl _ _ _, fun _ => .inr (.refl _ _)⟩
  keeps_trans _ := .trans
  pending g hx hs := by
    obtain ⟨t, ht, rfl⟩ := (system_serve parseDuration).mp hs
    obtain ⟨hd, hc, -⟩ := Shared.serve_pending ht
    exact ⟨⟨hx.1.pending ht, hx.2.of_files rfl (congrArg Db.files hd)
      fun b hb => .inl (by rwa [hd] at hb)⟩, grows_of_db hd, fun j => left_of_db hd (congrFun hc j)⟩
  env e s g hx := by
    obtain ⟨hu, hr⟩ := hx
    have beside := hu.happen parseDuration e
    exact ⟨⟨beside.upheld, hr.happen parseDuration hu e⟩, beside.grows, fun j =>
      ⟨congrFun (happen_conns parseDuration s e) j, beside.grows, fun _ => beside.names _⟩⟩
  leave i s g hx := ⟨⟨hx.1.leave i, hx.2.of_files rfl rfl fun b hb => .inl hb⟩,
    grows_of_db rfl, fun j hj => left_of_db rfl (by rw [Shared.leave_conns, Function.update_of_ne hj])⟩
  post_stable h hp sole := by
    obtain hd | ⟨t, ht, ho, he⟩ := hp sole
    · exact .inl (hd.mono h.grows.buckets h.grows.deleted)
    · exact (h.file sole).imp_right fun helse => ⟨t, ht, ho, helse.entry.trans he⟩
  post_leave hp := hp

/-! One client. -/

section Client

variable {i : Fin n} {q : Query} {c : Learnt}

theorem Learnt.next_error (c : Learnt) (q : Query) (e : SqlxError) : c.next q (.error e) = c := by
  cases q <;> rfl

/-- A statement of an errand that is answered. -/
theorem answered_tending (hu : Upheld requests db₀ s) (hr : Retained requests db₀ s)
    (know : Knows (requests i) s c) (allowed : c.allows (requests i) q) {a : q.Reply} {t : Shared n}
    (ht : s.shared.serve i q = some (some a, t)) :
    (Upheld requests db₀ { s with shared := t } ∧ Retained requests db₀ { s with shared := t } ∧
        Knows (requests i) { s with shared := t } (c.next q a) ∧
        Advances requests db₀ s { s with shared := t } ∧
        ∀ j ≠ i, Left requests db₀ j s { s with shared := t }) ∧
      (s.shared.waits i = .lost ∨
        Session.serve (fun _ => false) q ⟨s.shared.db, s.shared.conns i⟩ =
          some (a, ⟨t.db, t.conns i⟩)) := by
  have waits : ∀ j, t.waits j ≠ .free → s.shared.waits j ≠ .free := fun j hj =>
    (Shared.answered_waits ht j hj).2
  obtain ⟨hlost, rfl, hd, hc, -⟩ | ⟨conn, -, hs, hc, -⟩ := Shared.serve_answered ht
  · have hw : Wrought s (requests i) t.db := hd ▸ .same
    have grows := hu.grows hw (hd ▸ hu.linked)
    obtain ⟨hu', hothers⟩ := hu.wrought hw (hd ▸ hu.linked) (by simp [Conn.Bounded, Conn.writes])
      hc trivial (fun _ => rfl) waits
    refine ⟨⟨hu', hr.wrought hw, ?_, grows, fun j hj =>
      ⟨(hothers j hj).1, grows, fun sole => .inr ((hothers j hj).2 sole)⟩⟩, .inl hlost⟩
    rw [Learnt.next_error]
    exact know.mono grows.buckets grows.rows
  · obtain ⟨hl, hb⟩ := Session.serve_linked hs hu.linked (hu.bounded i)
    obtain ⟨hw, after⟩ := hu.served know allowed hs
    have grows := hu.grows hw hl
    obtain ⟨within, know'⟩ := after { s with shared := t } rfl grows
    have reads : (requests i).writes = false → conn.writes = [] := fun hreads => by
      have unwritten := hu.reads i hreads
      have hq : isWrite q = false := by
        cases q <;> first | rfl | (cases hreads.symm.trans allowed)
      obtain he | he := serve_writes hq hs
      · exact he.trans unwritten
      · exact he
    obtain ⟨hu', hothers⟩ := hu.wrought hw hl hb hc within reads waits
    refine ⟨⟨hu', hr.wrought hw, know', grows, fun j hj =>
      ⟨(hothers j hj).1, grows, fun sole => .inr ((hothers j hj).2 sole)⟩⟩, .inr ?_⟩
    rw [hs, hc, Function.update_self]

/-- What client `i` goes by: what it has learnt, and its session as long as its file is not
disturbed. -/
structure Stands (requests : Fin n → Request) (db₀ : Db) (i : Fin n) (s : System n)
    (v : Learnt × Option Session) : Prop where
  upheld : Upheld requests db₀ s
  retained : Retained requests db₀ s
  knows : Knows (requests i) s v.1
  session : ∀ r, v.2 = some r → r = ⟨s.shared.db, s.shared.conns i⟩
  lapsed : v.2 = none → Sole requests i → s.Disturbed db₀ (requests i).name

theorem stands_call (parseDuration : String → Except δ Duration) (q : Query) (x : System n × Unit)
    (v : Learnt × Option Session) (Φ : q.Reply → Learnt × Option Session → Prop)
    (hv : Stands requests db₀ i x.1 v)
    (h : ((errand (requests i)).logic.both
      (amidst (requests i).name (requests i).writes fun _ => True).lapse).call q Φ v) :
    ((tending parseDuration requests db₀).contract.logic i).call q
      (fun a y => ∃ v', Stands requests db₀ i y.1 v' ∧ Φ a v') x := by
  obtain ⟨c, os⟩ := v
  obtain ⟨Ψ, Ψ', ⟨allowed, next⟩, hlapse, hΦ⟩ := h
  refine Terms.call (T := tending parseDuration requests db₀) ⟨hv.upheld, hv.retained⟩
    fun y hy grows left _ a t ht => ?_
  obtain ⟨t, hshared, rfl⟩ := (system_serve parseDuration).mp ht
  have know := hv.knows.mono grows.buckets grows.rows
  obtain ⟨⟨hu, hr, know', grows', others⟩, hs⟩ := answered_tending hy.1 hy.2 know allowed hshared
  refine ⟨(), ⟨⟨hu, hr⟩, grows', others⟩, ?_⟩
  have gone : Ψ' a none → (Sole requests i →
      ({ y.1 with shared := t } : System n).Disturbed db₀ (requests i).name) →
      ∃ v', Stands requests db₀ i { y.1 with shared := t } v' ∧ Φ a v' := fun hn hd =>
    ⟨(c.next q a, none), ⟨hu, hr, know', by simp, fun _ => hd⟩, hΦ a _ _ (next a) hn⟩
  cases os with
  | none =>
    refine gone (hlapse a) fun sole => ?_
    exact (hv.lapsed rfl sole).mono (grows.buckets.trans grows'.buckets)
      fun f hf => grows'.deleted f (grows.deleted f hf)
  | some r =>
    by_cases sole : Sole requests i
    · by_cases hd : ({ y.1 with shared := t } : System n).Disturbed db₀ (requests i).name
      · exact gone (hlapse.2 a) fun _ => hd
      · obtain rfl := hv.session r rfl
        have free := hy.1.free i sole
        have hs := hs.resolve_left (by rw [free]; simp)
        have helse := (left.file sole).resolve_left fun hd' =>
          hd (hd'.mono grows'.buckets grows'.deleted)
        obtain ⟨a', r', hs', -, hΨ⟩ := hlapse.1 y.1.shared.db ⟨hy.1.linked, trivial, helse⟩
        rw [← left.conn] at hs'
        obtain ⟨rfl, rfl⟩ := Prod.mk.inj (Option.some.inj (hs.symm.trans hs'))
        refine ⟨(c.next q a, some _), ⟨hu, hr, know', ?_, by simp⟩, hΦ a _ _ (next a) hΨ⟩
        rintro _ ⟨⟩
        rfl
    · exact gone (hlapse.2 a) fun hs => absurd hs sole

theorem client_tending (parseDuration : String → Except δ Duration) (h : db₀.Linked) (i : Fin n) :
    ((tending parseDuration requests db₀).contract.logic i).wp (requests i).handler
      (fun o x => (tending parseDuration requests db₀).inv x ∧
        (tending parseDuration requests db₀).post i o x) (System.start n db₀, ()) := by
  have start : Stands requests db₀ i (System.start n db₀) (.nothing, some ⟨db₀, .idle⟩) :=
    ⟨.start h, .start requests db₀, .nothing _ _, fun r hr => (Option.some.inj hr).symm, by simp⟩
  have serves : (amidst (requests i).name (requests i).writes fun _ => True).lapse.wp
      (requests i).handler
      (fun o os => ∀ r, os = some r → Serves (fun _ => True) db₀ (requests i) o r)
      (some ⟨db₀, .idle⟩) := by
    refine Logic.wp_lapse (by simp) (Logic.wp_mono ?_
      (handler_serves (T := fun _ => True) h trivial (requests i)))
    rintro o r hr _ ⟨⟩
    exact hr
  refine Logic.wp_mono ?_ (Logic.wp_of_simulation (stands_call parseDuration) start
    (Logic.wp_both (handler_errand (requests i)) serves))
  rintro o y ⟨⟨c, os⟩, hv, -, hs⟩
  refine ⟨⟨hv.upheld, hv.retained⟩, fun sole => ?_⟩
  cases os with
  | none => exact .inl (hv.lapsed rfl sole)
  | some r => exact .inr (hv.session r rfl ▸ hs r rfl)

end Client

section Runs

variable {parseDuration : String → Except δ Duration} {as : List (Action n Happening)}
  {p : SystemPool n}

theorem tending_run (h : db₀.Linked)
    (hr : (system parseDuration n).run as (SystemPool.start db₀ requests) = some p) :
    Upheld requests db₀ p.shared ∧ Retained requests db₀ p.shared ∧
      Advances requests db₀ (.start n db₀) p.shared ∧
      (tending parseDuration requests db₀).contract.Holds p () := by
  obtain ⟨g, ⟨hu, hret⟩, hg, hh⟩ := Terms.run_holds (T := tending parseDuration requests db₀)
    (p := SystemPool.start db₀ requests) (g := ()) ⟨.start h, .start requests db₀⟩
    (client_tending parseDuration h) ((system parseDuration n).meets_of_forall
      (fun _ _ _ => trivial) as _) hr
  exact ⟨hu, hret, hg, hh⟩

/-- Every batch that is committed after `t` takes a thousand of the files that were due at `t`, or
all that are left, whatever is uploaded meanwhile. A file that has gone was expired when a batch
took it. Until it is cancelled the loop goes on, whatever fails; then it begins no batch, and
commits at most the one under way. -/
theorem old_files_leave (h : db₀.Linked)
    (hr : (system parseDuration n).run as (SystemPool.start db₀ requests) = some p) :
    (∀ t, Mild requests db₀ t → (due t p.shared.shared.db).length ≤
        (due t db₀).length - 1000 * p.shared.batches.countP fun b => t ≤ b.1) ∧
      (∀ f ∈ db₀.files, f ∈ p.shared.shared.db.files ∨
        ∃ b ∈ p.shared.batches, f ∈ b.2 ∧ f.expired b.1 = true) ∧
      (p.shared.cancelled = true ∨
        p.shared.loop ≠ .left ∧ p.shared.batches.length = committedBatches false as) ∧
      ∀ bs p', (system parseDuration n).run bs p = some p' → p.shared.cancelled = true →
        p.shared.Ends p'.shared := by
  obtain ⟨hu, hret, hg, hh⟩ := tending_run h hr
  refine ⟨hret.drained, fun f hf => ?_, ?_, fun bs p' hr' hc => run_ends hc hr'⟩
  · have hm := hg.rows f (List.mem_append_left _ hf)
    refine (List.mem_append.mp hm).imp_right fun hd => ?_
    obtain ⟨b, hb, hfb⟩ := List.mem_flatMap.mp hd
    exact ⟨b, hb, hfb, hret.expired b hb f hfb⟩
  · simpa [SystemPool.start, System.start] using
      run_goes (p := SystemPool.start db₀ requests) (by simp [SystemPool.start, System.start]) hr

/-- An upload, beside a download of a file whose time has come. -/
def mewAndMeow : Fin 2 → Request := fun i =>
  if i = client0 then .put "bucket" "mew" [.ok [109]] 2000 else .get "bucket" "meow" [1, 1]

/-- Of the first two batches one fails; the third is under way at the interrupt, and there is no
other. The download has more statements if its file is kept. -/
def mewAndMeowOrder (more : ℕ) : List (Action 2 Happening) :=
  (List.replicate 4 [Action.step client0, .step client1]).flatten ++
    [.env (.createBucket "other" none), .env (.tick 1), .env .wake,
      .env (.batch (fun _ => 0) (.error false)), .env .wake, .env (.batch (fun _ => 0) .done)] ++
    List.replicate 4 (.step client0) ++ List.replicate more (.step client1) ++
    [.env .wake, .env .interrupt, .env (.batch (fun _ => 0) .done), .env .wake]

/-- A bucket that keeps nothing, with one file. -/
def meowStored : Db :=
  (serveRequest (.created 0 "bucket" (some ⟨0, 0, 0⟩)) (.put "bucket" "meow" [.ok [109]] 0)).2

theorem meowStored_linked : meowStored.Linked :=
  serveRequest_linked (Db.linked_created 0 "bucket" _) _

def mewAndMeowEnd : Option (SystemPool 2) :=
  (system parseLong 2).run (mewAndMeowOrder 3) (SystemPool.start meowStored mewAndMeow)

theorem mewAndMeowEnd_isSome : mewAndMeowEnd.isSome = true := by decide +kernel

theorem mewAndMeow_mild : Mild mewAndMeow meowStored 1 where
  forward := by
    have hb : meowStored.buckets = [⟨⟨0⟩, "bucket", some ⟨0, 0, 0⟩⟩] := by decide +kernel
    rw [hb]
    rintro b hb _ he
    obtain rfl := List.mem_singleton.mp hb
    obtain rfl := Option.some.inj he
    decide
  sent i b f body now h := by
    unfold mewAndMeow at h
    split at h
    · cases h
      decide
    · cases h

theorem old_files_leave_mew :
    let p := mewAndMeowEnd.get mewAndMeowEnd_isSome
    ((due 1 meowStored).map FileRow.filename = ["meow"] ∧
        p.shared.shared.db.files.map FileRow.filename = ["mew"] ∧
        p.shared.loop = .left ∧ p.shared.batches.length = 2 ∧ Mild mewAndMeow meowStored 1) ∧
      (∀ t, Mild mewAndMeow meowStored t → (due t p.shared.shared.db).length ≤
        (due t meowStored).length - 1000 * p.shared.batches.countP fun b => t ≤ b.1) ∧
      (∀ f ∈ meowStored.files, f ∈ p.shared.shared.db.files ∨
        ∃ b ∈ p.shared.batches, f ∈ b.2 ∧ f.expired b.1 = true) ∧
      (p.shared.cancelled = true ∨
        p.shared.loop ≠ .left ∧
          p.shared.batches.length = committedBatches false (mewAndMeowOrder 3)) ∧
      ∀ bs p', (system parseLong 2).run bs p = some p' → p.shared.cancelled = true →
        p.shared.Ends p'.shared :=
  ⟨⟨by decide +kernel, by decide +kernel, by decide +kernel, by decide +kernel, mewAndMeow_mild⟩,
    old_files_leave meowStored_linked (Option.some_get mewAndMeowEnd_isSome).symm⟩

/-- Nobody ever waits on a file that nobody else writes, its request gets the answer that it gets
alone, and leaves the file that it leaves alone; and a file that nobody writes stays. All this as
long as no batch takes the file and nobody makes its bucket meanwhile. -/
theorem sole_requests_isolated (h : db₀.Linked)
    (hr : (system parseDuration n).run as (SystemPool.start db₀ requests) = some p) :
    (∀ k, Unwritten requests k → p.shared.Disturbed db₀ k ∨
        entry p.shared.shared.db k.1 k.2 = entry db₀ k.1 k.2) ∧
      ∀ i, Sole requests i → p.shared.shared.waits i = .free ∧
        ∀ o, (p.progs i).ended = some o → p.shared.Disturbed db₀ (requests i).name ∨
          (Reply.ofAnswer o = ((depot db₀).serve (requests i)).1 ∧
            ∃ t, entry p.shared.shared.db (requests i).name.1 (requests i).name.2 =
              ((depot { db₀ with clock := t }).serve (requests i)).2.entries
                (requests i).name.1 (requests i).name.2) := by
  obtain ⟨hu, -, hg, hh⟩ := tending_run h hr
  refine ⟨fun k hk => (hg.unwritten k hk).imp_right Elsewhere.entry, fun i sole =>
    ⟨hu.free i sole, fun o ho => ?_⟩⟩
  obtain ⟨-, hpost⟩ := Contract.post_of_ended _ hh ho
  refine (hpost sole).imp_right ?_
  rintro ⟨t, -, hreply, hentry⟩
  exact ⟨hreply.trans ((depot db₀).serve_reply (requests i) t), t, hentry⟩

/-- The same, of files that are kept. -/
def mewAndMeowKept : Option (SystemPool 2) :=
  (system parseLong 2).run (mewAndMeowOrder 5) (SystemPool.start
    (serveRequest (.created 0 "bucket" none) (.put "bucket" "meow" [.ok [109]] 0)).2 mewAndMeow)

theorem mewAndMeowKept_isSome : mewAndMeowKept.isSome = true := by decide +kernel

theorem sole_requests_isolated_mew :
    let db := (serveRequest (.created 0 "bucket" none) (.put "bucket" "meow" [.ok [109]] 0)).2
    let p := mewAndMeowKept.get mewAndMeowKept_isSome
    (p.shared.deleted = [] ∧ ∀ i, ((p.progs i).ended).isSome) ∧
      (∀ k, Unwritten mewAndMeow k → p.shared.Disturbed db k ∨
        entry p.shared.shared.db k.1 k.2 = entry db k.1 k.2) ∧
      ∀ i, Sole mewAndMeow i → p.shared.shared.waits i = .free ∧
        ∀ o, (p.progs i).ended = some o → p.shared.Disturbed db (mewAndMeow i).name ∨
          (Reply.ofAnswer o = ((depot db).serve (mewAndMeow i)).1 ∧
            ∃ t, entry p.shared.shared.db (mewAndMeow i).name.1 (mewAndMeow i).name.2 =
              ((depot { db with clock := t }).serve (mewAndMeow i)).2.entries
                (mewAndMeow i).name.1 (mewAndMeow i).name.2) :=
  ⟨by decide +kernel, sole_requests_isolated
    (serveRequest_linked (Db.linked_created 0 "bucket" none) _)
    (Option.some_get mewAndMeowKept_isSome).symm⟩

end Runs

end LocallyEuclidean.Server
