import LocallyEuclidean.Interact.Serial
import LocallyEuclidean.Server.Sequential
import LocallyEuclidean.Server.Shared
import LocallyEuclidean.Storage.Tables

/-! Appends to one file beside each other, in any interleaving of their statements. -/

namespace LocallyEuclidean.Server
open Interact Postgres Storage

/-- A POST on the file. -/
structure Post where
  writeOffset : ℕ
  parts : List Bytes

namespace Post

def body (x : Post) : Bytes := x.parts.flatten

def request (bucketName filename : String) (x : Post) : Request :=
  .post bucketName filename x.writeOffset (frames x.parts)

/-- What it does to the content when it runs alone. -/
def apply (x : Post) (c : Bytes) : StatusCode × Bytes :=
  appendAt maxObjectSize c x.writeOffset x.body

end Post

/-- The requests that have taken effect, in order, with their answers. -/
abbrev Log (n : ℕ) := List (Fin n × StatusCode)

/-- The pending writes `ws` append `w` to the bytes `c`: the first of them is at the end of `c`,
and so locks its last page. -/
structure Tail (oid : Oid) (c : Bytes) (ws : List Write) (w : Bytes) : Prop where
  own : ∀ v ∈ ws, v.oid = oid
  bytes : applyAll ws oid c = c ++ w
  lock : ws ≠ [] → ∃ v ∈ ws, v.pos = c.length ∧ v.data ≠ []

namespace Tail

variable {oid : Oid} {c w : Bytes} {ws : List Write}

theorem nil (oid : Oid) (c : Bytes) : Tail oid c [] [] :=
  ⟨by simp, by simp, fun h => (h rfl).elim⟩

theorem eq_nil (h : Tail oid c [] w) : w = [] := by
  simpa using h.bytes

theorem write (h : Tail oid c ws w) {data : Bytes} (hd : data ≠ []) :
    Tail oid c (ws ++ [⟨oid, (c ++ w).length, data⟩]) (w ++ data) := by
  refine ⟨fun v hv => ?_, ?_, fun _ => ?_⟩
  · obtain hv | hv := List.mem_append.mp hv
    · exact h.own v hv
    · rw [List.mem_singleton.mp hv]
  · rw [applyAll_append_end h.bytes, List.append_assoc]
  · by_cases hws : ws = []
    · subst hws
      refine ⟨_, List.mem_append_right _ List.mem_cons_self, ?_, hd⟩
      simp [h.eq_nil]
    · obtain ⟨v, hv, hlock⟩ := h.lock hws
      exact ⟨v, List.mem_append_left _ hv, hlock⟩

/-- Two that write to the same end meet on a page. -/
theorem overlaps (h : Tail oid c ws w) (hws : ws ≠ []) {data : Bytes} (hd : data ≠ []) :
    ws.any (Write.overlaps ⟨oid, c.length, data⟩) = true := by
  obtain ⟨v, hv, hpos, hdata⟩ := h.lock hws
  have hv0 := List.length_pos_iff.mpr hdata
  have hd0 := List.length_pos_iff.mpr hd
  have page (a b : ℕ) (hb : 0 < b) : a / pageSize ≤ (a + b - 1) / pageSize :=
    Nat.div_le_div_right (by omega)
  refine List.any_eq_true.mpr ⟨v, hv, ?_⟩
  simp only [Write.overlaps, h.own v hv, hpos, ne_eq, hdata, hd, not_false_eq_true, true_and,
    decide_eq_true_eq]
  exact ⟨page _ _ hv0, page _ _ hd0⟩

end Tail

section Contract

variable {n : ℕ} (posts : Fin n → Post) (db₀ : Db) (oid : Oid) (c₀ : Bytes)

/-- The committed bytes are those of the requests that have taken effect; at most one client
has written to the end of them. -/
structure Serialized (x : Shared n × Log n) : Prop where
  tables : db₀.SameTables x.1.db
  stored : (x.1.db.objects oid).isSome
  serial : Serial (fun i => (posts i).apply) c₀ x.2 (x.1.db.bytes oid)
  clients : (x.2.map Prod.fst).Nodup
  tails : ∀ i, ∃ w, Tail oid (x.1.db.bytes oid) (x.1.writes i) w
  single : ∀ i j, x.1.writes i ≠ [] → x.1.writes j ≠ [] → i = j

variable {posts db₀ oid c₀} in
/-- Nothing is committed, and pending writes stay or go. -/
theorem Serialized.still {x : Shared n × Log n} (h : Serialized posts db₀ oid c₀ x) {t : Shared n}
    (hd : t.db = x.1.db) (hw : ∀ i, t.writes i = x.1.writes i ∨ t.writes i = []) :
    Serialized posts db₀ oid c₀ (t, x.2) := by
  refine ⟨hd ▸ h.tables, hd ▸ h.stored, hd ▸ h.serial, h.clients, fun i => ?_, fun i j hi hj => ?_⟩
  · obtain he | he := hw i
    · rw [he, hd]
      exact h.tails i
    · rw [he]
      exact ⟨[], .nil _ _⟩
  · exact h.single i j ((hw i).resolve_right hi ▸ hi) ((hw j).resolve_right hj ▸ hj)

/-- A client's transaction is its own; while it has written, nobody else commits bytes; and it
alone enters its answer. -/
structure Own (i : Fin n) (x y : Shared n × Log n) : Prop where
  conn : y.1.conns i = x.1.conns i
  bytes : x.1.writes i ≠ [] → y.1.db.bytes oid = x.1.db.bytes oid
  log : ∀ a, (i, a) ∈ y.2 ↔ (i, a) ∈ x.2

/-- The write of a client is at the end of the file as it is now, which has not passed the
client's offset. -/
def Orderly (i : Fin n) (q : Query) (s : Shared n) : Prop :=
  match q with
  | .loWrite _ data => data ≠ [] → s.waits i = .free → s.blocker i q = none →
      (s.conns i).cursor = (applyAll (s.writes i) oid (s.db.bytes oid)).length ∧
        (s.db.bytes oid).length < (posts i).writeOffset
  | _ => True

instance (i : Fin n) (q : Query) (s : Shared n) : Decidable (Orderly posts oid i q s) := by
  unfold Orderly
  split <;> infer_instance

/-- The answer that a client has or will have is entered, unless its write is refused. -/
def Entered (i : Fin n) (o : Answer) (x : Shared n × Log n) : Prop :=
  (∃ a, (i, a) ∈ x.2 ∧ status o = some a) ∨
    o = .err (.internalError (writeError .writeConflict)) ∧ ∀ a, (i, a) ∉ x.2

def terms : Terms (machine n) (Log n) ApiError (Option Response) where
  cond i q s := Orderly posts oid i q s ∧ (isWrite q = false → s.waits i = .free)
  inv := Serialized posts db₀ oid c₀
  grows x y := x.1.db.bytes oid <+: y.1.db.bytes oid
  keeps := Own oid
  post := Entered
  grows_refl _ := List.prefix_refl _
  grows_trans := List.IsPrefix.trans
  keeps_refl _ _ := ⟨rfl, fun _ => rfl, fun _ => Iff.rfl⟩
  keeps_trans i x y z h h' := by
    refine ⟨h'.conn.trans h.conn, fun hw => ?_, fun a => (h'.log a).trans (h.log a)⟩
    have hw' : y.1.writes i ≠ [] := by rwa [Shared.writes, h.conn]
    exact (h'.bytes hw').trans (h.bytes hw)
  pending g hx hs := by
    obtain ⟨hd, hc, -⟩ := Shared.serve_pending hs
    refine ⟨hx.still hd fun j => .inl (congrArg Conn.writes (congrFun hc j)), by rw [hd], fun j => ?_⟩
    exact ⟨congrFun hc j, fun _ => by rw [hd], fun _ => Iff.rfl⟩
  env now s g hx := ⟨⟨hx.tables, hx.stored, hx.serial, hx.clients, hx.tails, hx.single⟩,
    List.prefix_refl _, fun _ => ⟨rfl, fun _ => rfl, fun _ => Iff.rfl⟩⟩
  leave i s g hx := ⟨hx.still rfl (Shared.writes_still (Shared.leave_conns s i) (.inr rfl)),
    List.prefix_refl _, fun j hj => ⟨Function.update_of_ne hj .., fun _ => rfl, fun _ => Iff.rfl⟩⟩
  post_stable h hp := by
    obtain ⟨a, ha, hs⟩ | ⟨ho, hn⟩ := hp
    · exact .inl ⟨a, (h.log a).mpr ha, hs⟩
    · exact .inr ⟨ho, fun a ha => hn a ((h.log a).mp ha)⟩
  post_leave hp := hp

/-- The client's own entry into the log, if it makes one now: it leaves the bytes alone. -/
def Enters (i : Fin n) (x : Shared n × Log n) (log : Log n) : Prop :=
  log = x.2 ∨ (∀ a, (i, a) ∉ x.2) ∧ ∃ a, log = x.2 ++ [(i, a)] ∧
    (posts i).apply (x.1.db.bytes oid) = (a, x.1.db.bytes oid)

end Contract

section Calls

variable {n : ℕ} {posts : Fin n → Post} {db₀ : Db} {oid : Oid} {c₀ : Bytes} {i : Fin n}
  {x : Shared n × Log n}

theorem Serialized.enters (h : Serialized posts db₀ oid c₀ x) {log : Log n}
    (he : Enters posts oid i x log) : Serialized posts db₀ oid c₀ (x.1, log) := by
  obtain rfl | ⟨new, a, rfl, ha⟩ := he
  · exact h
  · exact { h with serial := h.serial.snoc ha, clients := nodup_snoc h.clients new }

theorem Enters.other {log : Log n} (he : Enters posts oid i x log) {j : Fin n} (hj : j ≠ i)
    (a : StatusCode) : (j, a) ∈ log ↔ (j, a) ∈ x.2 := by
  obtain rfl | ⟨-, b, rfl, -⟩ := he
  · rfl
  · simp [hj]

/-- An answer to a statement that commits nothing: what the client has written stays or goes. -/
theorem Serialized.answered (h : Serialized posts db₀ oid c₀ x) {log : Log n}
    (he : Enters posts oid i x log) {t : Shared n} {c : Conn} (hd : t.db = x.1.db)
    (hc : t.conns = Function.update x.1.conns i c)
    (hw : c.writes = x.1.writes i ∨ c.writes = []) :
    Serialized posts db₀ oid c₀ (t, log) ∧ x.1.db.bytes oid <+: t.db.bytes oid ∧
      ∀ j ≠ i, Own oid j x (t, log) := by
  refine ⟨(h.enters he).still hd (Shared.writes_still hc hw), by rw [hd], fun j hj => ?_⟩
  exact ⟨by rw [hc, Function.update_of_ne hj], fun _ => by rw [hd], he.other hj⟩

/-- A statement that is no write and no commit. -/
theorem call_quiet {q : Query} {Φ : q.Reply → Shared n × Log n → Prop}
    (hx : Serialized posts db₀ oid c₀ x) (hw : isWrite q = false)
    (h : ∀ y, Serialized posts db₀ oid c₀ y → x.1.db.bytes oid <+: y.1.db.bytes oid → Own oid i x y →
      ∃ a c log, (Session.mk y.1.db (y.1.conns i)).serve (fun _ => false) q = some (a, ⟨y.1.db, c⟩) ∧
        c.writes = y.1.writes i ∧ Enters posts oid i y log ∧ ∀ t, t.db = y.1.db → t.conns i = c →
          Serialized posts db₀ oid c₀ (t, log) → Φ a (t, log)) :
    ((terms posts db₀ oid c₀).contract.logic i).call q Φ x := by
  refine call_served (T := terms posts db₀ oid c₀) hx fun y hy hgrows hown hcond => ?_
  obtain ⟨a, c, log, hs, hcw, he, hΦ⟩ := h y hy hgrows hown
  refine ⟨hcond.2 hw, a, _, c, hs, fun t ht => ⟨log, ?_⟩⟩
  have hstep := hy.answered he ht.db ht.conns (.inl hcw)
  exact ⟨hstep, hΦ t ht.db (by rw [ht.conns, Function.update_self]) hstep.1⟩

/-- The client has not been answered. -/
def New (i : Fin n) (x : Shared n × Log n) : Prop := ∀ a, (i, a) ∉ x.2

theorem Own.writes {y : Shared n × Log n} (h : Own oid i x y) : y.1.writes i = x.1.writes i :=
  congrArg Conn.writes h.conn

theorem Own.new {y : Shared n × Log n} (h : Own oid i x y) (hn : New i x) : New i y :=
  fun a ha => hn a ((h.log a).mp ha)

/-- Before the client has a handle. -/
structure Before (posts : Fin n → Post) (db₀ : Db) (oid : Oid) (c₀ : Bytes) (i : Fin n)
    (x : Shared n × Log n) : Prop where
  inv : Serialized posts db₀ oid c₀ x
  writes : x.1.writes i = []
  new : New i x

/-- With its handle at `pos`, and nothing written. -/
structure Opened (posts : Fin n → Post) (db₀ : Db) (oid : Oid) (c₀ : Bytes) (i : Fin n) (pos : ℕ)
    (x : Shared n × Log n) : Prop where
  inv : Serialized posts db₀ oid c₀ x
  conn : (x.1.conns i).At oid pos []

section Lookup

variable {b : BucketRow} {f : FileRow} {bucketName filename : String}

theorem bucket_beside (hb : db₀.findBucket bucketName = some b)
    (hx : Before posts db₀ oid c₀ i x) :
    ((terms posts db₀ oid c₀).contract.logic i).wp (PostgresBackend.bucket bucketName) (fun o y =>
      o = .ok ⟨b.id, b.defaultTtl.map Interval.delta⟩ ∧ Before posts db₀ oid c₀ i y) x := by
  refine PostgresBackend.wp_bucket (call_quiet hx.inv rfl fun y hy _ hown => ?_)
  have hb' : y.1.db.findBucket bucketName = some b := by
    rw [Db.findBucket, hy.tables.1]
    exact hb
  refine ⟨_, y.1.conns i, y.2, by rw [Session.serve, hb'], rfl, .inl rfl, fun t hd hc ht => ?_⟩
  refine .inr ⟨b.id, b.defaultTtl, rfl, rfl, ht, ?_, hown.new hx.new⟩
  rw [Shared.writes, hc]
  exact hown.writes.trans hx.writes

theorem file_beside {p : PostgresBucket} (hf : db₀.findFile p.id filename = some f)
    (hoid : f.blob = oid) (hx : Before posts db₀ oid c₀ i x) :
    ((terms posts db₀ oid c₀).contract.logic i).wp (p.file filename) (fun o y =>
      o = .ok ⟨.ofFd 0, f.id⟩ ∧ Opened posts db₀ oid c₀ i 0 y ∧ New i y) x := by
  subst hoid
  refine PostgresBucket.wp_file (call_quiet hx.inv rfl fun y hy _ hown => ?_)
  have hf' : y.1.db.findFile p.id filename = some f := by
    rw [Db.findFile, hy.tables.2]
    exact hf
  refine ⟨_, y.1.conns i, y.2, by rw [Session.serve, hf'], rfl, .inl rfl, fun t hd hc ht => ?_⟩
  have hwrites : Shared.writes t i = [] := by
    rw [Shared.writes, hc]
    exact hown.writes.trans hx.writes
  have hnew : New i (t, y.2) := hown.new hx.new
  refine .inr ⟨f.id, f.blob, rfl, PostgresFileHandle.wp_new (call_quiet ht rfl fun z hz _ hown₁ => ?_)⟩
  refine ⟨_, .inTx ⟨none, []⟩, z.2, rfl, (hown₁.writes.trans hwrites).symm, .inl rfl,
    fun u hd₁ hc₁ hu => ⟨rfl, call_quiet hu rfl fun v hv _ hown₂ => ?_⟩⟩
  have hbegun : v.1.conns i = .inTx ⟨none, []⟩ := hown₂.conn.trans hc₁
  obtain ⟨c, hobj⟩ := Option.isSome_iff_exists.mp hv.stored
  obtain ⟨conn, hs, hat⟩ := Conn.At.opened (fun _ => false) (OpenMode.ofFlags_bits .readWrite) hobj
  rw [← hbegun] at hs
  refine ⟨_, conn, v.2, hs, ?_, .inl rfl, fun r hd₂ hc₂ hr => ?_⟩
  · rw [hat.writes_eq, Shared.writes, hbegun]
    rfl
  · refine .inl ⟨0, rfl, rfl, ⟨hr, by rw [hc₂]; exact hat⟩, ?_⟩
    exact hown₂.new (x := (u, z.2)) (hown₁.new (x := (t, y.2)) hnew)

end Lookup

/-! A check: it takes effect at the first read that tells its body from the file, or at
the read that meets the end of the file. -/

/-- The bytes `m` have been read from the offset on. -/
structure Comparing (posts : Fin n → Post) (db₀ : Db) (oid : Oid) (c₀ : Bytes) (i : Fin n) (m : Bytes)
    (x : Shared n × Log n) : Prop where
  opened : Opened posts db₀ oid c₀ i ((posts i).writeOffset + m.length) x
  offset : (posts i).writeOffset ≤ (x.1.db.bytes oid).length
  read : m <+: (x.1.db.bytes oid).drop (posts i).writeOffset
  undecided : m <+: (posts i).body → New i x
  decided : ¬ m <+: (posts i).body → (i, .conflict) ∈ x.2

/-- The end of the file has been met after `m`. -/
structure Compared (posts : Fin n → Post) (db₀ : Db) (oid : Oid) (c₀ : Bytes) (i : Fin n) (m : Bytes)
    (x : Shared n × Log n) : Prop where
  inv : Serialized posts db₀ oid c₀ x
  entered : (i, if m = (posts i).body then .ok else .conflict) ∈ x.2

/-- A check is decided by what the file holds now. -/
theorem enters_check (hn : New i x) (ho : (posts i).writeOffset ≤ (x.1.db.bytes oid).length) :
    Enters posts oid i x (x.2 ++ [(i,
      if (x.1.db.bytes oid).drop (posts i).writeOffset = (posts i).body then .ok else .conflict)]) :=
  .inr ⟨hn, _, rfl, appendAt_check ho⟩

theorem readsOn_beside (posts : Fin n → Post) (db₀ : Db) (oid : Oid) (c₀ : Bytes) (i : Fin n) :
    BlobHandle.ReadsOn ((terms posts db₀ oid c₀).contract.logic i) 0
      (Comparing posts db₀ oid c₀ i) (Compared posts db₀ oid c₀ i) := by
  intro m x room hA hroom hle
  refine call_quiet hA.opened.inv rfl fun y hy hgrows hown => ?_
  have hconn : (y.1.conns i).At oid ((posts i).writeOffset + m.length) [] := by
    rw [hown.conn]
    exact hA.opened.conn
  have hoffset := hA.offset.trans hgrows.length_le
  have hread : m <+: (y.1.db.bytes oid).drop (posts i).writeOffset := hA.read.trans (hgrows.drop _)
  obtain ⟨conn, hs, hat⟩ := hconn.read (fun _ => false) y.1.db room
  rw [applyAll_nil] at hs hat
  have hw : conn.writes = y.1.writes i := hat.writes_eq.trans hconn.writes_eq.symm
  generalize hdata : window (y.1.db.bytes oid) ((posts i).writeOffset + m.length) room = data at hs hat
  by_cases hnil : data = []
  · have hend : m = (y.1.db.bytes oid).drop (posts i).writeOffset :=
      eq_drop_of_window_nil hroom hread (hdata.trans hnil)
    by_cases hm : m <+: (posts i).body
    · refine ⟨_, conn, _, hs, hw, enters_check (hown.new (hA.undecided hm)) hoffset, fun t _ _ ht => ?_⟩
      refine ⟨data, rfl, by simp [hnil], .inr ⟨hnil, ht, ?_⟩⟩
      rw [← hend]
      exact List.mem_append_right _ List.mem_cons_self
    · refine ⟨_, conn, _, hs, hw, .inl rfl, fun t _ _ ht => ?_⟩
      refine ⟨data, rfl, by simp [hnil], .inr ⟨hnil, ht, ?_⟩⟩
      have hne : m ≠ (posts i).body := fun he => hm (he ▸ List.prefix_refl _)
      rw [if_neg hne]
      exact (hown.log _).mpr (hA.decided hm)
  · have hlen : data.length ≤ room := hdata ▸ length_window_le _ _ _
    have hmore : m ++ data <+: (y.1.db.bytes oid).drop (posts i).writeOffset :=
      hdata ▸ isPrefix_append_window room hread
    have hat' : conn.At oid ((posts i).writeOffset + (m ++ data).length) [] := by
      rwa [List.length_append, ← Nat.add_assoc]
    by_cases hm' : m ++ data <+: (posts i).body
    · have hm : m <+: (posts i).body := (List.prefix_append m data).trans hm'
      refine ⟨_, conn, _, hs, hw, .inl rfl, fun t hd hc ht => ?_⟩
      refine ⟨data, rfl, hlen, .inl ⟨hnil, ⟨ht, hc ▸ hat'⟩, hd ▸ hoffset, hd ▸ hmore, fun _ => ?_,
        fun hno => absurd hm' hno⟩⟩
      exact hown.new (hA.undecided hm)
    · by_cases hm : m <+: (posts i).body
      · have hne : (y.1.db.bytes oid).drop (posts i).writeOffset ≠ (posts i).body :=
          fun he => hm' (he ▸ hmore)
        refine ⟨_, conn, _, hs, hw, enters_check (hown.new (hA.undecided hm)) hoffset, fun t hd hc ht => ?_⟩
        refine ⟨data, rfl, hlen, .inl ⟨hnil, ⟨ht, hc ▸ hat'⟩, hd ▸ hoffset, hd ▸ hmore,
          fun hyes => absurd hyes hm', fun _ => ?_⟩⟩
        rw [if_neg hne]
        exact List.mem_append_right _ List.mem_cons_self
      · refine ⟨_, conn, _, hs, hw, .inl rfl, fun t hd hc ht => ?_⟩
        refine ⟨data, rfl, hlen, .inl ⟨hnil, ⟨ht, hc ▸ hat'⟩, hd ▸ hoffset, hd ▸ hmore,
          fun hyes => absurd hyes hm', fun _ => ?_⟩⟩
        exact (hown.log _).mpr (hA.decided hm)

theorem length_bytes_le (hc₀ : c₀.length ≤ maxObjectSize) (hx : Serialized posts db₀ oid c₀ x) :
    (x.1.db.bytes oid).length ≤ maxObjectSize :=
  hx.serial.keeps (P := fun c => c.length ≤ maxObjectSize) (fun _ _ => length_appendAt_le) hc₀

theorem check_beside (hc₀ : c₀.length ≤ maxObjectSize) {pos : ℕ}
    (hx : Opened posts db₀ oid c₀ i pos x) (hn : New i x)
    (ho : (posts i).writeOffset ≤ (x.1.db.bytes oid).length) :
    ((terms posts db₀ oid c₀).contract.logic i).wp
      (checkRangeMatches (frames (posts i).parts) (posts i).writeOffset (.ofFd 0))
      (fun o y => ∃ v, o = .ok v ∧ Serialized posts db₀ oid c₀ y ∧
        (i, if v = .isMatch then .ok else .conflict) ∈ y.2) x := by
  have hmax := ho.trans (length_bytes_le hc₀ hx.inv)
  refine Logic.wp_mono ?_ (wp_checkRangeMatches (readsOn_beside posts db₀ oid c₀ i) hmax
    (call_quiet hx.inv rfl fun y hy hgrows hown => ?_))
  · rintro _ y ⟨v, rfl, hv⟩
    refine ⟨v, rfl, ?_⟩
    obtain ⟨rfl, hE⟩ | ⟨hne, m, ⟨hE, hl⟩ | ⟨hA, hm⟩⟩ := hv
    · have he := hE.entered
      have hbody : (posts i).parts.flatten = (posts i).body := rfl
      rw [if_pos hbody] at he
      exact ⟨hE.inv, he⟩
    · have he := hE.entered
      have hshort : m ≠ (posts i).body := fun he => hl.ne (congrArg List.length he)
      rw [if_neg hshort] at he
      exact ⟨hE.inv, by rwa [if_neg hne]⟩
    · exact ⟨hA.opened.inv, by rw [if_neg hne]; exact hA.decided hm⟩
  · have hconn : (y.1.conns i).At oid pos [] := by
      rw [hown.conn]
      exact hx.conn
    obtain ⟨conn, hs, hat⟩ := hconn.seekStart (fun _ => false) y.1.db hmax
    refine ⟨_, conn, y.2, hs, hat.writes_eq.trans hconn.writes_eq.symm, .inl rfl, fun t hd hc ht => ?_⟩
    exact ⟨_, rfl, ⟨ht, hc ▸ hat⟩, hd ▸ ho.trans hgrows.length_le, List.nil_prefix,
      fun _ => hown.new hn, fun hno => absurd List.nil_prefix hno⟩

/-! An append: it takes effect when it is committed, or, with no bytes to append, when the
size is tested. -/

/-- The bytes `w` of the body have been written. -/
structure Writing (posts : Fin n → Post) (db₀ : Db) (oid : Oid) (c₀ : Bytes) (i : Fin n) (w : Bytes)
    (x : Shared n × Log n) : Prop where
  inv : Serialized posts db₀ oid c₀ x
  tail : Tail oid (x.1.db.bytes oid) (x.1.writes i) w
  fits : (x.1.db.bytes oid).length + w.length ≤ maxObjectSize
  past : x.1.writes i ≠ [] → (x.1.db.bytes oid).length < (posts i).writeOffset
  empty : (posts i).body = [] → (i, .ok) ∈ x.2
  new : (posts i).body ≠ [] → New i x

/-- The handle with which they are written. -/
def HasHandle (oid : Oid) (i : Fin n) (x : Shared n × Log n) : Prop :=
  ∃ pos ws, (x.1.conns i).At oid pos ws

theorem Writing.start (hc₀ : c₀.length ≤ maxObjectSize) (hx : Serialized posts db₀ oid c₀ x)
    {pos : ℕ} (hat : (x.1.conns i).At oid pos []) (empty : (posts i).body = [] → (i, .ok) ∈ x.2)
    (new : (posts i).body ≠ [] → New i x) : Writing posts db₀ oid c₀ i [] x := by
  have hw : x.1.writes i = [] := hat.writes_eq
  exact ⟨hx, hw ▸ .nil _ _, length_bytes_le hc₀ hx, fun hne => absurd hw hne, empty, new⟩

/-- A write has failed. -/
structure Failed (posts : Fin n → Post) (db₀ : Db) (oid : Oid) (c₀ : Bytes) (i : Fin n) (e : SqlxError)
    (x : Shared n × Log n) : Prop where
  inv : Serialized posts db₀ oid c₀ x
  answer : (e = .writeConflict ∧ New i x) ∨ (e = .database ∧ (i, .internalServerError) ∈ x.2)

/-- What is pending stays behind the bytes that are committed. -/
theorem Own.tail {y : Shared n × Log n} (h : Own oid i x y) {w : Bytes}
    (ht : Tail oid (x.1.db.bytes oid) (x.1.writes i) w) :
    Tail oid (y.1.db.bytes oid) (y.1.writes i) w := by
  rw [h.writes]
  by_cases hw : x.1.writes i = []
  · rw [hw] at ht ⊢
    rw [ht.eq_nil]
    exact .nil _ _
  · rwa [h.bytes hw]

theorem Own.writing (hc₀ : c₀.length ≤ maxObjectSize) {y : Shared n × Log n} (h : Own oid i x y)
    (hy : Serialized posts db₀ oid c₀ y) {w : Bytes} (hw : Writing posts db₀ oid c₀ i w x) :
    Writing posts db₀ oid c₀ i w y := by
  refine ⟨hy, h.tail hw.tail, ?_, fun hne => ?_,
    fun he => (h.log _).mpr (hw.empty he), fun he => h.new (hw.new he)⟩
  · by_cases hnil : x.1.writes i = []
    · have htail := hw.tail
      rw [hnil] at htail
      simpa [htail.eq_nil] using length_bytes_le hc₀ hy
    · rw [h.bytes hnil]
      exact hw.fits
  · rw [h.writes] at hne
    rw [h.bytes hne]
    exact hw.past hne

/-- A free page at the end of the file: no other client has written. -/
theorem Serialized.sole (hx : Serialized posts db₀ oid c₀ x) {data : Bytes} (hd : data ≠ [])
    (hfree : x.1.holder i ⟨oid, (x.1.db.bytes oid).length, data⟩ = none) {j : Fin n} (hj : j ≠ i) :
    x.1.writes j = [] := by
  by_contra hne
  obtain ⟨w, hw⟩ := hx.tails j
  have hnone := List.find?_eq_none.mp hfree j (List.mem_finRange j)
  exact hnone (by simpa [hj] using hw.overlaps hne hd)

/-- The lock that a write at the cursor runs into. -/
theorem blocker_at {s : Shared n} {pos : ℕ} {ws : List Write} (hat : (s.conns i).At oid pos ws)
    {data : Bytes} (hfit : pos + data.length ≤ maxObjectSize) :
    s.blocker i (.loWrite 0 data) = s.holder i ⟨oid, pos, data⟩ := by
  obtain ⟨snapshot, hat⟩ := hat
  simp [Shared.blocker, hat, Tx.lowrite, Tx.find, bind, Except.bind, hfit]

/-- A write behind the client's own that meets no lock: nobody else has written. -/
theorem Writing.sole {w data : Bytes} (hx : Writing posts db₀ oid c₀ i w x) (hd : data ≠ [])
    {ws : List Write} (hat : (x.1.conns i).At oid (x.1.db.bytes oid ++ w).length ws)
    (hfit : (x.1.db.bytes oid ++ w).length + data.length ≤ maxObjectSize)
    (hblock : x.1.blocker i (.loWrite 0 data) = none) {j : Fin n} (hj : j ≠ i) :
    x.1.writes j = [] := by
  have hws : x.1.writes i = ws := hat.writes_eq
  by_cases hnil : ws = []
  · refine hx.inv.sole hd ?_ hj
    have htail := hx.tail
    rw [hws, hnil] at htail
    rw [htail.eq_nil, List.append_nil] at hfit hat
    rw [← blocker_at hat hfit]
    exact hblock
  · by_contra hne
    exact hj (hx.inv.single j i hne (hws ▸ hnil))

/-- The bytes that it leaves pending. -/
theorem Writing.written {w data : Bytes} (hx : Writing posts db₀ oid c₀ i w x) (hd : data ≠ [])
    (hbody : (posts i).body ≠ []) (hpast : (x.1.db.bytes oid).length < (posts i).writeOffset)
    (hfit : (x.1.db.bytes oid ++ w).length + data.length ≤ maxObjectSize)
    (others : ∀ j ≠ i, x.1.writes j = []) {t : Shared n} {conn : Conn} (hdb : t.db = x.1.db)
    (hc : t.conns = Function.update x.1.conns i conn)
    (hw : conn.writes = x.1.writes i ++ [⟨oid, (x.1.db.bytes oid ++ w).length, data⟩]) :
    (Serialized posts db₀ oid c₀ (t, x.2) ∧ x.1.db.bytes oid <+: t.db.bytes oid ∧
      ∀ j ≠ i, Own oid j x (t, x.2)) ∧ Writing posts db₀ oid c₀ i (w ++ data) (t, x.2) := by
  have htail : Tail oid (t.db.bytes oid) (t.writes i) (w ++ data) := by
    rw [Shared.writes_self hc, hw, hdb]
    exact hx.tail.write hd
  have sole : ∀ j, t.writes j ≠ [] → j = i := fun j hj => by
    by_contra hne
    exact hj ((Shared.writes_of_ne hc hne).trans (others j hne))
  have hinv : Serialized posts db₀ oid c₀ (t, x.2) := by
    refine ⟨hdb ▸ hx.inv.tables, hdb ▸ hx.inv.stored, hdb ▸ hx.inv.serial, hx.inv.clients,
      fun j => ?_, fun j k hj hk => (sole j hj).trans (sole k hk).symm⟩
    by_cases hj : j = i
    · subst hj
      exact ⟨_, htail⟩
    · rw [Shared.writes_of_ne hc hj, hdb]
      exact hx.inv.tails j
  refine ⟨⟨hinv, by rw [hdb], fun j hj => ?_⟩, hinv, htail, ?_, fun _ => hdb ▸ hpast,
    fun he => absurd he hbody, fun _ => hx.new hbody⟩
  · exact ⟨by rw [hc, Function.update_of_ne hj], fun _ => by rw [hdb], fun _ => Iff.rfl⟩
  · rw [hdb]
    simpa [Nat.add_assoc] using hfit

/-- The next write of a client that is at the end of the file. -/
theorem Writing.write {w data : Bytes} (hx : Writing posts db₀ oid c₀ i w x) (hh : HasHandle oid i x)
    (hd : data ≠ []) {t : Shared n} {a : Query.Reply (.loWrite 0 data)}
    (ht : x.1.serve i (.loWrite 0 data) = some (some a, t))
    (ho : Orderly posts oid i (.loWrite 0 data) x.1) (hbody : (posts i).body ≠ [])
    (hpart : (w ++ data).length ≤ (posts i).body.length) :
    ∃ log, (Serialized posts db₀ oid c₀ (t, log) ∧
        x.1.db.bytes oid <+: t.db.bytes oid ∧ ∀ j ≠ i, Own oid j x (t, log)) ∧
      ((a = .ok (some (data.length : ℤ)) ∧ Writing posts db₀ oid c₀ i (w ++ data) (t, log) ∧
          HasHandle oid i (t, log)) ∨
        ∃ e, a = .error e ∧ Failed posts db₀ oid c₀ i e (t, log)) := by
  have hnew := hx.new hbody
  obtain ⟨-, rfl, hdb, hc, -⟩ | ⟨conn, ⟨hfree, hblock⟩, hs, hc, -⟩ := Shared.serve_answered ht
  · have hstep := hx.inv.answered (.inl rfl) hdb hc (.inr rfl)
    exact ⟨x.2, hstep, .inr ⟨_, rfl, hstep.1, .inl ⟨rfl, hnew⟩⟩⟩
  obtain ⟨pos, ws, hat⟩ := hh
  obtain ⟨hcursor, hpast⟩ := ho hd hfree hblock
  rw [hat.cursor_eq, hx.tail.bytes] at hcursor
  subst hcursor
  rcases le_or_gt ((x.1.db.bytes oid ++ w).length + data.length) maxObjectSize with hfit | hbig
  · obtain ⟨conn', hs', hat'⟩ := hat.write (fun _ => false) x.1.db hd hfit rfl
    obtain ⟨rfl, hst⟩ := Prod.mk.inj (Option.some.inj (hs'.symm.trans hs))
    obtain ⟨hdb, rfl⟩ := Session.mk.inj hst
    have hws : x.1.writes i = ws := hat.writes_eq
    obtain ⟨hstep, hW⟩ := hx.written hd hbody hpast hfit (fun j => hx.sole hd hat hfit hblock)
      hdb.symm hc (hws ▸ hat'.writes_eq)
    exact ⟨x.2, hstep, .inl ⟨rfl, hW, _, _, by rw [hc, Function.update_self]; exact hat'⟩⟩
  · have hs' := hat.write_large (fun _ => false) x.1.db hbig
    obtain ⟨rfl, hst⟩ := Prod.mk.inj (Option.some.inj (hs'.symm.trans hs))
    obtain ⟨hdb, rfl⟩ := Session.mk.inj hst
    simp only [List.length_append] at hbig hpart
    have he : Enters posts oid i x (x.2 ++ [(i, .internalServerError)]) :=
      .inr ⟨hnew, _, rfl, appendAt_full hpast (by omega)⟩
    have hstep := hx.inv.answered he hdb.symm hc (.inr rfl)
    exact ⟨_, hstep,
      .inr ⟨_, rfl, hstep.1, .inr ⟨rfl, List.mem_append_right _ List.mem_cons_self⟩⟩⟩

/-- A statement that writes nothing leaves what has been written. -/
theorem Writing.still {w : Bytes} (hx : Writing posts db₀ oid c₀ i w x) {t : Shared n} {conn : Conn}
    (hd : t.db = x.1.db) (hc : t.conns i = conn) (hw : conn.writes = x.1.writes i)
    (ht : Serialized posts db₀ oid c₀ (t, x.2)) : Writing posts db₀ oid c₀ i w (t, x.2) := by
  have hwt : t.writes i = x.1.writes i := by
    rw [Shared.writes, hc]
    exact hw
  refine ⟨ht, ?_, hd ▸ hx.fits, fun hne => ?_, hx.empty, hx.new⟩
  · rw [hwt, hd]
    exact hx.tail
  · rw [hd]
    exact hx.past (hwt ▸ hne)

theorem writesOn_beside (hc₀ : c₀.length ≤ maxObjectSize) (db₀ : Db) (oid : Oid) (i : Fin n) :
    WritesOn ((terms posts db₀ oid c₀).contract.logic i) 0 (posts i).body
      (fun w x => Writing posts db₀ oid c₀ i w x ∧ HasHandle oid i x) (Failed posts db₀ oid c₀ i) := by
  rintro w data rest x hb ⟨hW, hh⟩
  have hlen := congrArg List.length hb
  rw [List.length_append] at hlen
  refine call_quiet hW.inv rfl fun y hy _ hown => ?_
  have hWy := hown.writing hc₀ hy hW
  obtain ⟨pos, ws, hat⟩ := hh
  rw [← hown.conn] at hat
  have htail := hWy.tail
  rw [show y.1.writes i = ws from hat.writes_eq] at htail
  obtain ⟨conn, hs, hat'⟩ := hat.seekEnd (fun _ => false) y.1.db (by
    rw [htail.bytes, List.length_append]
    exact hWy.fits)
  have hsame : conn.writes = y.1.writes i := hat'.writes_eq.trans hat.writes_eq.symm
  refine ⟨_, conn, y.2, hs, hsame, .inl rfl, fun t hd hc ht => ?_⟩
  have hWt := hWy.still hd hc hsame ht
  have hht : HasHandle oid i (t, y.2) := ⟨_, _, hc ▸ hat'⟩
  refine ⟨_, rfl, fun _ => ⟨hWt, hht⟩, fun hdata => ?_⟩
  refine Terms.call (T := terms posts db₀ oid c₀) ht fun z hz _ hown' hcond a u hu => ?_
  have hbody : (posts i).body ≠ [] := by
    rw [← hb]
    simp [hdata]
  have hhz : HasHandle oid i z := by
    rw [HasHandle, hown'.conn]
    exact hht
  exact (hown'.writing hc₀ hz hWt).write hhz hdata hu hcond.1 hbody (by omega)

/-- The bytes of a whole body are committed, and the request takes effect. -/
theorem Writing.publish (hx : Writing posts db₀ oid c₀ i (posts i).body x)
    (hbody : (posts i).body ≠ []) (hne : x.1.writes i ≠ []) {t : Shared n}
    (hdb : t.db = x.1.db.store oid (x.1.db.bytes oid ++ (posts i).body))
    (hc : t.conns = Function.update x.1.conns i .idle) :
    Serialized posts db₀ oid c₀ (t, x.2 ++ [(i, .ok)]) ∧ x.1.db.bytes oid <+: t.db.bytes oid ∧
      ∀ j ≠ i, Own oid j x (t, x.2 ++ [(i, .ok)]) := by
  have hnew := hx.new hbody
  have others : ∀ j, j ≠ i → x.1.writes j = [] := fun j hj => by
    by_contra hwj
    exact hj (hx.inv.single j i hwj hne)
  have hwrites : ∀ j, t.writes j = [] := fun j => by
    by_cases hj : j = i
    · subst hj
      exact Shared.writes_self hc
    · exact (Shared.writes_of_ne hc hj).trans (others j hj)
  have hbytes : t.db.bytes oid = x.1.db.bytes oid ++ (posts i).body := by
    rw [hdb, Db.bytes, Db.store_objects_self, Option.getD_some]
  have happly : (posts i).apply (x.1.db.bytes oid) = (.ok, x.1.db.bytes oid ++ (posts i).body) :=
    appendAt_past (hx.past hne) hx.fits
  refine ⟨⟨hdb ▸ hx.inv.tables, ?_, ?_, nodup_snoc hx.inv.clients hnew,
    fun j => ⟨[], hwrites j ▸ .nil _ _⟩, fun j k hj => absurd (hwrites j) hj⟩, ?_, fun j hj => ?_⟩
  · rw [hdb, Db.store_objects_self, Option.isSome_some]
  · rw [hbytes]
    exact hx.inv.serial.snoc happly
  · rw [hbytes]
    exact List.prefix_append _ _
  · exact ⟨by rw [hc, Function.update_of_ne hj], fun hwj => absurd (others j hj) hwj,
      fun a => by simp [hj]⟩

/-- The commit of a whole body. -/
theorem Writing.commit (hx : Writing posts db₀ oid c₀ i (posts i).body x) {ws : List Write}
    (hconn : x.1.conns i = .inTx ⟨none, ws⟩) (hfree : x.1.waits i = .free) {t : Shared n}
    {a : Query.Reply .commitTx} (ht : x.1.serve i .commitTx = some (some a, t)) :
    a = .ok () ∧ ∃ log, (Serialized posts db₀ oid c₀ (t, log) ∧
      x.1.db.bytes oid <+: t.db.bytes oid ∧ ∀ j ≠ i, Own oid j x (t, log)) ∧ (i, .ok) ∈ log := by
  obtain ⟨hlost, -⟩ | ⟨conn, -, hs, hc, -⟩ := Shared.serve_answered ht
  · rw [hfree] at hlost
    cases hlost
  have hws : x.1.writes i = ws := congrArg Conn.writes hconn
  obtain ⟨c, hobj⟩ := Option.isSome_iff_exists.mp hx.inv.stored
  have hbytes : x.1.db.bytes oid = c := Db.bytes_of_objects hobj
  have htail := hx.tail
  rw [hws, hbytes] at htail
  have hcommit := Db.commit_eq_store htail.own hobj none
  rw [htail.bytes] at hcommit
  have hserve : (Session.mk x.1.db (x.1.conns i)).serve (fun _ => false) .commitTx =
      some (.ok (), ⟨x.1.db.commit ⟨none, ws⟩, .idle⟩) := by
    rw [hconn]
    rfl
  rw [hcommit] at hserve
  obtain ⟨rfl, hst⟩ := Prod.mk.inj (Option.some.inj (hserve.symm.trans hs))
  obtain ⟨hdb, rfl⟩ := Session.mk.inj hst
  refine ⟨rfl, ?_⟩
  by_cases hbody : (posts i).body = []
  · rw [hbody, List.append_nil, Db.store_eq_self hobj] at hdb
    exact ⟨x.2, hx.inv.answered (.inl rfl) hdb.symm hc (.inr rfl), hx.empty hbody⟩
  · have hne : x.1.writes i ≠ [] := by
      rw [hws]
      rintro rfl
      exact hbody htail.eq_nil
    exact ⟨_, hx.publish hbody hne (by rw [← hdb, hbytes]) hc,
      List.mem_append_right _ List.mem_cons_self⟩

theorem commit_beside {id : FileId} (hc₀ : c₀.length ≤ maxObjectSize)
    (hx : Writing posts db₀ oid c₀ i (posts i).body x) (hh : HasHandle oid i x) :
    ((terms posts db₀ oid c₀).contract.logic i).wp (PostgresFileHandle.commit ⟨.ofFd 0, id⟩)
      (fun o y => o = .ok () ∧ Serialized posts db₀ oid c₀ y ∧ (i, .ok) ∈ y.2) x := by
  refine PostgresFileHandle.wp_commit (call_quiet hx.inv rfl fun y hy _ hown => ?_)
  obtain ⟨pos, ws, hat⟩ := hh
  rw [← hown.conn] at hat
  have hsame : (Conn.inTx ⟨none, ws⟩).writes = y.1.writes i := hat.writes_eq.symm
  refine ⟨_, _, y.2, hat.close (fun _ => false) y.1.db, hsame, .inl rfl, fun t hd hc ht => ?_⟩
  have hWt := (hown.writing hc₀ hy hx).still hd hc hsame ht
  refine ⟨⟨_, rfl⟩, Terms.call (T := terms posts db₀ oid c₀) ht fun z hz _ hown' hcond a u hu => ?_⟩
  obtain ⟨rfl, log, hlog, hin⟩ := (hown'.writing hc₀ hz hWt).commit (hown'.conn.trans hc)
    (hcond.2 rfl) hu
  exact ⟨log, hlog, rfl, rfl, hlog.1, hin⟩

/-- The client's outcome, and its entry. -/
def Done (posts : Fin n → Post) (db₀ : Db) (oid : Oid) (c₀ : Bytes) (i : Fin n)
    (o : Outcome ApiError Unit) (x : Shared n × Log n) : Prop :=
  Serialized posts db₀ oid c₀ x ∧ ((∃ a, (i, a) ∈ x.2 ∧ status o = some a) ∨
    o = .err (.internalError (writeError .writeConflict)) ∧ New i x)

/-- What follows a size test that the offset is past. -/
theorem upload_beside {id : FileId} (hc₀ : c₀.length ≤ maxObjectSize)
    (hx : Writing posts db₀ oid c₀ i [] x) (hh : HasHandle oid i x) :
    ((terms posts db₀ oid c₀).contract.logic i).wp (do
        (appendFrames ⟨.ofFd 0, id⟩ (frames (posts i).parts)).mapErr .internalError
        (PostgresFileHandle.commit ⟨.ofFd 0, id⟩).mapErr .internalError : DbProg ApiError Unit)
      (Done posts db₀ oid c₀ i) x := by
  refine Logic.wp_then (Logic.wp_mono ?_ (wp_appendFrames (writesOn_beside hc₀ db₀ oid i)
    (List.nil_append _) ⟨hx, hh⟩))
  rintro _ y (⟨rfl, hW, hh'⟩ | ⟨e, rfl, hF⟩)
  · refine (Logic.wp_mapErr ..).mpr (Logic.wp_mono ?_ (commit_beside hc₀ hW hh'))
    rintro _ z ⟨rfl, hz, hin⟩
    exact ⟨hz, .inl ⟨_, hin, rfl⟩⟩
  · obtain ⟨rfl, hn⟩ | ⟨rfl, hin⟩ := hF.answer
    · exact ⟨hF.inv, .inr ⟨rfl, hn⟩⟩
    · exact ⟨hF.inv, .inl ⟨_, hin, rfl⟩⟩

theorem post_beside {b : BucketRow} {f : FileRow} {bucketName filename : String}
    (hb : db₀.findBucket bucketName = some b) (hf : db₀.findFile b.id filename = some f)
    (hoid : f.blob = oid) (hc₀ : c₀.length ≤ maxObjectSize) (hx : Before posts db₀ oid c₀ i x) :
    ((terms posts db₀ oid c₀).contract.logic i).wp
      (postAppendFilename bucketName filename (posts i).writeOffset (frames (posts i).parts))
      (Done posts db₀ oid c₀ i) x := by
  refine Logic.wp_then (Logic.wp_mono ?_ (bucket_beside hb hx))
  rintro _ x₁ ⟨rfl, hx₁⟩
  refine Logic.wp_then (Logic.wp_mono ?_ (file_beside hf hoid hx₁))
  rintro _ x₂ ⟨rfl, hx₂, hn₂⟩
  refine Logic.wp_then (BlobHandle.wp_seekEnd (call_quiet hx₂.inv rfl fun y hy _ hown => ?_))
  have hconn : (y.1.conns i).At oid 0 [] := by
    rw [hown.conn]
    exact hx₂.conn
  have hlen := length_bytes_le hc₀ hy
  obtain ⟨conn, hs, hat⟩ := hconn.seekEnd (fun _ => false) y.1.db (by rwa [applyAll_nil])
  rw [applyAll_nil] at hs hat
  have hw : conn.writes = y.1.writes i := hat.writes_eq.trans hconn.writes_eq.symm
  have hn := hown.new hn₂
  by_cases ho : (posts i).writeOffset ≤ (y.1.db.bytes oid).length
  · refine ⟨_, conn, y.2, hs, hw, .inl rfl, fun t hd hc ht => ⟨_, rfl, ?_⟩⟩
    simp only [Outcome.mapErr, Logic.after_ok, if_pos ho]
    refine Logic.wp_then (Logic.wp_mono ?_ (check_beside hc₀ ⟨ht, hc ▸ hat⟩ hn (hd ▸ ho)))
    rintro _ z ⟨v, rfl, hz, hin⟩
    cases v with
    | isMatch => exact ⟨hz, .inl ⟨_, hin, rfl⟩⟩
    | lengthMismatch | dataMismatch => exact ⟨hz, .inl ⟨_, hin, rfl⟩⟩
  · by_cases hbody : (posts i).body = []
    · have he : Enters posts oid i y (y.2 ++ [(i, .ok)]) := by
        refine .inr ⟨hn, _, rfl, ?_⟩
        have hfit : (y.1.db.bytes oid).length + (posts i).body.length ≤ maxObjectSize := by
          simpa [hbody] using hlen
        have happly := appendAt_past (not_le.mp ho) hfit
        rwa [hbody, List.append_nil, ← hbody] at happly
      refine ⟨_, conn, _, hs, hw, he, fun t hd hc ht => ⟨_, rfl, ?_⟩⟩
      simp only [Outcome.mapErr, Logic.after_ok, if_neg ho]
      exact upload_beside hc₀ (.start hc₀ ht (hc ▸ hat)
        (fun _ => List.mem_append_right _ List.mem_cons_self) fun hne => absurd hbody hne)
        ⟨_, _, hc ▸ hat⟩
    · refine ⟨_, conn, y.2, hs, hw, .inl rfl, fun t hd hc ht => ⟨_, rfl, ?_⟩⟩
      simp only [Outcome.mapErr, Logic.after_ok, if_neg ho]
      exact upload_beside hc₀ (.start hc₀ ht (hc ▸ hat) (fun he => absurd he hbody) fun _ => hn)
        ⟨_, _, hc ▸ hat⟩

theorem request_beside {b : BucketRow} {f : FileRow} {bucketName filename : String}
    (hb : db₀.findBucket bucketName = some b) (hf : db₀.findFile b.id filename = some f)
    (hoid : f.blob = oid) (hc₀ : c₀.length ≤ maxObjectSize) (hx : Before posts db₀ oid c₀ i x) :
    ((terms posts db₀ oid c₀).contract.logic i).wp ((posts i).request bucketName filename).handler
      (fun o y => Serialized posts db₀ oid c₀ y ∧ Entered i o y) x := by
  refine (Logic.wp_bind ..).mpr (Logic.wp_mono ?_ (post_beside hb hf hoid hc₀ hx))
  rintro o y ⟨hy, hdone⟩
  cases o with
  | ok =>
    obtain ⟨a, hin, hs⟩ | ⟨ho, -⟩ := hdone
    · exact ⟨hy, .inl ⟨a, hin, hs⟩⟩
    · cases ho
  | err e =>
    obtain ⟨a, hin, hs⟩ | ⟨ho, hn⟩ := hdone
    · exact ⟨hy, .inl ⟨a, hin, hs⟩⟩
    · obtain rfl := Outcome.err.inj ho
      exact ⟨hy, .inr ⟨rfl, hn⟩⟩
  | panic | dropped =>
    obtain ⟨a, -, hs⟩ | ⟨ho, -⟩ := hdone
    · cases hs
    · cases ho

end Calls

section Order

variable {n : ℕ} {posts : Fin n → Post} {db : Db} {bucketName filename : String} {b : BucketRow}
  {f : FileRow}

/-- The requests of a log, sent one after another, get the answers of the log. -/
theorem serveAll_of_serial (h : db.Linked) (hb : db.findBucket bucketName = some b)
    (hf : db.findFile b.id filename = some f) {c d : Bytes} (hc : db.objects f.blob = some c)
    {log : Log n} (hs : Serial (fun i => (posts i).apply) c log d) :
    (serveAll db ((log.map Prod.fst).map fun i => (posts i).request bucketName filename)).1.map
        status = log.map (fun x => some x.2) ∧
      (serveAll db ((log.map Prod.fst).map fun i => (posts i).request bucketName filename)).2.content
        bucketName filename = some d := by
  induction hs generalizing db with
  | nil c => exact ⟨rfl, (Db.content_of_find hb hf).trans hc⟩
  | cons i rest ih =>
    rename_i c d log
    obtain ⟨ha, hdb⟩ : status (serveRequest db ((posts i).request bucketName filename)).1 =
        some ((posts i).apply c).1 ∧
        (serveRequest db ((posts i).request bucketName filename)).2 =
          db.store f.blob ((posts i).apply c).2 := by
      refine runAlone_of_wp (P := fun (o : Answer) db' => status o = some ((posts i).apply c).1 ∧
        db' = db.store f.blob ((posts i).apply c).2) ?_
      refine (Logic.wp_bind ..).mpr (Logic.wp_mono ?_ (post_alone h hb hf hc _ _))
      rintro r s ⟨hr, hs⟩
      cases r with
      | ok | err | panic | dropped => exact ⟨hr, hs⟩
    have hl := serveRequest_linked h ((posts i).request bucketName filename)
    rw [hdb] at hl
    obtain ⟨hrest, hd⟩ := ih hl hb hf (Db.store_objects_self _ _)
    simp only [List.map_cons, serveAll, hdb]
    exact ⟨by rw [ha, hrest], hd⟩

/-- Sent one after another, the requests of the clients in `order` leave the content that the
file has, and get the answers they have got; who is answered and not in it has met a
write conflict. -/
structure Serializes (posts : Fin n → Post) (bucketName filename : String) (db : Db) (p : Pool n)
    (order : List (Fin n)) : Prop where
  once : order.Nodup
  content : p.shared.db.content bucketName filename =
    (serveAll db (order.map fun i => (posts i).request bucketName filename)).2.content bucketName
      filename
  answers : ∀ i o, answer p i = some o →
    (i, status o) ∈ order.zip
        ((serveAll db (order.map fun i => (posts i).request bucketName filename)).1.map status) ∨
      o = .err (.internalError (writeError .writeConflict)) ∧ i ∉ order

theorem serializes_of_holds (h : db.Linked) (hb : db.findBucket bucketName = some b)
    (hf : db.findFile b.id filename = some f) {c : Bytes} (hc : db.objects f.blob = some c)
    {p : Pool n} {log : Log n} (hx : Serialized posts db f.blob c (p.shared, log))
    (hp : (terms posts db f.blob c).contract.Holds p log) :
    Serializes posts bucketName filename db p (log.map Prod.fst) := by
  obtain ⟨hanswers, hcontent⟩ := serveAll_of_serial h hb hf hc hx.serial
  refine ⟨hx.clients, ?_, fun i o ho => ?_⟩
  · have hb' : p.shared.db.findBucket bucketName = some b := by
      rw [Db.findBucket, hx.tables.1]
      exact hb
    have hf' : p.shared.db.findFile b.id filename = some f := by
      rw [Db.findFile, hx.tables.2]
      exact hf
    obtain ⟨d, hd⟩ := Option.isSome_iff_exists.mp hx.stored
    rw [hcontent, Db.content_of_find hb' hf', hd, Db.bytes_of_objects hd]
  · rw [hanswers, List.zip_map']
    obtain ⟨-, ⟨a, ha, hs⟩ | ⟨rfl, hn⟩⟩ := (terms posts db f.blob c).contract.post_of_ended hp ho
    · exact .inl (List.mem_map.mpr ⟨(i, a), ha, by rw [hs]⟩)
    · refine .inr ⟨rfl, fun hm => ?_⟩
      obtain ⟨⟨j, a⟩, ha, rfl⟩ := List.mem_map.mp hm
      exact hn a ha

/-- No statement has been sent. -/
theorem serialized_start (posts : Fin n → Post) {oid : Oid} {c : Bytes}
    (hc : db.objects oid = some c) : Serialized posts db oid c (Shared.start n db, []) := by
  refine ⟨⟨rfl, rfl⟩, ?_, ?_, List.nodup_nil, fun i => ⟨[], .nil _ _⟩, fun i j hi => absurd rfl hi⟩
  · show (db.objects oid).isSome
    rw [hc, Option.isSome_some]
  · show Serial _ c [] (db.bytes oid)
    rw [Db.bytes_of_objects hc]
    exact .nil c

/-- As long as every write goes to the end of the file, and that has not passed the client's offset,
appends beside each other are appends one after another, and no byte of the file is lost. -/
theorem appends_serializable (h : db.Linked) (hb : db.findBucket bucketName = some b)
    (hf : db.findFile b.id filename = some f) (posts : Fin n → Post)
    {as bs : List (Action n Timestamp)} {p p' : Pool n}
    (orderly : (machine n).Meets (Orderly posts f.blob) (as ++ bs)
      (Pool.start db fun i => (posts i).request bucketName filename))
    (hp : (machine n).run as (Pool.start db fun i => (posts i).request bucketName filename) = some p)
    (hp' : (machine n).run bs p = some p') :
    (∃ order, Serializes posts bucketName filename db p order) ∧
      (∃ order, Serializes posts bucketName filename db p' order) ∧
      ∃ c c', p.shared.db.content bucketName filename = some c ∧
        p'.shared.db.content bucketName filename = some c' ∧ c <+: c' := by
  obtain ⟨c, hc⟩ := h.objects_of_find hf
  have waits : WaitsAtWrite (Pool.start db fun i => (posts i).request bucketName filename) :=
    fun i hi => absurd rfl hi
  obtain ⟨m, m'⟩ := (machine n).meets_append (meets_waiting waits orderly) hp
  have start : (terms posts db f.blob c).inv
      ((Pool.start db fun i => (posts i).request bucketName filename).shared, []) :=
    serialized_start posts hc
  obtain ⟨log, hx, -, hh⟩ := Terms.run_holds (T := terms posts db f.blob c) start
    (fun i => request_beside hb hf rfl (h.sizes _ _ hc) ⟨start, rfl, fun a ha => by cases ha⟩) m hp
  obtain ⟨log', hx', hgrows, hh'⟩ := Terms.run_holds (T := terms posts db f.blob c) hx hh m' hp'
  have hs := serializes_of_holds h hb hf hc hx hh
  have hs' := serializes_of_holds h hb hf hc hx' hh'
  refine ⟨⟨_, hs⟩, ⟨_, hs'⟩, _, _, ?_, ?_, hgrows⟩
  · rw [hs.content, (serveAll_of_serial h hb hf hc hx.serial).2]
  · rw [hs'.content, (serveAll_of_serial h hb hf hc hx'.serial).2]

end Order

/-- A file of three bytes in one bucket. -/
def threeBytes : Db :=
  (serveRequest (.created 0 "bucket" none) (.put "bucket" "meow" (frames [[109, 101, 111]]) 0)).2

/-- Two appends past its end. -/
def twoAppends : Fin 2 → Post
  | 0 => ⟨4, [[119]]⟩
  | 1 => ⟨4, [[33]]⟩

def appendsStart : Pool 2 := Pool.start threeBytes fun i => (twoAppends i).request "bucket" "meow"

/-- Each client's next statement is its first write. -/
def bothAtEnd : List (Action 2 Timestamp) :=
  List.replicate 6 (.step client0) ++ List.replicate 6 (.step client1)

/-- The second client's write waits for the first client's transaction, and is refused. -/
def waiting : List (Action 2 Timestamp) := bothAtEnd ++ [.step client0, .step client1]

def refused : List (Action 2 Timestamp) := [.step client0, .step client0, .step client1]

/-- The first client commits before the second writes. -/
def firstCommits : List (Action 2 Timestamp) := bothAtEnd ++ List.replicate 3 (.step client0)

def overwriting : List (Action 2 Timestamp) := List.replicate 3 (.step client1)

theorem waiting_runs : ((machine 2).run waiting appendsStart).isSome := by decide +kernel

def waited : Pool 2 := ((machine 2).run waiting appendsStart).get waiting_runs

theorem refused_runs : ((machine 2).run refused waited).isSome := by decide +kernel

theorem firstCommits_runs : ((machine 2).run firstCommits appendsStart).isSome := by decide +kernel

def committed : Pool 2 := ((machine 2).run firstCommits appendsStart).get firstCommits_runs

theorem overwriting_runs : ((machine 2).run overwriting committed).isSome := by decide +kernel

def overwritten : Pool 2 := ((machine 2).run overwriting committed).get overwriting_runs

/-- Both appends are acknowledged, and the second has overwritten the first. -/
theorem append_overwritten :
    (machine 2).run firstCommits appendsStart = some committed ∧
      (machine 2).run overwriting committed = some overwritten ∧
      (answer overwritten 0).map status = some (some .ok) ∧
      (answer overwritten 1).map status = some (some .ok) ∧
      committed.shared.db.content "bucket" "meow" = some [109, 101, 111, 119] ∧
      overwritten.shared.db.content "bucket" "meow" = some [109, 101, 111, 33] ∧
      ∀ order, ¬ Serializes twoAppends "bucket" "meow" threeBytes overwritten order := by
  have alone : ∀ order ∈ orders, ∃ i : Fin 2, (i, some StatusCode.ok) ∉
      order.zip ((serveAll threeBytes
        (order.map fun i => (twoAppends i).request "bucket" "meow")).1.map status) := by
    decide +kernel
  have oks : ∀ i, (answer overwritten i).map status = some (some .ok) := by decide +kernel
  refine ⟨(Option.some_get _).symm, (Option.some_get _).symm, oks 0, oks 1, by decide +kernel,
    by decide +kernel, fun order h => ?_⟩
  obtain ⟨i, hi⟩ := alone order (mem_orders h.once)
  obtain ⟨o, ho, hs⟩ := Option.map_eq_some_iff.mp (oks i)
  obtain hz | ⟨rfl, -⟩ := h.answers i o ho
  · rw [hs] at hz
    exact hi hz
  · cases hs

theorem appends_serializable_meow :
    (∃ order, Serializes twoAppends "bucket" "meow" threeBytes waited order) ∧
      (∃ order, Serializes twoAppends "bucket" "meow" threeBytes
        (((machine 2).run refused waited).get refused_runs) order) ∧
      ∃ c c', waited.shared.db.content "bucket" "meow" = some c ∧
        (((machine 2).run refused waited).get refused_runs).shared.db.content "bucket" "meow" =
          some c' ∧ c <+: c' :=
  appends_serializable (b := ⟨⟨0⟩, "bucket", none⟩) (f := ⟨⟨1⟩, ⟨0⟩, "meow", 16384, none, 0⟩)
    (serveRequest_linked (Db.linked_created 0 "bucket" none) _) (by decide +kernel)
    (by decide +kernel) twoAppends (by decide +kernel) (Option.some_get _).symm
    (Option.some_get _).symm

end LocallyEuclidean.Server
