import LocallyEuclidean.Server.Streams

/-! What the service is for: a store of named byte strings in buckets, each with the
deadline that its bucket gave it and the time of its making. Everything the program can
be asked to do is one step of it. -/

namespace LocallyEuclidean.Server
open Postgres Storage

structure Entry where
  content : Bytes
  deadline : Option Timestamp
  updatedAt : Timestamp

/-- The entry with these bodies behind. -/
def Entry.extended (e : Entry) (ws : List Bytes) : Entry :=
  { e with content := e.content ++ ws.flatten }

@[simp] theorem Entry.extended_nil (e : Entry) : e.extended [] = e := by simp [Entry.extended]

theorem Entry.extended_append (e : Entry) (ws ws' : List Bytes) :
    e.extended (ws ++ ws') = (e.extended ws).extended ws' := by
  simp [Entry.extended]

def Entry.Expired (e : Entry) (now : Timestamp) : Prop := ∃ t, e.deadline = some t ∧ t < now

@[ext]
structure Depot where
  /-- In the order of their making, each with its TTL. -/
  buckets : List (String × Option TimeDelta)
  entries : String → String → Option Entry
  clock : Timestamp

/-- How the making of a bucket ends. -/
inductive BucketMade where
  | made
  | taken
  | refused
  deriving DecidableEq, Repr

/-- What a caller sees; no status if the connection is cut. -/
inductive Reply where
  | answered (code : Option StatusCode) (response : Option Response)
  | bucket (outcome : BucketMade)
  | names (names : List String)
  | done
  | failed
  deriving DecidableEq, Repr

inductive Act where
  | createBucket (name : String) (defaultTtl : Option TimeDelta)
  | listBuckets (order : BucketId → ℕ)
  | request (r : Request)
  | buck2Log (filename : String) (rooms : List ℕ+)
  | deleteOld (tie : FileId → ℕ)
  | tick (now : Timestamp)

/-- The bucket and the file that a request names. -/
def Request.name : Request → String × String
  | .put b f _ _ => (b, f)
  | .post b f _ _ => (b, f)
  | .get b f _ => (b, f)

def Request.writes : Request → Bool
  | .get _ _ _ => false
  | _ => true

/-- The clock behind the acts. -/
def clockAfter (now : Timestamp) (acts : List Act) : Timestamp :=
  acts.foldl (fun now act => match act with | .tick later => later | _ => now) now

/-- The body that the act may append to this name. -/
def Act.appends (bucket filename : String) : Act → List Bytes
  | .request (.post b f _ body) => if b = bucket ∧ f = filename then [received body] else []
  | _ => []

namespace Depot

variable (d : Depot)

/-- The TTL of the bucket, where there is one. -/
def ttl (name : String) : Option (Option TimeDelta) :=
  (d.buckets.find? fun b => b.1 = name).map Prod.snd

def set (bucket filename : String) (e : Entry) : Depot :=
  { d with entries := fun b f => if b = bucket ∧ f = filename then some e else d.entries b f }

/-- A TTL that Postgres would not hold exactly is refused. -/
def createBucket (name : String) (defaultTtl : Option TimeDelta) : BucketMade × Depot :=
  if defaultTtl.any fun ttl => (Interval.ofTimeDelta ttl).isNone then (.refused, d)
  else if (d.ttl name).isSome then (.taken, d)
  else (.made, { d with buckets := d.buckets ++ [(name, defaultTtl)] })

/-- `none` past chrono's dates. -/
def deadline (ttl : Option TimeDelta) (now : DateTime) : Option (Option Timestamp) :=
  match ttl with
  | none => some none
  | some ttl => (now.add ttl).map fun t => some t.toTimestamp

/-- The first upload makes the entry before its body has come, so that a body that fails
leaves it empty; a later one only compares. -/
def put (bucket filename : String) (body : DataStream) (now : DateTime) :
    Option StatusCode × Depot :=
  match d.ttl bucket with
  | none => (some .notFound, d)
  | some ttl =>
    match deadline ttl now with
    | none => (none, d)
    | some deadline =>
      if deadline.any (· < minTimestamp) then (some .internalServerError, d)
      else
        match d.entries bucket filename with
        | some e => (some (comparedWith e.content body), d)
        | none =>
          if cutShort body ∨ maxObjectSize < (received body).length then
            (some .internalServerError, d.set bucket filename ⟨[], deadline, d.clock⟩)
          else (some .ok, d.set bucket filename ⟨received body, deadline, d.clock⟩)

/-- Up to the end of the content an offset is compared, past it the body is appended. -/
def post (bucket filename : String) (writeOffset : ℕ) (body : DataStream) : StatusCode × Depot :=
  match d.ttl bucket, d.entries bucket filename with
  | some _, some e =>
    if writeOffset ≤ e.content.length then (comparedWith (e.content.drop writeOffset) body, d)
    else if cutShort body ∨ maxObjectSize < e.content.length + (received body).length then
      (.internalServerError, d)
    else (.ok, d.set bucket filename { e with content := e.content ++ received body })
  | _, _ => (.notFound, d)

def get (bucket filename : String) (rooms : List ℕ+) : StatusCode × Option Response :=
  match d.ttl bucket, d.entries bucket filename with
  | some _, some e =>
    (.ok, some ⟨e.content.length, "application/octet-stream", e.updatedAt,
      (download e.content 0 rooms).1, (download e.content 0 rooms).2⟩)
  | _, _ => (.notFound, none)

def serve : Request → Reply × Depot
  | .put b f body now => (.answered (d.put b f body now).1 none, (d.put b f body now).2)
  | .post b f writeOffset body =>
    (.answered (some (d.post b f writeOffset body).1) none, (d.post b f writeOffset body).2)
  | .get b f rooms => (.answered (some (d.get b f rooms).1) (d.get b f rooms).2, d)

def expiredKeys : Set (String × String) :=
  { k | ∃ e, d.entries k.1 k.2 = some e ∧ e.Expired d.clock }

/-- The names that are in `d` and no longer in `d'`. -/
def removedKeys (d' : Depot) : Set (String × String) :=
  { k | (d.entries k.1 k.2).isSome ∧ d'.entries k.1 k.2 = none }

/-- A batch takes the oldest of what has expired, up to its limit. -/
structure Swept (d' : Depot) : Prop where
  buckets : d'.buckets = d.buckets
  clock : d'.clock = d.clock
  kept : ∀ b f, d'.entries b f = d.entries b f ∨ d'.entries b f = none
  expired : d.removedKeys d' ⊆ d.expiredKeys
  oldest : ∀ b f e b' f' e', d.entries b f = some e → d'.entries b f = none →
    d'.entries b' f' = some e' → e'.Expired d.clock → ∀ s t, e.deadline = some s →
      e'.deadline = some t → s ≤ t
  count : (d.removedKeys d').ncard = min d.expiredKeys.ncard 1000

def Step : Act → Reply → Depot → Prop
  | .createBucket name ttl, reply, d' =>
    reply = .bucket (d.createBucket name ttl).1 ∧ d' = (d.createBucket name ttl).2
  | .listBuckets _, reply, d' =>
    (∃ names, names.Perm (d.buckets.map Prod.fst) ∧ reply = .names names) ∧ d' = d
  | .request r, reply, d' => reply = (d.serve r).1 ∧ d' = (d.serve r).2
  | .buck2Log filename rooms, reply, d' =>
    reply = (d.serve (.get "buck2_logs" ("flat/" ++ filename ++ ".pb.zst") rooms)).1 ∧ d' = d
  | .deleteOld _, reply, d' => reply = .done ∧ d.Swept d'
  | .tick now, reply, d' => reply = .done ∧ d' = { d with clock := now }

def Runs : Depot → List Act → List Reply → Depot → Prop
  | d, [], [], d' => d' = d
  | d, act :: acts, reply :: replies, d' => ∃ d₁, d.Step act reply d₁ ∧ Runs d₁ acts replies d'
  | _, _, _, _ => False

/-! Uploads by their cases. -/

section Put

variable {d : Depot} {bucket : String} {ttl : Option TimeDelta} {now : DateTime}
  {due : Option Timestamp} (filename : String) (body : DataStream)

theorem put_no_bucket (ht : d.ttl bucket = none) (now : DateTime) :
    d.put bucket filename body now = (some .notFound, d) := by
  simp [put, ht]

theorem put_undated (ht : d.ttl bucket = some ttl) (hd : deadline ttl now = none) :
    d.put bucket filename body now = (none, d) := by
  simp [put, ht, hd]

variable (ht : d.ttl bucket = some ttl) (hd : deadline ttl now = some due)
include ht hd

theorem put_early (he : due.any (· < minTimestamp) = true) :
    d.put bucket filename body now = (some .internalServerError, d) := by
  simp [put, ht, hd, he]

variable (hn : due.any (· < minTimestamp) = false) {filename body}
include hn

theorem put_present {e : Entry} (he : d.entries bucket filename = some e) :
    d.put bucket filename body now = (some (comparedWith e.content body), d) := by
  simp only [put, ht, hd, hn, he, Bool.false_eq_true, if_false]

theorem put_absent (he : d.entries bucket filename = none) :
    d.put bucket filename body now =
      if cutShort body ∨ maxObjectSize < (received body).length then
        (some .internalServerError, d.set bucket filename ⟨[], due, d.clock⟩)
      else (some .ok, d.set bucket filename ⟨received body, due, d.clock⟩) := by
  simp only [put, ht, hd, hn, he, Bool.false_eq_true, if_false]

end Put

section Lookup

variable {d : Depot} {bucket filename : String}

theorem post_no_bucket (ht : d.ttl bucket = none) {writeOffset : ℕ} {body : DataStream} :
    d.post bucket filename writeOffset body = (.notFound, d) := by
  simp [post, ht]

theorem post_absent (he : d.entries bucket filename = none) {writeOffset : ℕ} {body : DataStream} :
    d.post bucket filename writeOffset body = (.notFound, d) := by
  simp [post, he]

theorem get_no_bucket (ht : d.ttl bucket = none) {rooms : List ℕ+} :
    d.get bucket filename rooms = (.notFound, none) := by
  simp [get, ht]

theorem get_absent (he : d.entries bucket filename = none) {rooms : List ℕ+} :
    d.get bucket filename rooms = (.notFound, none) := by
  simp [get, he]

variable {ttl : Option TimeDelta} {e : Entry} (ht : d.ttl bucket = some ttl)
  (he : d.entries bucket filename = some e)
include ht he

theorem post_present {writeOffset : ℕ} {body : DataStream} :
    d.post bucket filename writeOffset body =
      if writeOffset ≤ e.content.length then (comparedWith (e.content.drop writeOffset) body, d)
      else if cutShort body ∨ maxObjectSize < e.content.length + (received body).length then
        (.internalServerError, d)
      else (.ok, d.set bucket filename { e with content := e.content ++ received body }) := by
  simp only [post, ht, he]

theorem get_present {rooms : List ℕ+} :
    d.get bucket filename rooms =
      (.ok, some ⟨e.content.length, "application/octet-stream", e.updatedAt,
        (download e.content 0 rooms).1, (download e.content 0 rooms).2⟩) := by
  simp only [get, ht, he]

end Lookup

/-! What a step and a run do to one entry. -/

section Entry

variable {d d' : Depot} {bucket filename : String} {e : Entry}

theorem set_entries (d : Depot) (bucket filename : String) (e : Entry) (b f : String) :
    (d.set bucket filename e).entries b f =
      if b = bucket ∧ f = filename then some e else d.entries b f := rfl

theorem set_entries_of_ne {b f : String} (h : ¬ (bucket = b ∧ filename = f)) (e : Entry) :
    (d.set b f e).entries bucket filename = d.entries bucket filename := by
  rw [set_entries, if_neg h]

/-! A request sets the entry that it names, or none. -/

theorem put_shape (d : Depot) (b f : String) (body : DataStream) (now : DateTime) :
    (d.put b f body now).2 = d ∨ ∃ e, (d.put b f body now).2 = d.set b f e := by
  unfold put
  split
  · exact .inl rfl
  · split
    · exact .inl rfl
    · split
      · exact .inl rfl
      · split
        · exact .inl rfl
        · split <;> exact .inr ⟨_, rfl⟩

theorem post_shape (d : Depot) (b f : String) (writeOffset : ℕ) (body : DataStream) :
    (d.post b f writeOffset body).2 = d ∨ ∃ e, (d.post b f writeOffset body).2 = d.set b f e := by
  unfold post
  split
  · split
    · exact .inl rfl
    · split
      · exact .inl rfl
      · exact .inr ⟨_, rfl⟩
  · exact .inl rfl

theorem serve_shape (d : Depot) (r : Request) :
    (d.serve r).2 = d ∨ ∃ e, (d.serve r).2 = d.set r.name.1 r.name.2 e := by
  cases r with
  | put b f body now => exact put_shape d b f body now
  | post b f writeOffset body => exact post_shape d b f writeOffset body
  | get b f rooms => exact .inl rfl

theorem serve_buckets (d : Depot) (r : Request) : (d.serve r).2.buckets = d.buckets := by
  obtain h | ⟨e, h⟩ := d.serve_shape r <;> rw [h]
  rfl

theorem serve_clock (d : Depot) (r : Request) : (d.serve r).2.clock = d.clock := by
  obtain h | ⟨e, h⟩ := d.serve_shape r <;> rw [h]
  rfl

/-- No answer tells the time. -/
theorem serve_reply (d : Depot) (r : Request) (now : Timestamp) :
    (({ d with clock := now } : Depot).serve r).1 = (d.serve r).1 := by
  cases r with
  | put b f body sent =>
    simp only [serve, put, show ({ d with clock := now } : Depot).ttl b = d.ttl b from rfl]
    split
    · rfl
    · split
      · rfl
      · split
        · rfl
        · split
          · rfl
          · split <;> rfl
  | post b f writeOffset body =>
    simp only [serve, post, show ({ d with clock := now } : Depot).ttl b = d.ttl b from rfl]
    split
    · split
      · rfl
      · split <;> rfl
    · rfl
  | get b f rooms => rfl

theorem serve_entries_of_ne (d : Depot) (r : Request) {k : String × String} (hk : k ≠ r.name) :
    (d.serve r).2.entries k.1 k.2 = d.entries k.1 k.2 := by
  obtain h | ⟨e, h⟩ := d.serve_shape r <;> rw [h]
  exact set_entries_of_ne (fun he => hk (Prod.ext he.1 he.2)) e

/-- No upload touches an entry that is there. -/
theorem put_entries (b f : String) (body : DataStream) (now : DateTime)
    (he : d.entries bucket filename = some e) :
    (d.put b f body now).2.entries bucket filename = some e := by
  unfold put
  split
  · exact he
  · split
    · exact he
    · split
      · exact he
      · split
        · exact he
        · rename_i habsent
          have hne : ¬ (bucket = b ∧ filename = f) := by
            rintro ⟨rfl, rfl⟩
            cases he.symm.trans habsent
          split <;> simpa only [set_entries_of_ne hne] using he

theorem post_entries (b f : String) (writeOffset : ℕ) (body : DataStream)
    (he : d.entries bucket filename = some e) :
    (d.post b f writeOffset body).2.entries bucket filename = some e ∨
      (b = bucket ∧ f = filename ∧ (d.post b f writeOffset body).2.entries bucket filename =
        some { e with content := e.content ++ received body }) := by
  unfold post
  split
  · rename_i e₀ _ h₀
    split
    · exact .inl he
    · split
      · exact .inl he
      · by_cases hk : bucket = b ∧ filename = f
        · obtain ⟨rfl, rfl⟩ := hk
          obtain rfl := Option.some.inj (h₀.symm.trans he)
          exact .inr ⟨rfl, rfl, if_pos ⟨rfl, rfl⟩⟩
        · simp only [set_entries_of_ne hk]
          exact .inl he
  · exact .inl he

/-- Only a tick moves the clock. -/
theorem Step.clock {act : Act} {reply : Reply} (h : d.Step act reply d') :
    d'.clock = clockAfter d.clock [act] := by
  cases act with
  | createBucket name ttl =>
    obtain ⟨-, rfl⟩ := h
    unfold createBucket
    split
    · rfl
    · split <;> rfl
  | listBuckets | buck2Log | tick =>
    obtain ⟨-, rfl⟩ := h
    rfl
  | request r =>
    obtain ⟨-, rfl⟩ := h
    exact serve_clock d r
  | deleteOld tie => exact h.2.clock

/-- An entry stays as it is, or is extended by an append to it, or goes to a batch behind its
deadline. -/
theorem Step.lasts {act : Act} {reply : Reply} (h : d.Step act reply d')
    (he : d.entries bucket filename = some e) :
    (∃ ws : List Bytes, ws.Sublist (act.appends bucket filename) ∧
        d'.entries bucket filename = some (e.extended ws)) ∨
      ((∃ tie, act = .deleteOld tie) ∧ e.Expired d.clock) := by
  have same (hd : d'.entries bucket filename = some e) : ∃ ws : List Bytes,
      ws.Sublist (act.appends bucket filename) ∧
        d'.entries bucket filename = some (e.extended ws) :=
    ⟨[], List.nil_sublist _, by rw [hd, Entry.extended_nil]⟩
  cases act with
  | createBucket name ttl =>
    obtain ⟨-, rfl⟩ := h
    refine .inl (same ?_)
    unfold createBucket
    split
    · exact he
    · split <;> exact he
  | listBuckets | buck2Log | tick =>
    obtain ⟨-, rfl⟩ := h
    exact .inl (same he)
  | request r =>
    obtain ⟨-, rfl⟩ := h
    cases r with
    | put b f body now => exact .inl (same (put_entries b f body now he))
    | post b f writeOffset body =>
      obtain hk | ⟨rfl, rfl, hw⟩ := post_entries b f writeOffset body he
      · exact .inl (same hk)
      · refine .inl ⟨[received body], by simp [Act.appends], hw.trans ?_⟩
        simp [Entry.extended]
    | get b f rooms => exact .inl (same he)
  | deleteOld tie =>
    obtain ⟨-, hs⟩ := h
    obtain hk | hk := hs.kept bucket filename
    · exact .inl (same (hk.trans he))
    · obtain ⟨e', he', hexp⟩ := hs.expired (show (bucket, filename) ∈ d.removedKeys d' from
        ⟨by simp [he], hk⟩)
      obtain rfl := Option.some.inj (he.symm.trans he')
      exact .inr ⟨⟨tie, rfl⟩, hexp⟩

theorem comparedWith_ok {t : Bytes} {stream : DataStream} (h : comparedWith t stream = .ok) :
    t = received stream := by
  unfold comparedWith at h
  split at h
  · split at h
    · cases h
    · split at h
      · assumption
      · cases h
  · cases h

/-- Behind an acknowledged upload the entry holds what its stream has yielded. -/
theorem put_acknowledged {body : DataStream} {now : DateTime}
    (h : (d.put bucket filename body now).1 = some .ok) :
    ∃ e, (d.put bucket filename body now).2.entries bucket filename = some e ∧
      e.content = received body := by
  cases ht : d.ttl bucket with
  | none =>
    rw [put_no_bucket _ _ ht] at h
    cases h
  | some ttl =>
    cases hd : deadline ttl now with
    | none =>
      rw [put_undated _ _ ht hd] at h
      cases h
    | some due =>
      cases hn : due.any (· < minTimestamp) with
      | true =>
        rw [put_early _ _ ht hd hn] at h
        cases h
      | false =>
        cases he : d.entries bucket filename with
        | some e =>
          rw [put_present ht hd hn he] at h ⊢
          exact ⟨e, he, comparedWith_ok (Option.some.inj h)⟩
        | none =>
          rw [put_absent ht hd hn he] at h ⊢
          split at h
          · cases h
          · rename_i hgood
            rw [if_neg hgood]
            exact ⟨_, if_pos ⟨rfl, rfl⟩, rfl⟩

end Entry

end Depot

end LocallyEuclidean.Server
