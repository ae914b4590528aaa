import LocallyEuclidean.Interact.Serial
import LocallyEuclidean.Server.Sequential

/-! Uploads and downloads of one file, as they are answered one after another. -/

namespace LocallyEuclidean.Server
open Interact Postgres Storage

/-- A PUT or GET of the file. -/
inductive Access where
  | put (parts : List Bytes) (now : DateTime)
  | get (rooms : List ℕ+)

namespace Access

def op (bucketName filename : String) : Access → Op
  | .put parts now => .put bucketName filename parts now
  | .get rooms => .get bucketName filename rooms

def request (bucketName filename : String) (x : Access) : Request :=
  (x.op bucketName filename).request

/-- What it uploads. -/
def body : Access → Bytes
  | .put parts _ => parts.flatten
  | .get _ => []

/-- An upload whose body differs from `c`, and from an empty file. -/
def Unlike (c : Bytes) : Access → Prop
  | .put parts _ => parts.flatten ≠ [] ∧ parts.flatten ≠ c
  | .get _ => False

instance (c : Bytes) : (x : Access) → Decidable (x.Unlike c)
  | .put _ _ => inferInstanceAs (Decidable (_ ∧ _))
  | .get _ => inferInstanceAs (Decidable False)

/-- What it does to an archive when it runs alone. -/
def apply (bucketName filename : String) (x : Access) (a : Archive UInt8) : Seen × Archive UInt8 :=
  ((x.op bucketName filename).cut (a.serve (x.op bucketName filename)).1,
    (a.serve (x.op bucketName filename)).2)

section Apply

variable {bucketName filename : String} {a : Archive UInt8}

theorem apply_of_no_bucket (hb : a.buckets bucketName = false) (x : Access) :
    x.apply bucketName filename a = ((.notFound, none), a) := by
  cases x <;> simp [apply, op, Archive.serve, Archive.put, Archive.get, Op.cut, hb]

variable (hb : a.buckets bucketName = true)
include hb

theorem apply_put_absent (hf : a.files bucketName filename = none) (parts : List Bytes)
    (now : DateTime) : (put parts now).apply bucketName filename a =
      ((.ok, none), a.store bucketName filename parts.flatten) := by
  simp only [apply, op, Archive.serve, Archive.put_absent hb hf, Op.cut]

theorem apply_put_present {c : Bytes} (hf : a.files bucketName filename = some c)
    (parts : List Bytes) (now : DateTime) : (put parts now).apply bucketName filename a =
      ((if c = parts.flatten then .ok else .conflict, none), a) := by
  simp only [apply, op, Archive.serve, Archive.put_present hb hf, Op.cut]

theorem apply_get_absent (hf : a.files bucketName filename = none) (rooms : List ℕ+) :
    (get rooms).apply bucketName filename a = ((.notFound, none), a) := by
  simp only [apply, op, Archive.serve, Archive.get_absent hb hf, Op.cut, Option.map_none]

theorem apply_get_present {c : Bytes} (hf : a.files bucketName filename = some c)
    (rooms : List ℕ+) : (get rooms).apply bucketName filename a =
      ((.ok, some (c.length, download c 0 rooms)), a) := by
  simp only [apply, op, Archive.serve, Archive.get_present hb hf, Op.cut, Option.map_some]

end Apply

end Access

/-- What a download of the content `c` answers. -/
def downloaded (c : Bytes) (rooms : List ℕ+) : Seen := (.ok, some (c.length, download c 0 rooms))

/-- How an upload of `d` compares with the bytes `c`. -/
def compared (c d : Bytes) : Seen := (if c = d then .ok else .conflict, none)

def Access.IsPut (x : Access) : Prop := ∃ parts now, x = .put parts now

/-- The answer of an access that finds the content `c`. -/
def Access.against (c : Bytes) : Access → Seen
  | .put parts _ => compared c parts.flatten
  | .get rooms => downloaded c rooms

theorem Access.IsPut.against {x : Access} (hx : x.IsPut) (c : Bytes) :
    x.against c = compared c x.body := by
  obtain ⟨parts, now, rfl⟩ := hx
  rfl

theorem eq_of_compared_ok {c d : Bytes} (h : (compared c d).1 = .ok) : c = d := by
  by_contra hne
  rw [compared, if_neg hne] at h
  cases h

/-! What the answers of a serial order are. -/

section Order

variable {n : ℕ} {accesses : Fin n → Access} {bucketName filename : String}

variable {a a' : Archive UInt8} {log : List (Fin n × Seen)}

theorem against_of_serial (hb : a.buckets bucketName = true) {c : Bytes}
    (hf : a.files bucketName filename = some c)
    (hs : Serial (fun i => (accesses i).apply bucketName filename) a log a') :
    ∀ x ∈ log, x.2 = (accesses x.1).against c := by
  induction hs with
  | nil => simp
  | cons i rest ih =>
    rename_i a a' log
    have apply : (accesses i).apply bucketName filename a = ((accesses i).against c, a) := by
      cases accesses i with
      | put parts now => exact Access.apply_put_present hb hf parts now
      | get rooms => exact Access.apply_get_present hb hf rooms
    simp only [apply] at ih ⊢
    intro x hx
    obtain rfl | hx := List.mem_cons.mp hx
    · rfl
    · exact ih hb hf x hx

/-- Nothing is found, or what one upload has made. -/
theorem answers_of_serial (hf : a.files bucketName filename = none)
    (hs : Serial (fun i => (accesses i).apply bucketName filename) a log a') :
    (∀ x ∈ log, x.2 = (.notFound, none)) ∨ ∃ o, (accesses o).IsPut ∧ (o, .ok, none) ∈ log ∧
      ∀ x ∈ log, x.2 = (.notFound, none) ∨ x.2 = (accesses x.1).against (accesses o).body := by
  induction hs with
  | nil => exact .inl (by simp)
  | cons i rest ih =>
    rename_i a a' log
    -- what finds nothing leaves the archive as it is
    have skip : (accesses i).apply bucketName filename a = ((.notFound, none), a) →
        (∀ x ∈ (i, ((accesses i).apply bucketName filename a).1) :: log, x.2 = (.notFound, none)) ∨
        ∃ o, (accesses o).IsPut ∧
          (o, .ok, none) ∈ (i, ((accesses i).apply bucketName filename a).1) :: log ∧
          ∀ x ∈ (i, ((accesses i).apply bucketName filename a).1) :: log,
            x.2 = (.notFound, none) ∨ x.2 = (accesses x.1).against (accesses o).body := by
      intro apply
      simp only [apply] at ih ⊢
      obtain hall | ⟨o, ho, hin, hall⟩ := ih hf
      · exact .inl (List.forall_mem_cons.mpr ⟨rfl, hall⟩)
      · exact .inr ⟨o, ho, List.mem_cons_of_mem _ hin, List.forall_mem_cons.mpr ⟨.inl rfl, hall⟩⟩
    cases hb : a.buckets bucketName with
    | false => exact skip (Access.apply_of_no_bucket hb _)
    | true =>
      cases hi : accesses i with
      | get rooms =>
        rw [hi] at skip
        exact skip (Access.apply_get_absent hb hf rooms)
      | put parts now =>
        have apply : (accesses i).apply bucketName filename a =
            ((.ok, none), a.store bucketName filename parts.flatten) := by
          rw [hi, Access.apply_put_absent hb hf]
        simp only [apply] at rest
        rw [← hi]
        simp only [apply]
        have hbody : (accesses i).body = parts.flatten := by rw [hi]; rfl
        refine .inr ⟨i, ⟨parts, now, hi⟩, List.mem_cons_self, List.forall_mem_cons.mpr ⟨.inr ?_,
          fun x hx => .inr ?_⟩⟩
        · rw [hi]
          simp [Access.against, Access.body, compared]
        · rw [hbody]
          exact against_of_serial (a := a.store bucketName filename parts.flatten) hb
            (Archive.store_files_self ..) rest x hx

/-- The requests of a log, sent one after another, get the answers of the log. -/
theorem seen_of_serial {db : Db} (h : db.Linked)
    (fits : ∀ i, ((accesses i).op bucketName filename).Fits db.buckets)
    (hs : Serial (fun i => (accesses i).apply bucketName filename) (archive db) log a') :
    (serveAll db ((log.map Prod.fst).map fun i => (accesses i).request bucketName filename)).1.map
      seen = log.map fun x => some x.2 := by
  generalize hdb : archive db = a at hs
  induction hs generalizing db with
  | nil => rfl
  | cons i rest ih =>
    subst hdb
    obtain ⟨hseen, harchive, hbuckets⟩ := serve_refines h _ (fits i)
    have hrest := ih (serveRequest_linked h _) (fun j => hbuckets ▸ fits j) harchive
    simp only [List.map_cons, serveAll, List.cons.injEq]
    exact ⟨hseen, hrest⟩

end Order

end LocallyEuclidean.Server
