import LocallyEuclidean.Server.Rules

/-! What the service does when requests come one at a time: a map from names to
strings of symbols, whose values are only ever extended. -/

namespace LocallyEuclidean.Server

variable {α : Type} [DecidableEq α]

/-- The answer to an append of `d` at `writeOffset` of the content `c`, and the
content it leaves: up to the end of the file it is a check, past it an append. -/
def appendAt (limit : ℕ) (c : List α) (writeOffset : ℕ) (d : List α) : StatusCode × List α :=
  if writeOffset ≤ c.length then (if c.drop writeOffset = d then .ok else .conflict, c)
  else if c.length + d.length ≤ limit then (.ok, c ++ d)
  else (.internalServerError, c)

section AppendAt

variable {limit writeOffset : ℕ} {c d w : List α}

theorem appendAt_check (h : writeOffset ≤ c.length) :
    appendAt limit c writeOffset d = (if c.drop writeOffset = d then .ok else .conflict, c) :=
  if_pos h

theorem appendAt_past (h : c.length < writeOffset) (hl : c.length + d.length ≤ limit) :
    appendAt limit c writeOffset d = (.ok, c ++ d) := by
  rw [appendAt, if_neg h.not_ge, if_pos hl]

theorem appendAt_full (h : c.length < writeOffset) (hl : limit < c.length + d.length) :
    appendAt limit c writeOffset d = (.internalServerError, c) := by
  rw [appendAt, if_neg h.not_ge, if_neg hl.not_ge]

theorem appendAt_answer (hl : c.length + d.length ≤ limit) :
    (appendAt limit c writeOffset d).1 =
      if c.length < writeOffset ∨ c.drop writeOffset = d then .ok else .conflict := by
  rcases lt_or_ge c.length writeOffset with ho | ho
  · rw [appendAt_past ho hl, if_pos (.inl ho)]
  · rw [appendAt_check ho]
    simp [ho.not_gt]

/-- Content is only ever extended. -/
theorem appendAt_isPrefix : c <+: (appendAt limit c writeOffset d).2 := by
  unfold appendAt
  split
  · exact List.prefix_refl c
  · split
    · exact List.prefix_append c d
    · exact List.prefix_refl c

theorem length_appendAt_le (hc : c.length ≤ limit) :
    (appendAt limit c writeOffset d).2.length ≤ limit := by
  unfold appendAt
  split
  · exact hc
  · split
    · rwa [List.length_append]
    · exact hc

/-- When an append of `d` that was acknowledged at content `c` can be sent again after
`w` has been appended since: it was a check and the file has not grown; or it has
appended nothing and the file has not passed `writeOffset`; or what has been
appended since fills the gap it was sent past, and the body reads the same there. -/
def Replayable (c : List α) (writeOffset : ℕ) (d w : List α) : Prop :=
  (writeOffset ≤ c.length ∧ w = []) ∨
    (c.length < writeOffset ∧ d = [] ∧ c.length + w.length ≤ writeOffset) ∨
    (c.length < writeOffset ∧ d ≠ [] ∧ c.length + w.length = writeOffset ∧
      (d ++ w).drop w.length = d)

omit [DecidableEq α] in
/-- When the resent body is found behind the end that it was appended to. -/
theorem drop_eq_iff_replayed (ho : c.length < writeOffset)
    (hn : writeOffset ≤ c.length + d.length + w.length) :
    (d ++ w).drop (writeOffset - c.length) = d ↔
      (d = [] ∧ c.length + w.length ≤ writeOffset) ∨
        (d ≠ [] ∧ c.length + w.length = writeOffset ∧ (d ++ w).drop w.length = d) := by
  constructor
  · intro hk
    have hlen := congrArg List.length hk
    simp only [List.length_drop, List.length_append] at hlen
    have he : w.length = writeOffset - c.length := by omega
    by_cases hd : d = []
    · exact .inl ⟨hd, by omega⟩
    · exact .inr ⟨hd, by omega, he ▸ hk⟩
  · rintro (⟨rfl, hle⟩ | ⟨-, he, hk⟩)
    · exact List.drop_eq_nil_of_le (by simp only [List.length_append, List.length_nil]; omega)
    · rwa [show writeOffset - c.length = w.length by omega]

theorem appendAt_replay (first : (appendAt limit c writeOffset d).1 = .ok)
    (fits : ((appendAt limit c writeOffset d).2 ++ w).length ≤ limit) :
    appendAt limit ((appendAt limit c writeOffset d).2 ++ w) writeOffset d =
        (.ok, (appendAt limit c writeOffset d).2 ++ w) ↔
      Replayable c writeOffset d w := by
  by_cases ho : writeOffset ≤ c.length
  · rw [appendAt_check ho] at first fits ⊢
    have hd : c.drop writeOffset = d := by
      by_contra hne
      simp [hne] at first
    have ho' : writeOffset ≤ (c ++ w).length := by
      rw [List.length_append]
      omega
    rw [appendAt_check ho', List.drop_append_of_le_length ho, hd]
    simp only [Replayable, ho, ho.not_gt, true_and, false_and, or_false]
    by_cases hw : w = [] <;> simp [hw]
  · replace ho : c.length < writeOffset := not_le.mp ho
    have hl : c.length + d.length ≤ limit := by
      by_contra hl
      rw [appendAt_full ho (not_le.mp hl)] at first
      cases first
    rw [appendAt_past ho hl] at fits ⊢
    simp only [Replayable, ho, ho.not_ge, true_and, false_and, false_or]
    by_cases hn : writeOffset ≤ (c ++ d ++ w).length
    · have hdrop : (c ++ d ++ w).drop writeOffset = (d ++ w).drop (writeOffset - c.length) := by
        rw [List.append_assoc, List.drop_append, List.drop_eq_nil_of_le ho.le, List.nil_append]
      have hlen : writeOffset ≤ c.length + d.length + w.length := by
        simpa only [List.length_append] using hn
      rw [appendAt_check hn, hdrop, ← drop_eq_iff_replayed ho hlen]
      by_cases hk : (d ++ w).drop (writeOffset - c.length) = d <;> simp [hk]
    · replace hn : (c ++ d ++ w).length < writeOffset := not_le.mp hn
      have hlen : c.length + d.length + w.length < writeOffset := by
        simpa only [List.length_append] using hn
      by_cases hd : d = []
      · subst hd
        rw [List.append_nil] at fits hn ⊢
        rw [appendAt_past hn (by simpa using fits), List.append_nil]
        simp only [List.length_nil] at hlen
        exact iff_of_true rfl (.inl ⟨rfl, by omega⟩)
      · have hne : ¬ c.length + w.length = writeOffset := by omega
        simp only [hd, hne, false_and, and_false, or_self, iff_false]
        rcases le_or_gt ((c ++ d ++ w).length + d.length) limit with hf | hf
        · rw [appendAt_past hn hf]
          simp [hd]
        · rw [appendAt_full hn hf]
          simp

end AppendAt

@[ext]
structure Archive (α : Type) where
  buckets : String → Bool
  files : String → String → Option (List α)

namespace Archive

def store (a : Archive α) (bucket filename : String) (c : List α) : Archive α :=
  { a with files := fun b f => if b = bucket ∧ f = filename then some c else a.files b f }

omit [DecidableEq α] in
theorem store_store (a : Archive α) (bucket filename : String) (c d : List α) :
    (a.store bucket filename c).store bucket filename d = a.store bucket filename d := by
  ext1
  · rfl
  · funext b f
    simp only [store]
    split <;> rfl

omit [DecidableEq α] in
theorem store_eq_self {a : Archive α} {bucket filename : String} {c : List α}
    (h : a.files bucket filename = some c) : a.store bucket filename c = a := by
  ext1
  · rfl
  · funext b f
    simp only [store]
    split
    · rename_i he
      rw [he.1, he.2, h]
    · rfl

/-- The first upload of a name stores its body; a later one only compares. -/
def put (a : Archive α) (bucket filename : String) (body : List α) : StatusCode × Archive α :=
  if a.buckets bucket then
    match a.files bucket filename with
    | none => (.ok, a.store bucket filename body)
    | some c => (if c = body then .ok else .conflict, a)
  else (.notFound, a)

def post (limit : ℕ) (a : Archive α) (bucket filename : String) (writeOffset : ℕ)
    (body : List α) : StatusCode × Archive α :=
  if a.buckets bucket then
    match a.files bucket filename with
    | none => (.notFound, a)
    | some c =>
      let (answer, c') := appendAt limit c writeOffset body
      (answer, a.store bucket filename c')
  else (.notFound, a)

def get (a : Archive α) (bucket filename : String) : StatusCode × Option (List α) :=
  if a.buckets bucket then
    match a.files bucket filename with
    | none => (.notFound, none)
    | some c => (.ok, some c)
  else (.notFound, none)

section Present

variable {a : Archive α} {bucket filename : String} (hb : a.buckets bucket = true)
include hb

theorem put_absent (hf : a.files bucket filename = none) (body : List α) :
    a.put bucket filename body = (.ok, a.store bucket filename body) := by
  rw [put, if_pos hb, hf]

theorem put_present {c : List α} (hf : a.files bucket filename = some c) (body : List α) :
    a.put bucket filename body = (if c = body then .ok else .conflict, a) := by
  rw [put, if_pos hb, hf]

theorem post_present {c : List α} (hf : a.files bucket filename = some c) (limit writeOffset : ℕ)
    (body : List α) : a.post limit bucket filename writeOffset body =
      ((appendAt limit c writeOffset body).1,
        a.store bucket filename (appendAt limit c writeOffset body).2) := by
  rw [post, if_pos hb, hf]

theorem post_absent (hf : a.files bucket filename = none) (limit writeOffset : ℕ) (body : List α) :
    a.post limit bucket filename writeOffset body = (.notFound, a) := by
  rw [post, if_pos hb, hf]

omit [DecidableEq α] in
theorem get_present {c : List α} (hf : a.files bucket filename = some c) :
    a.get bucket filename = (.ok, some c) := by
  rw [get, if_pos hb, hf]

omit [DecidableEq α] in
theorem get_absent (hf : a.files bucket filename = none) :
    a.get bucket filename = (.notFound, none) := by
  rw [get, if_pos hb, hf]

end Present

theorem post_ok {limit : ℕ} {a : Archive α} {bucket filename : String} {writeOffset : ℕ}
    {body : List α} (h : (a.post limit bucket filename writeOffset body).1 = .ok) :
    a.buckets bucket = true ∧ ∃ c, a.files bucket filename = some c ∧
      (appendAt limit c writeOffset body).1 = .ok := by
  unfold post at h
  split at h
  · rename_i hb
    cases hf : a.files bucket filename with
    | none => simp [hf] at h
    | some c => exact ⟨hb, c, rfl, by simpa [hf] using h⟩
  · cases h

omit [DecidableEq α] in
@[simp] theorem store_files_self (a : Archive α) (bucket filename : String) (c : List α) :
    (a.store bucket filename c).files bucket filename = some c := by
  simp [store]

/-- Later archives keep the buckets, and extend what earlier ones hold. -/
def Extends (a b : Archive α) : Prop :=
  b.buckets = a.buckets ∧
    ∀ bucket filename c, a.files bucket filename = some c →
      ∃ c', b.files bucket filename = some c' ∧ c <+: c'

omit [DecidableEq α] in
theorem Extends.refl (a : Archive α) : a.Extends a :=
  ⟨rfl, fun _ _ c h => ⟨c, h, List.prefix_refl c⟩⟩

omit [DecidableEq α] in
theorem Extends.trans {a b d : Archive α} (h₁ : a.Extends b) (h₂ : b.Extends d) : a.Extends d := by
  refine ⟨h₂.1.trans h₁.1, fun bucket filename c hc => ?_⟩
  obtain ⟨c', hc', hp⟩ := h₁.2 bucket filename c hc
  obtain ⟨c'', hc'', hp'⟩ := h₂.2 bucket filename c' hc'
  exact ⟨c'', hc'', hp.trans hp'⟩

omit [DecidableEq α] in
theorem extends_store {a : Archive α} {bucket filename : String} {c : List α}
    (h : ∀ c₀, a.files bucket filename = some c₀ → c₀ <+: c) :
    a.Extends (a.store bucket filename c) := by
  refine ⟨rfl, fun b f c₀ hc => ?_⟩
  simp only [store]
  split
  · rename_i he
    obtain ⟨rfl, rfl⟩ := he
    exact ⟨c, rfl, h c₀ hc⟩
  · exact ⟨c₀, hc, List.prefix_refl c₀⟩

theorem put_extends (a : Archive α) (bucket filename : String) (body : List α) :
    a.Extends (a.put bucket filename body).2 := by
  unfold put
  split
  · split
    · rename_i hn
      exact extends_store (by simp [hn])
    · exact .refl a
  · exact .refl a

theorem post_extends (limit : ℕ) (a : Archive α) (bucket filename : String) (writeOffset : ℕ)
    (body : List α) : a.Extends (a.post limit bucket filename writeOffset body).2 := by
  unfold post
  split
  · split
    · exact .refl a
    · rename_i c hc
      refine extends_store fun c₀ h₀ => ?_
      obtain rfl := Option.some.inj (hc.symm.trans h₀)
      exact appendAt_isPrefix
  · exact .refl a

end Archive

end LocallyEuclidean.Server
