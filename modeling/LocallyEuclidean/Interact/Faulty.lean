import LocallyEuclidean.Interact.Protocol

/-! Calls that fail, and callers that go away. A program that ends without a value wherever
a call has failed runs as it does without faults, or else stops somewhere on that run. -/

namespace Interact

variable {Q : Type} {Ans : Q → Type} {S T ε α : Type}

inductive Course where
  | going
  | closed
  /-- A call has failed. -/
  | failed
  deriving DecidableEq, Repr

section Course

variable (failed : (q : Q) → Ans q → Bool) (closes : Q → Bool)

/-- After a call that closes no other is made, and none after a call that has failed. -/
def course : Protocol Ans Course where
  allows c _ := c = .going
  next _ q a := if failed q a then .failed else if closes q then .closed else .going

variable {failed closes}

theorem course_ended {p : Prog Ans ε α} {post : Outcome ε α → Course → Prop} {c : Course}
    (hc : c ≠ .going) (h : (course failed closes).logic.wp p post c) :
    ∃ o, p.ended = some o ∧ post o c := by
  cases p with
  | ret | err | panic => exact ⟨_, rfl, h⟩
  | call q k => exact absurd h.1 hc

end Course

section Faulty

variable {serve : (q : Q) → S → Option (Ans q) × S} {faulty : (q : Q) → T → Option (Ans q) × T}
  {failed : (q : Q) → Ans q → Bool} {closes : Q → Bool} {V C : T → S → Prop}

/-- One call of the faulty run, in a state that is like (`V`) one of the run without faults: it
is answered as there, or it fails, or its caller goes away before or behind its effect. Of the
state behind a fault only what lasts (`C`) is known. -/
def Falters (serve : (q : Q) → S → Option (Ans q) × S) (faulty : (q : Q) → T → Option (Ans q) × T)
    (failed : (q : Q) → Ans q → Bool) (V C : T → S → Prop) : Prop :=
  ∀ q t s, V t s → ∃ a s', serve q s = (some a, s') ∧
    ((∃ t', faulty q t = (some a, t') ∧ V t' s') ∨
      (∃ b t', faulty q t = (some b, t') ∧ failed q b = true ∧ C t' s) ∨
      ∃ t', faulty q t = (none, t') ∧ (C t' s ∨ C t' s'))

theorem run_ended {p : Prog Ans ε α} {o : Outcome ε α} (h : p.ended = some o) (s : S) :
    run serve p s = (o, s) := by
  cases p with
  | call q k => cases h
  | ret | err | panic =>
    obtain rfl := Option.some.inj h
    rfl

theorem run_attempt {ε' : Type} (p : Prog Ans ε α) (s : S) :
    run serve (p.attempt : Prog Ans ε' _) s = ((run serve p s).1.attempt, (run serve p s).2) := by
  induction p generalizing s with
  | ret | err | panic => rfl
  | call q k ih =>
    rw [Prog.attempt, run, run]
    rcases serve q s with ⟨_ | a, s'⟩
    · rfl
    · exact ih a s'

variable (serve) in
/-- A run is in this state before one of its calls, or at its end. -/
def Passes (p : Prog Ans ε α) (s s' : S) : Prop :=
  (∃ q, (q, s') ∈ trace serve p s) ∨ s' = (run serve p s).2

theorem Passes.start (p : Prog Ans ε α) (s : S) : Passes serve p s s := by
  cases p with
  | ret | err | panic => exact .inr rfl
  | call q k =>
    refine .inl ⟨q, ?_⟩
    rw [trace]
    exact List.mem_cons_self

/-- A program of a single call. -/
theorem Passes.one {q : Q} {k : Ans q → Prog Ans ε α} (hk : ∀ a, (k a).ended.isSome) {s s' : S}
    (h : Passes serve (.call q k) s s') : s' = s ∨ s' = (run serve (.call q k) s).2 := by
  obtain ⟨q', hq⟩ | h := h
  · refine .inl ?_
    rw [trace] at hq
    obtain hq | hq := List.mem_cons.mp hq
    · exact (Prod.mk.inj hq).2
    · split at hq
      · rename_i a s₁ _
        have hend := hk a
        cases hp : k a with
        | call => simp [hp, Prog.ended] at hend
        | ret | err | panic =>
          rw [hp] at hq
          cases hq
      · cases hq
  · exact .inr h

theorem Passes.call {q : Q} {k : Ans q → Prog Ans ε α} {s s₁ s' : S} {a : Ans q}
    (hs : serve q s = (some a, s₁)) (h : Passes serve (k a) s₁ s') :
    Passes serve (.call q k) s s' := by
  obtain ⟨q', hq⟩ | rfl := h
  · refine .inl ⟨q', ?_⟩
    rw [trace, hs]
    exact List.mem_cons_of_mem _ hq
  · refine .inr ?_
    rw [run, hs]

/-- A faulty run is the run without faults, or it ends as `F` says and what lasts is as in a
state that the run without faults is in. -/
theorem run_faulty (hf : Falters serve faulty failed V C) {F : Outcome ε α → Prop}
    (hd : F .dropped) {p : Prog Ans ε α} {c : Course}
    (hp : (course failed closes).logic.wp p (fun o c => c = .failed → F o) c) {t : T} {s : S}
    (hv : V t s) :
    ((run faulty p t).1 = (run serve p s).1 ∧ V (run faulty p t).2 (run serve p s).2) ∨
      (F (run faulty p t).1 ∧ ∃ s', Passes serve p s s' ∧ C (run faulty p t).2 s') := by
  induction p generalizing t s c with
  | ret | err | panic => exact .inl ⟨rfl, hv⟩
  | call q k ih =>
    obtain ⟨rfl, hk⟩ := hp
    obtain ⟨a, s₁, hs, ⟨t₁, ht, hv₁⟩ | ⟨b, t₁, ht, hb, hc⟩ | ⟨t₁, ht, hc⟩⟩ := hf q t s hv
    · have hrun := ih a (hk a) hv₁
      simp only [run, hs, ht]
      refine hrun.imp_right ?_
      rintro ⟨ho, s', hs', hc⟩
      exact ⟨ho, s', hs'.call hs, hc⟩
    · -- the program stops at the failed call
      have hnext : (course failed closes).next .going q b = .failed := if_pos hb
      have hend := hk b
      rw [hnext] at hend
      obtain ⟨o, ho, hF⟩ := course_ended (by decide) hend
      refine .inr ?_
      simp only [run, ht, run_ended ho]
      exact ⟨hF rfl, s, .start _ _, hc⟩
    · refine .inr ?_
      simp only [run, ht]
      refine ⟨hd, ?_⟩
      obtain hc | hc := hc
      · exact ⟨s, .start _ _, hc⟩
      · exact ⟨s₁, (Passes.start _ _).call hs, hc⟩

end Faulty

end Interact
