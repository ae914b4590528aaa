import LocallyEuclidean.Interact.Program

/-! Which call a program may make next, whatever its answers have been. The program is
checked once against the protocol; what its calls run against then only has to keep to
the protocol's phases. -/

namespace Interact

variable {Q : Type} {Ans : Q → Type} {P ε ε' α β : Type}

structure Protocol (Ans : Q → Type) (P : Type) where
  allows : P → Q → Prop
  next : P → (q : Q) → Ans q → P

namespace Protocol

variable (R : Protocol Ans P)

/-- The logic in which any answer may come. -/
def logic : Logic Ans P where
  call q Φ c := R.allows c q ∧ ∀ a, Φ a (R.next c q a)
  mono h hc := ⟨hc.1, fun a => h a _ (hc.2 a)⟩

/-- The program keeps to the protocol from `c` on, and a value comes with its phase. -/
def Steps (p : Prog Ans ε α) (K : α → P → Prop) (c : P) : Prop :=
  R.logic.wp p (fun o c' => ∀ a, o = .ok a → K a c') c

/-- The program keeps to the protocol to its end. -/
def Keeps (p : Prog Ans ε α) (c : P) : Prop := R.Steps p (fun _ _ => True) c

variable {R} {K : α → P → Prop} {c : P}

theorem Steps.ret {a : α} (h : K a c) : R.Steps (.ret a : Prog Ans ε α) K c := by
  rintro _ ⟨⟩
  exact h

theorem Steps.err (e : ε) : R.Steps (.err e : Prog Ans ε α) K c := by
  rintro _ ⟨⟩

theorem Steps.panic (m : String) : R.Steps (.panic m : Prog Ans ε α) K c := by
  rintro _ ⟨⟩

theorem Steps.mono {K' : α → P → Prop} {p : Prog Ans ε α} (h : R.Steps p K c)
    (hp : ∀ a c', K a c' → K' a c') : R.Steps p K' c :=
  Logic.wp_mono (fun _ c' ho a ha => hp a c' (ho a ha)) h

theorem Steps.keeps {p : Prog Ans ε α} (h : R.Steps p K c) : R.Keeps p c :=
  h.mono fun _ _ _ => trivial

theorem Steps.bind {K' : β → P → Prop} {p : Prog Ans ε α} {f : α → Prog Ans ε β}
    (h : R.Steps p K c) (hf : ∀ a c', K a c' → R.Steps (f a) K' c') :
    R.Steps (p >>= f) K' c := by
  refine (Logic.wp_bind ..).mpr (Logic.wp_mono ?_ h)
  rintro (a | e | m | _) c' ho
  · exact hf a c' (ho a rfl)
  · rintro _ ⟨⟩
  · rintro _ ⟨⟩
  · rintro _ ⟨⟩

theorem Steps.mapErr {p : Prog Ans ε α} (h : R.Steps p K c) (f : ε → ε') :
    R.Steps (p.mapErr f) K c := by
  refine (Logic.wp_mapErr ..).mpr (Logic.wp_mono ?_ h)
  rintro (a | e | m | _) c' ho b hb
  · exact ho b (by simpa [Outcome.mapErr] using hb)
  all_goals cases hb

/-- An error that is matched on tells nothing of the phase. -/
theorem Steps.attempt {p : Prog Ans ε α} (h : R.Steps p K c) :
    R.Steps (p.attempt : Prog Ans ε' (Except ε α)) (fun x c' => ∀ a, x = .ok a → K a c') c := by
  refine (Logic.wp_attempt ..).mpr (Logic.wp_mono ?_ h)
  rintro (a | e | m | _) c' ho x hx b hb
  · obtain rfl := Outcome.ok.inj hx
    exact ho b (by rw [Except.ok.inj hb])
  · obtain rfl := Outcome.ok.inj hx
    cases hb
  all_goals cases hx

/-- The same of a program whose errors tell their phase too. -/
def StepsOr (R : Protocol Ans P) (p : Prog Ans ε α) (K : α → P → Prop) (E : ε → P → Prop) (c : P) :
    Prop :=
  R.logic.wp p (fun o c' => (∀ a, o = .ok a → K a c') ∧ ∀ e, o = .err e → E e c') c

section StepsOr

variable {E : ε → P → Prop}

theorem StepsOr.ret {a : α} (h : K a c) : R.StepsOr (.ret a : Prog Ans ε α) K E c := by
  refine ⟨?_, by simp⟩
  rintro _ ⟨⟩
  exact h

theorem StepsOr.err {e : ε} (h : E e c) : R.StepsOr (.err e : Prog Ans ε α) K E c := by
  refine ⟨by simp, ?_⟩
  rintro _ ⟨⟩
  exact h

theorem StepsOr.panic (m : String) : R.StepsOr (.panic m : Prog Ans ε α) K E c :=
  ⟨by simp, by simp⟩

theorem Steps.or {p : Prog Ans ε α} (h : R.Steps p K c) : R.StepsOr p K (fun _ _ => True) c :=
  Logic.wp_mono (fun _ _ ho => ⟨ho, fun _ _ => trivial⟩) h

theorem StepsOr.bind {K' : β → P → Prop} {p : Prog Ans ε α} {f : α → Prog Ans ε β}
    (h : R.StepsOr p K E c) (hf : ∀ a c', K a c' → R.StepsOr (f a) K' E c') :
    R.StepsOr (p >>= f) K' E c := by
  refine (Logic.wp_bind ..).mpr (Logic.wp_mono ?_ h)
  rintro (a | e | m | _) c' ⟨ho, he⟩
  · exact hf a c' (ho a rfl)
  · exact StepsOr.err (R := R) (he e rfl)
  · exact StepsOr.panic (R := R) m
  · exact ⟨by simp, by simp⟩

theorem StepsOr.mapErr {E' : ε' → P → Prop} {p : Prog Ans ε α} (h : R.StepsOr p K E c) {f : ε → ε'}
    (hf : ∀ e c', E e c' → E' (f e) c') : R.StepsOr (p.mapErr f) K E' c := by
  refine (Logic.wp_mapErr ..).mpr (Logic.wp_mono ?_ h)
  rintro (a | e | m | _) c' ⟨ho, he⟩
  · exact StepsOr.ret (R := R) (ho a rfl)
  · exact StepsOr.err (R := R) (hf e c' (he e rfl))
  · exact StepsOr.panic (R := R) m
  · exact ⟨by simp [Outcome.mapErr], by simp [Outcome.mapErr]⟩

theorem StepsOr.attempt {p : Prog Ans ε α} (h : R.StepsOr p K E c) :
    R.Steps (p.attempt : Prog Ans ε' (Except ε α))
      (fun x c' => (∀ a, x = .ok a → K a c') ∧ ∀ e, x = .error e → E e c') c := by
  refine (Logic.wp_attempt ..).mpr (Logic.wp_mono ?_ h)
  rintro (a | e | m | _) c' ⟨ho, he⟩ x hx
  · obtain rfl := Outcome.ok.inj hx
    exact ⟨fun b hb => ho b (by rw [Except.ok.inj hb]), by simp⟩
  · obtain rfl := Outcome.ok.inj hx
    exact ⟨by simp, fun e' he' => he e' (by rw [Except.error.inj he'])⟩
  all_goals cases hx

end StepsOr

/-- Calls that are allowed at any time. -/
theorem Keeps.of_uses {p : Prog Ans ε α} (h : p.Uses fun q => ∀ c, R.allows c q) (c : P) :
    R.Keeps p c :=
  Logic.wp_mono (fun _ _ _ _ _ => trivial)
    (R.logic.wp_of_uses (I := fun _ => True) (fun _ c hq _ => ⟨hq c, fun _ => trivial⟩) h trivial)

theorem Keeps.of_ended {p : Prog Ans ε α} (h : p.ended.isSome) (c : P) : R.Keeps p c := by
  cases p with
  | call q k => cases h
  | ret a => exact .ret trivial
  | err e => exact .err e
  | panic m => exact .panic m

/-- The next call is allowed, and any answer leads on. -/
theorem Keeps.call {q : Q} {k : Ans q → Prog Ans ε α} (h : R.Keeps (.call q k) c) :
    R.allows c q ∧ ∀ a, R.Keeps (k a) (R.next c q a) :=
  h

/-- Two protocols at once. -/
def prod {P' : Type} (R : Protocol Ans P) (R' : Protocol Ans P') : Protocol Ans (P × P') where
  allows c q := R.allows c.1 q ∧ R'.allows c.2 q
  next c q a := (R.next c.1 q a, R'.next c.2 q a)

theorem Keeps.prod {P' : Type} {R' : Protocol Ans P'} {c' : P'} {p : Prog Ans ε α}
    (h : R.Keeps p c) (h' : R'.Keeps p c') : (R.prod R').Keeps p (c, c') := by
  induction p generalizing c c' with
  | ret a => exact .ret trivial
  | err e => exact .err e
  | panic m => exact .panic m
  | call q k ih => exact ⟨⟨h.call.1, h'.call.1⟩, fun a => ih a (h.call.2 a) (h'.call.2 a)⟩

/-- In each state where a run makes a call, the call is allowed, in a phase that the state is in. -/
theorem Keeps.trace {S : Type} {serve : (q : Q) → S → Option (Ans q) × S} {J : P → S → Prop}
    (keeps : ∀ q c s a s', R.allows c q → J c s → serve q s = (some a, s') → J (R.next c q a) s')
    {p : Prog Ans ε α} (h : R.Keeps p c) {s : S} (hJ : J c s) {q : Q} {s' : S}
    (hq : (q, s') ∈ trace serve p s) : ∃ c', R.allows c' q ∧ J c' s' := by
  induction p generalizing c s with
  | ret | err | panic => cases hq
  | call q₀ k ih =>
    rw [Interact.trace] at hq
    obtain hq | hq := List.mem_cons.mp hq
    · obtain ⟨rfl, rfl⟩ := Prod.mk.inj hq
      exact ⟨c, h.call.1, hJ⟩
    · split at hq
      · rename_i a s₁ hs
        exact ih a (h.call.2 a) (keeps q₀ c s a s₁ h.call.1 hJ hs) hq
      · cases hq

/-- What every allowed call keeps, even one that its caller does not wait for. -/
theorem Keeps.run {S : Type} {serve : (q : Q) → S → Option (Ans q) × S} {I : S → Prop}
    (keeps : ∀ q c s, R.allows c q → I s → I (serve q s).2) {p : Prog Ans ε α} (h : R.Keeps p c)
    {s : S} (hs : I s) : I (run serve p s).2 := by
  induction p generalizing c s with
  | ret | err | panic => exact hs
  | call q k ih =>
    have hk := keeps q c s h.call.1 hs
    rw [Interact.run]
    rcases hr : serve q s with ⟨_ | a, s'⟩ <;> rw [hr] at hk
    · exact hk
    · exact ih a (h.call.2 a) hk

end Protocol

end Interact
