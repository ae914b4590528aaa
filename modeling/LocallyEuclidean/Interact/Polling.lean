import LocallyEuclidean.Interact.Program

/-! Programs that are polled. A poll lets some of the calls be answered and leaves the
rest of the program for the next one; what the program ends with does not depend on
how its calls are spread over the polls. -/

namespace Interact

variable {Q : Type} {Ans : Q → Type} {S W ε ε' α β : Type}

inductive Poll (α : Type) where
  | pending
  | ready (value : α)
  deriving DecidableEq, Repr

/-- Polled with these numbers of answers in turn, until it is ready. -/
def polls (poll : ℕ → W → Poll β × W) : List ℕ → W → Option (β × W)
  | [], _ => none
  | n :: ns, w =>
    match poll n w with
    | (.ready b, w') => some (b, w')
    | (.pending, w') => polls poll ns w'

namespace Prog

variable (serve : (q : Q) → S → Option (Ans q × S))

/-- The program after at most `n` answers; `none` is an answer that is not there yet. -/
def advance : ℕ → Prog Ans ε α → S → Prog Ans ε α × S
  | n + 1, .call q k, s =>
    match serve q s with
    | some (a, s') => advance n (k a) s'
    | none => (.call q k, s)
  | _, p, s => (p, s)

def poll (n : ℕ) (w : Prog Ans ε α × S) : Poll (Outcome ε α) × Prog Ans ε α × S :=
  let w' := advance serve n w.1 w.2
  match w'.1.ended with
  | some o => (.ready o, w')
  | none => (.pending, w')

/-- An environment in which a caller gives up at the first missing answer. -/
def giveUp (q : Q) (s : S) : Option (Ans q) × S :=
  match serve q s with
  | some (a, s') => (some a, s')
  | none => (none, s)

/-- The program makes at most `n` calls, whatever the answers. -/
def AtMost : ℕ → Prog Ans ε α → Prop
  | n + 1, .call _ k => ∀ a, AtMost n (k a)
  | 0, .call _ _ => False
  | _, _ => True

variable {serve}

theorem advance_of_ended {n : ℕ} {p : Prog Ans ε α} {o : Outcome ε α} (h : p.ended = some o) (s : S) :
    advance serve n p s = (p, s) := by
  cases p with
  | call q k => cases h
  | ret a | err e | panic m => cases n <;> rfl

/-- Its first call has been answered, or nothing has happened. -/
theorem advance_call (n : ℕ) (q : Q) (k : Ans q → Prog Ans ε α) (s : S) :
    advance serve n (.call q k) s = (.call q k, s) ∨ ∃ a s' m, serve q s = some (a, s') ∧
      advance serve n (.call q k) s = advance serve m (k a) s' := by
  cases n with
  | zero => exact .inl rfl
  | succ n =>
    rw [advance]
    cases hs : serve q s with
    | none => exact .inl rfl
    | some r => exact .inr ⟨r.1, r.2, n, rfl, rfl⟩

theorem run_advance (n : ℕ) (p : Prog Ans ε α) (s : S) :
    run (giveUp serve) (advance serve n p s).1 (advance serve n p s).2 =
      run (giveUp serve) p s := by
  induction n generalizing p s with
  | zero => cases p <;> rfl
  | succ n ih =>
    cases p with
    | ret a | err e | panic m => rfl
    | call q k =>
      rw [advance]
      cases hs : serve q s with
      | none => rfl
      | some r =>
        rw [run, giveUp, hs]
        exact ih _ _

theorem run_of_ended {p : Prog Ans ε α} {o : Outcome ε α} (h : p.ended = some o) (s : S) :
    run (giveUp serve) p s = (o, s) := by
  cases p with
  | call q k => cases h
  | ret a | err e | panic m =>
    rw [← Option.some.inj h]
    rfl

/-- A polled program ends as it does in one run. -/
theorem run_of_polls {ns : List ℕ} {p : Prog Ans ε α} {s : S} {o : Outcome ε α}
    {w : Prog Ans ε α × S} (h : polls (poll serve) ns (p, s) = some (o, w)) :
    run (giveUp serve) p s = (o, w.2) := by
  induction ns generalizing p s with
  | nil => cases h
  | cons n ns ih =>
    rw [polls, poll] at h
    rw [← run_advance n p s]
    cases he : (advance serve n p s).1.ended with
    | none =>
      simp only [he] at h
      exact ih h
    | some o' =>
      simp only [he, Option.some.injEq, Prod.mk.injEq] at h
      obtain ⟨rfl, rfl⟩ := h
      exact run_of_ended he _

theorem AtMost.ended {p : Prog Ans ε α} (h : p.AtMost 0) : p.ended.isSome := by
  cases p with
  | call q k => exact h.elim
  | _ => rfl

theorem AtMost.mono {n m : ℕ} {p : Prog Ans ε α} (h : p.AtMost n) (hm : n ≤ m) : p.AtMost m := by
  induction n generalizing p m with
  | zero =>
    cases p with
    | call q k => exact h.elim
    | _ => cases m <;> trivial
  | succ n ih =>
    obtain ⟨m, rfl⟩ := Nat.exists_eq_succ_of_ne_zero (by omega : m ≠ 0)
    cases p with
    | call q k => exact fun a => ih (h a) (Nat.le_of_succ_le_succ hm)
    | _ => trivial

/-- Where no answer is missing, `n` answers are `n` calls less. -/
theorem AtMost.advance (answers : ∀ q s, (serve q s).isSome) {n m : ℕ} {p : Prog Ans ε α}
    (h : p.AtMost (n + m)) (s : S) : (advance serve n p s).1.AtMost m := by
  induction n generalizing p s with
  | zero => cases p <;> simpa [Prog.advance] using h
  | succ n ih =>
    cases p with
    | call q k =>
      obtain ⟨r, hr⟩ := Option.isSome_iff_exists.mp (answers q s)
      rw [Prog.advance, hr]
      have hk : (k r.1).AtMost (n + m) := by
        rw [Nat.add_right_comm] at h
        exact h r.1
      exact ih hk r.2
    | _ => cases m <;> trivial

/-- Polls with enough answers end it. -/
theorem AtMost.polls (answers : ∀ q s, (serve q s).isSome) {ns : List ℕ} (hns : ns ≠ [])
    {p : Prog Ans ε α} (h : p.AtMost ns.sum) (s : S) :
    (polls (poll serve) ns (p, s)).isSome := by
  induction ns generalizing p s with
  | nil => exact absurd rfl hns
  | cons n ns ih =>
    rw [List.sum_cons] at h
    have hrest := AtMost.advance answers h s
    rw [Interact.polls, poll]
    cases he : (Prog.advance serve n p s).1.ended with
    | some o => rfl
    | none =>
      refine ih ?_ hrest _
      rintro rfl
      have := AtMost.ended hrest
      rw [he] at this
      cases this

end Prog

end Interact
