import LocallyEuclidean.Interact.Parallel
import LocallyEuclidean.Interact.Polling

/-! Programs that run at the same time come to an end. Every program makes a bounded
number of calls, a call that stays pending is not answered before its client is woken,
and somebody can always go on: then all of them end, whatever the order of steps. -/

namespace Interact

variable {Q : Type} {Ans : Q → Type} {σ τ ε ε' α β : Type} {n : ℕ}

/-! The number of calls of a composed program. -/

namespace Prog

theorem AtMost.ret (m : ℕ) (a : α) : (.ret a : Prog Ans ε α).AtMost m := by
  cases m <;> trivial

theorem AtMost.err (m : ℕ) (e : ε) : (.err e : Prog Ans ε α).AtMost m := by
  cases m <;> trivial

theorem AtMost.panic (m : ℕ) (s : String) : (.panic s : Prog Ans ε α).AtMost m := by
  cases m <;> trivial

theorem AtMost.bind {m k : ℕ} {p : Prog Ans ε α} {f : α → Prog Ans ε β} (hp : p.AtMost m)
    (hf : ∀ a, (f a).AtMost k) : (p.bind f).AtMost (m + k) := by
  induction p generalizing m with
  | ret a => exact (hf a).mono (Nat.le_add_left k m)
  | err e => exact .err _ e
  | panic s => exact .panic _ s
  | call q next ih =>
    cases m with
    | zero => exact hp.elim
    | succ m =>
      rw [Nat.succ_add]
      exact fun a => ih a (hp a)

theorem AtMost.mapErr {m : ℕ} {p : Prog Ans ε α} (hp : p.AtMost m) (f : ε → ε') :
    (p.mapErr f).AtMost m := by
  induction p generalizing m with
  | ret a => exact .ret m a
  | err e => exact .err m (f e)
  | panic s => exact .panic m s
  | call q next ih =>
    cases m with
    | zero => exact hp.elim
    | succ m => exact fun a => ih a (hp a)

theorem AtMost.attempt {m : ℕ} {p : Prog Ans ε α} (hp : p.AtMost m) :
    (p.attempt : Prog Ans ε' (Except ε α)).AtMost m := by
  induction p generalizing m with
  | ret a => exact .ret m (Except.ok a)
  | err e => exact .ret m (Except.error e)
  | panic s => exact .panic m s
  | call q next ih =>
    cases m with
    | zero => exact hp.elim
    | succ m => exact fun a => ih a (hp a)

theorem AtMost.ask {m : ℕ} (q : Q) : (.ask q : Prog Ans ε (Ans q)).AtMost (m + 1) :=
  fun a => .ret m a

end Prog

/-! Who waits for whom. -/

/-- Where every wait goes up in rank, somebody does not wait. -/
theorem exists_not_waiting {ι : Type} {T : Finset ι} (hT : T.Nonempty) {W : ι → ι → Prop}
    (rank : ι → ℕ) (stays : ∀ i ∈ T, ∀ j, W i j → j ∈ T)
    (up : ∀ i ∈ T, ∀ j k, W i j → W j k → rank i < rank j) : ∃ i ∈ T, ∀ j, ¬ W i j := by
  classical
  by_contra hall
  push Not at hall
  obtain ⟨i, hi, hmax⟩ := T.exists_max_image rank hT
  obtain ⟨j, hij⟩ := hall i hi
  have hj := stays i hi j hij
  obtain ⟨k, hjk⟩ := hall j hj
  exact absurd (hmax j hj) (not_le.mpr (up i hi j k hij hjk))

/-! The steps that are left. -/

namespace Action

def isStep : Action n τ → Bool
  | .step _ => true
  | .env _ => false

/-- The steps of clients in a run. -/
def steps (as : List (Action n τ)) : ℕ := as.countP isStep

end Action

namespace Machine

variable (M : Machine n Ans σ τ) (W : σ → Fin n → Prop)

/-- A pending call makes its client wait, and nobody else stops waiting on it. -/
structure Parks : Prop where
  pending : ∀ {i q s s'}, M.serve i q s = some (none, s') → ¬ W s i ∧ W s' i ∧
    ∀ j, W s j → W s' j
  env : ∀ e s j, W s j → W (M.env e s) j

variable {M W}

/-- At most `m` more steps: each program has its calls left, and each of these may wake
everybody else, who must then be parked again. -/
def Budget (W : σ → Fin n → Prop) (p : Pool n Ans σ ε α) (m : ℕ) : Prop :=
  ∃ (left : Fin n → ℕ) (awake : Finset (Fin n)), (∀ i, (p.progs i).AtMost (left i)) ∧
    (∀ i, i ∉ awake → W p.shared i) ∧ (n + 1) * ∑ i, left i + awake.card ≤ m

theorem Budget.start {p : Pool n Ans σ ε α} {left : Fin n → ℕ} (h : ∀ i, (p.progs i).AtMost (left i)) :
    Budget W p ((n + 1) * ∑ i, left i + n) :=
  ⟨left, Finset.univ, h, fun i hi => absurd (Finset.mem_univ i) hi, by simp⟩

/-- A step of a client costs at least one. -/
theorem Budget.step (hM : M.Parks W) {i : Fin n} {p p' : Pool n Ans σ ε α} {m : ℕ}
    (h : Budget W p m) (ha : M.act (.step i) p = some p') :
    ∃ m', Budget W p' m' ∧ m' + 1 = m := by
  obtain ⟨left, awake, hleft, hawake, hm⟩ := h
  obtain ⟨q, k, hq, ⟨a, s, hs, rfl⟩ | ⟨s, hs, rfl⟩⟩ := M.act_step ha
  · have hi := hleft i
    rw [hq] at hi
    obtain ⟨l, hl⟩ : ∃ l, left i = l + 1 := by
      cases hl : left i with
      | zero =>
        rw [hl] at hi
        exact hi.elim
      | succ l => exact ⟨l, rfl⟩
    rw [hl] at hi
    have hsum : ∑ j, Function.update left i l j + 1 = ∑ j, left j := by
      rw [← Finset.sum_erase_add _ _ (Finset.mem_univ i),
        ← Finset.sum_erase_add Finset.univ left (Finset.mem_univ i), Function.update_self, hl,
        Nat.add_assoc]
      congr 1
      exact Finset.sum_congr rfl fun j hj => Function.update_of_ne (Finset.ne_of_mem_erase hj) _ _
    rw [← hsum, Nat.mul_add] at hm
    refine ⟨m - 1, ⟨Function.update left i l, Finset.univ, fun j => ?_,
      fun j hj => absurd (Finset.mem_univ j) hj, ?_⟩, by omega⟩
    · by_cases hj : j = i
      · subst hj
        simpa using hi a
      · simpa [Function.update_of_ne hj] using hleft j
    · rw [Finset.card_univ, Fintype.card_fin]
      omega
  · obtain ⟨hfree, hwait, hkeep⟩ := hM.pending hs
    have hi : i ∈ awake := by
      by_contra hn
      exact hfree (hawake i hn)
    have hcard := Finset.card_erase_add_one hi
    refine ⟨m - 1, ⟨left, awake.erase i, hleft, fun j hj => ?_, by omega⟩, by omega⟩
    by_cases hji : j = i
    · subst hji
      exact hwait
    · exact hkeep j (hawake j fun hm => hj (Finset.mem_erase.mpr ⟨hji, hm⟩))

/-- No run has more steps than its budget. -/
theorem Budget.run (hM : M.Parks W) {as : List (Action n τ)} {p p' : Pool n Ans σ ε α} {m : ℕ}
    (h : Budget W p m) (hr : M.run as p = some p') :
    ∃ m', Budget W p' m' ∧ m' + Action.steps as = m := by
  induction as generalizing p m with
  | nil =>
    obtain rfl : p = p' := by simpa [Machine.run] using hr
    exact ⟨m, h, rfl⟩
  | cons a as ih =>
    obtain ⟨p₁, ha, hrest⟩ := Option.bind_eq_some_iff.mp (by simpa only [Machine.run] using hr)
    cases a with
    | env e =>
      obtain rfl := Option.some.inj ha
      obtain ⟨left, awake, hleft, hawake, hm⟩ := h
      have hb : Budget W { p with shared := M.env e p.shared } m :=
        ⟨left, awake, hleft, fun j hj => hM.env e _ j (hawake j hj), hm⟩
      exact ih hb hrest
    | step i =>
      obtain ⟨m₁, h₁, he⟩ := h.step hM ha
      obtain ⟨m₂, h₂, he₂⟩ := ih h₁ hrest
      refine ⟨m₂, h₂, ?_⟩
      have hcount : Action.steps (Action.step i :: as) = Action.steps as + 1 :=
        List.countP_cons_of_pos rfl
      omega

/-- Where somebody can always go on, everybody comes to an end. -/
theorem Budget.completes (hM : M.Parks W) {I : Pool n Ans σ ε α → Prop}
    (keeps : ∀ {i p p'}, I p → M.act (.step i) p = some p' → I p')
    (progress : ∀ {p}, I p → (∀ i, (p.progs i).ended.isSome) ∨ ∃ i p', M.act (.step i) p = some p')
    {p : Pool n Ans σ ε α} {m : ℕ} (h : Budget W p m) (hp : I p) :
    ∃ (order : List (Fin n)) (p' : Pool n Ans σ ε α),
      M.run (order.map .step) p = some p' ∧ ∀ i, (p'.progs i).ended.isSome := by
  induction m generalizing p with
  | zero =>
    rcases progress hp with hend | ⟨i, p', ha⟩
    · exact ⟨[], p, rfl, hend⟩
    · obtain ⟨m', -, he⟩ := h.step hM ha
      omega
  | succ m ih =>
    rcases progress hp with hend | ⟨i, p', ha⟩
    · exact ⟨[], p, rfl, hend⟩
    · obtain ⟨m', h', he⟩ := h.step hM ha
      obtain rfl : m' = m := by omega
      obtain ⟨order, p'', hr, hend⟩ := ih h' (keeps hp ha)
      refine ⟨i :: order, p'', ?_, hend⟩
      rw [List.map_cons, Machine.run, ha]
      exact hr

end Machine

end Interact
