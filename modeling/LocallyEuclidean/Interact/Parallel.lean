import LocallyEuclidean.Interact.Program

/-! Programs that run at the same time on one shared state, and a rely-guarantee
rule for them. A call may stay pending (the state moves, the program does not);
`leave` is what ending a program does to what it held. The ghost component is
chosen by the proof at each answered call and never read by `Machine.act`. -/

namespace Interact

variable {Q : Type} {Ans : Q → Type} {σ τ γ ε α : Type} {n : ℕ}

structure Machine (n : ℕ) (Ans : Q → Type) (σ τ : Type) where
  /-- `none`: the call cannot go on now; `some (none, s)`: it stays pending in `s`. -/
  serve : Fin n → (q : Q) → σ → Option (Option (Ans q) × σ)
  leave : Fin n → σ → σ
  /-- What the environment itself does. -/
  env : τ → σ → σ

inductive Action (n : ℕ) (τ : Type) where
  | step (client : Fin n)
  | env (event : τ)

structure Pool (n : ℕ) (Ans : Q → Type) (σ ε α : Type) where
  shared : σ
  progs : Fin n → Prog Ans ε α

namespace Machine

variable (M : Machine n Ans σ τ)

/-- An ended program leaves at once. -/
def settle (i : Fin n) (p : Prog Ans ε α) (s : σ) : σ :=
  if p.ended.isSome then M.leave i s else s

def act : Action n τ → Pool n Ans σ ε α → Option (Pool n Ans σ ε α)
  | .env e, p => some { p with shared := M.env e p.shared }
  | .step i, p =>
    match p.progs i with
    | .call q k =>
      match M.serve i q p.shared with
      | some (some a, s) => some ⟨M.settle i (k a) s, Function.update p.progs i (k a)⟩
      | some (none, s) => some { p with shared := s }
      | none => none
    | _ => none

def run : List (Action n τ) → Pool n Ans σ ε α → Option (Pool n Ans σ ε α)
  | [], p => some p
  | a :: as, p => (M.act a p).bind (run as)

theorem run_append (as bs : List (Action n τ)) (p : Pool n Ans σ ε α) :
    M.run (as ++ bs) p = (M.run as p).bind (M.run bs) := by
  induction as generalizing p with
  | nil => rfl
  | cons a as ih =>
    simp only [List.cons_append, run]
    cases M.act a p with
    | none => rfl
    | some p' => exact ih p'

/-- Every call answered in the run meets the condition in the state it is answered in. -/
def Meets (cond : Fin n → Q → σ → Prop) : List (Action n τ) → Pool n Ans σ ε α → Prop
  | [], _ => True
  | .env e :: as, p => Meets cond as { p with shared := M.env e p.shared }
  | .step i :: as, p =>
    (∀ q k, p.progs i = .call q k → cond i q p.shared) ∧
      ∀ p', M.act (.step i) p = some p' → Meets cond as p'

instance decidableNext {P : Q → Prop} [DecidablePred P] :
    (p : Prog Ans ε α) → Decidable (∀ q k, p = .call q k → P q)
  | .ret _ => isTrue fun _ _ h => by cases h
  | .err _ => isTrue fun _ _ h => by cases h
  | .panic _ => isTrue fun _ _ h => by cases h
  | .call q _ => decidable_of_iff (P q)
      ⟨fun h _ _ he => by cases he; exact h, fun h => h q _ rfl⟩

instance decidableMeets {cond : Fin n → Q → σ → Prop} [∀ i q s, Decidable (cond i q s)] :
    (as : List (Action n τ)) → (p : Pool n Ans σ ε α) → Decidable (M.Meets cond as p)
  | [], _ => isTrue trivial
  | .env e :: as, p => decidableMeets as { p with shared := M.env e p.shared }
  | .step i :: as, p =>
    have rest : Decidable (∀ p', M.act (.step i) p = some p' → M.Meets cond as p') :=
      match M.act (.step i) p with
      | none => isTrue fun _ h => by cases h
      | some p' =>
        match decidableMeets as p' with
        | isTrue h => isTrue fun _ he => by cases he; exact h
        | isFalse h => isFalse fun hall => h (hall p' rfl)
    inferInstanceAs (Decidable (_ ∧ _))

theorem Meets.mono {cond cond' : Fin n → Q → σ → Prop} {as : List (Action n τ)}
    {p : Pool n Ans σ ε α} (h : ∀ i q s, cond i q s → cond' i q s) (hm : M.Meets cond as p) :
    M.Meets cond' as p := by
  induction as generalizing p with
  | nil => trivial
  | cons a as ih =>
    cases a with
    | env e => exact ih hm
    | step i => exact ⟨fun q k hq => h i q _ (hm.1 q k hq), fun p' hp' => ih (hm.2 p' hp')⟩

/-- The rest of a run meets the condition too. -/
theorem meets_append {cond : Fin n → Q → σ → Prop} {as bs : List (Action n τ)}
    {p p' : Pool n Ans σ ε α} (hm : M.Meets cond (as ++ bs) p) (hr : M.run as p = some p') :
    M.Meets cond as p ∧ M.Meets cond bs p' := by
  induction as generalizing p with
  | nil =>
    obtain rfl : p = p' := by simpa [run] using hr
    exact ⟨trivial, hm⟩
  | cons a as ih =>
    obtain ⟨q, ha, hq⟩ := Option.bind_eq_some_iff.mp (by simpa only [run] using hr)
    cases a with
    | env e =>
      obtain rfl := Option.some.inj ha
      exact ih hm hq
    | step i =>
      refine ⟨⟨hm.1, fun p₁ hp₁ => ?_⟩, (ih (hm.2 q ha) hq).2⟩
      obtain rfl := Option.some.inj (ha.symm.trans hp₁)
      exact (ih (hm.2 q ha) hq).1

theorem meets_of_forall {cond : Fin n → Q → σ → Prop} (h : ∀ i q s, cond i q s)
    (as : List (Action n τ)) (p : Pool n Ans σ ε α) : M.Meets cond as p := by
  induction as generalizing p with
  | nil => trivial
  | cons a as ih =>
    cases a with
    | env e => exact ih _
    | step i => exact ⟨fun _ _ _ => h _ _ _, fun p' _ => ih p'⟩

/-- What a step of a client can be: its call is answered, or stays pending. -/
theorem act_step {i : Fin n} {p p' : Pool n Ans σ ε α} (h : M.act (.step i) p = some p') :
    ∃ q k, p.progs i = .call q k ∧
      ((∃ a s, M.serve i q p.shared = some (some a, s) ∧
          p' = ⟨M.settle i (k a) s, Function.update p.progs i (k a)⟩) ∨
        ∃ s, M.serve i q p.shared = some (none, s) ∧ p' = { p with shared := s }) := by
  simp only [act] at h
  split at h
  · rename_i q k hq
    refine ⟨q, k, hq, ?_⟩
    split at h
    · rename_i a s hs
      exact .inl ⟨a, s, hs, by simpa using h.symm⟩
    · rename_i s hs
      exact .inr ⟨s, hs, by simpa using h.symm⟩
    · cases h
  · cases h

end Machine

/-- Rely, guarantee and postcondition of every client; `rely none` is what an
onlooker without a program of its own may count on. -/
structure Contract (M : Machine n Ans σ τ) (γ ε α : Type) where
  cond : Fin n → Q → σ → Prop
  rely : Option (Fin n) → σ × γ → σ × γ → Prop
  guar : Fin n → σ × γ → σ × γ → Prop
  post : Fin n → Outcome ε α → σ × γ → Prop
  rely_refl : ∀ i s, rely i s s
  rely_trans : ∀ i {s s' s''}, rely i s s' → rely i s' s'' → rely i s s''
  guar_rely : ∀ {i j s s'}, some i ≠ j → guar i s s' → rely j s s'
  pending : ∀ {i q s s'} (j g), M.serve i q s = some (none, s') → rely j (s, g) (s', g)
  env_rely : ∀ e j s g, rely j (s, g) (M.env e s, g)
  leave_rely : ∀ {i j} s g, some i ≠ j → rely j (s, g) (M.leave i s, g)
  post_stable : ∀ {i o s s'}, rely (some i) s s' → post i o s → post i o s'
  post_leave : ∀ {i o s g}, post i o (s, g) → post i o (M.leave i s, g)

namespace Contract

variable {M : Machine n Ans σ τ} (C : Contract M γ ε α)

/-- One call of client `i`: the others move first, then it is answered and the
proof picks the ghost. -/
def logic (i : Fin n) : Logic Ans (σ × γ) where
  call q Φ s := ∀ s', C.rely (some i) s s' → C.cond i q s'.1 →
    ∀ a t, M.serve i q s'.1 = some (some a, t) →
      ∃ g, C.guar i s' (t, g) ∧ Φ a (t, g)
  mono := by
    intro q Φ Ψ s h hc s' hr hq a t hs
    obtain ⟨g, hg, hΦ⟩ := hc s' hr hq a t hs
    exact ⟨g, hg, h _ _ hΦ⟩

/-- A client's precondition survives whatever the others do. -/
theorem wp_stable {i : Fin n} {p : Prog Ans ε α} {s s' : σ × γ} (hr : C.rely (some i) s s')
    (hp : (C.logic i).wp p (C.post i) s) : (C.logic i).wp p (C.post i) s' := by
  cases p with
  | ret a => exact C.post_stable hr hp
  | err e => exact C.post_stable hr hp
  | panic m => exact C.post_stable hr hp
  | call q k => exact fun t ht => hp t (C.rely_trans _ hr ht)

def Holds (p : Pool n Ans σ ε α) (g : γ) : Prop :=
  ∀ i, (C.logic i).wp (p.progs i) (C.post i) (p.shared, g)

theorem holds_of_rely {p : Pool n Ans σ ε α} {s : σ} {g g' : γ} (h : C.Holds p g)
    (hr : ∀ i, C.rely (some i) (p.shared, g) (s, g')) :
    C.Holds { p with shared := s } g' :=
  fun i => C.wp_stable (hr i) (h i)

/-- An ended program's postcondition survives its leaving. -/
theorem wp_settle {i : Fin n} {p : Prog Ans ε α} {s : σ} {g : γ}
    (h : (C.logic i).wp p (C.post i) (s, g)) :
    (C.logic i).wp p (C.post i) (M.settle i p s, g) := by
  cases p with
  | ret a => exact C.post_leave h
  | err e => exact C.post_leave h
  | panic m => exact C.post_leave h
  | call q k => exact h

theorem settle_rely {i : Fin n} {j : Option (Fin n)} (p : Prog Ans ε α) (s : σ) (g : γ)
    (hj : some i ≠ j) : C.rely j (s, g) (M.settle i p s, g) := by
  unfold Machine.settle
  split
  · exact C.leave_rely s g hj
  · exact C.rely_refl _ _

/-- One action keeps every client's precondition, and an onlooker's rely. -/
theorem act_holds {a : Action n τ} {as : List (Action n τ)} {p p' : Pool n Ans σ ε α} {g : γ}
    (h : C.Holds p g) (hm : M.Meets C.cond (a :: as) p) (ha : M.act a p = some p') :
    ∃ g', C.Holds p' g' ∧ C.rely none (p.shared, g) (p'.shared, g') ∧ M.Meets C.cond as p' := by
  cases a with
  | env e =>
    obtain rfl : { p with shared := M.env e p.shared } = p' := by simpa [Machine.act] using ha
    exact ⟨g, C.holds_of_rely h fun i => C.env_rely e _ _ _, C.env_rely e _ _ _, hm⟩
  | step i =>
    have hrest := hm.2 p' ha
    obtain ⟨q, k, hq, ⟨a, s, hs, rfl⟩ | ⟨s, hs, rfl⟩⟩ := M.act_step ha
    · have hi := h i
      rw [hq] at hi
      obtain ⟨g', hg, hk⟩ := hi _ (C.rely_refl _ _) (hm.1 q k hq) a s hs
      have others : ∀ j, some i ≠ j → C.rely j (p.shared, g) (M.settle i (k a) s, g') :=
        fun j hj => C.rely_trans _ (C.guar_rely hj hg) (C.settle_rely _ _ _ hj)
      refine ⟨g', fun j => ?_, others none (by simp), hrest⟩
      by_cases hj : j = i
      · subst hj
        simpa using C.wp_settle hk
      · have hne : some i ≠ some j := by simpa using Ne.symm hj
        simpa [Function.update_of_ne hj] using C.wp_stable (others (some j) hne) (h j)
    · exact ⟨g, C.holds_of_rely h fun j => C.pending _ g hs, C.pending _ g hs, hrest⟩

/-- Parallel composition: the clients' preconditions hold along every run whose
steps meet the condition. -/
theorem run_holds {as : List (Action n τ)} {p p' : Pool n Ans σ ε α} {g : γ}
    (h : C.Holds p g) (hm : M.Meets C.cond as p) (hr : M.run as p = some p') :
    ∃ g', C.Holds p' g' ∧ C.rely none (p.shared, g) (p'.shared, g') := by
  induction as generalizing p g with
  | nil =>
    obtain rfl : p = p' := by simpa [Machine.run] using hr
    exact ⟨g, h, C.rely_refl _ _⟩
  | cons a as ih =>
    obtain ⟨q, ha, hq⟩ := Option.bind_eq_some_iff.mp (by simpa only [Machine.run] using hr)
    obtain ⟨g₁, h₁, r₁, m₁⟩ := C.act_holds h hm ha
    obtain ⟨g₂, h₂, r₂⟩ := ih h₁ m₁ hq
    exact ⟨g₂, h₂, C.rely_trans _ r₁ r₂⟩

/-- An ended client has met its postcondition. -/
theorem post_of_ended {p : Pool n Ans σ ε α} {g : γ} (h : C.Holds p g) {i : Fin n}
    {o : Outcome ε α} (he : (p.progs i).ended = some o) : C.post i o (p.shared, g) := by
  have hi := h i
  cases hp : p.progs i with
  | call q k => simp [hp, Prog.ended] at he
  | _ =>
    rw [hp] at hi he
    obtain rfl := by simpa [Prog.ended] using he
    exact hi

end Contract

/-! A contract made of an invariant of the whole, of what only grows, and of what
each client keeps to itself. -/

structure Terms (M : Machine n Ans σ τ) (γ ε α : Type) where
  cond : Fin n → Q → σ → Prop
  inv : σ × γ → Prop
  grows : σ × γ → σ × γ → Prop
  keeps : Fin n → σ × γ → σ × γ → Prop
  post : Fin n → Outcome ε α → σ × γ → Prop
  grows_refl : ∀ x, grows x x
  grows_trans : ∀ {x y z}, grows x y → grows y z → grows x z
  keeps_refl : ∀ i x, keeps i x x
  keeps_trans : ∀ i {x y z}, keeps i x y → keeps i y z → keeps i x z
  pending : ∀ {i q s s'} (g), inv (s, g) → M.serve i q s = some (none, s') →
    inv (s', g) ∧ grows (s, g) (s', g) ∧ ∀ j, keeps j (s, g) (s', g)
  env : ∀ e s g, inv (s, g) →
    inv (M.env e s, g) ∧ grows (s, g) (M.env e s, g) ∧ ∀ j, keeps j (s, g) (M.env e s, g)
  leave : ∀ i s g, inv (s, g) →
    inv (M.leave i s, g) ∧ grows (s, g) (M.leave i s, g) ∧ ∀ j ≠ i, keeps j (s, g) (M.leave i s, g)
  post_stable : ∀ {i o x y}, keeps i x y → post i o x → post i o y
  post_leave : ∀ {i o s g}, post i o (s, g) → post i o (M.leave i s, g)

namespace Terms

variable {M : Machine n Ans σ τ} (T : Terms M γ ε α)

/-- The invariant is kept, what grows has grown, and so is what the clients in `who` own. -/
def Moves (who : Fin n → Prop) (x y : σ × γ) : Prop :=
  T.inv x → T.inv y ∧ T.grows x y ∧ ∀ i, who i → T.keeps i x y

variable {T} in
theorem Moves.mono {who who' : Fin n → Prop} {x y : σ × γ} (h : T.Moves who x y)
    (hw : ∀ i, who' i → who i) : T.Moves who' x y := fun hx =>
  ⟨(h hx).1, (h hx).2.1, fun i hi => (h hx).2.2 i (hw i hi)⟩

def contract : Contract M γ ε α where
  cond := T.cond
  rely j := T.Moves fun i => j = some i
  guar i := T.Moves fun j => j ≠ i
  post i o x := T.inv x ∧ T.post i o x
  rely_refl _ x hx := ⟨hx, T.grows_refl x, fun i _ => T.keeps_refl i x⟩
  rely_trans _ _ _ _ h h' hx := by
    obtain ⟨hy, hg, hk⟩ := h hx
    obtain ⟨hz, hg', hk'⟩ := h' hy
    exact ⟨hz, T.grows_trans hg hg', fun i hi => T.keeps_trans i (hk i hi) (hk' i hi)⟩
  guar_rely hij h := h.mono fun j hj he => hij (by rw [hj, he])
  pending j g hs := fun hx =>
    ⟨(T.pending g hx hs).1, (T.pending g hx hs).2.1, fun i _ => (T.pending g hx hs).2.2 i⟩
  env_rely e j s g := fun hx =>
    ⟨(T.env e s g hx).1, (T.env e s g hx).2.1, fun i _ => (T.env e s g hx).2.2 i⟩
  leave_rely s g hij := fun hx =>
    ⟨(T.leave _ s g hx).1, (T.leave _ s g hx).2.1, fun j hj =>
      (T.leave _ s g hx).2.2 j fun he => hij (by rw [hj, he])⟩
  post_stable h hp := ⟨(h hp.1).1, T.post_stable ((h hp.1).2.2 _ rfl) hp.2⟩
  post_leave hp := ⟨(T.leave _ _ _ hp.1).1, T.post_leave hp.2⟩

variable {T}

/-- A call of client `i` once the invariant holds. -/
theorem call {i : Fin n} {q : Q} {Φ : Ans q → σ × γ → Prop} {x : σ × γ} (hx : T.inv x)
    (h : ∀ y, T.inv y → T.grows x y → T.keeps i x y → T.cond i q y.1 → ∀ a t,
      M.serve i q y.1 = some (some a, t) → ∃ g, (T.inv (t, g) ∧ T.grows y (t, g) ∧
        ∀ j ≠ i, T.keeps j y (t, g)) ∧ Φ a (t, g)) :
    (T.contract.logic i).call q Φ x := fun y hy hq a t ht => by
  obtain ⟨hinv, hgrows, hkeeps⟩ := hy hx
  obtain ⟨g, hg, hΦ⟩ := h y hinv hgrows (hkeeps i rfl) hq a t ht
  exact ⟨g, fun _ => hg, hΦ⟩

/-- In every state that a run reaches whose steps meet the condition, the invariant holds,
and every ended client has met its postcondition. -/
theorem run_holds {as : List (Action n τ)} {p p' : Pool n Ans σ ε α} {g : γ}
    (hp : T.inv (p.shared, g))
    (hw : ∀ i, (T.contract.logic i).wp (p.progs i) (fun o x => T.inv x ∧ T.post i o x) (p.shared, g))
    (hm : M.Meets T.cond as p) (hr : M.run as p = some p') :
    ∃ g', T.inv (p'.shared, g') ∧ T.grows (p.shared, g) (p'.shared, g') ∧
      T.contract.Holds p' g' := by
  obtain ⟨g', hh, hrely⟩ := T.contract.run_holds hw hm hr
  exact ⟨g', (hrely hp).1, (hrely hp).2.1, hh⟩

end Terms

end Interact
