import Mathlib.Tactic

/-! Programs that call an environment, and their weakest preconditions.
A program is the tree of the calls it can make; a call is answered by whatever
the program runs against. The predicate transformer of a single call is a
parameter (`Logic`), so one set of rules serves a program that runs alone and a
program whose environment moves between its calls. -/

namespace Interact

variable {Q : Type} {Ans : Q → Type} {S ε ε' α β : Type}

/-- How a program ends. A dropped program never looks at its pending answer. -/
inductive Outcome (ε α : Type) where
  | ok (value : α)
  | err (error : ε)
  | panic (message : String)
  | dropped
  deriving DecidableEq, Repr

namespace Outcome

def mapErr (f : ε → ε') : Outcome ε α → Outcome ε' α
  | .ok a => .ok a
  | .err e => .err (f e)
  | .panic m => .panic m
  | .dropped => .dropped

def map (f : α → β) : Outcome ε α → Outcome ε β
  | .ok a => .ok (f a)
  | .err e => .err e
  | .panic m => .panic m
  | .dropped => .dropped

/-- `f` goes on with a value, from the state that goes with it. -/
def andThen (f : α → S → Outcome ε β × S) : Outcome ε α → S → Outcome ε β × S
  | .ok a, s => f a s
  | .err e, s => (.err e, s)
  | .panic m, s => (.panic m, s)
  | .dropped, s => (.dropped, s)

/-- The error becomes a value that the caller matches on. -/
def attempt : Outcome ε α → Outcome ε' (Except ε α)
  | .ok a => .ok (.ok a)
  | .err e => .ok (.error e)
  | .panic m => .panic m
  | .dropped => .dropped

end Outcome

inductive Prog (Ans : Q → Type) (ε α : Type) where
  | ret (value : α)
  | err (error : ε)
  | panic (message : String)
  | call (query : Q) (next : Ans query → Prog Ans ε α)

namespace Prog

def bind : Prog Ans ε α → (α → Prog Ans ε β) → Prog Ans ε β
  | .ret a, f => f a
  | .err e, _ => .err e
  | .panic m, _ => .panic m
  | .call q k, f => .call q fun a => (k a).bind f

instance : Monad (Prog Ans ε) where
  pure := .ret
  bind := bind

@[simp] theorem pure_eq (a : α) : (pure a : Prog Ans ε α) = .ret a := rfl

@[simp] theorem bind_eq (p : Prog Ans ε α) (f : α → Prog Ans ε β) : p >>= f = p.bind f := rfl

theorem bind_assoc {γ : Type} (p : Prog Ans ε α) (f : α → Prog Ans ε β)
    (g : β → Prog Ans ε γ) : (p.bind f).bind g = p.bind fun a => (f a).bind g := by
  induction p with
  | ret a => rfl
  | err e => rfl
  | panic m => rfl
  | call q k ih => simp only [bind, ih]

@[simp] theorem bind_ret (p : Prog Ans ε α) : p.bind .ret = p := by
  induction p with
  | ret a => rfl
  | err e => rfl
  | panic m => rfl
  | call q k ih => simp only [bind, ih]

def mapErr (f : ε → ε') : Prog Ans ε α → Prog Ans ε' α
  | .ret a => .ret a
  | .err e => .err (f e)
  | .panic m => .panic m
  | .call q k => .call q fun a => (k a).mapErr f

def attempt : Prog Ans ε α → Prog Ans ε' (Except ε α)
  | .ret a => .ret (.ok a)
  | .err e => .ret (.error e)
  | .panic m => .panic m
  | .call q k => .call q fun a => (k a).attempt

def ask (q : Q) : Prog Ans ε (Ans q) := .call q .ret

/-- The program has ended: it makes no further call. -/
def ended : Prog Ans ε α → Option (Outcome ε α)
  | .ret a => some (.ok a)
  | .err e => some (.err e)
  | .panic m => some (.panic m)
  | .call _ _ => none

/-- Every call the program can make, on any answers, is an allowed one. -/
def Uses (allowed : Q → Prop) : Prog Ans ε α → Prop
  | .ret _ => True
  | .err _ => True
  | .panic _ => True
  | .call q k => allowed q ∧ ∀ a, (k a).Uses allowed

theorem Uses.bind {allowed : Q → Prop} {p : Prog Ans ε α} {f : α → Prog Ans ε β}
    (first : p.Uses allowed) (rest : ∀ a, (f a).Uses allowed) : (p.bind f).Uses allowed := by
  induction p with
  | ret a => exact rest a
  | err e => trivial
  | panic m => trivial
  | call q k ih => exact ⟨first.1, fun a => ih a (first.2 a)⟩

theorem Uses.mapErr {allowed : Q → Prop} {p : Prog Ans ε α} (f : ε → ε')
    (uses : p.Uses allowed) : (p.mapErr f).Uses allowed := by
  induction p with
  | ret a => trivial
  | err e => trivial
  | panic m => trivial
  | call q k ih => exact ⟨uses.1, fun a => ih a (uses.2 a)⟩

theorem Uses.attempt {allowed : Q → Prop} {p : Prog Ans ε α}
    (uses : p.Uses allowed) : (p.attempt : Prog Ans ε' _).Uses allowed := by
  induction p with
  | ret a => trivial
  | err e => trivial
  | panic m => trivial
  | call q k ih => exact ⟨uses.1, fun a => ih a (uses.2 a)⟩

theorem Uses.mono {allowed allowed' : Q → Prop} (h : ∀ q, allowed q → allowed' q)
    {p : Prog Ans ε α} (uses : p.Uses allowed) : p.Uses allowed' := by
  induction p with
  | ret a => trivial
  | err e => trivial
  | panic m => trivial
  | call q k ih => exact ⟨h q uses.1, fun a => ih a (uses.2 a)⟩

/-- What is left of a program after some answers. -/
inductive Leads : Prog Ans ε α → Prog Ans ε α → Prop where
  | refl (p : Prog Ans ε α) : Leads p p
  | next {p : Prog Ans ε α} {q : Q} {k : Ans q → Prog Ans ε α} (h : Leads p (.call q k))
      (a : Ans q) : Leads p (k a)

theorem Leads.uses {allowed : Q → Prop} {p r : Prog Ans ε α} (h : p.Leads r)
    (uses : p.Uses allowed) : r.Uses allowed := by
  induction h with
  | refl => exact uses
  | next _ a ih => exact ih.2 a

theorem uses_any (p : Prog Ans ε α) : p.Uses fun _ => True := by
  induction p with
  | ret a => trivial
  | err e => trivial
  | panic m => trivial
  | call q k ih => exact ⟨trivial, ih⟩

end Prog

/-- The weakest precondition of one call, monotone in what is asked of the answer. -/
structure Logic (Ans : Q → Type) (S : Type) where
  call : (q : Q) → (Ans q → S → Prop) → S → Prop
  mono : ∀ {q : Q} {Φ Ψ : Ans q → S → Prop} {s : S},
    (∀ a s', Φ a s' → Ψ a s') → call q Φ s → call q Ψ s

namespace Logic

variable (L : Logic Ans S)

def wp : Prog Ans ε α → (Outcome ε α → S → Prop) → S → Prop
  | .ret a, post, s => post (.ok a) s
  | .err e, post, s => post (.err e) s
  | .panic m, post, s => post (.panic m) s
  | .call q k, post, s => L.call q (fun a s' => wp (k a) post s') s

@[simp] theorem wp_ret (a : α) (post : Outcome ε α → S → Prop) (s : S) :
    L.wp (.ret a : Prog Ans ε α) post s ↔ post (.ok a) s := Iff.rfl

@[simp] theorem wp_err (e : ε) (post : Outcome ε α → S → Prop) (s : S) :
    L.wp (.err e : Prog Ans ε α) post s ↔ post (.err e) s := Iff.rfl

@[simp] theorem wp_panic (m : String) (post : Outcome ε α → S → Prop) (s : S) :
    L.wp (.panic m : Prog Ans ε α) post s ↔ post (.panic m) s := Iff.rfl

@[simp] theorem wp_call (q : Q) (k : Ans q → Prog Ans ε α) (post : Outcome ε α → S → Prop)
    (s : S) : L.wp (.call q k) post s ↔ L.call q (fun a s' => L.wp (k a) post s') s := Iff.rfl

@[simp] theorem wp_ask (q : Q) (post : Outcome ε (Ans q) → S → Prop) (s : S) :
    L.wp (Prog.ask q) post s ↔ L.call q (fun a s' => post (.ok a) s') s := Iff.rfl

variable {L}

theorem wp_mono {p : Prog Ans ε α} {P R : Outcome ε α → S → Prop} {s : S}
    (h : ∀ o s', P o s' → R o s') (hp : L.wp p P s) : L.wp p R s := by
  induction p generalizing s with
  | ret a => exact h _ _ hp
  | err e => exact h _ _ hp
  | panic m => exact h _ _ hp
  | call q k ih => exact L.mono (fun a s' ha => ih a ha) hp

variable (L)

/-- The postcondition under which the first part of `p.bind f` may end. -/
def after (f : α → Prog Ans ε β) (post : Outcome ε β → S → Prop) : Outcome ε α → S → Prop
  | .ok a, s => L.wp (f a) post s
  | .err e, s => post (.err e) s
  | .panic m, s => post (.panic m) s
  | .dropped, s => post .dropped s

@[simp] theorem after_ok (f : α → Prog Ans ε β) (post : Outcome ε β → S → Prop) (a : α) (s : S) :
    L.after f post (.ok a) s ↔ L.wp (f a) post s := Iff.rfl

@[simp] theorem after_err (f : α → Prog Ans ε β) (post : Outcome ε β → S → Prop) (e : ε) (s : S) :
    L.after f post (.err e) s ↔ post (.err e) s := Iff.rfl

@[simp] theorem after_panic (f : α → Prog Ans ε β) (post : Outcome ε β → S → Prop) (m : String)
    (s : S) : L.after f post (.panic m) s ↔ post (.panic m) s := Iff.rfl

@[simp] theorem wp_bind (p : Prog Ans ε α) (f : α → Prog Ans ε β)
    (post : Outcome ε β → S → Prop) (s : S) :
    L.wp (p.bind f) post s ↔ L.wp p (L.after f post) s := by
  induction p generalizing s with
  | ret a => rfl
  | err e => rfl
  | panic m => rfl
  | call q k ih => simp only [Prog.bind, wp_call, ih]

@[simp] theorem wp_mapErr (p : Prog Ans ε α) (f : ε → ε') (post : Outcome ε' α → S → Prop)
    (s : S) : L.wp (p.mapErr f) post s ↔ L.wp p (fun o s' => post (o.mapErr f) s') s := by
  induction p generalizing s with
  | ret a => rfl
  | err e => rfl
  | panic m => rfl
  | call q k ih => simp only [Prog.mapErr, wp_call, ih]

@[simp] theorem wp_attempt (p : Prog Ans ε α) (post : Outcome ε' (Except ε α) → S → Prop)
    (s : S) : L.wp p.attempt post s ↔ L.wp p (fun o s' => post o.attempt s') s := by
  induction p generalizing s with
  | ret a => rfl
  | err e => rfl
  | panic m => rfl
  | call q k ih => simp only [Prog.attempt, wp_call, ih]

variable {L}

/-- A step of a `do` block that runs under `map_err`, then the rest of the block. -/
theorem wp_then {p : Prog Ans ε α} {wrap : ε → ε'} {f : α → Prog Ans ε' β}
    {post : Outcome ε' β → S → Prop} {s : S}
    (h : L.wp p (fun o s' => L.after f post (o.mapErr wrap) s') s) :
    L.wp ((p.mapErr wrap).bind f) post s := by
  rwa [wp_bind, wp_mapErr]

/-- A step whose error the block matches on, then the rest of the block. -/
theorem wp_try {p : Prog Ans ε α} {f : Except ε α → Prog Ans ε' β}
    {post : Outcome ε' β → S → Prop} {s : S}
    (h : L.wp p (fun o s' => L.after f post o.attempt s') s) :
    L.wp ((p.attempt : Prog Ans ε' _).bind f) post s := by
  rwa [wp_bind, wp_attempt]

variable (L)

/-- An assertion that every allowed call keeps holds when the program ends. -/
theorem wp_of_uses {allowed : Q → Prop} {I : S → Prop} {p : Prog Ans ε α}
    (keeps : ∀ q s, allowed q → I s → L.call q (fun _ s' => I s') s)
    (uses : p.Uses allowed) {s : S} (hs : I s) : L.wp p (fun _ s' => I s') s := by
  induction p generalizing s with
  | ret a => exact hs
  | err e => exact hs
  | panic m => exact hs
  | call q k ih => exact L.mono (fun a s' ha => ih a (uses.2 a) ha) (keeps q s uses.1 hs)

/-- A logic whose calls do what those of another do, in states that `V` relates. -/
theorem wp_of_simulation {S' : Type} {L : Logic Ans S} {L' : Logic Ans S'} {V : S' → S → Prop}
    (calls : ∀ q t s Φ, V t s → L.call q Φ s → L'.call q (fun a t' => ∃ s', V t' s' ∧ Φ a s') t)
    {p : Prog Ans ε α} {post : Outcome ε α → S → Prop} {t : S'} {s : S} (hv : V t s)
    (h : L.wp p post s) : L'.wp p (fun o t' => ∃ s', V t' s' ∧ post o s') t := by
  induction p generalizing t s with
  | ret a | err e | panic m => exact ⟨s, hv, h⟩
  | call q k ih =>
    refine L'.mono ?_ (calls q t s _ hv h)
    rintro a t' ⟨s', hv', h'⟩
    exact ih a hv' h'

/-- Two logics side by side, each with a state of its own. -/
def both {S' : Type} (L : Logic Ans S) (L' : Logic Ans S') : Logic Ans (S × S') where
  call q Φ x := ∃ Ψ Ψ', L.call q Ψ x.1 ∧ L'.call q Ψ' x.2 ∧
    ∀ a s s', Ψ a s → Ψ' a s' → Φ a (s, s')
  mono h hc := by
    obtain ⟨Ψ, Ψ', hL, hL', hΦ⟩ := hc
    exact ⟨Ψ, Ψ', hL, hL', fun a s s' hs hs' => h a _ (hΦ a s s' hs hs')⟩

theorem wp_both {S' : Type} {L : Logic Ans S} {L' : Logic Ans S'} {p : Prog Ans ε α}
    {P : Outcome ε α → S → Prop} {R : Outcome ε α → S' → Prop} {s : S} {s' : S'}
    (h : L.wp p P s) (h' : L'.wp p R s') :
    (both L L').wp p (fun o x => P o x.1 ∧ R o x.2) (s, s') := by
  induction p generalizing s s' with
  | ret a | err e | panic m => exact ⟨h, h'⟩
  | call q k ih => exact ⟨_, _, h, h', fun a _ _ hs hs' => ih a hs hs'⟩

/-- A logic that may lapse at any call, and knows nothing from then on. -/
def lapse (L : Logic Ans S) : Logic Ans (Option S) where
  call q Φ
    | none => ∀ a, Φ a none
    | some s => L.call q (fun a s' => Φ a (some s')) s ∧ ∀ a, Φ a none
  mono {q Φ Ψ x} h hc := by
    cases x with
    | none => exact fun a => h a _ (hc a)
    | some s => exact ⟨L.mono (fun a s' ha => h a _ ha) hc.1, fun a => h a _ (hc.2 a)⟩

theorem wp_lapsed {L : Logic Ans S} (p : Prog Ans ε α) {post : Outcome ε α → Option S → Prop}
    (hn : ∀ o, post o none) : L.lapse.wp p post none := by
  induction p with
  | ret a | err e | panic m => exact hn _
  | call q k ih => exact ih

theorem wp_lapse {L : Logic Ans S} {p : Prog Ans ε α} {post : Outcome ε α → Option S → Prop} {s : S}
    (hn : ∀ o, post o none) (h : L.wp p (fun o s' => post o (some s')) s) :
    L.lapse.wp p post (some s) := by
  induction p generalizing s with
  | ret a | err e | panic m => exact h
  | call q k ih => exact ⟨L.mono (fun a s' ha => ih a ha) h, fun a => wp_lapsed (k a) hn⟩

end Logic

/-! A program that runs alone: `serve` answers each call, or drops the caller. -/

section Alone

variable (serve : (q : Q) → S → Option (Ans q) × S)

def run : Prog Ans ε α → S → Outcome ε α × S
  | .ret a, s => (.ok a, s)
  | .err e, s => (.err e, s)
  | .panic m, s => (.panic m, s)
  | .call q k, s =>
    match serve q s with
    | (some a, s') => run (k a) s'
    | (none, s') => (.dropped, s')

theorem run_bind (p : Prog Ans ε α) (f : α → Prog Ans ε β) (s : S) :
    run serve (p.bind f) s = (run serve p s).1.andThen (fun a => run serve (f a)) (run serve p s).2 := by
  induction p generalizing s with
  | ret a | err e | panic m => rfl
  | call q k ih =>
    rw [Prog.bind, run, run]
    rcases serve q s with ⟨_ | a, s'⟩
    · rfl
    · exact ih a s'

theorem run_mapErr (f : ε → ε') (p : Prog Ans ε α) (s : S) :
    run serve (p.mapErr f) s = ((run serve p s).1.mapErr f, (run serve p s).2) := by
  induction p generalizing s with
  | ret a | err e | panic m => rfl
  | call q k ih =>
    rw [Prog.mapErr, run, run]
    rcases serve q s with ⟨_ | a, s'⟩
    · rfl
    · exact ih a s'

/-- The logic of a run alone; `gone` is what must hold where the caller is dropped. -/
def alone (gone : S → Prop) : Logic Ans S where
  call q Φ s :=
    match serve q s with
    | (some a, s') => Φ a s'
    | (none, s') => gone s'
  mono := by
    intro q Φ Ψ s h hc
    split <;> rename_i hs <;> simp only [hs] at hc
    · exact h _ _ hc
    · exact hc

variable {serve}

theorem wp_alone {gone : S → Prop} {p : Prog Ans ε α} {post : Outcome ε α → S → Prop} {s : S}
    (hg : ∀ s', gone s' → post .dropped s') (h : (alone serve gone).wp p post s) :
    post (run serve p s).1 (run serve p s).2 := by
  induction p generalizing s with
  | ret a => exact h
  | err e => exact h
  | panic m => exact h
  | call q k ih =>
    simp only [Logic.wp_call, alone] at h
    simp only [run]
    split at h
    · exact ih _ h
    · exact hg _ h

/-- A run that is not dropped shows what the logic asks. -/
theorem wp_of_run {gone : S → Prop} {p : Prog Ans ε α} {post : Outcome ε α → S → Prop} {s : S}
    {o : Outcome ε α} {s' : S} (hr : run serve p s = (o, s')) (ho : o ≠ .dropped) (h : post o s') :
    (alone serve gone).wp p post s := by
  induction p generalizing s with
  | ret a | err e | panic m =>
    obtain ⟨rfl, rfl⟩ := Prod.mk.inj hr
    exact h
  | call q k ih =>
    simp only [run] at hr
    simp only [Logic.wp_call, alone]
    split at hr
    · exact ih _ hr
    · exact absurd (Prod.mk.inj hr).1.symm ho

theorem alone_call {gone : S → Prop} {q : Q} {a : Ans q} {s s' : S}
    (hs : serve q s = (some a, s')) {Φ : Ans q → S → Prop} (h : Φ a s') :
    (alone serve gone).call q Φ s := by
  simpa only [alone, hs] using h

theorem alone_gone {gone : S → Prop} {q : Q} {s s' : S} (hs : serve q s = (none, s'))
    {Φ : Ans q → S → Prop} (h : gone s') : (alone serve gone).call q Φ s := by
  simpa only [alone, hs] using h

variable (serve)

/-- The calls of a run, each with the state it was made in. -/
def trace : Prog Ans ε α → S → List (Q × S)
  | .call q k, s =>
    (q, s) :: match serve q s with
      | (some a, s') => trace (k a) s'
      | (none, _) => []
  | _, _ => []

/-- `serve` beside the calls so far, newest first. -/
def watched (q : Q) (w : S × List (Q × S)) : Option (Ans q) × S × List (Q × S) :=
  ((serve q w.1).1, (serve q w.1).2, (q, w.1) :: w.2)

theorem run_watched (p : Prog Ans ε α) (s : S) (l : List (Q × S)) :
    run (watched serve) p (s, l) =
      ((run serve p s).1, (run serve p s).2, (trace serve p s).reverse ++ l) := by
  induction p generalizing s l with
  | ret a => rfl
  | err e => rfl
  | panic m => rfl
  | call q k ih =>
    simp only [run, trace, watched]
    rcases serve q s with ⟨_ | a, s'⟩
    · simp
    · simp only [ih, List.reverse_cons, List.append_assoc, List.singleton_append]

variable {serve}

theorem watched_alone {gone : S × List (Q × S) → Prop} {q : Q} {w : S × List (Q × S)}
    {Φ : Ans q → S × List (Q × S) → Prop}
    (h : (alone serve fun s' => gone (s', (q, w.1) :: w.2)).call q
      (fun a s' => Φ a (s', (q, w.1) :: w.2)) w.1) :
    (alone (watched serve) gone).call q Φ w := by
  simp only [alone, watched] at h ⊢
  split <;> rename_i hs <;> simp only [Prod.mk.injEq] at hs <;> obtain ⟨hs, rfl⟩ := hs
  all_goals
    generalize serve q w.1 = r at h hs ⊢
    obtain ⟨_, s'⟩ := r
    obtain rfl := hs
    exact h

/-- What is shown of a watched run holds of the run and its calls. -/
theorem wp_watched {gone : S × List (Q × S) → Prop} {p : Prog Ans ε α}
    {post : Outcome ε α → S × List (Q × S) → Prop} {s : S} (hg : ∀ w, gone w → post .dropped w)
    (h : (alone (watched serve) gone).wp p post (s, [])) :
    post (run serve p s).1 ((run serve p s).2, (trace serve p s).reverse) := by
  have hw := wp_alone hg h
  rwa [run_watched, List.append_nil] at hw

end Alone

/-! A program against any environment that keeps its promises. -/

section Guarded

/-- The calls that have been answered, newest first. -/
abbrev History (Ans : Q → Type) := List (Σ q, Ans q)

variable {allowed : History Ans → Q → Prop} {promised : (q : Q) → Ans q → Prop}

variable (allowed promised) in
/-- A call must be allowed after what came before it, and any promised answer may come. -/
def guarded : Logic Ans (History Ans) where
  call q Φ h := allowed h q ∧ ∀ a, promised q a → Φ a (⟨q, a⟩ :: h)
  mono h hc := ⟨hc.1, fun a ha => h a _ (hc.2 a ha)⟩

/-- Every call of a run is allowed. -/
def Obeys (allowed : History Ans → Q → Prop) (serve : (q : Q) → S → Option (Ans q) × S) :
    Prog Ans ε α → S → History Ans → Prop
  | .call q k, s, h => allowed h q ∧
    match serve q s with
    | (some a, s') => Obeys allowed serve (k a) s' (⟨q, a⟩ :: h)
    | (none, _) => True
  | _, _, _ => True

theorem obeys_of_wp {serve : (q : Q) → S → Option (Ans q) × S}
    (keeps : ∀ q s a s', serve q s = (some a, s') → promised q a) {P : Outcome ε α → Prop}
    (hd : P .dropped) {p : Prog Ans ε α} {h : History Ans}
    (hw : (guarded allowed promised).wp p (fun o _ => P o) h) (s : S) :
    Obeys allowed serve p s h ∧ P (run serve p s).1 := by
  induction p generalizing h s with
  | ret a => exact ⟨trivial, hw⟩
  | err e => exact ⟨trivial, hw⟩
  | panic m => exact ⟨trivial, hw⟩
  | call q k ih =>
    obtain ⟨hq, hk⟩ := hw
    simp only [Obeys, run]
    split
    · rename_i a s' hs
      obtain ⟨ho, hp⟩ := ih a (hk a (keeps q s a s' hs)) s'
      exact ⟨⟨hq, ho⟩, hp⟩
    · exact ⟨⟨hq, trivial⟩, hd⟩

end Guarded

end Interact
