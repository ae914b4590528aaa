import Mathlib.Tactic

/-! Operations that take effect at once, one after another: `apply` gives the
answer of an operation and the state it leaves. -/

namespace Interact

variable {ι ρ σ : Type} {apply : ι → σ → ρ × σ}

/-- The log of operations with their answers leads from the first state to the second. -/
inductive Serial (apply : ι → σ → ρ × σ) : σ → List (ι × ρ) → σ → Prop
  | nil (s : σ) : Serial apply s [] s
  | cons (i : ι) {s t : σ} {log : List (ι × ρ)} (rest : Serial apply (apply i s).2 log t) :
      Serial apply s ((i, (apply i s).1) :: log) t

namespace Serial

variable {s t u : σ} {log log' : List (ι × ρ)}

theorem append (h : Serial apply s log t) (h' : Serial apply t log' u) :
    Serial apply s (log ++ log') u := by
  induction h with
  | nil s => exact h'
  | cons i _ ih => exact .cons i (ih h')

/-- One more operation. -/
theorem snoc (h : Serial apply s log t) {i : ι} {a : ρ} (ha : apply i t = (a, u)) :
    Serial apply s (log ++ [(i, a)]) u := by
  refine h.append ?_
  have step : Serial apply t [(i, (apply i t).1)] (apply i t).2 := .cons i (.nil _)
  rwa [ha] at step

/-- What every operation keeps. -/
theorem keeps {P : σ → Prop} (h : Serial apply s log t) (step : ∀ i s, P s → P (apply i s).2)
    (hs : P s) : P t := by
  induction h with
  | nil s => exact hs
  | cons i _ ih => exact ih (step i _ hs)

/-- What every answer is like. -/
theorem answers {Q : ι → ρ → Prop} (h : Serial apply s log t) (step : ∀ i s, Q i (apply i s).1)
    {x : ι × ρ} (hx : x ∈ log) : Q x.1 x.2 := by
  induction h with
  | nil s => cases hx
  | cons i _ ih =>
    obtain rfl | hx := List.mem_cons.mp hx
    · exact step i _
    · exact ih hx

end Serial

/-- One more client in a log that names each client once. -/
theorem nodup_snoc {i : ι} {a : ρ} {log : List (ι × ρ)} (h : (log.map Prod.fst).Nodup)
    (new : ∀ a, (i, a) ∉ log) : ((log ++ [(i, a)]).map Prod.fst).Nodup := by
  rw [List.map_append, List.nodup_append]
  refine ⟨h, by simp, fun j hj k hk he => ?_⟩
  obtain ⟨⟨j, b⟩, hm, rfl⟩ := List.mem_map.mp hj
  have hk : k = i := by simpa using hk
  exact new b (by rwa [← hk, ← he])

end Interact
