import LocallyEuclidean.Postgres.Session
import LocallyEuclidean.Server.Service

/-! What one step of one client does to the state that all clients share. -/

namespace LocallyEuclidean.Server
open Interact Postgres Storage

namespace Shared

variable {n : ℕ}

@[simp] theorem wake_db (s : Shared n) (i : Fin n) (c : Bool) : (s.wake i c).db = s.db := rfl
@[simp] theorem wake_conns (s : Shared n) (i : Fin n) (c : Bool) :
    (s.wake i c).conns = s.conns := rfl
@[simp] theorem wake_history (s : Shared n) (i : Fin n) (c : Bool) :
    (s.wake i c).history = s.history := rfl

@[simp] theorem record_db (s : Shared n) (i : Fin n) (q : Query) (a : q.Reply) :
    (s.record i q a).db = s.db := by cases a <;> rfl
@[simp] theorem record_conns (s : Shared n) (i : Fin n) (q : Query) (a : q.Reply) :
    (s.record i q a).conns = s.conns := by cases a <;> rfl

@[simp] theorem leave_db (s : Shared n) (i : Fin n) : (s.leave i).db = s.db := rfl
@[simp] theorem leave_conns (s : Shared n) (i : Fin n) :
    (s.leave i).conns = Function.update s.conns i .idle := rfl
@[simp] theorem leave_history (s : Shared n) (i : Fin n) : (s.leave i).history = s.history := rfl

theorem writes_self {s t : Shared n} {i : Fin n} {c : Conn}
    (hc : t.conns = Function.update s.conns i c) : t.writes i = c.writes := by
  rw [writes, hc, Function.update_self]

theorem writes_of_ne {s t : Shared n} {i j : Fin n} {c : Conn}
    (hc : t.conns = Function.update s.conns i c) (hj : j ≠ i) : t.writes j = s.writes j := by
  rw [writes, hc, Function.update_of_ne hj, writes]

/-- Where one client's writes stay or go, everyone's do. -/
theorem writes_still {s t : Shared n} {i : Fin n} {c : Conn}
    (hc : t.conns = Function.update s.conns i c) (hw : c.writes = s.writes i ∨ c.writes = [])
    (j : Fin n) : t.writes j = s.writes j ∨ t.writes j = [] := by
  by_cases hj : j = i
  · subst hj
    rwa [writes_self hc]
  · exact .inl (writes_of_ne hc hj)

/-- A statement's record, if it was answered without an error. -/
def recorded (i : Fin n) (q : Query) (a : q.Reply) (h : List (Record n)) : List (Record n) :=
  match a with
  | .ok _ => ⟨i, q⟩ :: h
  | .error _ => h

/-- An answered statement has either lost a page it waited for, or has been served
in the caller's own session. -/
theorem serve_answered {i : Fin n} {q : Query} {s t : Shared n} {a : q.Reply}
    (h : s.serve i q = some (some a, t)) :
    (s.waits i = .lost ∧ a = .error .writeConflict ∧ t.db = s.db ∧
        t.conns = Function.update s.conns i .failed ∧ t.history = s.history) ∨
      ∃ c, (s.waits i = .free ∧ s.blocker i q = none) ∧
        (Session.mk s.db (s.conns i)).serve (fun _ => false) q = some (a, ⟨t.db, c⟩) ∧
        t.conns = Function.update s.conns i c ∧ t.history = recorded i q a s.history := by
  unfold serve at h
  split at h
  · cases h
  · rename_i hw
    simp only [Option.some.injEq, Prod.mk.injEq] at h
    obtain ⟨rfl, rfl⟩ := h
    exact .inl ⟨hw, rfl, rfl, rfl, rfl⟩
  · rename_i hw
    split at h
    · simp at h
    · rename_i hb
      split at h
      · rename_i a' t' ht
        simp only [Option.some.injEq, Prod.mk.injEq] at h
        obtain ⟨rfl, rfl⟩ := h
        refine .inr ⟨t'.conn, ⟨hw, hb⟩, ?_, ?_, ?_⟩
        · rw [ht]
          split <;> simp
        · split <;> simp
        · cases a' <;> split <;> rfl
      · cases h

/-- A statement that stays pending changes nothing but who waits. -/
theorem serve_pending {i : Fin n} {q : Query} {s t : Shared n} (h : s.serve i q = some (none, t)) :
    t.db = s.db ∧ t.conns = s.conns ∧ t.history = s.history := by
  unfold serve at h
  split at h
  · cases h
  · simp at h
  · split at h
    · simp only [Option.some.injEq, Prod.mk.injEq, true_and] at h
      obtain rfl := h
      exact ⟨rfl, rfl, rfl⟩
    · split at h
      · simp at h
      · cases h

/-- Only a write stays pending. -/
theorem pending_write {i : Fin n} {q : Query} {s t : Shared n} (h : s.serve i q = some (none, t)) :
    ∃ fd data, q = .loWrite fd data := by
  cases q with
  | loWrite fd data => exact ⟨fd, data, rfl⟩
  | _ =>
    unfold serve at h
    split at h
    · cases h
    · simp at h
    · simp only [blocker] at h
      split at h <;> simp at h

/-- It waits for a client that has written. -/
theorem pending_writes {i : Fin n} {q : Query} {s t : Shared n} (h : s.serve i q = some (none, t)) :
    ∃ j ≠ i, s.writes j ≠ [] := by
  obtain ⟨fd, data, rfl⟩ := pending_write h
  unfold serve at h
  split at h
  · cases h
  · simp at h
  · split at h
    · rename_i j hj
      simp only [blocker] at hj
      split at hj
      · split at hj
        · obtain ⟨hne, hany⟩ := by simpa using List.find?_some hj
          refine ⟨j, hne, fun hnil => ?_⟩
          simp [hnil] at hany
        · cases hj
      · cases hj
    · split at h
      · simp at h
      · cases h

theorem wake_waits {s : Shared n} {i j : Fin n} {c : Bool} (h : (s.wake i c).waits j ≠ .free) :
    s.waits j ≠ .free := by
  simp only [wake] at h
  split at h
  · rename_i hj
    rw [hj]
    simp
  · exact h

@[simp] theorem record_waits (s : Shared n) (i : Fin n) (q : Query) (a : q.Reply) :
    (s.record i q a).waits = s.waits := by cases a <;> rfl

/-- A client that has its answer waits no more, and no other client begins to wait. -/
theorem answered_waits {i : Fin n} {q : Query} {s t : Shared n} {a : q.Reply}
    (h : s.serve i q = some (some a, t)) (j : Fin n) (hj : t.waits j ≠ .free) :
    j ≠ i ∧ s.waits j ≠ .free := by
  unfold serve at h
  split at h
  · cases h
  · simp only [Option.some.injEq, Prod.mk.injEq] at h
    obtain ⟨rfl, rfl⟩ := h
    have hne : j ≠ i := by
      rintro rfl
      simp at hj
    exact ⟨hne, by simpa [Function.update_of_ne hne] using hj⟩
  · rename_i hfree
    split at h
    · simp at h
    · split at h
      · rename_i r _
        simp only [Option.some.injEq, Prod.mk.injEq] at h
        obtain ⟨rfl, rfl⟩ := h
        rw [record_waits] at hj
        have hj : s.waits j ≠ .free := by
          split at hj
          · exact wake_waits hj
          · exact hj
        exact ⟨fun he => hj (he ▸ hfree), hj⟩
      · cases h

/-- Only the client itself begins to wait. -/
theorem pending_waits {i : Fin n} {q : Query} {s t : Shared n} (h : s.serve i q = some (none, t))
    (j : Fin n) (hj : t.waits j ≠ .free) : j = i ∨ s.waits j ≠ .free := by
  unfold serve at h
  split at h
  · cases h
  · simp at h
  · split at h
    · simp only [Option.some.injEq, Prod.mk.injEq, true_and] at h
      obtain rfl := h
      by_cases hne : j = i
      · exact .inl hne
      · exact .inr (by simpa [Function.update_of_ne hne] using hj)
    · split at h
      · simp at h
      · cases h

end Shared

/-! A client that waits is at a write. -/

section Waiting

variable {n : ℕ} {ε α : Type}

def isWrite : Query → Bool
  | .loWrite _ _ => true
  | _ => false

def WaitsAtWrite (p : Interact.Pool n Query.Reply (Shared n) ε α) : Prop :=
  ∀ i, p.shared.waits i ≠ .free → ∀ q k, p.progs i = .call q k → isWrite q = true

theorem settle_waits {i j : Fin n} {prog : DbProg ε α} {s : Shared n}
    (h : ((machine n).settle i prog s).waits j ≠ .free) : s.waits j ≠ .free := by
  unfold Machine.settle at h
  split at h
  · exact Shared.wake_waits (s := { s with conns := Function.update s.conns i .idle }) h
  · exact h

theorem WaitsAtWrite.act {a : Action n Timestamp} {p p' : Interact.Pool n Query.Reply (Shared n) ε α}
    (h : WaitsAtWrite p) (ha : (machine n).act a p = some p') : WaitsAtWrite p' := by
  cases a with
  | env now =>
    obtain rfl := Option.some.inj ha
    exact h
  | step i =>
    obtain ⟨q, k, hq, ⟨a, s, hs, rfl⟩ | ⟨s, hs, rfl⟩⟩ := (machine n).act_step ha
    · intro j hj
      obtain ⟨hne, hj⟩ := Shared.answered_waits hs j (settle_waits hj)
      simpa [Function.update_of_ne hne] using h j hj
    · intro j hj q' k' hq'
      obtain rfl | hj := Shared.pending_waits hs j hj
      · obtain ⟨fd, data, rfl⟩ := Shared.pending_write hs
        obtain ⟨rfl, -⟩ := Prog.call.inj (hq.symm.trans hq')
        rfl
      · exact h j hj q' k' hq'

/-- The condition may count on it. -/
theorem meets_waiting {cond : Fin n → Query → Shared n → Prop} {as : List (Action n Timestamp)}
    {p : Interact.Pool n Query.Reply (Shared n) ε α} (h : WaitsAtWrite p)
    (hm : (machine n).Meets cond as p) :
    (machine n).Meets (fun i q s => cond i q s ∧ (isWrite q = false → s.waits i = .free)) as p := by
  induction as generalizing p with
  | nil => trivial
  | cons a as ih =>
    cases a with
    | env now => exact ih (h.act (a := .env now) rfl) hm
    | step i =>
      refine ⟨fun q k hq => ⟨hm.1 q k hq, fun hw => ?_⟩, fun p' hp' => ih (h.act hp') (hm.2 p' hp')⟩
      by_contra hne
      rw [h i hne q k hq] at hw
      cases hw

end Waiting

section Calls

variable {n : ℕ} {γ ε α : Type}

/-- Client `i`'s statement has been served in its own session, which has come to `db` and `c`. -/
structure Shared.Answered (i : Fin n) (q : Query) (a : q.Reply) (s : Shared n) (db : Db) (c : Conn)
    (t : Shared n) : Prop where
  db : t.db = db
  conns : t.conns = Function.update s.conns i c
  history : t.history = Shared.recorded i q a s.history
  waits : ∀ j, t.waits j ≠ .free → s.waits j ≠ .free

/-- The call of a client that waits for nobody. -/
theorem call_served {T : Terms (machine n) γ ε α} {i : Fin n} {q : Query}
    {Φ : q.Reply → Shared n × γ → Prop} {x : Shared n × γ} (hx : T.inv x)
    (h : ∀ y, T.inv y → T.grows x y → T.keeps i x y → T.cond i q y.1 → y.1.waits i = .free ∧
      ∃ a db c, (Session.mk y.1.db (y.1.conns i)).serve (fun _ => false) q = some (a, ⟨db, c⟩) ∧
        ∀ t, Shared.Answered i q a y.1 db c t → ∃ g, (T.inv (t, g) ∧ T.grows y (t, g) ∧
          ∀ j ≠ i, T.keeps j y (t, g)) ∧ Φ a (t, g)) :
    (T.contract.logic i).call q Φ x := by
  refine Terms.call hx fun y hy hgrows hkeeps hcond a' t ht => ?_
  obtain ⟨hfree, a, db, c, hs, hΦ⟩ := h y hy hgrows hkeeps hcond
  obtain ⟨hlost, -⟩ | ⟨c', -, hs', hc, hh⟩ := Shared.serve_answered ht
  · rw [hfree] at hlost
    cases hlost
  · obtain ⟨rfl, hst⟩ := Prod.mk.inj (Option.some.inj (hs.symm.trans hs'))
    obtain ⟨hdb, rfl⟩ := Session.mk.inj hst
    exact hΦ t ⟨hdb.symm, hc, hh, fun j hj => (Shared.answered_waits ht j hj).2⟩

end Calls

/-! A run of two clients. -/

def client0 : Fin 2 := 0

def client1 : Fin 2 := 1

/-- The orders that two clients can be sent in. -/
def orders : List (List (Fin 2)) := [[], [0], [1], [0, 1], [1, 0]]

theorem mem_orders {order : List (Fin 2)} (h : order.Nodup) : order ∈ orders := by
  have short := h.length_le_card
  rw [Fintype.card_fin] at short
  obtain _ | ⟨i, _ | ⟨j, _ | ⟨k, rest⟩⟩⟩ := order
  · decide
  · revert i
    decide
  · revert i j
    decide
  · simp only [List.length_cons] at short
    omega

end LocallyEuclidean.Server
