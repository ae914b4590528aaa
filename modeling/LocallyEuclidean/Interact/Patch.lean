import Mathlib.Tactic

/-! Overwriting a window of a list, with a filler for what lies past its end. -/

namespace Interact

variable {α : Type} (z : α)

def patch (c : List α) (pos : ℕ) (d : List α) : List α :=
  c.take pos ++ List.replicate (pos - c.length) z ++ d ++ c.drop (pos + d.length)

theorem length_patch (c : List α) (pos : ℕ) (d : List α) :
    (patch z c pos d).length = max c.length (pos + d.length) := by
  simp only [patch, List.length_append, List.length_take, List.length_replicate, List.length_drop]
  omega

@[simp] theorem patch_end (c d : List α) : patch z c c.length d = c ++ d := by
  simp [patch]

/-- The window of `c` that a cursor at `pos` reads with room for `n`. -/
def window (c : List α) (pos n : ℕ) : List α := (c.drop pos).take n

@[simp] theorem window_nil (pos n : ℕ) : window ([] : List α) pos n = [] := by simp [window]

theorem length_window_le (c : List α) (pos n : ℕ) : (window c pos n).length ≤ n := by
  simp [window, List.length_take]

theorem length_window (c : List α) (pos n : ℕ) :
    (window c pos n).length = min n (c.length - pos) := by
  simp [window, List.length_take]

theorem window_eq_nil {c : List α} {pos n : ℕ} (hn : 0 < n) :
    window c pos n = [] ↔ c.length ≤ pos := by
  rw [window, List.take_eq_nil_iff, List.drop_eq_nil_iff]
  omega

/-- A window at the end of what has been read extends it inside the list. -/
theorem isPrefix_append_window {c m : List α} {pos : ℕ} (n : ℕ) (h : m <+: c.drop pos) :
    m ++ window c (pos + m.length) n <+: c.drop pos := by
  obtain ⟨t, ht⟩ := h
  refine ⟨t.drop (window c (pos + m.length) n).length, ?_⟩
  have hd : c.drop (pos + m.length) = t := by
    rw [← List.drop_drop, ← ht, List.drop_left]
  rw [window, hd, List.length_take, List.append_assoc, ← ht]
  congr 1
  rcases le_total n t.length with h | h
  · rw [min_eq_left h, List.take_append_drop]
  · rw [min_eq_right h, List.take_of_length_le h, List.drop_length, List.append_nil]

/-- An empty window is the end of the list: nothing is left to read. -/
theorem eq_drop_of_window_nil {c m : List α} {pos n : ℕ} (hn : 0 < n) (h : m <+: c.drop pos)
    (hw : window c (pos + m.length) n = []) : m = c.drop pos := by
  obtain ⟨t, ht⟩ := h
  rw [window_eq_nil hn] at hw
  have hl := congrArg List.length ht
  rw [List.length_append, List.length_drop] at hl
  have : t = [] := List.eq_nil_of_length_eq_zero (by omega)
  rw [← ht, this, List.append_nil]

theorem getElem?_window (v : List α) {pos n k : ℕ} (hk : k < n) :
    (window v pos n)[k]? = v[pos + k]? := by
  rw [window, List.getElem?_take_of_lt hk, List.getElem?_drop]

/-- Two windows show the same if and only if the lists agree there. -/
theorem window_eq_iff {v w : List α} {pos n : ℕ} :
    window v pos n = window w pos n ↔ ∀ k, pos ≤ k → k < pos + n → v[k]? = w[k]? := by
  constructor
  · intro h k hk hn
    have at_k := congrArg (fun u => u[k - pos]?) h
    simp only [getElem?_window _ (show k - pos < n by omega)] at at_k
    rwa [Nat.add_sub_of_le hk] at at_k
  · intro h
    refine List.ext_getElem? fun k => ?_
    rcases lt_or_ge k n with hk | hk
    · rw [getElem?_window v hk, getElem?_window w hk]
      exact h _ (Nat.le_add_right _ _) (by omega)
    · rw [List.getElem?_eq_none ((length_window_le v pos n).trans hk),
        List.getElem?_eq_none ((length_window_le w pos n).trans hk)]

/-- What is read of a list that is no shorter than `c` goes on in `c` if and only if it is what
`c` shows there. -/
theorem append_window_isPrefix_iff {v c m : List α} (n : ℕ) (hl : c.length ≤ v.length) :
    m ++ window v m.length n <+: c ↔ window v m.length n = window c m.length n ∧ m <+: c := by
  constructor
  · intro h
    have hm : m <+: c := (List.prefix_append _ _).trans h
    refine ⟨?_, hm⟩
    obtain ⟨t, rfl⟩ := hm
    have hw : window v m.length n <+: t := (List.prefix_append_right_inj m).mp h
    have shown : window (m ++ t) m.length n = t.take n := by rw [window, List.drop_left]
    have hle := hw.length_le
    rw [List.length_append] at hl
    rw [length_window] at hle
    rw [shown, List.prefix_iff_eq_take.mp hw, length_window]
    rcases le_total n t.length with hn | hn
    · rw [min_eq_left (by omega)]
    · rw [List.take_of_length_le hn, List.take_of_length_le (by omega)]
  · rintro ⟨hw, hm⟩
    have hp := isPrefix_append_window (c := c) n (show m <+: c.drop 0 from hm)
    simpa only [Nat.zero_add, List.drop_zero, ← hw] using hp

end Interact
