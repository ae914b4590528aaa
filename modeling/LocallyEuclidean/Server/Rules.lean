import LocallyEuclidean.Server.RangeCheck
import LocallyEuclidean.Storage.Rules

/-! Rules for the loops of the request handlers, in any logic of calls. -/

namespace LocallyEuclidean.Server
open Interact Postgres Storage

variable {S : Type} {L : Logic Query.Reply S} {fd : ℤ}

/-- An upload either arrives whole or meets a write that fails. -/
theorem wp_appendFrames {body : Bytes} {W : Bytes → S → Prop} {F : SqlxError → S → Prop}
    (hw : WritesOn L fd body W F) {id : FileId} {parts : List Bytes} {w : Bytes} {s : S}
    (hb : w ++ parts.flatten = body) (hW : W w s) :
    L.wp (appendFrames ⟨.ofFd fd, id⟩ (frames parts)) (fun o s' =>
      (o = .ok () ∧ W body s') ∨ ∃ e, o = .err (writeError e) ∧ F e s') s := by
  induction parts generalizing w s with
  | nil =>
    obtain rfl : w = body := by simpa using hb
    exact .inl ⟨rfl, hW⟩
  | cons data parts ih =>
    have hb : w ++ data ++ parts.flatten = body := by simpa using hb
    rw [frames_cons, appendFrames, Prog.bind_eq, Logic.wp_bind]
    refine Logic.wp_mono ?_ (hw.wp_append hb hW)
    rintro _ s' (⟨rfl, hW'⟩ | ⟨e, rfl, hF⟩)
    · exact ih hb hW'
    · exact .inr ⟨e, rfl, hF⟩

section Matching

variable {A E : Bytes → S → Prop} (hr : BlobHandle.ReadsOn L fd A E)
include hr

theorem wp_checkRangeMatches {parts : List Bytes} {start : ℕ} (hn : start ≤ maxObjectSize) {s : S}
    (h : L.call (.loLseek64 fd start .seekSet) (fun a s' =>
      ∃ k : ℕ, a = .ok (some (k : ℤ)) ∧ A [] s') s) :
    L.wp (checkRangeMatches (frames parts) start (.ofFd fd)) (fun o s' =>
      ∃ v, o = .ok v ∧ Verdict A E parts.flatten v s') s := by
  rw [checkRangeMatches_eq]
  refine wp_checkRangeMatchesOf hr.reader parts (BlobHandle.wp_seekStart hn (L.mono ?_ h))
  rintro _ s' ⟨k, rfl, hA⟩
  exact ⟨k, rfl, k, rfl, hA⟩

/-- A download ends at the end of the file, or where the client stops. -/
theorem wp_readerStream {rooms : List ℕ+} {m : Bytes} {s : S} (hA : A m s) :
    L.wp (readerStream (.ofFd fd) rooms) (fun o s' => ∃ chunks e, o = .ok (chunks, e) ∧
      ((e = .eof ∧ E (m ++ chunks.flatten) s') ∨
        (e = .stopped ∧ A (m ++ chunks.flatten) s'))) s := by
  induction rooms generalizing m s with
  | nil => exact ⟨[], .stopped, rfl, .inr ⟨rfl, by simpa using hA⟩⟩
  | cons room rooms ih =>
    rw [readerStream, Prog.bind_eq, Logic.wp_bind, Logic.wp_attempt]
    refine Logic.wp_mono ?_ (hr.wp_read hA room.pos)
    rintro _ s' ⟨data, rfl, -, ⟨hd, hA'⟩ | ⟨rfl, hE⟩⟩
    · simp only [Outcome.attempt, Logic.after_ok, if_neg hd, Prog.bind_eq, Logic.wp_bind]
      refine Logic.wp_mono ?_ (ih hA')
      rintro _ s'' ⟨chunks, e, rfl, h⟩
      exact ⟨data :: chunks, e, rfl, by simpa using h⟩
    · simp only [Outcome.attempt, Logic.after_ok, if_true, Prog.pure_eq, Logic.wp_ret]
      exact ⟨[], .eof, rfl, .inl ⟨rfl, by simpa using hE⟩⟩

end Matching

/-- The chunks of a download that reads `c` from `pos` on, each of at most its room
and the cap of a single read. -/
def download (c : Bytes) : ℕ → List ℕ+ → List Bytes × StreamEnd
  | _, [] => ([], .stopped)
  | pos, room :: rooms =>
    let data := window c pos (min room (8 * mib))
    if data = [] then ([], .eof)
    else
      let (chunks, bodyEnd) := download c (pos + data.length) rooms
      (data :: chunks, bodyEnd)

theorem download_isPrefix (c : Bytes) (pos : ℕ) (rooms : List ℕ+) :
    (download c pos rooms).1.flatten <+: c.drop pos := by
  induction rooms generalizing pos with
  | nil => exact List.nil_prefix
  | cons room rooms ih =>
    simp only [download]
    split
    · exact List.nil_prefix
    · rw [List.flatten_cons]
      have hwin : window c pos (min room (8 * mib)) <+: c.drop pos := List.take_prefix _ _
      obtain ⟨t, ht⟩ := hwin
      have hd := ih (pos + (window c pos (min room (8 * mib))).length)
      rw [← List.drop_drop, ← ht, List.drop_left] at hd
      rw [← ht]
      exact List.prefix_append_right_inj _ |>.mpr hd

theorem download_eof {c : Bytes} {pos : ℕ} {rooms : List ℕ+}
    (h : (download c pos rooms).2 = .eof) : (download c pos rooms).1.flatten = c.drop pos := by
  induction rooms generalizing pos with
  | nil => cases h
  | cons room rooms ih =>
    have hroom : 0 < min (room : ℕ) (8 * mib) := lt_min room.pos (by decide)
    simp only [download] at h ⊢
    split at h
    · rename_i hd
      rw [if_pos hd]
      rw [window_eq_nil hroom] at hd
      exact (List.drop_eq_nil_of_le hd).symm
    · rename_i hd
      rw [if_neg hd, List.flatten_cons, ih h, window, ← List.drop_drop, List.length_take]
      rcases le_total (min (room : ℕ) (8 * mib)) (c.drop pos).length with hl | hl
      · rw [min_eq_left hl, List.take_append_drop]
      · rw [min_eq_right hl, List.take_of_length_le hl, List.drop_length, List.append_nil]

/-- A client that goes on asking gets all of the file. -/
theorem download_complete {c : Bytes} {pos : ℕ} {rooms : List ℕ+} (hp : pos ≤ c.length)
    (h : c.length < pos + rooms.length) : (download c pos rooms).2 = .eof := by
  induction rooms generalizing pos with
  | nil => simp only [List.length_nil] at h; omega
  | cons room rooms ih =>
    simp only [download]
    split
    · rfl
    · rename_i hd
      have hpos := List.length_pos_of_ne_nil hd
      have hle : (window c pos (min room (8 * mib))).length ≤ c.length - pos := by
        simp [window, List.length_take]
      rw [List.length_cons] at h
      exact ih (by omega) (by omega)

/-- A download of a file whose bytes stay, or of one that ends early in a state `X`. -/
theorem wp_readerStream_steady {c : Bytes} {R X : ℕ → S → Prop}
    (hr : ∀ pos s (room : ℕ), R pos s → 0 < room → room ≤ 8 * mib →
      L.call (.loRead fd room) (fun a s' =>
        (a = .ok (some (window c pos room)) ∧ R (pos + (window c pos room).length) s') ∨
          (a = .ok (some []) ∧ X pos s')) s)
    {rooms : List ℕ+} {pos : ℕ} {s : S} (hR : R pos s) :
    L.wp (readerStream (.ofFd fd) rooms) (fun o s' =>
      (o = .ok (download c pos rooms) ∧ ∃ pos', R pos' s') ∨
        ∃ chunks, o = .ok (chunks, .eof) ∧ X (pos + chunks.flatten.length) s') s := by
  induction rooms generalizing pos s with
  | nil => exact .inl ⟨rfl, pos, hR⟩
  | cons room rooms ih =>
    have hroom : 0 < min (room : ℕ) (8 * mib) := lt_min room.pos (by decide)
    rw [readerStream, Prog.bind_eq, Logic.wp_bind, Logic.wp_attempt]
    refine BlobHandle.wp_read (L.mono ?_ (hr pos s _ hR hroom (min_le_right _ _)))
    rintro _ s' (⟨rfl, hR'⟩ | ⟨rfl, hX⟩)
    · refine ⟨_, rfl, (length_window_le _ _ _).trans (min_le_left _ _), ?_⟩
      simp only [Outcome.attempt, Logic.after_ok, download]
      by_cases hd : window c pos (min room (8 * mib)) = []
      · simp only [if_pos hd]
        exact .inl ⟨rfl, _, hR'⟩
      · simp only [if_neg hd, Prog.bind_eq, Logic.wp_bind]
        refine Logic.wp_mono ?_ (ih hR')
        rintro _ s'' (⟨rfl, hR''⟩ | ⟨chunks, rfl, hX⟩)
        · exact .inl ⟨rfl, hR''⟩
        · refine .inr ⟨_ :: chunks, rfl, ?_⟩
          rwa [List.flatten_cons, List.length_append, ← Nat.add_assoc]
    · exact ⟨[], rfl, Nat.zero_le _, .inr ⟨[], rfl, hX⟩⟩

end LocallyEuclidean.Server
