import LocallyEuclidean.Storage.Files

/-! tokio's `AsyncReadExt` over any reader, and the rules for its loops. `A m` holds once
the bytes `m` have been read, `E m` once the end of the file has been met there. -/

namespace LocallyEuclidean.Storage
open Interact Postgres

/-- `AsyncRead + AsyncSeek`, each operation run to completion. -/
structure Reader {Q : Type} (Ans : Q → Type) where
  read : ℕ → Prog Ans IoError Bytes
  seek : SeekFrom → Prog Ans IoError ℕ

namespace Reader

variable {Q : Type} {Ans : Q → Type}

/-- `read_exact`, by the same count of turns as for a blob handle. -/
def readExactLoop (r : Reader Ans) (len : ℕ) : ℕ → Bytes → Prog Ans IoError Bytes
  | 0, buf => if buf.length = len then .ret buf else .err .unexpectedEof
  | turns + 1, buf =>
    if buf.length = len then .ret buf
    else do
      let data ← r.read (len - buf.length)
      if data = [] then .err .unexpectedEof
      else readExactLoop r len turns (buf ++ data)

def readExact (r : Reader Ans) (len : ℕ) : Prog Ans IoError Bytes := r.readExactLoop len len []

def readU8 (r : Reader Ans) : Prog Ans IoError UInt8 := do
  match ← r.read 1 with
  | [] => .err .unexpectedEof
  | b :: _ => return b

variable {S : Type} {L : Logic Ans S} {r : Reader Ans} {A E : Bytes → S → Prop}

/-- What every read must do for the rules below. -/
def ReadsOn (L : Logic Ans S) (r : Reader Ans) (A E : Bytes → S → Prop) : Prop :=
  ∀ m s (room : ℕ), A m s → 0 < room → L.wp (r.read room) (fun o s' => ∃ data, o = .ok data ∧
    data.length ≤ room ∧ ((data ≠ [] ∧ A (m ++ data) s') ∨ (data = [] ∧ E m s'))) s

theorem ReadsOn.wp_readExactLoop (hr : ReadsOn L r A E) {m : Bytes} {len turns : ℕ} {buf : Bytes}
    (hb : buf.length ≤ len) (ht : len ≤ buf.length + turns) {s : S} (hA : A (m ++ buf) s) :
    L.wp (r.readExactLoop len turns buf) (fun o s' =>
      (∃ buf', o = .ok buf' ∧ buf'.length = len ∧ A (m ++ buf') s') ∨
        (o = .err .unexpectedEof ∧ ∃ buf', buf'.length < len ∧ E (m ++ buf') s')) s := by
  induction turns generalizing buf s with
  | zero =>
    have hl : buf.length = len := by omega
    rw [readExactLoop, if_pos hl]
    exact .inl ⟨buf, rfl, hl, hA⟩
  | succ turns ih =>
    by_cases hl : buf.length = len
    · rw [readExactLoop, if_pos hl]
      exact .inl ⟨buf, rfl, hl, hA⟩
    · rw [readExactLoop, if_neg hl, Prog.bind_eq, Logic.wp_bind]
      refine Logic.wp_mono ?_ (hr _ _ _ hA (by omega : 0 < len - buf.length))
      rintro _ s' ⟨data, rfl, hle, ⟨hd, hA'⟩ | ⟨rfl, hE⟩⟩
      · have hpos := List.length_pos_of_ne_nil hd
        simp only [Logic.after_ok, hd, if_false]
        refine ih (by rw [List.length_append]; omega) (by rw [List.length_append]; omega) ?_
        rwa [← List.append_assoc]
      · rw [Logic.after_ok, if_pos rfl]
        exact .inr ⟨rfl, buf, by omega, hE⟩

theorem ReadsOn.wp_readExact (hr : ReadsOn L r A E) {m : Bytes} {s : S} (hA : A m s) (len : ℕ) :
    L.wp (r.readExact len) (fun o s' =>
      (∃ buf, o = .ok buf ∧ buf.length = len ∧ A (m ++ buf) s') ∨
        (o = .err .unexpectedEof ∧ ∃ buf, buf.length < len ∧ E (m ++ buf) s')) s :=
  hr.wp_readExactLoop (Nat.zero_le _) (by simp) (by simpa using hA)

theorem ReadsOn.wp_readU8 (hr : ReadsOn L r A E) {m : Bytes} {s : S} (hA : A m s) :
    L.wp r.readU8 (fun o s' => (∃ b, o = .ok b ∧ A (m ++ [b]) s') ∨
      (o = .err .unexpectedEof ∧ E m s')) s := by
  simp only [readU8, Prog.bind_eq, Logic.wp_bind]
  refine Logic.wp_mono ?_ (hr _ _ _ hA one_pos)
  rintro _ s' ⟨data, rfl, hle, ⟨hd, hA'⟩ | ⟨rfl, hE⟩⟩
  · obtain ⟨b, rfl⟩ := List.length_eq_one_iff.mp (le_antisymm hle (List.length_pos_iff.mpr hd))
    exact .inl ⟨b, rfl, hA'⟩
  · exact .inr ⟨rfl, hE⟩

end Reader

namespace BlobHandle

def reader (h : BlobHandle) : Reader Query.Reply := ⟨h.read, h.seek⟩

theorem readExact_eq (h : BlobHandle) (len : ℕ) : h.readExact len = h.reader.readExact len := by
  suffices ∀ turns buf, h.readExactLoop len turns buf = h.reader.readExactLoop len turns buf from
    this len []
  intro turns
  induction turns with
  | zero => exact fun buf => rfl
  | succ turns ih =>
    intro buf
    simp only [readExactLoop, Reader.readExactLoop, ih]
    rfl

end BlobHandle

end LocallyEuclidean.Storage
