import LocallyEuclidean.Server.Api
import LocallyEuclidean.Storage.Reader

/-! `check_range_matches` over any reader, and that its verdict is exact. -/

namespace LocallyEuclidean.Server
open Interact Postgres Storage

@[simp] theorem frames_nil : frames [] = [] := rfl

@[simp] theorem frames_cons (data : Bytes) (parts : List Bytes) :
    frames (data :: parts) = .ok data :: frames parts := rfl

variable {Q : Type} {Ans : Q → Type}

/-- The loop of `check_range_matches`. -/
def matchFramesOf (r : Reader Ans) : DataStream → Prog Ans BoxError RangeMatch
  | .ok data :: rest => do
    match ← (r.readExact data.length).attempt with
    | .error .unexpectedEof => return .lengthMismatch
    | .error e => .err (.io e)
    | .ok buf => if buf ≠ data then return .dataMismatch else matchFramesOf r rest
  | .error () :: _ => .err .body
  | [] => do
    match ← r.readU8.attempt with
    | .ok _ => return .lengthMismatch
    | .error .unexpectedEof => return .isMatch
    | .error e => .err (.io e)

def checkRangeMatchesOf (r : Reader Ans) (stream : DataStream) (startPosition : ℕ) :
    Prog Ans BoxError RangeMatch := do
  let _ ← (r.seek (.start startPosition)).mapErr .io
  matchFramesOf r stream

theorem matchFrames_eq (file : BlobHandle) (stream : DataStream) :
    matchFrames file stream = matchFramesOf file.reader stream := by
  induction stream with
  | nil => rfl
  | cons x rest ih =>
    cases x with
    | ok data =>
      rw [matchFrames, ih, file.readExact_eq]
      rfl
    | error => rfl

/-- What the handlers call is the check over the handle's own reader. -/
theorem checkRangeMatches_eq (stream : DataStream) (startPosition : ℕ) (file : BlobHandle) :
    checkRangeMatches stream startPosition file =
      checkRangeMatchesOf file.reader stream startPosition := by
  simp only [checkRangeMatches, checkRangeMatchesOf, matchFrames_eq]
  rfl

variable {S : Type} {L : Logic Ans S} {r : Reader Ans}

/-- What the range check has seen of the file when it tells its verdict: all of the
body and the end after it, an early end, or a byte that the body does not have. -/
def Verdict (A E : Bytes → S → Prop) (body : Bytes) (v : RangeMatch) (s : S) : Prop :=
  (v = .isMatch ∧ E body s) ∨
    (v ≠ .isMatch ∧ ∃ m, (E m s ∧ m.length < body.length) ∨ (A m s ∧ ¬ m <+: body))

/-- The verdict is right about a file whose bytes from there on are `t`. -/
theorem Verdict.isMatch_iff {A E : Bytes → S → Prop} {body t : Bytes} {v : RangeMatch} {s : S}
    (hA : ∀ m, A m s → m <+: t) (hE : ∀ m, E m s → m = t) (h : Verdict A E body v s) :
    v = .isMatch ↔ t = body := by
  obtain ⟨rfl, h⟩ | ⟨hv, m, ⟨h, hl⟩ | ⟨h, hm⟩⟩ := h
  · exact iff_of_true rfl (hE _ h).symm
  · refine iff_of_false hv fun he => ?_
    rw [hE m h, he] at hl
    exact lt_irrefl _ hl
  · exact iff_of_false hv fun he => hm (he ▸ hA m h)

section Matching

variable {A E : Bytes → S → Prop} (hr : Reader.ReadsOn L r A E)
include hr

theorem wp_matchFramesOf {parts : List Bytes} {m : Bytes} {s : S} (hA : A m s) :
    L.wp (matchFramesOf r (frames parts)) (fun o s' =>
      ∃ v, o = .ok v ∧ Verdict A E (m ++ parts.flatten) v s') s := by
  induction parts generalizing m s with
  | nil =>
    rw [frames_nil, matchFramesOf, Prog.bind_eq, Logic.wp_bind, Logic.wp_attempt]
    refine Logic.wp_mono ?_ (hr.wp_readU8 hA)
    rintro _ s' (⟨b, rfl, hA'⟩ | ⟨rfl, hE⟩)
    · refine ⟨_, rfl, .inr ⟨by decide, m ++ [b], .inr ⟨hA', fun h => ?_⟩⟩⟩
      simpa using h.length_le
    · exact ⟨_, rfl, .inl ⟨rfl, by simpa using hE⟩⟩
  | cons data parts ih =>
    rw [frames_cons, matchFramesOf, Prog.bind_eq, Logic.wp_bind, Logic.wp_attempt]
    refine Logic.wp_mono ?_ (hr.wp_readExact hA data.length)
    rintro _ s' (⟨buf, rfl, hl, hA'⟩ | ⟨rfl, buf, hl, hE⟩)
    · by_cases hd : buf = data
      · subst hd
        simpa only [Outcome.attempt, Logic.after_ok, ne_eq, not_true_eq_false, if_false,
          List.flatten_cons, List.append_assoc] using ih hA'
      · simp only [Outcome.attempt, Logic.after_ok, ne_eq, hd, not_false_eq_true, if_true,
          Prog.pure_eq, Logic.wp_ret]
        refine ⟨_, rfl, .inr ⟨by decide, m ++ buf, .inr ⟨hA', fun h => hd ?_⟩⟩⟩
        have h : buf <+: data ++ parts.flatten := by simpa using h
        exact (List.prefix_of_prefix_length_le h (List.prefix_append _ _) hl.le).eq_of_length hl
    · refine ⟨_, rfl, .inr ⟨by decide, m ++ buf, .inl ⟨hE, ?_⟩⟩⟩
      simp only [List.length_append, List.flatten_cons]
      omega

theorem wp_checkRangeMatchesOf (parts : List Bytes) {start : ℕ} {s : S}
    (h : L.wp (r.seek (.start start)) (fun o s' => ∃ k, o = .ok k ∧ A [] s') s) :
    L.wp (checkRangeMatchesOf r (frames parts) start) (fun o s' =>
      ∃ v, o = .ok v ∧ Verdict A E parts.flatten v s') s := by
  rw [checkRangeMatchesOf, Prog.bind_eq, Logic.wp_bind, Logic.wp_mapErr]
  refine Logic.wp_mono ?_ h
  rintro _ s' ⟨k, rfl, hA⟩
  rw [← List.nil_append parts.flatten]
  exact wp_matchFramesOf hr hA

end Matching

/-! Any reader that does not fail, however short its reads. -/

/-- Every seek is taken, and every read gives some of the bytes of `f` from the cursor `pos`
on: at least one, until the end. -/
structure ReadsFile (serve : (q : Q) → S → Option (Ans q) × S) (r : Reader Ans) (f : Bytes)
    (pos : S → ℕ) : Prop where
  seek : ∀ n s, ∃ k s', run serve (r.seek (.start n)) s = (.ok k, s') ∧ pos s' = n
  read : ∀ room s, 0 < room → ∃ n s', 0 < n ∧ n ≤ room ∧
    run serve (r.read room) s = (.ok (window f (pos s) n), s') ∧
      pos s' = pos s + (window f (pos s) n).length

variable {serve : (q : Q) → S → Option (Ans q) × S} {f : Bytes} {pos : S → ℕ}

theorem ReadsFile.readsOn (hr : ReadsFile serve r f pos) (start : ℕ) :
    Reader.ReadsOn (alone serve fun _ => False) r
      (fun m s => pos s = start + m.length ∧ m <+: f.drop start) (fun m _ => m = f.drop start) := by
  rintro m s room ⟨hpos, hm⟩ hroom
  obtain ⟨n, s', hn, hle, hrun, hpos'⟩ := hr.read room s hroom
  rw [hpos] at hrun hpos'
  refine wp_of_run hrun (by simp) ⟨_, rfl, (length_window_le _ _ _).trans hle, ?_⟩
  by_cases hw : window f (start + m.length) n = []
  · exact .inr ⟨hw, eq_drop_of_window_nil hn hm hw⟩
  · refine .inl ⟨hw, ?_, isPrefix_append_window n hm⟩
    rw [hpos', List.length_append, Nat.add_assoc]

/-- The calls of a reader on a file that is served elsewhere. -/
inductive FileCall where
  | read (room : ℕ)
  | seek (position : SeekFrom)

abbrev FileCall.Reply : FileCall → Type
  | .read _ => Bytes
  | .seek _ => ℕ

def remote : Reader FileCall.Reply where
  read room := .ask (FileCall.read room)
  seek position := .ask (FileCall.seek position)

/-- A file `f` under a cursor, whose `k`-th read gives at most `pattern k + 1` bytes. -/
def shortReads (f : Bytes) (pattern : ℕ → ℕ) :
    (q : FileCall) → ℕ × ℕ → Option q.Reply × ℕ × ℕ
  | .read room, (pos, k) =>
    let data := window f pos (min room (pattern k + 1))
    (some data, pos + data.length, k + 1)
  | .seek position, (pos, k) =>
    let n := match position with
      | .start n => n
      | .current d => (pos + d).toNat
      | .fromEnd d => (f.length + d).toNat
    (some n, n, k)

theorem readsFile_shortReads (f : Bytes) (pattern : ℕ → ℕ) :
    ReadsFile (shortReads f pattern) remote f Prod.fst where
  seek n s := ⟨n, (n, s.2), rfl, rfl⟩
  read room s hroom := ⟨min room (pattern s.2 + 1), _, lt_min hroom (Nat.succ_pos _),
    min_le_left _ _, rfl, rfl⟩

/-- The check ends with a verdict, which is a match exactly where the file from `start` on is
the body, and another cut of the body gets no other. -/
theorem range_check_exact (hr : ReadsFile serve r f pos) (parts : List Bytes) (start : ℕ) (s : S) :
    ∃ v, (run serve (checkRangeMatchesOf r (frames parts) start) s).1 = .ok v ∧
      (v = .isMatch ↔ f.drop start = parts.flatten) ∧
      ∀ parts' : List Bytes, parts'.flatten = parts.flatten → ∀ s', ∃ v',
        (run serve (checkRangeMatchesOf r (frames parts') start) s').1 = .ok v' ∧
          (v' = .isMatch ↔ v = .isMatch) := by
  have exact (parts : List Bytes) (s : S) :
      ∃ v, (run serve (checkRangeMatchesOf r (frames parts) start) s).1 = .ok v ∧
        (v = .isMatch ↔ f.drop start = parts.flatten) := by
    obtain ⟨k, s₁, hrun, hpos⟩ := hr.seek start s
    have hw := wp_checkRangeMatchesOf (hr.readsOn start) parts
      (wp_of_run hrun (by simp) ⟨k, rfl, by simpa using hpos, List.nil_prefix⟩)
    obtain ⟨v, ho, hv⟩ := wp_alone (fun _ => False.elim) hw
    refine ⟨v, ho, hv.isMatch_iff ?_ ?_⟩
    · exact fun m h => h.2
    · exact fun m h => h
  obtain ⟨v, ho, hv⟩ := exact parts s
  refine ⟨v, ho, hv, fun parts' same s' => ?_⟩
  obtain ⟨v', ho', hv'⟩ := exact parts' s'
  exact ⟨v', ho', by rw [hv, hv', same]⟩

/-- The test's file and body, from its third byte on, in reads of one or two bytes. -/
theorem range_check_exact_short :
    let f : Bytes := [107, 105, 116, 116, 121]
    let serve := shortReads f fun k => k % 2
    ∃ v, (run serve (checkRangeMatchesOf remote (frames [[116], [], [116, 121]]) 2) (0, 0)).1 =
        .ok v ∧ (v = .isMatch ↔ f.drop 2 = [[116], [], [116, 121]].flatten) ∧
      ∀ parts' : List Bytes, parts'.flatten = [[116], [], [116, 121]].flatten → ∀ s', ∃ v',
        (run serve (checkRangeMatchesOf remote (frames parts') 2) s').1 = .ok v' ∧
          (v' = .isMatch ↔ v = .isMatch) :=
  range_check_exact (readsFile_shortReads _ _) [[116], [], [116, 121]] 2 (0, 0)

end LocallyEuclidean.Server
