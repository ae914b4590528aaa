import LocallyEuclidean.Server.Sequential

/-! Bodies whose stream may fail. What an upload or a range check makes of a stream depends
on the bytes that it yields before it ends, and on whether it ends in an error. -/

namespace LocallyEuclidean.Server
open Interact Postgres Storage

/-- The bytes that a stream yields before it ends or fails. -/
def received : DataStream → Bytes
  | .ok data :: rest => data ++ received rest
  | _ => []

/-- The stream fails before its end. -/
def cutShort : DataStream → Bool
  | .ok _ :: rest => cutShort rest
  | .error () :: _ => true
  | [] => false

@[simp] theorem received_frames (parts : List Bytes) : received (frames parts) = parts.flatten := by
  induction parts with
  | nil => rfl
  | cons data parts ih => rw [frames_cons, received, ih, List.flatten_cons]

@[simp] theorem cutShort_frames (parts : List Bytes) : cutShort (frames parts) = false := by
  induction parts with
  | nil => rfl
  | cons data parts ih => rwa [frames_cons, cutShort]

/-- A stream is its frames, and then perhaps an error that nothing is read past. -/
theorem stream_cases (stream : DataStream) : ∃ parts : List Bytes, received stream = parts.flatten ∧
    ((cutShort stream = false ∧ stream = frames parts) ∨
      (cutShort stream = true ∧ ∃ rest, stream = frames parts ++ .error () :: rest)) := by
  induction stream with
  | nil => exact ⟨[], rfl, .inl ⟨rfl, rfl⟩⟩
  | cons frame rest ih =>
    cases frame with
    | error u => exact ⟨[], rfl, .inr ⟨rfl, rest, rfl⟩⟩
    | ok data =>
      obtain ⟨parts, hr, ⟨hc, rfl⟩ | ⟨hc, rest', rfl⟩⟩ := ih
      · exact ⟨data :: parts, by rw [received, hr, List.flatten_cons], .inl ⟨hc, rfl⟩⟩
      · exact ⟨data :: parts, by rw [received, hr, List.flatten_cons], .inr ⟨hc, rest', rfl⟩⟩

/-! The range check. -/

/-- The answer to a body that is compared with the bytes `t`: a stream that fails is told so
only if all that came of it was right. -/
def comparedWith (t : Bytes) (stream : DataStream) : StatusCode :=
  if received stream <+: t then
    if cutShort stream then .internalServerError
    else if t = received stream then .ok else .conflict
  else .conflict

/-- The check's outcome leads to this answer. -/
def Settles (code : StatusCode) : Outcome BoxError RangeMatch → Prop
  | .ok .isMatch => code = .ok
  | .ok _ => code = .conflict
  | .err e => e = .body ∧ code = .internalServerError
  | _ => False

/-- What the check has seen of the file when it tells a difference. -/
def Differs {S : Type} (A E : Bytes → S → Prop) (body : Bytes) (s : S) : Prop :=
  ∃ m, (E m s ∧ m.length < body.length) ∨ (A m s ∧ m.length ≤ body.length ∧ ¬ m <+: body)

theorem Differs.not_isPrefix {S : Type} {A E : Bytes → S → Prop} {body t : Bytes} {s : S}
    (hA : ∀ m, A m s → m <+: t) (hE : ∀ m, E m s → m = t) (h : Differs A E body s) :
    ¬ body <+: t := by
  intro ht
  obtain ⟨m, ⟨hm, hl⟩ | ⟨hm, hl, hn⟩⟩ := h
  · rw [hE m hm] at hl
    exact absurd ht.length_le (not_le.mpr hl)
  · exact hn (List.prefix_of_prefix_length_le (hA m hm) ht hl)

section Matching

variable {Q : Type} {Ans : Q → Type} {S : Type} {L : Logic Ans S} {r : Reader Ans}
  {A E : Bytes → S → Prop} (hr : Reader.ReadsOn L r A E)
include hr

/-- A stream that fails: all its frames have matched, or one of them has not. -/
theorem wp_matchFramesOf_cut (parts : List Bytes) (rest : DataStream) {m : Bytes} {s : S}
    (hA : A m s) : L.wp (matchFramesOf r (frames parts ++ .error () :: rest)) (fun o s' =>
      (o = .err .body ∧ A (m ++ parts.flatten) s') ∨
        ∃ v, o = .ok v ∧ v ≠ .isMatch ∧ Differs A E (m ++ parts.flatten) s') s := by
  induction parts generalizing m s with
  | nil => exact .inl ⟨rfl, by simpa using hA⟩
  | cons data parts ih =>
    rw [frames_cons, List.cons_append, matchFramesOf, Prog.bind_eq, Logic.wp_bind, Logic.wp_attempt]
    refine Logic.wp_mono ?_ (hr.wp_readExact hA data.length)
    rintro _ s' (⟨buf, rfl, hl, hA'⟩ | ⟨rfl, buf, hl, hE⟩)
    · by_cases hd : buf = data
      · subst hd
        simpa only [Outcome.attempt, Logic.after_ok, ne_eq, not_true_eq_false, if_false,
          List.flatten_cons, List.append_assoc] using ih hA'
      · simp only [Outcome.attempt, Logic.after_ok, ne_eq, hd, not_false_eq_true, if_true,
          Prog.pure_eq, Logic.wp_ret]
        refine .inr ⟨_, rfl, by decide, m ++ buf, .inr ⟨hA', ?_, fun h => hd ?_⟩⟩
        · simp only [List.length_append, List.flatten_cons]
          omega
        · have h : buf <+: data ++ parts.flatten := by simpa using h
          exact (List.prefix_of_prefix_length_le h (List.prefix_append _ _) hl.le).eq_of_length hl
    · refine .inr ⟨_, rfl, by decide, m ++ buf, .inl ⟨hE, ?_⟩⟩
      simp only [List.length_append, List.flatten_cons]
      omega

/-- The check of any stream against a file whose bytes from `start` on are `t`. -/
theorem wp_checkRangeMatchesOf_stream (stream : DataStream) {start : ℕ} {t : Bytes} {s : S}
    (hA : ∀ m s, A m s → m <+: t) (hE : ∀ m s, E m s → m = t)
    (h : L.wp (r.seek (.start start)) (fun o s' => ∃ k, o = .ok k ∧ A [] s') s) :
    L.wp (checkRangeMatchesOf r stream start) (fun o s' =>
      Settles (comparedWith t stream) o ∧ ∃ m, A m s' ∨ E m s') s := by
  obtain ⟨parts, hrec, ⟨hcut, rfl⟩ | ⟨hcut, rest, rfl⟩⟩ := stream_cases stream
  · refine Logic.wp_mono ?_ (wp_checkRangeMatchesOf hr parts h)
    rintro _ s' ⟨v, rfl, hv⟩
    have hiff := hv.isMatch_iff (fun m => hA m s') (fun m => hE m s')
    refine ⟨?_, ?_⟩
    · unfold comparedWith
      rw [hrec, hcut]
      cases v with
      | isMatch =>
        have ht := hiff.mp rfl
        simp [Settles, ht]
      | lengthMismatch | dataMismatch =>
        have hne : t ≠ parts.flatten := fun he => by simpa using hiff.mpr he
        simp [Settles, hne]
    · obtain ⟨-, h⟩ | ⟨-, m, ⟨h, -⟩ | ⟨h, -⟩⟩ := hv
      · exact ⟨_, .inr h⟩
      · exact ⟨m, .inr h⟩
      · exact ⟨m, .inl h⟩
  · rw [checkRangeMatchesOf, Prog.bind_eq, Logic.wp_bind, Logic.wp_mapErr]
    refine Logic.wp_mono ?_ h
    rintro _ s' ⟨k, rfl, hA'⟩
    refine Logic.wp_mono ?_ (wp_matchFramesOf_cut hr parts rest hA')
    rintro _ s'' (⟨rfl, hA''⟩ | ⟨v, rfl, hv, hd⟩)
    · refine ⟨⟨rfl, ?_⟩, _, .inl hA''⟩
      have hp : parts.flatten <+: t := by simpa using hA _ _ hA''
      simp [comparedWith, hrec, hcut, hp]
    · have hn := hd.not_isPrefix (fun m => hA m s'') (fun m => hE m s'')
      rw [List.nil_append] at hn
      refine ⟨?_, ?_⟩
      · cases v with
        | isMatch => exact absurd rfl hv
        | lengthMismatch | dataMismatch => simp [Settles, comparedWith, hrec, hn]
      · obtain ⟨m, ⟨hm, -⟩ | ⟨hm, -⟩⟩ := hd
        · exact ⟨m, .inr hm⟩
        · exact ⟨m, .inl hm⟩

end Matching

section AnyReader

variable {Q : Type} {Ans : Q → Type} {S : Type} {serve : (q : Q) → S → Option (Ans q) × S}
  {r : Reader Ans} {f : Bytes} {pos : S → ℕ}

/-- The range check of any stream, over any reader that does not fail, however short its reads:
a frame that differs is a mismatch, the stream's error is reported only behind frames that all
match, and a whole stream matches exactly where the file from `start` on is its bytes. -/
theorem range_check_stream (hr : ReadsFile serve r f pos) (stream : DataStream) (start : ℕ) (s : S) :
    Settles (comparedWith (f.drop start) stream) (run serve (checkRangeMatchesOf r stream start) s).1 := by
  obtain ⟨k, s₁, hrun, hpos⟩ := hr.seek start s
  have hw := wp_checkRangeMatchesOf_stream (hr.readsOn start) stream (t := f.drop start)
    (fun _ _ h => h.2) (fun _ _ h => h)
    (wp_of_run hrun (by simp) ⟨k, rfl, by simpa using hpos, List.nil_prefix⟩)
  exact (wp_alone (fun _ => False.elim) hw).1

/-- Two right bytes of five, and then an error. -/
theorem range_check_stream_cut :
    let f : Bytes := [107, 105, 116, 116, 121]
    Settles (comparedWith (f.drop 2) [.ok [116, 116], .error ()])
      (run (shortReads f fun k => k % 2)
        (checkRangeMatchesOf remote [.ok [116, 116], .error ()] 2) (0, 0)).1 :=
  range_check_stream (readsFile_shortReads _ _) [.ok [116, 116], .error ()] 2 (0, 0)

end AnyReader

/-! On a blob handle, in any logic of calls. -/

theorem appendFrames_append (file : PostgresFileHandle) (parts : List Bytes) (rest : DataStream) :
    appendFrames file (frames parts ++ rest) =
      (appendFrames file (frames parts)).bind fun _ => appendFrames file rest := by
  induction parts with
  | nil => rfl
  | cons data parts ih =>
    simp only [frames_cons, List.cons_append, appendFrames, Prog.bind_eq, ih, Prog.bind_assoc]

section Blob

variable {S : Type} {L : Logic Query.Reply S} {fd : ℤ}

theorem wp_checkRangeMatches_stream {A E : Bytes → S → Prop} (hr : BlobHandle.ReadsOn L fd A E)
    (stream : DataStream) {start : ℕ} (hn : start ≤ maxObjectSize) {t : Bytes} {s : S}
    (hA : ∀ m s, A m s → m <+: t) (hE : ∀ m s, E m s → m = t)
    (h : L.call (.loLseek64 fd start .seekSet) (fun a s' =>
      ∃ k : ℕ, a = .ok (some (k : ℤ)) ∧ A [] s') s) :
    L.wp (checkRangeMatches stream start (.ofFd fd)) (fun o s' =>
      Settles (comparedWith t stream) o ∧ ∃ m, A m s' ∨ E m s') s := by
  rw [checkRangeMatches_eq]
  refine wp_checkRangeMatchesOf_stream hr.reader stream hA hE
    (BlobHandle.wp_seekStart hn (L.mono ?_ h))
  rintro _ s' ⟨k, rfl, hA'⟩
  exact ⟨k, rfl, k, rfl, hA'⟩

theorem wp_appendFrames_stream {stream : DataStream} {W : Bytes → S → Prop}
    {F : SqlxError → S → Prop} (hw : WritesOn L fd (received stream) W F) {id : FileId} {s : S}
    (hW : W [] s) : L.wp (appendFrames ⟨.ofFd fd, id⟩ stream) (fun o s' =>
      (o = if cutShort stream then .err .body else .ok ()) ∧ W (received stream) s' ∨
        ∃ e, o = .err (writeError e) ∧ F e s') s := by
  obtain ⟨parts, hrec, ⟨hcut, rfl⟩ | ⟨hcut, rest, rfl⟩⟩ := stream_cases stream
  · refine Logic.wp_mono ?_ (wp_appendFrames hw (by rw [hrec, List.nil_append]) hW)
    rintro _ s' (⟨rfl, hW'⟩ | hF)
    · exact .inl ⟨by rw [hcut]; rfl, hW'⟩
    · exact .inr hF
  · rw [appendFrames_append, Logic.wp_bind]
    refine Logic.wp_mono ?_ (wp_appendFrames hw (by rw [hrec, List.nil_append]) hW)
    rintro _ s' (⟨rfl, hW'⟩ | ⟨e, rfl, hF⟩)
    · exact .inl ⟨by rw [hcut]; rfl, hW'⟩
    · exact .inr ⟨e, rfl, hF⟩

end Blob

end LocallyEuclidean.Server
