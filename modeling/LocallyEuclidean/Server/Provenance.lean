import LocallyEuclidean.Server.Lasting

/-! Where the bytes of a file come from: from one upload to its name, or none, and behind it from
whole appends. No fault mixes two uploads, and none tears an append. -/

namespace LocallyEuclidean.Server
open Interact Postgres Storage

/-- The body that the act may upload to this name. -/
def Act.uploads (bucket filename : String) : Act → List Bytes
  | .request (.put b f body _) => if b = bucket ∧ f = filename then [received body] else []
  | _ => []

/-- One of the uploads, or an empty file, and some of the appends behind. -/
def Composed (uploads appends : List Bytes) (c : Bytes) : Prop :=
  ∃ u, ∃ ws : List Bytes, (u = [] ∨ u ∈ uploads) ∧ ws.Sublist appends ∧ c = u ++ ws.flatten

theorem Composed.more {uploads appends : List Bytes} {c : Bytes} (h : Composed uploads appends c)
    (uploads' : List Bytes) {ws appends' : List Bytes} (hs : ws.Sublist appends') :
    Composed (uploads ++ uploads') (appends ++ appends') (c ++ ws.flatten) := by
  obtain ⟨u, ws₀, hu, hs₀, rfl⟩ := h
  refine ⟨u, ws₀ ++ ws, hu.imp_right (List.mem_append_left _), hs₀.append hs, ?_⟩
  rw [List.flatten_append, List.append_assoc]

theorem Composed.fresh {uploads u : List Bytes} (appends : List Bytes) {c : Bytes}
    (h : c = [] ∨ c ∈ u) : Composed (uploads ++ u) appends c :=
  ⟨c, [], h.imp_right (List.mem_append_right _), List.nil_sublist _, by simp⟩

namespace Depot

variable {d d' : Depot} {bucket filename : String} {e : Entry}

/-- An entry that is there behind an upload was there before, or the upload has made it. -/
theorem put_comes (b f : String) (body : DataStream) (now : DateTime)
    (he : (d.put b f body now).2.entries bucket filename = some e) :
    d.entries bucket filename = some e ∨ e.content = [] ∨
      (b = bucket ∧ f = filename ∧ e.content = received body) := by
  by_cases hk : bucket = b ∧ filename = f
  · obtain ⟨rfl, rfl⟩ := hk
    unfold put at he
    split at he
    · exact .inl he
    · split at he
      · exact .inl he
      · split at he
        · exact .inl he
        · split at he
          · exact .inl he
          · split at he
            · obtain rfl := Option.some.inj ((if_pos ⟨rfl, rfl⟩).symm.trans he)
              exact .inr (.inl rfl)
            · obtain rfl := Option.some.inj ((if_pos ⟨rfl, rfl⟩).symm.trans he)
              exact .inr (.inr ⟨rfl, rfl, rfl⟩)
  · refine .inl ?_
    obtain h | ⟨e', h⟩ := d.put_shape b f body now <;> rw [h] at he
    · exact he
    · rwa [set_entries_of_ne hk] at he

theorem post_comes (b f : String) (writeOffset : ℕ) (body : DataStream)
    (he : (d.post b f writeOffset body).2.entries bucket filename = some e) :
    ∃ e₀, d.entries bucket filename = some e₀ := by
  by_cases hk : bucket = b ∧ filename = f
  · obtain ⟨rfl, rfl⟩ := hk
    cases hn : d.entries bucket filename with
    | none =>
      rw [post_absent hn, hn] at he
      cases he
    | some e₀ => exact ⟨e₀, rfl⟩
  · obtain h | ⟨e', h⟩ := d.post_shape b f writeOffset body <;> rw [h] at he
    · exact ⟨e, he⟩
    · exact ⟨e, by rwa [set_entries_of_ne hk] at he⟩

/-- An entry comes from the one before, with an append behind, or from an upload. -/
def Comes (bucket filename : String) (d : Depot) (act : Act) (e : Entry) : Prop :=
  (∃ e₀, ∃ ws : List Bytes, d.entries bucket filename = some e₀ ∧
      ws.Sublist (act.appends bucket filename) ∧ e.content = e₀.content ++ ws.flatten) ∨
    e.content = [] ∨ e.content ∈ act.uploads bucket filename

theorem Comes.same {act : Act} (he : d.entries bucket filename = some e) :
    Comes bucket filename d act e :=
  .inl ⟨e, [], he, List.nil_sublist _, by simp⟩

theorem Step.comes {act : Act} {reply : Reply} (h : d.Step act reply d')
    (he : d'.entries bucket filename = some e) : Comes bucket filename d act e := by
  cases act with
  | createBucket name ttl =>
    obtain ⟨-, rfl⟩ := h
    refine .same ?_
    unfold createBucket at he
    split at he
    · exact he
    · split at he <;> exact he
  | listBuckets | buck2Log | tick =>
    obtain ⟨-, rfl⟩ := h
    exact .same he
  | request r =>
    obtain ⟨-, rfl⟩ := h
    cases r with
    | put b f body now =>
      obtain hk | hempty | ⟨rfl, rfl, hc⟩ := put_comes b f body now he
      · exact .same hk
      · exact .inr (.inl hempty)
      · exact .inr (.inr (by simp [Act.uploads, hc]))
    | post b f writeOffset body =>
      obtain ⟨e₀, h₀⟩ := post_comes b f writeOffset body he
      obtain hk | ⟨rfl, rfl, hk⟩ := post_entries b f writeOffset body h₀
      · obtain rfl := Option.some.inj (hk.symm.trans he)
        exact .same h₀
      · obtain rfl := Option.some.inj (hk.symm.trans he)
        exact .inl ⟨e₀, [received body], h₀, by simp [Act.appends], by simp⟩
    | get b f rooms => exact .same he
  | deleteOld tie =>
    obtain ⟨-, hs⟩ := h
    obtain hk | hk := hs.kept bucket filename
    · exact .same (hk.symm.trans he)
    · cases hk.symm.trans he

theorem StepUnder.comes {act : Act} {reply : Reply} (h : d.StepUnder act reply d')
    (he : d'.entries bucket filename = some e) : Comes bucket filename d act e := by
  obtain h | ⟨-, ⟨-, rfl | ⟨b, f, body, now, ttl, due, rfl, -, -, -, -, rfl⟩ | ⟨full, h⟩⟩ |
    ⟨full, h, -⟩⟩ := h
  · exact h.comes he
  · exact .same he
  · rw [set_entries] at he
    split at he
    · obtain rfl := Option.some.inj he
      exact .inr (.inl rfl)
    · exact .same he
  · exact h.comes he
  · exact h.comes he

/-- The entry of the name, if there is one, is composed of these. -/
def Holds (bucket filename : String) (d : Depot) (uploads appends : List Bytes) : Prop :=
  ∀ e, d.entries bucket filename = some e → Composed uploads appends e.content

theorem StepUnder.holds {act : Act} {reply : Reply} (h : d.StepUnder act reply d')
    {uploads appends : List Bytes} (hd : Holds bucket filename d uploads appends) :
    Holds bucket filename d' (uploads ++ act.uploads bucket filename)
      (appends ++ act.appends bucket filename) := by
  intro e he
  obtain ⟨e₀, ws, h₀, hs, hc⟩ | hfresh := h.comes he
  · rw [hc]
    exact (hd e₀ h₀).more _ hs
  · exact .fresh _ hfresh

theorem RunsUnder.holds {acts : List Act} {replies : List Reply} (h : d.RunsUnder acts replies d')
    (uploads appends : List Bytes) (hd : Holds bucket filename d uploads appends) :
    Holds bucket filename d' (uploads ++ acts.flatMap (Act.uploads bucket filename))
      (appends ++ acts.flatMap (Act.appends bucket filename)) := by
  revert uploads appends
  refine RunsUnder.induction ?nil ?cons h
  case nil =>
    intro uploads appends hd
    simpa using hd
  case cons =>
    intro act acts reply d d₁ hstep ih uploads appends hd
    simpa only [List.flatMap_cons, List.append_assoc] using ih _ _ (hstep.holds hd)

end Depot

/-- How a client sees the content `c`: its length, and the first chunks of it, or all of them. -/
def Response.Shows (response : Response) (c : Bytes) : Prop :=
  response.contentLength = c.length ∧ response.body.flatten <+: c ∧
    (response.bodyEnd = .eof → response.body.flatten = c)

theorem download_shows (c : Bytes) (rooms : List ℕ+) (t : Timestamp) :
    Response.Shows ⟨c.length, "application/octet-stream", t, (download c 0 rooms).1,
      (download c 0 rooms).2⟩ c := by
  refine ⟨rfl, ?_, fun h => ?_⟩
  · simpa using download_isPrefix c 0 rooms
  · simpa using download_eof h

theorem Response.Shows.cut {response : Response} {c : Bytes} (h : response.Shows c)
    {chunks : List Bytes} (hp : chunks <+: response.body) (e : IoError) :
    Response.Shows { response with body := chunks, bodyEnd := .error e } c :=
  ⟨h.1, hp.flatten.trans h.2.1, by simp⟩

theorem get_shows {d : Depot} {bucket filename : String} {rooms : List ℕ+} {response : Response}
    (hr : (d.serve (.get bucket filename rooms)).1 = .answered (some .ok) (some response)) :
    ∃ e, d.entries bucket filename = some e ∧ response.Shows e.content := by
  obtain ⟨hcode, hresp⟩ := Reply.answered.inj hr
  cases ht : d.ttl bucket with
  | none =>
    rw [Depot.get_no_bucket ht] at hresp
    cases hresp
  | some ttl =>
    cases he : d.entries bucket filename with
    | none =>
      rw [Depot.get_absent he] at hresp
      cases hresp
    | some e =>
      rw [Depot.get_present ht he] at hresp
      obtain rfl := Option.some.inj hresp
      exact ⟨e, rfl, download_shows e.content rooms e.updatedAt⟩

/-- Whatever has failed, what is downloaded from a name is one of its uploads, or the empty file
of one that has failed, with whole appends behind. -/
theorem downloads_of_whole_writes {db : Db} (h : db.Linked) {bucketName filename : String}
    (absent : rowOf db (bucketName, filename) = none) {acts : List (Act × Schedule)}
    (quiet : ∀ x ∈ acts, Quiet x.2) {rooms : List ℕ+} {sched : Schedule} (hq : Quiet sched)
    {response : Response}
    (hr : ((Act.request (.get bucketName filename rooms)).performUnder sched
      (performAllUnder db acts).2).1 = .answered (some .ok) (some response)) :
    ∃ c, Composed ((acts.map Prod.fst).flatMap (Act.uploads bucketName filename))
      ((acts.map Prod.fst).flatMap (Act.appends bucketName filename)) c ∧ response.Shows c := by
  have start : Depot.Holds bucketName filename (depot db) [] [] := by
    intro e he
    cases (entry_of_no_row absent).symm.trans he
  obtain ⟨hl, hrun⟩ := performAllUnder_refines h quiet
  have holds := hrun.holds [] [] start
  suffices ∃ e, (depot (performAllUnder db acts).2).entries bucketName filename = some e ∧
      response.Shows e.content by
    obtain ⟨e, he, hs⟩ := this
    exact ⟨e.content, holds e he, hs⟩
  simp only [Act.performUnder, runScheduled_get] at hr
  obtain hfull | hunsure | ⟨full, chunks, err, hfull, hp, hcut⟩ :=
    get_under hq hl bucketName filename rooms
  · exact get_shows (hfull.symm.trans hr)
  · rw [hr] at hunsure
    cases hunsure.2
  · obtain ⟨e, he, hs⟩ := get_shows hfull
    obtain rfl := Option.some.inj (Reply.answered.inj (hcut.symm.trans hr)).2
    exact ⟨e, he, hs.cut hp err⟩

/-- An upload, an append whose commit fails, and the same append again. -/
def retriedActs : List (Act × Schedule) :=
  [(.request (.put "bucket" "meow" [.ok [109, 101]] 0), calm),
    (.request (.post "bucket" "meow" 5 [.ok [111]]), fun k => ⟨[], if k = 8 then .fails else .none⟩),
    (.request (.post "bucket" "meow" 5 [.ok [111]]), calm)]

theorem downloads_of_whole_writes_meow :
    ∃ c, Composed ((retriedActs.map Prod.fst).flatMap (Act.uploads "bucket" "meow"))
        ((retriedActs.map Prod.fst).flatMap (Act.appends "bucket" "meow")) c ∧
      Response.Shows ⟨3, "application/octet-stream", 0, [[109, 101, 111]], .eof⟩ c :=
  have hr : ((Act.request (.get "bucket" "meow" [8, 8])).performUnder calm
      (performAllUnder (.created 0 "bucket" none) retriedActs).2).1 = .answered (some .ok)
        (some ⟨3, "application/octet-stream", 0, [[109, 101, 111]], .eof⟩) := by decide +kernel
  downloads_of_whole_writes (Db.linked_created 0 "bucket" none) (by decide +kernel)
    (by simp [retriedActs, Quiet, calm]) (fun _ => rfl) hr

end LocallyEuclidean.Server
