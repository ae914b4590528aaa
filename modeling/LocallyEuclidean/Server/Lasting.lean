import LocallyEuclidean.Server.Durability

/-! An acknowledged write lasts, whatever fails behind it. -/

namespace LocallyEuclidean.Server
open Interact Postgres Storage

/-- What an acknowledged request tells of the content that it names. -/
def Request.Stored (r : Request) (c : Bytes) : Prop :=
  match r with
  | .put _ _ body _ => c = received body
  | .post _ _ _ body => received body <:+ c
  | .get _ _ _ => True

namespace Depot

variable {d d' : Depot} {bucket filename : String} {e : Entry}

theorem post_acknowledged {writeOffset : ℕ} {body : DataStream}
    (h : (d.post bucket filename writeOffset body).1 = .ok) :
    ∃ e, (d.post bucket filename writeOffset body).2.entries bucket filename = some e ∧
      received body <:+ e.content := by
  cases ht : d.ttl bucket with
  | none =>
    rw [post_no_bucket ht] at h
    cases h
  | some ttl =>
    cases he : d.entries bucket filename with
    | none =>
      rw [post_absent he] at h
      cases h
    | some e =>
      rw [post_present ht he] at h ⊢
      split at h
      · rename_i hle
        rw [if_pos hle]
        refine ⟨e, he, ?_⟩
        rw [← comparedWith_ok h]
        exact List.drop_suffix _ _
      · rename_i hlt
        rw [if_neg hlt]
        split at h
        · cases h
        · rename_i hgood
          rw [if_neg hgood]
          exact ⟨_, if_pos ⟨rfl, rfl⟩, List.suffix_append _ _⟩

theorem serve_acknowledged {r : Request} (hw : r.writes = true)
    (h : (d.serve r).1 = .answered (some .ok) none) :
    ∃ e, (d.serve r).2.entries r.name.1 r.name.2 = some e ∧ r.Stored e.content := by
  cases r with
  | put b f body now => exact put_acknowledged (Reply.answered.inj h).1
  | post b f writeOffset body =>
    exact post_acknowledged (Option.some.inj (Reply.answered.inj h).1)
  | get => cases hw

/-- What is acknowledged has been done, whatever has failed. -/
theorem StepUnder.acknowledged {act : Act} (h : d.StepUnder act (.answered (some .ok) none) d') :
    d.Step act (.answered (some .ok) none) d' := by
  obtain h | ⟨-, ⟨hu, -⟩ | ⟨full, -, resp, chunks, e, -, -, hr⟩⟩ := h
  · exact h
  · obtain ⟨hcode | hcode, -⟩ := hu <;> cases hcode
  · cases (Reply.answered.inj hr).2

theorem StepUnder.clock {act : Act} {reply : Reply} (h : d.StepUnder act reply d') :
    d'.clock = clockAfter d.clock [act] := by
  obtain h | ⟨ht, ⟨-, rfl | ⟨b, f, body, now, ttl, due, rfl, -, -, -, -, rfl⟩ | ⟨full, h⟩⟩ |
    ⟨full, h, -⟩⟩ := h
  · exact h.clock
  · cases act with
    | tick now => exact absurd rfl (ht now)
    | createBucket | listBuckets | request | buck2Log | deleteOld => rfl
  · rfl
  · exact h.clock
  · exact h.clock

theorem StepUnder.lasts {act : Act} {reply : Reply} (h : d.StepUnder act reply d')
    (he : d.entries bucket filename = some e) :
    (∃ ws : List Bytes, ws.Sublist (act.appends bucket filename) ∧
        d'.entries bucket filename = some (e.extended ws)) ∨
      ((∃ tie, act = .deleteOld tie) ∧ e.Expired d.clock) := by
  obtain h | ⟨-, ⟨-, rfl | ⟨b, f, body, now, ttl, due, rfl, -, -, -, hnone, rfl⟩ | ⟨full, h⟩⟩ |
    ⟨full, h, -⟩⟩ := h
  · exact h.lasts he
  · exact .inl ⟨[], List.nil_sublist _, by rw [he, Entry.extended_nil]⟩
  · refine .inl ⟨[], List.nil_sublist _, ?_⟩
    have hne : ¬ (bucket = b ∧ filename = f) := by
      rintro ⟨rfl, rfl⟩
      cases he.symm.trans hnone
    rw [set_entries_of_ne hne, he, Entry.extended_nil]
  · exact h.lasts he
  · exact h.lasts he

theorem RunsUnder.lasts {acts : List Act} {replies : List Reply} (h : d.RunsUnder acts replies d')
    (e : Entry) (he : d.entries bucket filename = some e) :
    (∃ ws : List Bytes, ws.Sublist (acts.flatMap (Act.appends bucket filename)) ∧
        d'.entries bucket filename = some (e.extended ws)) ∨
      ∃ before tie after, acts = before ++ .deleteOld tie :: after ∧
        e.Expired (clockAfter d.clock before) := by
  revert e
  refine RunsUnder.induction ?nil ?cons h
  case nil =>
    intro e he
    exact .inl ⟨[], .slnil, by rw [he, Entry.extended_nil]⟩
  case cons =>
    intro act acts reply d d₁ hstep ih e he
    obtain ⟨ws, hs, he₁⟩ | ⟨⟨tie, rfl⟩, hexp⟩ := hstep.lasts he
    · obtain ⟨ws', hs', he'⟩ | ⟨before, tie, after, rfl, t, ht, hlt⟩ := ih _ he₁
      · refine .inl ⟨ws ++ ws', ?_, by rw [he', Entry.extended_append]⟩
        rw [List.flatMap_cons]
        exact hs.append hs'
      · rw [hstep.clock] at hlt
        exact .inr ⟨act :: before, tie, after, rfl, t, ht, hlt⟩
    · exact .inr ⟨[], tie, acts, rfl, hexp⟩

end Depot

/-- What an acknowledged PUT or POST has stored is downloaded after any further run in which
statements fail and callers go away: as it was, with bodies of later appends behind, each whole
and in their order. Only a batch that runs later than the deadline takes it away. -/
theorem acknowledged_writes_survive {db : Db} (h : db.Linked) {r : Request} (hw : r.writes = true)
    {sched : Schedule} (quiet : Quiet sched)
    (ack : ((Act.request r).performUnder sched db).1 = .answered (some .ok) none) :
    let db' := ((Act.request r).performUnder sched db).2
    ∃ e, (depot db').entries r.name.1 r.name.2 = some e ∧ r.Stored e.content ∧
      ∀ acts : List (Act × Schedule), (∀ x ∈ acts, Quiet x.2) →
        (∃ ws : List Bytes, ws.Sublist ((acts.map Prod.fst).flatMap (Act.appends r.name.1 r.name.2)) ∧
          ∀ rooms, ((Act.request (.get r.name.1 r.name.2 rooms)).perform
              (performAllUnder db' acts).2).1 = .answered (some .ok)
            (some ⟨(e.content ++ ws.flatten).length, "application/octet-stream", e.updatedAt,
              (download (e.content ++ ws.flatten) 0 rooms).1,
              (download (e.content ++ ws.flatten) 0 rooms).2⟩)) ∨
        ∃ before tie after, acts.map Prod.fst = before ++ .deleteOld tie :: after ∧
          e.Expired (clockAfter db'.clock before) := by
  intro db'
  have hl : db'.Linked := performUnder_linked quiet h (.request r)
  have hstep := performUnder_refines quiet h (.request r)
  rw [ack] at hstep
  obtain ⟨hr, hd⟩ := hstep.acknowledged
  obtain ⟨e, he, hs⟩ := Depot.serve_acknowledged hw hr.symm
  rw [← hd] at he
  refine ⟨e, he, hs, fun acts hq => ?_⟩
  obtain ⟨hl', hrun⟩ := performAllUnder_refines hl hq
  obtain ⟨ws, hws, he'⟩ | hgone := hrun.lasts e he
  · exact .inl ⟨ws, hws, fun rooms => get_entry hl' he' rooms⟩
  · exact .inr hgone

theorem acknowledged_writes_survive_meow :
    let r : Request := .put "bucket" "meow" [.ok [109], .ok []] 0
    let db' := ((Act.request r).performUnder calm (.created 0 "bucket" none)).2
    ∃ e, (depot db').entries r.name.1 r.name.2 = some e ∧ r.Stored e.content ∧
      ∀ acts : List (Act × Schedule), (∀ x ∈ acts, Quiet x.2) →
        (∃ ws : List Bytes,
          ws.Sublist ((acts.map Prod.fst).flatMap (Act.appends r.name.1 r.name.2)) ∧
          ∀ rooms, ((Act.request (.get r.name.1 r.name.2 rooms)).perform
              (performAllUnder db' acts).2).1 = .answered (some .ok)
            (some ⟨(e.content ++ ws.flatten).length, "application/octet-stream", e.updatedAt,
              (download (e.content ++ ws.flatten) 0 rooms).1,
              (download (e.content ++ ws.flatten) 0 rooms).2⟩)) ∨
        ∃ before tie after, acts.map Prod.fst = before ++ .deleteOld tie :: after ∧
          e.Expired (clockAfter db'.clock before) :=
  acknowledged_writes_survive (Db.linked_created 0 "bucket" none) rfl (fun _ => rfl)
    (by decide +kernel)

end LocallyEuclidean.Server
