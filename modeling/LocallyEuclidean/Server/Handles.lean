import LocallyEuclidean.Server.Sequential
import LocallyEuclidean.Storage.Cursor

/-! A file handle with no other writer: appends, seeks and reads in any order, then a
commit or a drop. It is a cursor over the committed bytes and what has been appended. -/

namespace LocallyEuclidean.Server
open Interact Postgres Storage

inductive HandleOp where
  | append (data : Bytes)
  | seek (position : {p : SeekFrom // p.Fits})
  | read (room : ℕ)

inductive HandleResult where
  | append (result : Outcome BoxError Unit)
  | seek (result : Outcome IoError ℕ)
  | read (result : Outcome IoError Bytes)
  deriving DecidableEq, Repr

/-- The result of a statement that failed. -/
def HandleResult.Refused : HandleResult → Prop
  | .append (.err (.io (.other e))) | .seek (.err (.other e)) | .read (.err (.other e)) => e.Refused
  | _ => False

namespace HandleOp

def perform (h : PostgresFileHandle) (s : Session) : HandleOp → HandleResult × Session
  | .append data => Prod.map .append id (run serveAlone (h.append data) s)
  | .seek position => Prod.map .seek id (run serveAlone (h.blob.seek position) s)
  | .read room => Prod.map .read id (run serveAlone (h.blob.read room) s)

def performAll (h : PostgresFileHandle) : List HandleOp → Session → List HandleResult × Session
  | [], s => ([], s)
  | op :: ops, s =>
    let (r, s') := op.perform h s
    let (rs, s'') := performAll h ops s'
    (r :: rs, s'')

/-- What the operation does to bytes with a cursor; an append goes to the end. -/
def step (m : FileCursor) : HandleOp → HandleResult × FileCursor
  | .append data =>
    (.append (.ok ()), { m with bytes := m.bytes ++ data, cursor := (m.bytes ++ data).length })
  | .seek position =>
    (.seek (.ok (m.target position).toNat), { m with cursor := (m.target position).toNat })
  | .read room =>
    let data := window m.bytes m.cursor (min room (8 * mib))
    (.read (.ok data), { m with cursor := m.cursor + data.length })

def run (m : FileCursor) : List HandleOp → List HandleResult × FileCursor
  | [] => ([], m)
  | op :: ops => ((op.step m).1 :: (run (op.step m).2 ops).1, (run (op.step m).2 ops).2)

/-- The slices appended, in order. -/
def appended : List HandleOp → Bytes
  | [] => []
  | .append data :: ops => data ++ appended ops
  | _ :: ops => appended ops

/-- No cursor position makes an operation touch the bytes that are there. -/
theorem bytes_run (m : FileCursor) (ops : List HandleOp) :
    (run m ops).2.bytes = m.bytes ++ appended ops := by
  induction ops generalizing m with
  | nil => simp [run, appended]
  | cons op ops ih =>
    cases op with
    | append data => simp only [run, step, appended, ih, List.append_assoc]
    | seek position => simp only [run, step, appended, ih]
    | read room => simp only [run, step, appended, ih]

end HandleOp

/-- The handle's transaction on object `oid` of `db` is in the machine's state. -/
structure Held (db : Db) (oid : Oid) (m : FileCursor) (s : Session) : Prop where
  db_eq : s.db = db
  conn : ∃ ws, s.conn.At oid m.cursor ws ∧ (∀ w ∈ ws, w.oid = oid) ∧
    applyAll ws oid (db.bytes oid) = m.bytes

section Steps

variable {db : Db} {oid : Oid} {m : FileCursor} {s : Session} {id : FileId}

theorem Held.read (h : Held db oid m s) (room : ℕ) :
    Alone.wp (BlobHandle.read (.ofFd 0) room) (fun o s' =>
      HandleResult.read o = (HandleOp.step m (.read room)).1 ∧
        Held db oid (HandleOp.step m (.read room)).2 s') s := by
  obtain ⟨db', conn⟩ := s
  obtain ⟨rfl, ws, hat, hw, hv⟩ := h
  obtain ⟨conn', hs, hat'⟩ := hat.read (fun _ => false) _ (min room (8 * mib))
  rw [hv] at hs hat'
  exact BlobHandle.wp_read (served hs
    ⟨_, rfl, (length_window_le _ _ _).trans (min_le_left _ _), rfl, rfl, ws, hat', hw, hv⟩)

theorem Held.seek (h : Held db oid m s) (position : {p : SeekFrom // p.Fits}) :
    Alone.wp (BlobHandle.seek (.ofFd 0) position) (fun o s' => (HandleResult.seek o).Refused ∨
      HandleResult.seek o = (HandleOp.step m (.seek position)).1 ∧
        Held db oid (HandleOp.step m (.seek position)).2 s') s := by
  obtain ⟨db', conn⟩ := s
  obtain ⟨rfl, ws, ⟨snapshot, rfl⟩, hw, hv⟩ := h
  have hview := Tx.view_readWrite ⟨oid, .readWrite, m.cursor, snapshot⟩ rfl ws db'
  exact FileCursor.wp_seek_sent served (hview.trans hv) rfl position.2
    (.inr ⟨rfl, rfl, ws, ⟨snapshot, rfl⟩, hw, hv⟩) fun _ _ => .inl trivial

/-- An append from wherever the cursor is. -/
theorem Held.append (h : Held db oid m s) (data : Bytes) :
    Alone.wp (PostgresFileHandle.append ⟨.ofFd 0, id⟩ data) (fun o s' =>
      (HandleResult.append o).Refused ∨
        HandleResult.append o = (HandleOp.step m (.append data)).1 ∧
          Held db oid (HandleOp.step m (.append data)).2 s') s := by
  obtain ⟨db', conn⟩ := s
  obtain ⟨rfl, ws, ⟨snapshot, rfl⟩, hw, hv⟩ := h
  have hview := Tx.view_readWrite ⟨oid, .readWrite, m.cursor, snapshot⟩ rfl ws db'
  simp only [PostgresFileHandle.append, Prog.bind_eq, Logic.wp_bind, Logic.wp_mapErr]
  have hend : (m.target (.fromEnd 0)).toNat = m.bytes.length := by simp [FileCursor.target]
  have hf : SeekFrom.Fits (.fromEnd 0) := ⟨by decide, by decide⟩
  refine FileCursor.wp_seek_sent served (hview.trans hv) rfl hf ?_ fun _ _ => .inl trivial
  rw [hend]
  simp only [Outcome.mapErr, Logic.after_ok, Logic.wp_mapErr]
  have hat : Conn.At oid m.bytes.length ws
      (.inTx ⟨some ⟨oid, .readWrite, m.bytes.length, snapshot⟩, ws⟩) := ⟨snapshot, rfl⟩
  refine BlobHandle.wp_writeAll (fun hd => .inr ⟨rfl, rfl, ws, ?_, hw, ?_⟩) fun hd => ?_
  · simpa only [HandleOp.step, hd, List.append_nil] using hat
  · simpa only [HandleOp.step, hd, List.append_nil] using hv
  · rcases le_or_gt (m.bytes.length + data.length) maxObjectSize with hfit | hbig
    · obtain ⟨conn', hs, hat'⟩ := hat.write (fun _ => false) db' hd hfit rfl
      refine served hs (.inl ⟨rfl, .inr ⟨rfl, rfl, _, ?_, ?_, applyAll_append_end hv data⟩⟩)
      · simpa only [HandleOp.step, List.length_append] using hat'
      · intro w hm
        rcases List.mem_append.mp hm with hm | hm
        · exact hw w hm
        · rw [List.mem_singleton.mp hm]
    · exact served (hat.write_large _ _ hbig) (.inr ⟨_, rfl, .inl trivial⟩)

/-- One operation of a handle is one step of its machine. -/
theorem Held.step (h : Held db oid m s) {op : HandleOp} {r : HandleResult} {s' : Session}
    (ho : op.perform ⟨.ofFd 0, id⟩ s = (r, s')) (hr : ¬ r.Refused) :
    r = (op.step m).1 ∧ Held db oid (op.step m).2 s' := by
  cases op with
  | append data =>
    obtain ⟨rfl, rfl⟩ := Prod.mk.inj ho
    exact (wp_alone (fun _ => False.elim) (h.append data)).resolve_left hr
  | seek position =>
    obtain ⟨rfl, rfl⟩ := Prod.mk.inj ho
    exact (wp_alone (fun _ => False.elim) (h.seek position)).resolve_left hr
  | read room =>
    obtain ⟨rfl, rfl⟩ := Prod.mk.inj ho
    exact wp_alone (fun _ => False.elim) (h.read room)

theorem Held.run {ops : List HandleOp} (h : Held db oid m s) {rs : List HandleResult} {t : Session}
    (ho : HandleOp.performAll ⟨.ofFd 0, id⟩ ops s = (rs, t)) (hr : ∀ r ∈ rs, ¬ r.Refused) :
    rs = (HandleOp.run m ops).1 ∧ Held db oid (HandleOp.run m ops).2 t := by
  induction ops generalizing m s rs with
  | nil =>
    obtain ⟨rfl, rfl⟩ := Prod.mk.inj ho
    exact ⟨rfl, h⟩
  | cons op ops ih =>
    obtain ⟨rfl, rfl⟩ := Prod.mk.inj ho
    obtain ⟨hx, h'⟩ := h.step rfl (hr _ List.mem_cons_self)
    obtain ⟨hxs, hend⟩ := ih h' rfl fun r hm => hr r (List.mem_cons_of_mem _ hm)
    exact ⟨congrArg₂ List.cons hx hxs, hend⟩

theorem Held.opened {c : Bytes} (hc : db.objects oid = some c) {conn : Conn}
    (hat : conn.At oid 0 []) : Held db oid ⟨c, 0, true⟩ ⟨db, conn⟩ :=
  ⟨rfl, [], hat, by simp, Db.bytes_of_objects hc⟩

/-- A commit stores what the machine holds. -/
theorem commit_held {c : Bytes} (h : Held db oid m s) (hc : db.objects oid = some c) :
    (run serveAlone (PostgresFileHandle.commit ⟨.ofFd 0, id⟩) s).1 = .ok () ∧
      (run serveAlone (PostgresFileHandle.commit ⟨.ofFd 0, id⟩) s).2.db = db.store oid m.bytes := by
  obtain ⟨db', conn⟩ := s
  obtain ⟨rfl, ws, hat, hw, hv⟩ := h
  rw [Db.bytes_of_objects hc] at hv
  have stored : Alone.wp (PostgresFileHandle.commit ⟨.ofFd 0, id⟩) (fun o s =>
      o = .ok () ∧ s.db = db'.store oid m.bytes) ⟨db', conn⟩ :=
    PostgresFileHandle.wp_commit (served (hat.close _ _) ⟨⟨_, rfl⟩, served rfl
      ⟨rfl, rfl, hv ▸ Db.commit_eq_store hw hc none⟩⟩)
  exact wp_alone (fun _ => False.elim) stored

end Steps

/-- A handle on the name can be opened, and does what its machine does on these bytes. -/
def Holds (db : Db) (p : PostgresBucket) (filename : String) (c : Bytes) : Prop :=
  ∃ h s, run serveAlone (p.file filename) ⟨db, .idle⟩ = (.ok h, s) ∧ ∀ ops rs t,
    HandleOp.performAll h ops s = (rs, t) → (∀ r ∈ rs, ¬ r.Refused) →
      rs = (HandleOp.run ⟨c, 0, true⟩ ops).1

theorem holds_of_find {db : Db} {p : PostgresBucket} {filename : String} {f : FileRow} {c : Bytes}
    (hf : db.findFile p.id filename = some f) (hc : db.objects f.blob = some c) :
    Holds db p filename c := by
  have opens : Alone.wp (p.file filename) (fun o s => o = .ok ⟨.ofFd 0, f.id⟩ ∧
      Held db f.blob ⟨c, 0, true⟩ s) ⟨db, .idle⟩ :=
    file_alone hf hc fun conn' hat => ⟨rfl, .opened hc hat⟩
  obtain ⟨ho, hh⟩ := wp_alone (fun _ => False.elim) opens
  exact ⟨_, _, Prod.ext ho rfl, fun ops rs t hp hr => (hh.run hp hr).1⟩

/-- A handle from `file` or `createFile`, and the session it leaves. -/
inductive Obtained (db : Db) (p : PostgresBucket) (filename : String) (h : PostgresFileHandle)
    (s : Session) : Prop where
  | file (hr : run serveAlone (p.file filename) ⟨db, .idle⟩ = (.ok h, s))
  | created (now : DateTime) (hr : run serveAlone (p.createFile filename now) ⟨db, .idle⟩ = (.ok h, s))

/-- The row that the handle is on, and its bytes. -/
def OnRow (p : PostgresBucket) (filename : String) (h : PostgresFileHandle) (s : Session) : Prop :=
  ∃ f c, s.db.findFile p.id filename = some f ∧ s.db.objects f.blob = some c ∧
    h = ⟨.ofFd 0, f.id⟩ ∧ s.conn.At f.blob 0 []

theorem file_onRow {db : Db} (hl : db.Linked) (p : PostgresBucket) (filename : String) :
    Alone.wp (p.file filename) (fun o s => ∀ h, o = .ok h → OnRow p filename h s) ⟨db, .idle⟩ := by
  cases hf : db.findFile p.id filename with
  | none => exact file_alone_none hf fun h ho => by cases ho
  | some f =>
    obtain ⟨c, hc⟩ := hl.objects_of_find hf
    refine file_alone hf hc fun conn hat h ho => ?_
    obtain rfl := Outcome.ok.inj ho
    exact ⟨f, c, hf, hc, rfl, hat⟩

theorem createFile_onRow (db : Db) (p : PostgresBucket) (filename : String) (now : DateTime) :
    Alone.wp (p.createFile filename now) (fun o s => ∀ h, o = .ok h → OnRow p filename h s)
      ⟨db, .idle⟩ := by
  obtain ⟨deleteAfter, hd⟩ | hm := p.deleteAfter_cases now
  · refine createFile_wp hd (fun row db' conn hr hc hat h ho => ?_) fun e h ho => by cases ho
    obtain rfl := Outcome.ok.inj ho
    obtain ⟨hn, -, hrow, hdb⟩ := Db.insertFile_ok hr
    refine ⟨row, [], ?_, hc, rfl, hat⟩
    rw [Db.findFile] at hn
    rw [hdb, Db.findFile, List.find?_append, hn, Option.none_or, hrow]
    simp
  · rw [PostgresBucket.createFile, hm]
    exact fun h ho => by cases ho

/-- A handle on a file whose committed bytes are `c`: every read is at the cursor, in `c` and
what has been appended; nobody else sees that before the commit, everybody after it, and
nobody ever if the handle is dropped. -/
theorem handle_append_only {db : Db} (hl : db.Linked) {p : PostgresBucket} {filename : String}
    {h : PostgresFileHandle} {s : Session} (hh : Obtained db p filename h s) :
    ∃ f c, s.db.findFile p.id filename = some f ∧ s.db.objects f.blob = some c ∧
      ∀ ops rs t, HandleOp.performAll h ops s = (rs, t) → (∀ r ∈ rs, ¬ r.Refused) →
        rs = (HandleOp.run ⟨c, 0, true⟩ ops).1 ∧
        (HandleOp.run ⟨c, 0, true⟩ ops).2.bytes = c ++ HandleOp.appended ops ∧
        t.db = s.db ∧ Holds t.db p filename c ∧
        ∃ t', run serveAlone h.commit t = (.ok (), t') ∧
          Holds t'.db p filename (c ++ HandleOp.appended ops) := by
  have onRow : OnRow p filename h s := by
    cases hh with
    | file hr =>
      have := wp_alone (fun _ => False.elim) (file_onRow hl p filename)
      rw [hr] at this
      exact this h rfl
    | created now hr =>
      have := wp_alone (fun _ => False.elim) (createFile_onRow db p filename now)
      rw [hr] at this
      exact this h rfl
  obtain ⟨f, c, hf, hc, rfl, hat⟩ := onRow
  refine ⟨f, c, hf, hc, fun ops rs t hp hr => ?_⟩
  obtain ⟨hrs, hheld⟩ := (Held.opened hc hat).run hp hr
  have hbytes := HandleOp.bytes_run ⟨c, 0, true⟩ ops
  obtain ⟨hok, hdb⟩ := @commit_held _ _ _ _ f.id _ hheld hc
  rw [hbytes] at hdb
  refine ⟨hrs, hbytes, hheld.db_eq, ?_, _, Prod.ext hok rfl, ?_⟩
  · rw [hheld.db_eq]
    exact holds_of_find hf hc
  · rw [hdb]
    exact holds_of_find (f := f) hf (Db.store_objects_self _ _)

/-- Two appends, a seek back and a read over the seam, on a new file. -/
theorem handle_append_only_meow :
    let p : PostgresBucket := ⟨⟨0⟩, none⟩
    let h : PostgresFileHandle := ⟨.ofFd 0, ⟨1⟩⟩
    let r := run serveAlone (p.createFile "meow" 0) ⟨.created 0 "bucket" none, .idle⟩
    let ops : List HandleOp := [.append [109, 101, 111, 119], .append [97, 119, 111, 111],
      .seek ⟨.start 2, (by decide : 2 < 2 ^ 64)⟩, .read 4]
    let rs : List HandleResult := [.append (.ok ()), .append (.ok ()), .seek (.ok 2),
      .read (.ok [111, 119, 97, 119])]
    r.1 = .ok h ∧ (HandleOp.performAll h ops r.2).1 = rs ∧
      ∃ t', run serveAlone h.commit (HandleOp.performAll h ops r.2).2 = (.ok (), t') ∧
        Holds t'.db p "meow" [109, 101, 111, 119, 97, 119, 111, 111] := by
  intro p h r ops rs
  have hrs : (HandleOp.performAll h ops r.2).1 = rs := by decide +kernel
  have hok : ∀ x ∈ rs, ¬ x.Refused := by simp [rs, HandleResult.Refused]
  obtain ⟨f, c, hf, hc, hall⟩ := handle_append_only (Db.linked_created 0 "bucket" none)
    (.created 0 (Prod.ext rfl rfl : r = (.ok h, r.2)))
  have hrun : HandleOp.performAll h ops r.2 = (rs, (HandleOp.performAll h ops r.2).2) := by
    rw [← hrs]
  obtain ⟨-, -, -, -, t', ht', hh⟩ := hall ops rs _ hrun hok
  obtain rfl := Option.some.inj hf
  obtain rfl := Option.some.inj hc
  exact ⟨rfl, hrs, t', ht', hh⟩

end LocallyEuclidean.Server
