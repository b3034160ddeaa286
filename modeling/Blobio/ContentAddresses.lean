import Blobio.RequestSteps

/-! What the files of the blob store hold in every state that the request processes and
the arborist can reach: the bytes that their paths are the digests of, but for a copy
across devices that is not finished. -/
namespace Blobio
open EventRuns FileTrees

variable {L : DigestLibrary} {T : TmpMap} {trust_fs : Bool}

/-- The store's files have the shape and the contents their paths call for. -/
structure Sound (L : DigestLibrary) (t : Store) : Prop where
  shape : StoreShape t
  digests : ∀ (u : Udig) b, t.file? u.path = some b → L.digest u.algorithm b = u.digest

/-- The file holds a blob of the udig. -/
def HoldsBlob (L : DigestLibrary) (t : Store) (q : Path) (u : Udig) : Prop :=
  ∃ b, t.file? q = some b ∧ L.digest u.algorithm b = u.digest

/-- The blob is in the store, and its file is not open for a copy to write over. -/
def Stored (L : DigestLibrary) (t : Store) (writable : List Path) (u : Udig) : Prop :=
  HoldsBlob L t u.path u ∧ u.path ∉ writable

/-- What a process knows of the file it writes. -/
def Holds (T : TmpMap) (t : Store) (pid : ℕ) : Job → Phase L → Prop
  | .put verb u _, .eating time ctx =>
    ∃ b, t.file? (put_tmp T pid verb u time) = some b ∧ L.Absorbed u.algorithm ctx b
  | .put verb u _, .digested time => HoldsBlob L t (put_tmp T pid verb u time) u
  | .wrap m, .copied _ u time drift => HoldsBlob L t (digest_tmp T pid m time drift) u
  | _, _ => True

/-- A request on its way names a file outside the store that holds the blob of its target. -/
def Carries (L : DigestLibrary) (t : Store) (m : MoveRequest) : Prop :=
  m.src_path.head? ≠ some data ∧ ∃ u : Udig, m.tgt_path = u.path ∧ HoldsBlob L t m.src_path u

theorem Carries.ne {t : Store} {m : MoveRequest} (h : Carries L t m) : m.src_path ≠ m.tgt_path := by
  obtain ⟨hsrc, u, hu, -⟩ := h
  rintro heq
  exact hsrc (by rw [heq, hu, u.head?_path])

/-- Each request that waits for a reply is of a process that waits for it. -/
def Owned (T : TmpMap) (s : Server L) (m : MoveRequest) : Prop :=
  ∃ job phase msg, s.procs m.reply_pid = some (job, phase) ∧ phase.awaits T m.reply_pid job = some msg ∧
    msg.move? = some m

theorem awaits_waits {pid : ℕ} {job : Job} {phase : Phase L} {msg : Message}
    (h : phase.awaits T pid job = some msg) : phase.Waits := by
  unfold Phase.awaits at h
  split at h <;> cases h
  all_goals trivial

theorem awaits_tmp {pid : ℕ} {job : Job} {phase : Phase L} {msg : Message} {m : MoveRequest}
    (h : phase.awaits T pid job = some msg) (hm : msg.move? = some m) :
    m.reply_pid = pid ∧ phase.tmp T pid job = some m.src_path := by
  unfold Phase.awaits at h
  split at h <;> cases h
  all_goals cases hm
  all_goals exact ⟨rfl, rfl⟩

theorem Owned.waits {s : Server L} {m : MoveRequest} (h : Owned T s m) :
    ∃ job phase, s.procs m.reply_pid = some (job, phase) ∧ phase.Waits ∧
      phase.tmp T m.reply_pid job = some m.src_path := by
  obtain ⟨job, phase, msg, hproc, hawaits, hm⟩ := h
  exact ⟨job, phase, hproc, awaits_waits hawaits, (awaits_tmp hawaits hm).2⟩

/-- The request that the arborist is at. -/
def Station.move? : Station → Option MoveRequest
  | .placed m | .copying m _ | .answering m _ => some m
  | .waiting | .panicked => none

/-- The requests that the arborist has yet to reply to. -/
def outstanding (station : Station) (pipe : List Message) : List MoveRequest :=
  station.move?.toList ++ pipe.filterMap Message.move?

/-- The request, if any, that the next turn of the arborist is about. -/
def current : Station → List Message → Option MoveRequest
  | .waiting, msg :: _ => msg.move?
  | station, _ => station.move?

/-- What stands at the place of the blob that the arborist is at. -/
def AtStation (L : DigestLibrary) (t : Store) (writable : List Path) : Station → Prop
  | .placed m => ∃ u : Udig, m.tgt_path = u.path ∧
      ∀ b, t.file? u.path = some b → L.digest u.algorithm b = u.digest
  | .copying m unread => m.src_path.head? ≠ some data ∧ ∃ u : Udig, m.tgt_path = u.path ∧ u.path ∈ writable ∧
      ∃ written, L.digest u.algorithm (written ++ unread) = u.digest ∧ ∀ b, t.file? u.path = some b → b = written
  | _ => True

/-- The files that no copy has opened hold their blobs. -/
def Settled (L : DigestLibrary) (t : Store) (writable : List Path) : Prop :=
  ∀ (u : Udig) b, t.file? u.path = some b → u.path ∈ writable ∨ L.digest u.algorithm b = u.digest

structure Consistent (T : TmpMap) (s : Server L) : Prop where
  shape : StoreShape s.tree
  settled : Settled L s.tree s.writable
  holds : ∀ pid job phase, s.procs pid = some (job, phase) → Holds T s.tree pid job phase
  carries : ∀ m ∈ s.pipe.filterMap Message.move?, Carries L s.tree m
  owned : ∀ m ∈ outstanding s.station s.pipe, Owned T s m
  once : ((outstanding s.station s.pipe).map MoveRequest.reply_pid).Nodup
  station : AtStation L s.tree s.writable s.station

theorem HoldsBlob.mono {t t' : Store} {q : Path} {u : Udig} (h : HoldsBlob L t q u)
    (hq : ∀ b, t.file? q = some b → t'.file? q = some b) : HoldsBlob L t' q u := by
  obtain ⟨b, hb, hd⟩ := h
  exact ⟨b, hq b hb, hd⟩

/-- A process's knowledge is about its own temporary file only. -/
theorem Holds.mono {t t' : Store} {pid : ℕ} {job : Job} {phase : Phase L}
    (h : Holds T t pid job phase)
    (hq : ∀ q b, phase.tmp T pid job = some q → t.file? q = some b → t'.file? q = some b) :
    Holds T t' pid job phase := by
  unfold Holds at h ⊢
  split <;> simp only at h ⊢
  · obtain ⟨b, hb, habs⟩ := h
    exact ⟨b, hq _ b rfl hb, habs⟩
  · exact HoldsBlob.mono h fun b => hq _ b rfl
  · exact HoldsBlob.mono h fun b => hq _ b rfl

theorem Carries.mono {t t' : Store} {m : MoveRequest} (h : Carries L t m)
    (hq : ∀ b, t.file? m.src_path = some b → t'.file? m.src_path = some b) : Carries L t' m := by
  obtain ⟨hsrc, u, htgt, hb⟩ := h
  exact ⟨hsrc, u, htgt, hb.mono hq⟩

/-- Between the turns of the arborist the files of the store only stay or go. -/
theorem AtStation.mono {t t' : Store} {writable : List Path} {station : Station}
    (h : AtStation L t writable station)
    (hq : ∀ (u : Udig) b, t'.file? u.path = some b → t.file? u.path = some b) :
    AtStation L t' writable station := by
  cases station with
  | placed m =>
    obtain ⟨u, htgt, hb⟩ := h
    exact ⟨u, htgt, fun b hb' => hb b (hq u b hb')⟩
  | copying m unread =>
    obtain ⟨hsrc, u, htgt, hmem, written, hdigest, hwritten⟩ := h
    exact ⟨hsrc, u, htgt, hmem, written, hdigest, fun b hb => hwritten b (hq u b hb)⟩
  | waiting | answering m payload | panicked => trivial

/-! ### The arborist -/

section arborist
variable {t : Store} {writable : List Path} {station : Station} {pipe rest : List Message} {h : Handled}

theorem turn_outstanding (hturn : ArboristTurn t writable station pipe rest h) :
    outstanding station pipe = (current station pipe).toList ++ rest.filterMap Message.move? := by
  cases hturn with
  | received msg m hst hpipe hm _ => simp [outstanding, current, Station.move?, hst, hpipe, hm]
  | trimmed dir hst hpipe _ _ _ => rw [hst, hpipe]; rfl
  | chmod_failed m hst hrest _ _ _ | chmodded m hst hrest _ _ _ _ | copied m _ hst hrest _ _
  | replied m _ hst hrest _ _ _ => rw [hst, hrest]; rfl

/-- The arborist stays with a request until it is done with it. -/
theorem turn_station (hturn : ArboristTurn t writable station pipe rest h) :
    h.station.move? = none ∨ h.station.move? = current station pipe := by
  cases hturn with
  | received msg m hst hpipe hm hr =>
    have hcur : current station pipe = some m := by rw [hst, hpipe]; exact hm
    rw [hcur]
    cases hr with
    | refused _ _ hstation =>
      rcases hstation with hstation | ⟨payload, -, hstation⟩
      · exact .inl (by rw [hstation]; rfl)
      · exact .inr (by rw [hstation]; rfl)
    | placed _ _ _ hstation | opened _ _ _ _ _ hstation => exact .inr (by rw [hstation]; rfl)
  | trimmed _ _ _ _ _ hstation => rcases hstation with hstation | hstation <;> exact .inl (by rw [hstation]; rfl)
  | chmod_failed m hst _ _ _ hstation | chmodded m hst _ _ _ _ hstation =>
    exact .inr (by rw [hst, hstation]; rfl)
  | copied m unread hst _ _ hc =>
    rw [hst]
    cases hc with
    | croaked _ _ _ hstation | ended _ _ hstation | copied _ hstation => exact .inr (by rw [hstation]; rfl)
  | replied m payload hst _ _ _ hstation =>
    rcases hstation with ⟨-, hstation⟩ | hstation <;> exact .inl (by rw [hstation]; rfl)

theorem turn_rest (hturn : ArboristTurn t writable station pipe rest h) :
    outstanding h.station rest = outstanding station pipe ∨
      outstanding h.station rest = rest.filterMap Message.move? := by
  rw [turn_outstanding hturn]
  rcases turn_station hturn with hnone | hcur
  · exact .inr (by simp [outstanding, hnone])
  · exact .inl (by simp [outstanding, hcur])

/-- The process that is answered is of the current request, which is then done with. -/
theorem turn_reply {f : Faults} {pid : ℕ} (hturn : ArboristTurn t writable station pipe rest h)
    (hreply : replies_to f station = some pid) :
    (∃ m, current station pipe = some m ∧ m.reply_pid = pid) ∧
      outstanding h.station rest = rest.filterMap Message.move? := by
  cases hturn with
  | replied m payload hst hrest _ _ hstation =>
    subst hst
    have hpid : m.reply_pid = pid := by
      unfold replies_to at hreply
      dsimp only at hreply
      split at hreply
      · cases hreply
      · exact Option.some.inj hreply
    refine ⟨⟨m, rfl, hpid⟩, ?_⟩
    rcases hstation with ⟨-, hstation⟩ | hstation <;> simp [outstanding, hstation, Station.move?]
  | received _ _ hst _ _ _ | trimmed _ hst _ _ _ _ | chmod_failed _ hst _ _ _ _ | chmodded _ hst _ _ _ _ _
  | copied _ _ hst _ _ _ => simp [replies_to, hst] at hreply

/-- Outside the store a turn takes no file but the source of its request. -/
theorem turn_outside (hturn : ArboristTurn t writable station pipe rest h)
    (hcarry : ∀ m ∈ pipe.filterMap Message.move?, Carries L t m) (hst : AtStation L t writable station)
    {q : Path} (hq : q.head? ≠ some data) (hsrc : ∀ m, current station pipe = some m → m.src_path ≠ q) :
    h.tree.file? q = t.file? q := by
  cases hturn with
  | received msg m hstation hpipe hm hr =>
    subst hstation hpipe
    obtain ⟨-, u, htgt, -⟩ := hcarry m (by simp [hm])
    have hne : q ≠ m.tgt_path := fun heq => hq (by rw [heq, htgt, u.head?_path])
    cases hr with
    | refused htree _ _ => exact htree.same.files q
    | placed b htree _ _ =>
      rcases htree.others q hne with hsame | ⟨-, hgone⟩
      · exact hsame
      · exact absurd hgone.symm (hsrc m hm)
    | opened b _ _ htree _ _ => exact htree.others q hne
  | trimmed _ _ _ htree _ _ => exact htree.same.files q
  | chmod_failed _ _ _ htree _ _ | chmodded _ _ _ _ htree _ _ | replied _ _ _ _ htree _ _ => rw [htree]
  | copied m unread hstation _ _ hc =>
    subst hstation
    obtain ⟨-, u, htgt, -⟩ := hst
    have hne : q ≠ m.tgt_path := fun heq => hq (by rw [heq, htgt, u.head?_path])
    cases hc with
    | croaked _ _ htree _ | copied htree _ => exact FileTree.file?_congr (htree.others q hne)
    | ended _ htree _ =>
      rw [htree]
      exact FileTree.file?_congr (unlink_quietly_of_ne t (hsrc m rfl).symm)

theorem turn_shape (hturn : ArboristTurn t writable station pipe rest h)
    (hcarry : ∀ m ∈ pipe.filterMap Message.move?, Carries L t m) (hst : AtStation L t writable station)
    (ht : StoreShape t) : StoreShape h.tree := by
  cases hturn with
  | received msg m hstation hpipe hm hr =>
    subst hpipe
    obtain ⟨-, u, htgt, -⟩ := hcarry m (by simp [hm])
    cases hr with
    | refused htree _ _ => exact ht.of_added (htgt ▸ htree)
    | placed b htree _ _ => exact ht.of_placed (htgt ▸ htree)
    | opened b _ _ htree _ _ => exact ht.of_opened (htgt ▸ htree)
  | trimmed _ _ _ htree _ _ => exact ht.of_trimmed htree
  | chmod_failed _ _ _ htree _ _ | chmodded _ _ _ _ htree _ _ | replied _ _ _ _ htree _ _ => rwa [htree]
  | copied m unread hstation _ _ hc =>
    subst hstation
    obtain ⟨-, u, htgt, -⟩ := hst
    cases hc with
    | croaked _ _ htree _ | copied htree _ => exact ht.of_extended (htgt ▸ htree)
    | ended _ htree _ =>
      rw [htree]
      refine ht.mono fun q _ => ?_
      by_cases hq : q = m.src_path
      · exact hq ▸ unlink_quietly_self t m.src_path
      · exact .inl (unlink_quietly_of_ne t hq)

/-- A source lies outside the store. -/
theorem path_ne_source {v : Udig} {src : Path} (hsrc : src.head? ≠ some data) : v.path ≠ src := by
  rintro rfl
  exact hsrc v.head?_path

/-- The blobs behind a request that the arborist has received, and what is next. -/
theorem received_settled {m : MoveRequest} (hr : Received t writable m h) (hcarry : Carries L t m)
    (ht : Settled L t writable) : Settled L h.tree h.writable ∧ AtStation L h.tree h.writable h.station := by
  obtain ⟨hsrc, u, htgt, b, hb, hdigest⟩ := hcarry
  cases hr with
  | refused htree hw hstation =>
    refine ⟨fun v c hc => hw ▸ ht v c (htree.same.files v.path ▸ hc), ?_⟩
    rcases hstation with hstation | ⟨payload, -, hstation⟩ <;> rw [hstation] <;> trivial
  | placed c htree hw hstation =>
    cases hb.symm.trans htree.source
    refine ⟨fun v c hc => ?_, ?_⟩
    · by_cases hv : v.path = m.tgt_path
      · cases Udig.path_injective (hv.trans htgt)
        cases (hv ▸ htree.target).symm.trans hc
        exact .inr hdigest
      · rcases htree.others v.path hv with hsame | ⟨-, hgone⟩
        · rw [hw, List.mem_filter]
          refine (ht v c (hsame ▸ hc)).imp_left fun hmem => ⟨hmem, ?_⟩
          simpa using hv
        · exact absurd hgone (path_ne_source hsrc)
    · rw [hstation]
      refine ⟨u, htgt, fun c hc => ?_⟩
      cases (htgt ▸ htree.target).symm.trans hc
      exact hdigest
  | opened c hsource _ htree hw hstation =>
    cases hb.symm.trans hsource
    refine ⟨fun v c hc => ?_, ?_⟩
    · rw [hw]
      by_cases hv : v.path = m.tgt_path
      · exact .inl (hv ▸ List.mem_cons_self)
      · exact (ht v c (htree.others v.path hv ▸ hc)).imp_left (List.mem_cons_of_mem _)
    · rw [hstation]
      refine ⟨hsrc, u, htgt, by rw [hw, htgt]; exact List.mem_cons_self, [], hdigest, fun c hc => ?_⟩
      exact Option.some.inj (hc.symm.trans (htgt ▸ htree.target))

/-- The blobs behind a turn of a copy, whose file has grown by one piece at most. -/
theorem copied_settled {m : MoveRequest} {unread : Bytes} (hc : Copied t writable m unread h)
    (hw : h.writable = writable) (hst : AtStation L t writable (.copying m unread)) (ht : Settled L t writable) :
    Settled L h.tree h.writable ∧ AtStation L h.tree h.writable h.station := by
  obtain ⟨hsrc, u, htgt, hmem, written, hdigest, hwritten⟩ := hst
  rw [hw]
  have hextended : ∀ {piece : Bytes}, Extended t h.tree m.tgt_path piece → Settled L h.tree writable := by
    intro piece htree v c hc
    by_cases hv : v.path = m.tgt_path
    · exact .inl (by rw [hv, htgt]; exact hmem)
    · exact ht v c (FileTree.file?_congr (htree.others v.path hv) ▸ hc)
  cases hc with
  | croaked piece _ htree hnext =>
    rw [hnext]
    exact ⟨hextended htree, trivial⟩
  | ended hend htree hnext =>
    have hsame : ∀ v : Udig, h.tree.file? v.path = t.file? v.path := fun v => by
      rw [htree]
      exact FileTree.file?_congr (unlink_quietly_of_ne t (path_ne_source hsrc))
    rw [hnext]
    refine ⟨fun v c hc => ht v c (hsame v ▸ hc), u, htgt, fun c hc => ?_⟩
    rw [hwritten c (hsame u ▸ hc), ← hdigest, hend, List.append_nil]
  | copied htree hnext =>
    rw [hnext]
    refine ⟨hextended htree, hsrc, u, htgt, hmem, written ++ unread.take MSG_SIZE, ?_, fun c hc => ?_⟩
    · rw [List.append_assoc, List.take_append_drop, hdigest]
    · have htarget := htree.target
      rw [htgt, hc] at htarget
      obtain ⟨before, hbefore, hcat⟩ := Option.map_eq_some_iff.mp htarget.symm
      rw [← hcat, hwritten before hbefore]

/-- What a turn makes of the place of one blob: its request's target or not. -/
theorem turn_settled (hturn : ArboristTurn t writable station pipe rest h)
    (hcarry : ∀ m ∈ pipe.filterMap Message.move?, Carries L t m) (hst : AtStation L t writable station)
    (ht : Settled L t writable) : Settled L h.tree h.writable ∧ AtStation L h.tree h.writable h.station := by
  cases hturn with
  | received msg m hstation hpipe hm hr =>
    subst hpipe
    exact received_settled hr (hcarry m (by simp [hm])) ht
  | trimmed _ _ _ htree hw hstation =>
    refine ⟨fun v c hc => hw ▸ ht v c (htree.same.files v.path ▸ hc), ?_⟩
    rcases hstation with hstation | hstation <;> rw [hstation] <;> trivial
  | chmod_failed _ _ _ htree hw hstation =>
    rw [htree, hw, hstation]
    exact ⟨ht, trivial⟩
  | chmodded m hstation _ _ htree hw hnext =>
    subst hstation
    obtain ⟨u, htgt, hgood⟩ := hst
    rw [htree, hw, hnext]
    refine ⟨fun v c hc => ?_, trivial⟩
    by_cases hv : v.path = m.tgt_path
    · cases Udig.path_injective (hv.trans htgt)
      exact .inr (hgood c hc)
    · refine (ht v c hc).imp_left fun hmem => List.mem_filter.mpr ⟨hmem, ?_⟩
      simpa using hv
  | copied m unread hstation _ hw hc =>
    subst hstation
    exact copied_settled hc hw hst ht
  | replied _ _ _ _ htree hw hstation =>
    rw [htree, hw]
    refine ⟨ht, ?_⟩
    rcases hstation with ⟨-, hstation⟩ | hstation <;> rw [hstation] <;> trivial

/-- A blob that is stored stays as it is, or another file of the same blob takes its place. -/
theorem turn_stored (hturn : ArboristTurn t writable station pipe rest h)
    (hcarry : ∀ m ∈ pipe.filterMap Message.move?, Carries L t m) (hst : AtStation L t writable station)
    {u : Udig} (hu : Stored L t writable u) : Stored L h.tree h.writable u := by
  obtain ⟨hblob, hclosed⟩ := hu
  cases hturn with
  | received msg m hstation hpipe hm hr =>
    subst hpipe
    obtain ⟨hsrc, v, htgt, b, hb, hdigest⟩ := hcarry m (by simp [hm])
    cases hr with
    | refused htree hw _ =>
      exact ⟨hblob.mono fun c hc => (htree.same.files u.path).trans hc, hw ▸ hclosed⟩
    | placed c htree hw _ =>
      cases hb.symm.trans htree.source
      refine ⟨?_, fun hmem => hclosed (List.mem_filter.mp (hw ▸ hmem)).1⟩
      by_cases hv : u.path = m.tgt_path
      · cases Udig.path_injective (hv.trans htgt)
        exact ⟨b, hv ▸ htree.target, hdigest⟩
      · rcases htree.others u.path hv with hsame | ⟨-, hgone⟩
        · exact hblob.mono fun c hc => hsame.trans hc
        · exact absurd hgone (path_ne_source hsrc)
    | opened c _ hfree htree hw _ =>
      have hv : u.path ≠ m.tgt_path := by
        intro hv
        obtain ⟨d, hd, -⟩ := hblob
        rcases hfree with hnone | hmem
        · cases (hv ▸ hd).symm.trans hnone
        · exact hclosed (hv ▸ hmem)
      refine ⟨hblob.mono fun c hc => (htree.others u.path hv).trans hc, ?_⟩
      rw [hw, List.mem_cons, not_or]
      exact ⟨hv, hclosed⟩
  | trimmed _ _ _ htree hw _ =>
    exact ⟨hblob.mono fun c hc => (htree.same.files u.path).trans hc, hw ▸ hclosed⟩
  | chmod_failed _ _ _ htree hw _ | replied _ _ _ _ htree hw _ =>
    rw [htree, hw]
    exact ⟨hblob, hclosed⟩
  | chmodded m _ _ _ htree hw _ =>
    rw [htree, hw]
    exact ⟨hblob, fun hmem => hclosed (List.mem_filter.mp hmem).1⟩
  | copied m unread hstation _ hw hc =>
    subst hstation
    obtain ⟨hsrc, v, htgt, hmem, -⟩ := hst
    have hv : u.path ≠ m.tgt_path := fun hv => hclosed (by rw [hv, htgt]; exact hmem)
    refine ⟨hblob.mono fun c hb => ?_, hw ▸ hclosed⟩
    rw [← hb]
    cases hc with
    | croaked _ _ htree _ | copied htree _ => exact FileTree.file?_congr (htree.others u.path hv)
    | ended _ htree _ =>
      rw [htree]
      exact FileTree.file?_congr (unlink_quietly_of_ne t (path_ne_source hsrc))

end arborist

/-! ### The processes -/

section calls
variable {t : Store} {pid : ℕ} {job : Job} {phase : Phase L} {c : Call} {p : Progress L}

theorem Entry.data {t' : Store} {q : Path} (h : Entry T trust_fs t t' pid job phase c q)
    (hq : q.head? = some data) : t'.lstat q = t.lstat q ∨ t'.lstat q = none := by
  cases h with
  | same h => exact .inl h
  | spooled h _ => exact absurd (Option.some.inj (hq.symm.trans h)) data_ne_spool
  | created hout _ => exact absurd hq hout.1
  | own h => exact absurd hq (tmp_outside h).1
  | removed u _ _ hnone => exact hnone

/-- A temporary file that another process holds stays as it is. -/
theorem Entry.other {t' : Store} {q : Path} {pid' : ℕ} {job' : Job} {phase' : Phase L} {b : Bytes}
    (h : Entry T trust_fs t t' pid job phase c q) (hne : pid' ≠ pid)
    (hq : phase'.tmp T pid' job' = some q) (hb : t.file? q = some b) : t'.file? q = some b := by
  cases h with
  | same h => rw [FileTree.file?_congr h, hb]
  | spooled h _ => exact absurd h (tmp_outside hq).2
  | created _ h => simp [FileTree.file?, h] at hb
  | own h => exact absurd (tmp_pid hq h) hne
  | removed u hu _ _ => exact absurd (by rw [hu, u.head?_path]) (tmp_outside hq).1

/-- A call leaves a file of the store as it is, or removes it. -/
theorem call_file (h : call L T trust_fs t pid job phase c = some p) (u : Udig) :
    p.tree.file? u.path = t.file? u.path ∨ p.tree.file? u.path = none := by
  rcases (call_entry h u.path).data u.head?_path with hsame | hnone
  · exact .inl (FileTree.file?_congr hsame)
  · exact .inr (by simp [FileTree.file?, hnone])

theorem file?_modify {t : Store} {q : Path} {b : Bytes} (hb : t.file? q = some b)
    (f : Bytes → Bytes) : (t.modify q f).file? q = some (f b) := by
  rw [FileTree.file?_eq_some, FileTree.lstat_modify (FileTree.file?_eq_some.mp hb), if_pos rfl]

theorem eat_chunk_holds {tmp : Path} {verb : PutVerb} {u : Udig} {scan_buf : Bytes} {time : ℤ}
    {ctx : L.Context} {b : Bytes} (htmp : tmp = put_tmp T pid verb u time)
    (hb : t.file? tmp = some b) (habs : L.Absorbed u.algorithm ctx b) (chunk : Bytes) :
    Holds T (eat_chunk L t tmp u time ctx chunk).tree pid (.put verb u scan_buf)
      (eat_chunk L t tmp u time ctx chunk).phase := by
  subst htmp
  have hfile := file?_modify hb (· ++ chunk)
  have habs' := habs.update chunk
  unfold eat_chunk
  dsimp only
  split
  · rename_i hmatch
    exact ⟨_, hfile, DigestLibrary.digest_eq_iff.mpr (habs'.final ▸ hmatch)⟩
  · exact ⟨_, hfile, habs'⟩

theorem put_open_holds (verb : PutVerb) (u : Udig) (scan_buf : Bytes) (time : ℤ) :
    Holds T (put_open L T t pid verb u scan_buf time).tree pid (.put verb u scan_buf)
      (put_open L T t pid verb u scan_buf time).phase := by
  unfold put_open
  dsimp only
  cases h : t.create (put_tmp T pid verb u time) [] with
  | error e => trivial
  | ok t' =>
    have hfile : t'.file? (put_tmp T pid verb u time) = some [] := by
      rw [FileTree.file?_eq_some, (FileTree.create_ok h).2.2, if_pos rfl]
    dsimp only
    split
    · rename_i hempty
      refine ⟨[], hfile, ?_⟩
      rw [DigestLibrary.digest_nil]
      exact (Digest.ext hempty).symm
    · split
      · exact ⟨[], hfile, DigestLibrary.absorbed_init⟩
      · split
        · trivial
        · exact eat_chunk_holds rfl hfile DigestLibrary.absorbed_init scan_buf

theorem digest_reads_eq (m : DigestModule) (reads : List Bytes) :
    L.digest_reads m reads = L.digest m reads.flatten := by
  refine Digest.ext ?_
  simp only [DigestLibrary.digest_reads, DigestLibrary.digest, Digest.ofRaw, L.final_foldl]

theorem digest_stream_holds (m : DigestModule) (part : WrapPart) (reads : List Bytes) (time : ℤ)
    (drift : ℕ) :
    Holds T (digest_stream L T t pid m part reads time drift).tree pid (.wrap m)
      (digest_stream L T t pid m part reads time drift).phase := by
  unfold digest_stream
  cases h : t.create (digest_tmp T pid m time drift) reads.flatten with
  | error e => trivial
  | ok t' =>
    refine ⟨reads.flatten, ?_, (digest_reads_eq m reads).symm⟩
    rw [FileTree.file?_eq_some, (FileTree.create_ok h).2.2, if_pos rfl]

theorem blob_open_holds {u : Udig} (note : Option Note) :
    Holds T (blob_open L t u note).tree pid job (blob_open L t u note).phase := by
  unfold blob_open
  split <;> cases job <;> trivial

theorem holds_waits {phase : Phase L} (h : phase.Waits) (t : Store) (pid : ℕ) (job : Job) :
    Holds T t pid job phase := by
  cases phase <;> simp only [Phase.Waits] at h
  all_goals cases job <;> trivial

theorem holds_replied {phase : Phase L} (h : phase.Waits) (t : Store) (pid : ℕ) (job : Job) :
    Holds T t pid job phase.replied := by
  cases phase <;> simp only [Phase.Waits] at h
  all_goals cases job <;> trivial

theorem holds_done (t : Store) (pid : ℕ) (job : Job) : Holds T t pid job (.done : Phase L) := by
  cases job <;> trivial

theorem call_holds (h : call L T trust_fs t pid job phase c = some p)
    (hh : Holds T t pid job phase) : Holds T p.tree pid job p.phase := by
  cases c with
  | put_open time =>
    simp only [call] at h
    split at h
    · cases h
      exact put_open_holds ..
    · cases h
  | blob_read chunk =>
    simp only [call] at h
    split at h
    · split at h
      · cases h
      · cases h
        obtain ⟨b, hb, habs⟩ := hh
        exact eat_chunk_holds rfl hb habs chunk
    · cases h
  | blob_open =>
    simp only [call] at h
    split at h
    · cases h
      exact blob_open_holds _
    · split at h
      · cases h
        trivial
      · cases h
        exact blob_open_holds _
    · cases h
  | blob_bytes more =>
    simp only [call, blob_bytes] at h
    split at h <;> try split at h
    all_goals cases h
    all_goals split <;> trivial
  | digest_log reads time drift =>
    simp only [call] at h
    split at h
    · split at h
      · cases h
        trivial
      · split at h
        · cases h
          exact digest_stream_holds ..
        · cases h
    · cases h
  | digest_set udigs time drift =>
    simp only [call] at h
    split at h
    · cases h
      exact digest_stream_holds ..
    · cases h
  | freeze name log =>
    simp only [call] at h
    split at h
    · obtain ⟨t', -, hp⟩ := Option.map_eq_some_iff.mp h
      subst hp
      trivial
    · cases h
  | is_wrap =>
    simp only [call] at h
    split at h
    · cases h
      dsimp only
      split <;> trivial
    · cases h
  | take_reply ok =>
    simp only [call] at h
    split at h
    · cases h
      cases ok <;> trivial
    · cases h
  | croak | arbor_rename | cleanup | arbor_trim | eat | arbor_move =>
    simp only [call] at h
    split at h
    · cases h
      trivial
    · cases h
  | write_ok | spool_log | roll_copy udig_set | roll_unlink | die =>
    simp only [call] at h
    split at h <;> try split at h
    all_goals cases h
    all_goals first | trivial | exact holds_done ..

/-- A request sent is of its sender, which from then on waits for the reply to it. -/
theorem call_sends (h : call L T trust_fs t pid job phase c = some p) (hh : Holds T t pid job phase)
    {msg : Message} (hmsg : p.send = some msg) {m : MoveRequest} (hm : msg.move? = some m) :
    Carries L p.tree m ∧ m.reply_pid = pid ∧ p.phase.awaits T pid job = some msg := by
  cases c with
  | arbor_rename =>
    simp only [call] at h
    split at h
    · cases h
      cases hmsg
      cases hm
      exact ⟨⟨(put_tmp_outside ..).1, _, rfl, hh⟩, rfl, rfl⟩
    · cases h
  | arbor_move =>
    simp only [call] at h
    split at h
    · cases h
      cases hmsg
      cases hm
      exact ⟨⟨(digest_tmp_outside ..).1, _, rfl, hh⟩, rfl, rfl⟩
    · cases h
  | arbor_trim =>
    simp only [call] at h
    split at h
    · cases h
      cases hmsg
      cases hm
    · cases h
  | _ =>
    have hquiet := call_quiet h
    simp [Call.sends] at hquiet
    simp [hquiet] at hmsg

end calls

/-! ### Runs -/

variable {s s' : Server L}

theorem consistent_fork (h : Consistent T s) {pid : ℕ} {job : Job} (hfree : s.free pid) :
    Consistent T (s.set pid job .started) where
  shape := h.shape
  settled := h.settled
  holds p j ph hp := by
    by_cases hpid : p = pid
    · subst hpid
      simp only [Server.set, Function.update_self, Option.some.injEq, Prod.mk.injEq] at hp
      obtain ⟨rfl, rfl⟩ := hp
      cases job <;> trivial
    · simp only [Server.set, Function.update_of_ne hpid] at hp
      exact h.holds p j ph hp
  carries := h.carries
  owned m hm := by
    obtain ⟨j, ph, msg, hproc, hawaits, hmsg⟩ := h.owned m hm
    have hne : m.reply_pid ≠ pid := by
      rintro rfl
      have hwait := awaits_waits hawaits
      cases ph <;> simp [Server.free, hproc, Phase.Waits] at hfree hwait
    exact ⟨j, ph, msg, by simp only [Server.set, Function.update_of_ne hne, hproc], hawaits, hmsg⟩
  once := h.once
  station := h.station

theorem consistent_call (h : Consistent T s) {pid : ℕ} {c : Call}
    (hstep : step T trust_fs s (.call pid c) = some s') : Consistent T s' := by
  obtain ⟨job, phase, p, hproc, hcall, rfl⟩ := step_call hstep
  have hholds := h.holds pid job phase hproc
  have hentry := call_entry hcall
  -- a process that makes a call waits for no reply
  have hnot : ∀ m ∈ outstanding s.station s.pipe, m.reply_pid ≠ pid := by
    rintro m hm rfl
    obtain ⟨j, ph, hp, hwait, -⟩ := (h.owned m hm).waits
    obtain ⟨rfl, rfl⟩ := Prod.mk.inj (Option.some.inj (hproc.symm.trans hp))
    simp [call_waits hwait] at hcall
  have hkeep : ∀ pid' job' (phase' : Phase L) q b, pid' ≠ pid → phase'.tmp T pid' job' = some q →
      s.tree.file? q = some b → p.tree.file? q = some b :=
    fun pid' job' phase' q b hne hq hb => (hentry q).other hne hq hb
  have hfile : ∀ (u : Udig) b, p.tree.file? u.path = some b → s.tree.file? u.path = some b := by
    intro u b hb
    rcases call_file hcall u with hsame | hnone
    · rw [← hsame, hb]
    · simp [hnone] at hb
  have hsend : ∀ m ∈ p.send.toList.filterMap Message.move?, Carries L p.tree m ∧ m.reply_pid = pid ∧
      ∃ msg, p.phase.awaits T pid job = some msg ∧ msg.move? = some m := by
    intro m hm
    obtain ⟨msg, hmsg, hmove⟩ := List.mem_filterMap.mp hm
    obtain ⟨hcarry, hpid, hawaits⟩ := call_sends hcall hholds (Option.mem_toList.mp hmsg) hmove
    exact ⟨hcarry, hpid, msg, hawaits, hmove⟩
  have hout : outstanding s.station (s.pipe ++ p.send.toList) =
      outstanding s.station s.pipe ++ p.send.toList.filterMap Message.move? := by
    simp [outstanding]
  refine ⟨?_, ?_, ?_, ?_, ?_, ?_, ?_⟩
  · rw [record_tree]
    exact h.shape.mono fun q hq => (hentry q).data hq
  · rw [record_tree, record_writable]
    exact fun u b hb => h.settled u b (hfile u b hb)
  · intro pid' job' phase' hp
    simp only [record_procs, record_tree, Server.set] at hp ⊢
    by_cases hpid : pid' = pid
    · subst hpid
      simp only [Function.update_self, Option.some.injEq, Prod.mk.injEq] at hp
      obtain ⟨rfl, rfl⟩ := hp
      exact call_holds hcall hholds
    · rw [Function.update_of_ne hpid] at hp
      exact (h.holds pid' job' phase' hp).mono fun q b hq => hkeep pid' job' phase' q b hpid hq
  · intro m hm
    simp only [record_pipe, record_tree, Server.set, List.filterMap_append, List.mem_append] at hm ⊢
    rcases hm with hm | hm
    · have hmem : m ∈ outstanding s.station s.pipe := List.mem_append_right _ hm
      obtain ⟨j, ph, -, -, htmp⟩ := (h.owned m hmem).waits
      exact (h.carries m hm).mono fun b hb => hkeep m.reply_pid j ph m.src_path b (hnot m hmem) htmp hb
    · exact (hsend m hm).1
  · intro m hm
    simp only [record_station, record_pipe, Server.set] at hm
    rw [hout, List.mem_append] at hm
    rcases hm with hm | hm
    · obtain ⟨j, ph, msg, hp, hawaits, hmsg⟩ := h.owned m hm
      refine ⟨j, ph, msg, ?_, hawaits, hmsg⟩
      simp only [record_procs, Server.set]
      rw [Function.update_of_ne (hnot m hm), hp]
    · obtain ⟨-, rfl, msg, hawaits, hmsg⟩ := hsend m hm
      refine ⟨job, p.phase, msg, ?_, hawaits, hmsg⟩
      simp only [record_procs, Server.set, Function.update_self]
  · simp only [record_station, record_pipe, Server.set]
    rw [hout, List.map_append]
    refine List.nodup_append.mpr ⟨h.once, ?_, ?_⟩
    · cases p.send with
      | none => exact List.nodup_nil
      | some msg => cases hmove : msg.move? <;> simp [hmove]
    · intro r hr r' hr' heq
      obtain ⟨m, hm, hmr⟩ := List.mem_map.mp hr
      obtain ⟨m', hm', hmr'⟩ := List.mem_map.mp hr'
      exact hnot m hm (hmr.trans (heq.trans (hmr'.symm.trans (hsend m' hm').2.1)))
  · rw [record_tree, record_writable, record_station]
    exact h.station.mono hfile

/-- The turn that an event of the arborist makes. -/
theorem consistent_turn (h : Consistent T s) {f : Faults} {handled : Handled} {rest : List Message}
    (harb : arborist f s.tree s.writable s.station s.pipe = some (handled, rest)) :
    ArboristTurn s.tree s.writable s.station s.pipe rest handled :=
  arborist_turn harb fun msg hmsg m hm => (h.carries m (List.mem_filterMap.mpr ⟨msg, hmsg, hm⟩)).ne

theorem consistent_arborist (h : Consistent T s) {f : Faults}
    (hstep : step T trust_fs s (.arborist f) = some s') : Consistent T s' := by
  obtain ⟨handled, rest, harb, rfl⟩ := step_arborist hstep
  have hturn := consistent_turn h harb
  have hout := turn_outstanding hturn
  have honce := h.once
  rw [hout, List.map_append, List.nodup_append] at honce
  have hcurrent : ∀ m, current s.station s.pipe = some m → m ∈ outstanding s.station s.pipe := by
    intro m hm
    rw [hout, hm]
    exact List.mem_cons_self
  have hrest : ∀ m ∈ rest.filterMap Message.move?, m ∈ outstanding s.station s.pipe := by
    intro m hm
    rw [hout]
    exact List.mem_append_right _ hm
  -- the current request is of another process than the requests behind it
  have hother : ∀ m ∈ rest.filterMap Message.move?, ∀ m', current s.station s.pipe = some m' →
      m'.reply_pid ≠ m.reply_pid := by
    intro m hm m' hm'
    exact honce.2.2 _ (by simp [hm']) _ (List.mem_map_of_mem hm)
  have hkeep : ∀ pid job (phase : Phase L) q b, phase.tmp T pid job = some q →
      (∀ m, current s.station s.pipe = some m → m.reply_pid ≠ pid) → s.tree.file? q = some b →
        handled.tree.file? q = some b := by
    intro pid job phase q b hq hpid hb
    rw [turn_outside hturn h.carries h.station (tmp_outside hq).1, hb]
    rintro m hm rfl
    obtain ⟨j, ph, -, -, htmp⟩ := (h.owned m (hcurrent m hm)).waits
    exact hpid m hm (tmp_pid htmp hq)
  have hsettled := turn_settled hturn h.carries h.station h.settled
  refine ⟨?_, ?_, ?_, ?_, ?_, ?_, ?_⟩
  · simpa using turn_shape hturn h.carries h.station h.shape
  · simpa using hsettled.1
  · intro pid job phase hp
    rw [answer_procs] at hp
    rw [answer_tree]
    by_cases hreply : replies_to f s.station = some pid
    · rw [if_pos hreply] at hp
      obtain ⟨⟨j, ph⟩, hproc, heq⟩ := Option.map_eq_some_iff.mp hp
      obtain ⟨rfl, rfl⟩ := Prod.mk.inj heq
      obtain ⟨⟨m, hm, rfl⟩, -⟩ := turn_reply hturn hreply
      obtain ⟨j', ph', hp', hwait, -⟩ := (h.owned m (hcurrent m hm)).waits
      obtain ⟨rfl, rfl⟩ := Prod.mk.inj (Option.some.inj (hp'.symm.trans hproc))
      exact holds_replied hwait _ _ _
    · rw [if_neg hreply] at hp
      by_cases hmine : ∃ m, current s.station s.pipe = some m ∧ m.reply_pid = pid
      · obtain ⟨m, hm, rfl⟩ := hmine
        obtain ⟨j', ph', hp', hwait, -⟩ := (h.owned m (hcurrent m hm)).waits
        obtain ⟨rfl, rfl⟩ := Prod.mk.inj (Option.some.inj (hp'.symm.trans hp))
        exact holds_waits hwait _ _ _
      · exact (h.holds pid job phase hp).mono fun q b hq =>
          hkeep pid job phase q b hq fun m hm hpid => hmine ⟨m, hm, hpid⟩
  · intro m hm
    rw [answer_pipe] at hm
    rw [answer_tree]
    obtain ⟨j, ph, -, -, htmp⟩ := (h.owned m (hrest m hm)).waits
    have hcarry := h.carries m (by
      cases hturn with
      | received msg m' _ hpipe hm' _ => rw [hpipe]; simp [hm', hm]
      | trimmed dir _ hpipe _ _ _ => rw [hpipe]; exact hm
      | chmod_failed _ _ hpipe _ _ _ | chmodded _ _ hpipe _ _ _ _ | copied _ _ _ hpipe _ _
      | replied _ _ _ hpipe _ _ _ => exact hpipe ▸ hm)
    exact hcarry.mono fun b hb => hkeep m.reply_pid j ph m.src_path b htmp (hother m hm) hb
  · intro m hm
    rw [answer_station, answer_pipe] at hm
    have hmem : m ∈ outstanding s.station s.pipe := by
      rcases turn_rest hturn with heq | heq
      · exact heq ▸ hm
      · exact hrest m (heq ▸ hm)
    obtain ⟨j, ph, msg, hp, hawaits, hmsg⟩ := h.owned m hmem
    refine ⟨j, ph, msg, ?_, hawaits, hmsg⟩
    rw [answer_procs, if_neg, hp]
    intro hreply
    obtain ⟨⟨m', hm', hpid⟩, heq⟩ := turn_reply hturn hreply
    exact hother m (heq ▸ hm) m' hm' hpid
  · rw [answer_station, answer_pipe]
    rcases turn_rest hturn with heq | heq <;> simp only at heq ⊢ <;> rw [heq]
    · exact h.once
    · exact honce.2.1
  · simpa using hsettled.2

theorem consistent_step (s : Server L) (e : Event) (s' : Server L) (h : Consistent T s)
    (hstep : step T trust_fs s e = some s') : Consistent T s' := by
  cases e with
  | fork pid job =>
    obtain ⟨hfree, rfl⟩ := step_fork hstep
    exact consistent_fork h hfree
  | call pid c => exact consistent_call h hstep
  | arborist f => exact consistent_arborist h hstep
  | restart =>
    cases hstep
    refine ⟨h.shape, h.settled, ?_, ?_, ?_, ?_, trivial⟩ <;>
      simp [Server.booted, outstanding, Station.move?]

theorem consistent_booted {t : Store} (ht : Sound L t) : Consistent T (Server.booted t : Server L) := by
  refine ⟨ht.shape, fun u b hb => .inr (ht.digests u b hb), ?_, ?_, ?_, ?_, trivial⟩ <;>
    simp [Server.booted, outstanding, Station.move?]

/-- A move whose file is copied in place of a rename is of the empty file. -/
def CopiesNothing (s : Server L) (e : Event) : Prop :=
  ∀ f m rest, e = .arborist f → s.station = .waiting → s.pipe = .M m :: rest →
    f.Copies s.tree s.writable m → s.tree.file? m.src_path = some []

/-- Every file of the store is whole, also one that a copy has opened. -/
structure Whole (T : TmpMap) (s : Server L) : Prop where
  consistent : Consistent T s
  opened : ∀ u : Udig, u.path ∈ s.writable → ∀ b, s.tree.file? u.path = some b → L.digest u.algorithm b = u.digest
  ended : ∀ m unread, s.station = .copying m unread → unread = []

theorem Whole.digests (h : Whole T s) (u : Udig) (b : Bytes) (hb : s.tree.file? u.path = some b) :
    L.digest u.algorithm b = u.digest :=
  (h.consistent.settled u b hb).elim (fun hmem => h.opened u hmem b hb) id

section turns
variable {t : Store} {writable : List Path} {station : Station} {pipe rest : List Message} {h : Handled}

/-- The files that are open for writing are whole. -/
def OpenWhole (L : DigestLibrary) (t : Store) (writable : List Path) : Prop :=
  ∀ u : Udig, u.path ∈ writable → ∀ b, t.file? u.path = some b → L.digest u.algorithm b = u.digest

theorem OpenWhole.of_same {t' : Store} {writable' : List Path} (ho : OpenWhole L t writable)
    (hw : ∀ u : Udig, u.path ∈ writable' → u.path ∈ writable)
    (hfile : ∀ u : Udig, u.path ∈ writable' → t'.file? u.path = t.file? u.path) : OpenWhole L t' writable' :=
  fun u hu b hb => ho u (hw u hu) b (hfile u hu ▸ hb)

theorem received_whole {m : MoveRequest} (hr : Received t writable m h) (hcarry : Carries L t m)
    (hnothing : ∀ m unread, h.station = .copying m unread → unread = []) (ho : OpenWhole L t writable) :
    OpenWhole L h.tree h.writable := by
  obtain ⟨hsrc, u, htgt, b, hb, hdigest⟩ := hcarry
  cases hr with
  | refused htree hw hnext => exact ho.of_same (fun v hv => hw ▸ hv) fun v _ => htree.same.files v.path
  | placed c htree hw hnext =>
    refine ho.of_same (fun v hv => (List.mem_filter.mp (hw ▸ hv)).1) fun v hv => ?_
    have hne : v.path ≠ m.tgt_path := by
      rw [hw] at hv
      simpa using (List.mem_filter.mp hv).2
    exact (htree.others v.path hne).resolve_right fun hgone => path_ne_source hsrc hgone.2
  | opened c hsource _ htree hw hnext =>
    cases hb.symm.trans hsource
    have hnil := hnothing m b hnext
    intro v hv c hc
    by_cases hne : v.path = m.tgt_path
    · cases Udig.path_injective (hne.trans htgt)
      cases (hne ▸ htree.target).symm.trans hc
      exact hnil ▸ hdigest
    · rw [hw] at hv
      exact ho v ((List.mem_cons.mp hv).resolve_left hne) c (htree.others v.path hne ▸ hc)

theorem copied_whole {m : MoveRequest} (hc : Copied t writable m [] h) (hw : h.writable = writable)
    (hsrc : m.src_path.head? ≠ some data) (ho : OpenWhole L t writable) : OpenWhole L h.tree h.writable := by
  have hextended : ∀ {piece : Bytes}, piece <+: [] → Extended t h.tree m.tgt_path piece →
      ∀ v : Udig, h.tree.file? v.path = t.file? v.path := by
    intro piece hpiece htree v
    cases List.prefix_nil.mp hpiece
    by_cases hv : v.path = m.tgt_path
    · simpa [hv] using htree.target
    · exact FileTree.file?_congr (htree.others v.path hv)
  refine ho.of_same (fun v hv => hw ▸ hv) fun v _ => ?_
  cases hc with
  | croaked piece hpiece htree _ => exact hextended hpiece htree v
  | ended _ htree _ =>
    rw [htree]
    exact FileTree.file?_congr (unlink_quietly_of_ne t (path_ne_source hsrc))
  | copied htree _ => exact hextended (by simp) htree v

/-- The files that a turn has opened are whole where it had nothing to copy. -/
theorem turn_whole (hturn : ArboristTurn t writable station pipe rest h)
    (hcarry : ∀ m ∈ pipe.filterMap Message.move?, Carries L t m) (hst : AtStation L t writable station)
    (hnothing : ∀ m unread, h.station = .copying m unread → station = .waiting → unread = [])
    (hended : ∀ m unread, station = .copying m unread → unread = []) (ho : OpenWhole L t writable) :
    OpenWhole L h.tree h.writable ∧ ∀ m unread, h.station = .copying m unread → unread = [] := by
  cases hturn with
  | received msg m hstation hpipe hm hr =>
    subst hpipe
    have hnil : ∀ m unread, h.station = .copying m unread → unread = [] :=
      fun m unread heq => hnothing m unread heq hstation
    exact ⟨received_whole hr (hcarry m (by simp [hm])) hnil ho, hnil⟩
  | trimmed dir _ _ htree hw hnext =>
    refine ⟨ho.of_same (fun v hv => hw ▸ hv) fun v _ => htree.same.files v.path, fun m unread heq => ?_⟩
    rcases hnext with hnext | hnext <;> cases hnext.symm.trans heq
  | chmod_failed m _ _ htree hw hnext =>
    refine ⟨ho.of_same (fun v hv => hw ▸ hv) fun v _ => by rw [htree], fun m unread heq => ?_⟩
    cases hnext.symm.trans heq
  | chmodded m _ _ _ htree hw hnext =>
    refine ⟨ho.of_same (fun v hv => (List.mem_filter.mp (hw ▸ hv)).1) fun v _ => by rw [htree],
      fun m unread heq => ?_⟩
    cases hnext.symm.trans heq
  | copied m unread hstation _ hw hc =>
    cases hended m unread hstation
    subst hstation
    refine ⟨copied_whole hc hw hst.1 ho, fun m' unread heq => ?_⟩
    cases hc with
    | croaked _ _ _ hnext | ended _ _ hnext => cases hnext.symm.trans heq
    | copied _ hnext =>
      cases hnext.symm.trans heq
      rfl
  | replied m payload _ _ htree hw hnext =>
    refine ⟨ho.of_same (fun v hv => hw ▸ hv) fun v _ => by rw [htree], fun m' unread heq => ?_⟩
    rcases hnext with ⟨-, hnext⟩ | hnext <;> cases hnext.symm.trans heq

end turns

theorem whole_step (h : Whole T s) {e : Event} (hcond : CopiesNothing s e)
    (hstep : step T trust_fs s e = some s') : Whole T s' := by
  have hc := consistent_step s e s' h.consistent hstep
  cases e with
  | fork pid job =>
    obtain ⟨-, rfl⟩ := step_fork hstep
    exact ⟨hc, h.opened, h.ended⟩
  | call pid c =>
    obtain ⟨job, phase, p, -, hcall, rfl⟩ := step_call hstep
    refine ⟨hc, fun u hu b hb => ?_, fun m unread hm => h.ended m unread (by simpa [Server.set] using hm)⟩
    simp only [record_tree, record_writable, Server.set] at hu hb
    rcases call_file hcall u with hsame | hnone
    · exact h.opened u hu b (hsame ▸ hb)
    · cases hnone.symm.trans hb
  | arborist f =>
    obtain ⟨handled, rest, harb, rfl⟩ := step_arborist hstep
    have hturn := consistent_turn h.consistent harb
    have hnothing : ∀ m unread, handled.station = .copying m unread → s.station = .waiting → unread = [] := by
      intro m unread hnext hwaiting
      cases hturn with
      | received msg m' _ hpipe hm hr =>
        rw [hwaiting, hpipe] at harb
        cases harb
        obtain ⟨m'', rfl, hcopies⟩ := receive_copies hnext
        cases hm
        have hempty := hcond f m' rest rfl hwaiting hpipe hcopies
        cases hr with
        | opened b hb _ _ _ hst =>
          cases hst.symm.trans hnext
          exact Option.some.inj (hb.symm.trans hempty)
        | refused _ _ hst => rcases hst with hst | ⟨_, -, hst⟩ <;> cases hst.symm.trans hnext
        | placed _ _ _ hst => cases hst.symm.trans hnext
      | trimmed _ _ _ _ _ hst => rcases hst with hst | hst <;> cases hst.symm.trans hnext
      | chmod_failed _ hst _ _ _ _ | chmodded _ hst _ _ _ _ _ | copied _ _ hst _ _ _
      | replied _ _ hst _ _ _ _ => cases hst.symm.trans hwaiting
    obtain ⟨hopened, hended⟩ :=
      turn_whole hturn h.consistent.carries h.consistent.station hnothing h.ended h.opened
    refine ⟨hc, ?_, ?_⟩
    · simpa [OpenWhole] using hopened
    · simpa using hended
  | restart =>
    cases hstep
    exact ⟨hc, h.opened, by simp [Server.booted]⟩

theorem whole_booted {t : Store} (ht : Sound L t) : Whole T (Server.booted t : Server L) :=
  ⟨consistent_booted ht, by simp [Server.booted], by simp [Server.booted]⟩

theorem copiesNothing_of_one_device {e : Event} (h : ∀ f, e = .arborist f → f.other_device = false) :
    CopiesNothing s e := by
  intro f m rest he _ _ hcopies
  cases (h f he).symm.trans hcopies.other_device

/-- A server whose temporary directories and store are on one device leaves a sound store. -/
theorem sound_of_one_device {t : Store} (ht : Sound L t) {es : List Event}
    (hes : ∀ e ∈ es, ∀ f, e = .arborist f → f.other_device = false)
    (hrun : exec (step T trust_fs) (Server.booted t : Server L) es = some s) : Sound L s.tree := by
  have hwhole := invariant_along (P := CopiesNothing) (fun _ _ _ hs hc hstep => whole_step hs hc hstep)
    (whole_booted (T := T) ht) (along_of_forall (fun e he _ => copiesNothing_of_one_device (hes e he)) _) hrun
  exact ⟨hwhole.consistent.shape, hwhole.digests⟩

/-- The content-address invariant of the store, from any store that has it, where no wrap's
file is copied in place. -/
theorem store_content_addressed {t : Store} (ht : Sound L t) {es : List Event} {s : Server L}
    (hcond : Along (step T trust_fs) CopiesNothing (Server.booted t : Server L) es)
    (hrun : exec (step T trust_fs) (Server.booted t) es = some s) (u : Udig) (b : Bytes)
    (hb : s.tree.file? u.path = some b) : L.digest u.algorithm b = u.digest :=
  (invariant_along (fun _ _ _ hs hc hstep => whole_step hs hc hstep) (whole_booted ht) hcond hrun).digests u b hb

/-- The temporary directory of a server whose environment names none. -/
def default_tmp : TmpMap where
  tmp_get _ _ := ["tmp".toList]
  ne_nil := by simp
  outside _ _ := by decide

/-- The log of a server that has answered one put. -/
def put_record : Text :=
  ("2024-01-02T03:04:05.000000001+00:00\ttcp4~127.0.0.1:50000;127.0.0.1:1797\tput\t" ++
    "sha:a9993e364706816aba3e25717850c26c9cd0d89d\tok,ok\t3\t0.000000001\n").toList

/-- The digests of some texts: what that put writes, its log, and the wrap set that names only
this log, or only an empty one. -/
def known : DigestModule → List (Text × Text)
  | .sha =>
    [("ab".toList, "da23614e02469a0d7c7bd1bdab5c9c474b1904dc".toList),
      ("abc".toList, "a9993e364706816aba3e25717850c26c9cd0d89d".toList),
      (put_record, "c5ed768f9c937be09c37c4c9eb743efa0b650366".toList),
      ("sha:c5ed768f9c937be09c37c4c9eb743efa0b650366\n".toList,
        "2bbc5cf7460352e5e839bfa2e03c966061baa04f".toList),
      ("sha:da39a3ee5e6b4b0d3255bfef95601890afd80709\n".toList,
        "d9b83dcfbf8ff8d810838c9a0a8bd4b69a17f212".toList)]
  | .btc20 => [("abc".toList, "17a5e37965aa927922cc5a1cc91dc5d46a0b8503".toList)]
  | .bc160 => []

def octets (t : Text) : Bytes := t.map Char.toUInt8

def known_hash (m : DigestModule) (blob : Bytes) : Bytes :=
  if blob = [] then m.empty.raw
  else match (known m).find? fun k => octets k.1 = blob with
    | some k => decode_hex k.2
    | none => List.replicate 20 0

theorem length_known_hash (m : DigestModule) (blob : Bytes) : (known_hash m blob).length = 20 := by
  have hknown : ∀ k ∈ known m, (decode_hex k.2).length = 20 := by
    cases m <;> decide
  unfold known_hash
  split
  · cases m <;> rfl
  · split
    · rename_i k hk
      exact hknown k (List.mem_of_find?_eq_some hk)
    · rfl

def known_digests : DigestLibrary where
  Context := Bytes
  init _ := []
  update _ ctx chunk := ctx ++ chunk
  final := known_hash
  H := known_hash
  final_foldl m chunks := by
    have hfold : ∀ ctx : Bytes, chunks.foldl (· ++ ·) ctx = ctx ++ chunks.flatten := by
      induction chunks with
      | nil => simp
      | cons c cs ih => simp [ih]
    exact congrArg (known_hash m) (hfold [])
  length_H := length_known_hash
  H_nil _ := rfl

def known_udig (m : DigestModule) (blob : Text) : Udig := ⟨m, known_digests.digest m (octets blob)⟩

def empty_udig : Udig := known_udig .sha []
def abc_udig : Udig := known_udig .sha "abc".toList
def log_udig : Udig := known_udig .sha put_record

/-- A put of three bytes, two of them behind the request line, to its last ok. -/
def put_abc (pid : ℕ) (turns : List Faults) : List Event :=
  [.fork pid (.put .put abc_udig (octets "ab".toList)), .call pid (.put_open 1700000000),
    .call pid (.blob_read (octets "c".toList)), .call pid .arbor_rename] ++ turns.map .arborist ++
      [.call pid .cleanup, .call pid .write_ok]

/-- A wrap of that log, up to the move of its blob. -/
def wrap_moves (pid : ℕ) (reads : List Bytes) : List Event :=
  [.fork pid (.wrap .sha), .call pid (.freeze "bio4d-1700000000-00001.brr".toList reads.flatten),
    .call pid (.digest_log reads 1700000000 0), .call pid .arbor_move]

theorem fresh_store_sound : Sound L fresh_store where
  shape := fresh_store_shape
  digests u b hb := by cases (FileTree.lstat_ofDirs (FileTree.file?_eq_some.mp hb)).1

theorem store_content_addressed_put_abc :
    ((exec (step default_tmp false) (Server.booted (L := known_digests) fresh_store)
        (put_abc 7 (List.replicate 3 {}))).bind fun s => s.tree.file? abc_udig.path) = some (octets "abc".toList) ∧
      known_digests.digest .sha (octets "abc".toList) = abc_udig.digest := by
  have hput : ((exec (step default_tmp false) (Server.booted (L := known_digests) fresh_store)
      (put_abc 7 (List.replicate 3 {}))).bind fun s => s.tree.file? abc_udig.path) = some (octets "abc".toList) := by
    decide +kernel
  obtain ⟨s, hrun, hb⟩ := Option.bind_eq_some_iff.mp hput
  refine ⟨hput, store_content_addressed fresh_store_sound (along_of_forall (fun e he s => ?_) _) hrun abc_udig _ hb⟩
  refine copiesNothing_of_one_device fun f hf => ?_
  subst hf
  simp [put_abc] at he
  simp [he]

/-- The temporary directory is on another device than the store, and the server stops when the
arborist has opened the file that it copies the log to. -/
theorem store_not_always_content_addressed :
    ∃ s ∈ exec (step default_tmp false) (Server.booted (L := known_digests) fresh_store)
        (wrap_moves 9 [octets put_record] ++ [.arborist { other_device := true }, .restart]),
      s.tree.file? log_udig.path = some [] ∧ known_digests.digest .sha [] ≠ log_udig.digest := by
  decide +kernel

end Blobio
