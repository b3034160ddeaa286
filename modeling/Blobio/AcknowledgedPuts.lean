import Blobio.ContentAddresses

/-! What the last ok of a put promises: that the blob is in the store when the ok is
written, and that it outlives the takes that had already opened it. -/
namespace Blobio
open EventRuns FileTrees

variable {L : DigestLibrary} {T : TmpMap} {trust_fs : Bool}

/-- The arborist has answered the rename message of a put in this phase. -/
def Phase.Handled : Phase L → Prop
  | .renamed _ | .answering => True
  | _ => False

/-- The blob that an event unlinks: at the end of a take of it, or where a reader zaps it. -/
def unlinked (trust_fs : Bool) (s : Server L) : Event → Option Udig
  | .call pid c => (s.procs pid).bind fun (job, phase) => removes L trust_fs job phase c
  | _ => none

/-- The arborist has put the file of the process in its place, and has yet to reply. -/
def Station.Serves : Station → ℕ → Prop
  | .placed m, pid => m.reply_pid = pid
  | .answering m payload, pid => payload = 0 ∧ m.reply_pid = pid
  | _, _ => False

/-- A put of the blob has had its rename and has yet to answer its client. -/
def PutPending (s : Server L) (u : Udig) : Prop :=
  ∃ pid verb scan_buf phase, s.procs pid = some (.put verb u scan_buf, phase) ∧
    (phase.Handled ∨ s.station.Serves pid)

/-- When a put's last ok goes out its blob is in the store. -/
def AckStored (L : DigestLibrary) (s : Server L) (e : Event) : Prop :=
  ∀ pid verb u scan_buf, e = .call pid .write_ok →
    s.procs pid = some (.put verb u scan_buf, .answering) → HoldsBlob L s.tree u.path u

/-- The arborist tells a put that its rename has failed only if nothing is written to the fifo, or
where the blob is stored all the same. -/
def RenameSparedAt (s : Server L) (e : Event) (u : Udig) : Prop :=
  ∀ f m payload verb scan_buf phase, e = .arborist f → s.station = .answering m payload → payload ≠ 0 →
    s.procs m.reply_pid = some (.put verb u scan_buf, phase) →
      f.reply = true ∨ Stored L s.tree s.writable u

def RenameSpared (s : Server L) (e : Event) : Prop :=
  ∀ u, RenameSparedAt s e u

def NoConcurrentTake (trust_fs : Bool) (s : Server L) (e : Event) : Prop :=
  ∀ u, unlinked trust_fs s e = some u → ¬ PutPending s u

/-- When a blob is unlinked, no put of it is pending and some take has opened it since
its last acknowledged put. -/
def TakeCurrent (trust_fs : Bool) (s : Server L) (e : Event) : Prop :=
  ∀ u, unlinked trust_fs s e = some u → ¬ PutPending s u ∧
    ∃ pid opened, (pid, u, opened) ∈ s.opens ∧ ∀ acked, (u, acked) ∈ s.acks → acked < opened

/-! ### Where a blob of the store goes -/

section calls
variable {t : Store} {pid : ℕ} {job : Job} {phase : Phase L} {c : Call} {p : Progress L}

/-- A call leaves a blob in place unless it is the unlink of it. -/
theorem call_keeps (h : call L T trust_fs t pid job phase c = some p) (u : Udig) :
    p.tree.file? u.path = t.file? u.path ∨ removes L trust_fs job phase c = some u := by
  cases call_entry h u.path with
  | same h => exact .inl (FileTree.file?_congr h)
  | spooled h _ => exact absurd (Option.some.inj (u.head?_path.symm.trans h)) data_ne_spool
  | created hout _ => exact absurd u.head?_path hout.1
  | own h => exact absurd u.head?_path (tmp_outside h).1
  | removed v hv hrem _ =>
    cases Udig.path_injective hv
    exact .inr hrem

theorem put_open_unhandled (verb : PutVerb) (u : Udig) (scan_buf : Bytes) (time : ℤ) :
    ¬ (put_open L T t pid verb u scan_buf time).phase.Handled := by
  unfold put_open eat_chunk
  dsimp only
  split
  · exact id
  · split
    · exact id
    · split
      · exact id
      · split
        · exact id
        · dsimp only
          split <;> exact id

/-- No call of a put goes past the arborist's reply by itself. -/
theorem call_handled {verb : PutVerb} {u : Udig} {scan_buf : Bytes}
    (h : call L T trust_fs t pid (.put verb u scan_buf) phase c = some p) (hp : p.phase.Handled) :
    phase.Handled := by
  cases c with
  | put_open time =>
    simp only [call] at h
    split at h
    · rename_i heq
      cases heq
      cases h
      exact absurd hp (put_open_unhandled _ _ _ _)
    · cases h
  | blob_read chunk =>
    simp only [call, eat_chunk] at h
    split at h
    · split at h
      · cases h
      · cases h
        dsimp only at hp
        split at hp <;> exact hp.elim
    · cases h
  | cleanup =>
    simp only [call] at h
    split at h
    · trivial
    · cases h
  | _ =>
    simp only [call] at h
    try split at h
    all_goals cases h
    all_goals exact hp.elim

theorem blob_open_note (u : Udig) (n : Option Note) :
    (blob_open L t u n).note = none ∨ (blob_open L t u n).note = n := by
  unfold blob_open
  split
  · exact .inr rfl
  · exact .inl rfl

/-- The calls that the history of a run records. -/
def Call.notes : Call → Bool
  | .write_ok | .blob_open => true
  | _ => false

theorem call_unnoted (h : call L T trust_fs t pid job phase c = some p) (hc : c.notes = false) :
    p.note = none := by
  have hopen : ∀ verb u scan_buf time, (put_open L T t pid verb u scan_buf time).note = none := by
    intro verb u scan_buf time
    unfold put_open eat_chunk
    dsimp only
    split
    · rfl
    · split <;> try split
      all_goals try split
      all_goals rfl
  have hbytes : ∀ u b next, (blob_bytes L trust_fs t u b next).note = none := by
    intro u b next
    unfold blob_bytes
    split <;> rfl
  have hstream : ∀ m part reads time drift,
      (digest_stream L T t pid m part reads time drift).note = none := by
    intro m part reads time drift
    unfold digest_stream
    split <;> rfl
  cases c <;> simp only [Call.notes, Bool.true_eq_false] at hc
  all_goals simp only [call] at h
  case freeze name log =>
    split at h
    · obtain ⟨t', -, hp⟩ := Option.map_eq_some_iff.mp h
      subst hp
      rfl
    · cases h
  case take_reply ok =>
    split at h
    · cases h
      cases ok <;> rfl
    · cases h
  all_goals split at h <;> try split at h
  all_goals try split at h
  all_goals cases h
  all_goals first | rfl | exact hopen .. | exact hbytes .. | exact hstream ..

/-- A put acknowledges its own blob, and changes nothing as it does. -/
theorem call_acked {u : Udig} (h : call L T trust_fs t pid job phase c = some p)
    (hn : p.note = some (.acked u)) :
    p.tree = t ∧ c = .write_ok ∧ ∃ verb scan_buf, job = .put verb u scan_buf ∧ phase = .answering := by
  cases c with
  | write_ok =>
    simp only [call] at h
    split at h
    · cases h
      cases hn
      exact ⟨rfl, rfl, _, _, rfl, rfl⟩
    all_goals cases h
    all_goals cases hn
  | blob_open =>
    simp only [call] at h
    split at h
    · cases h
      rcases blob_open_note _ (some (.opened _)) with heq | heq <;> cases heq.symm.trans hn
    · split at h
      · cases h
        cases hn
      · cases h
        rcases blob_open_note _ none with heq | heq <;> cases heq.symm.trans hn
    · cases h
  | _ =>
    have hnone := call_unnoted h
    simp [Call.notes] at hnone
    simp [hnone] at hn

end calls

section steps
variable {s s' : Server L}

/-- A blob of the store stays there until an event unlinks it. -/
theorem step_keeps (hc : Consistent T s) {e : Event} (hstep : step T trust_fs s e = some s')
    {u : Udig} (hu : Stored L s.tree s.writable u) :
    Stored L s'.tree s'.writable u ∨ unlinked trust_fs s e = some u := by
  cases e with
  | fork pid job =>
    obtain ⟨-, rfl⟩ := step_fork hstep
    exact .inl hu
  | call pid c =>
    obtain ⟨job, phase, p, hproc, hcall, rfl⟩ := step_call hstep
    rcases call_keeps hcall u with hsame | hremoves
    · rw [record_tree, record_writable]
      exact .inl ⟨hu.1.mono fun b hb => hsame.trans hb, hu.2⟩
    · exact .inr (by simp [unlinked, hproc, hremoves])
  | arborist f =>
    obtain ⟨handled, rest, harb, rfl⟩ := step_arborist hstep
    rw [answer_tree, answer_writable]
    exact .inl (turn_stored (consistent_turn hc harb) hc.carries hc.station hu)
  | restart =>
    cases hstep
    exact .inl hu

/-- The last ok of a put follows from here whatever the arborist does. -/
def AckPromised (s : Server L) (u : Udig) : Prop :=
  ∃ pid verb scan_buf phase, s.procs pid = some (.put verb u scan_buf, phase) ∧
    (phase.Handled ∨ ∃ m, s.station = .answering m 0 ∧ m.reply_pid = pid)

theorem AckPromised.pending {u : Udig} (h : AckPromised s u) : PutPending s u := by
  obtain ⟨pid, verb, scan_buf, phase, hproc, hhandled | ⟨m, hst, hpid⟩⟩ := h
  · exact ⟨pid, verb, scan_buf, phase, hproc, .inl hhandled⟩
  · exact ⟨pid, verb, scan_buf, phase, hproc, .inr (by rw [hst]; exact ⟨rfl, hpid⟩)⟩

/-- The request of a put is for the place of its blob. -/
theorem Owned.put_path {m : MoveRequest} (h : Owned T s m) {verb : PutVerb} {u : Udig} {scan_buf : Bytes}
    {phase : Phase L} (hproc : s.procs m.reply_pid = some (.put verb u scan_buf, phase)) :
    m.tgt_path = u.path := by
  obtain ⟨job, ph, msg, hproc', hawaits, hm⟩ := h
  obtain ⟨rfl, rfl⟩ := Prod.mk.inj (Option.some.inj (hproc.symm.trans hproc'))
  unfold Phase.awaits at hawaits
  split at hawaits <;> cases hawaits
  · rename_i heq
    cases heq
    exact (congrArg MoveRequest.tgt_path (Option.some.inj hm)).symm
  · rename_i heq
    cases heq

/-- Only a `chmod` that goes well brings the arborist to a reply of zero. -/
theorem turn_answering {t : Store} {writable : List Path} {station : Station} {pipe rest : List Message}
    {h : Handled} {m : MoveRequest} (hturn : ArboristTurn t writable station pipe rest h)
    (hnext : h.station = .answering m 0) : station = .placed m ∧ t.lstat m.tgt_path ≠ none ∧ h.tree = t ∧
      h.writable = writable.filter (· ≠ m.tgt_path) := by
  cases hturn with
  | chmodded m' hst _ hthere htree hw hst' =>
    cases hst'.symm.trans hnext
    exact ⟨hst, hthere, htree, hw⟩
  | received msg m' _ _ _ hr =>
    cases hr with
    | refused _ _ hst' =>
      rcases hst' with hst' | ⟨payload, hne, hst'⟩ <;> cases hst'.symm.trans hnext
      exact absurd rfl hne
    | placed _ _ _ hst' | opened _ _ _ _ _ hst' => cases hst'.symm.trans hnext
  | trimmed _ _ _ _ _ hst' => rcases hst' with hst' | hst' <;> cases hst'.symm.trans hnext
  | chmod_failed m' _ _ _ _ hst' => cases hst'.symm.trans hnext
  | copied m' unread _ _ _ hcopied =>
    cases hcopied with
    | croaked _ _ _ hst' | ended _ _ hst' | copied _ hst' => cases hst'.symm.trans hnext
  | replied m' payload _ _ _ _ hst' => rcases hst' with ⟨-, hst'⟩ | hst' <;> cases hst'.symm.trans hnext

/-- What it finds there is the blob that its request has placed. -/
theorem step_chmodded (hc : Consistent T s) {f : Faults} (hstep : step T trust_fs s (.arborist f) = some s')
    {m : MoveRequest} (hnext : s'.station = .answering m 0) : Owned T s m ∧
      ∀ u : Udig, m.tgt_path = u.path → Stored L s'.tree s'.writable u := by
  obtain ⟨handled, rest, harb, rfl⟩ := step_arborist hstep
  rw [answer_station] at hnext
  rw [answer_tree, answer_writable]
  obtain ⟨hst, hthere, htree, hw⟩ := turn_answering (consistent_turn hc harb) hnext
  have hmem : m ∈ outstanding s.station s.pipe := by
    rw [hst]
    exact List.mem_cons_self
  refine ⟨hc.owned m hmem, fun u htgt => ?_⟩
  have hplaced := hc.station
  rw [hst] at hplaced
  obtain ⟨v, hv, hgood⟩ := hplaced
  cases Udig.path_injective (htgt.symm.trans hv)
  simp only [htree, hw]
  refine ⟨?_, fun hopen => ?_⟩
  · cases hnode : s.tree.lstat u.path with
    | none => exact absurd (htgt ▸ hnode) hthere
    | some n =>
      cases n with
      | file b => exact ⟨b, FileTree.file?_eq_some.mpr hnode, hgood b (FileTree.file?_eq_some.mpr hnode)⟩
      | dir | link => simpa using hc.shape.no_dir u _ hnode
  · have hne := (List.mem_filter.mp hopen).2
    simp [htgt] at hne

/-- A turn of the arborist moves on only the process that it replies to. -/
theorem step_replied {f : Faults} (hstep : step T trust_fs s (.arborist f) = some s') {pid : ℕ} {job : Job}
    {phase : Phase L} (hproc : s'.procs pid = some (job, phase)) :
    s.procs pid = some (job, phase) ∨ ∃ m payload before, s.station = .answering m payload ∧ f.reply ≠ true ∧
      m.reply_pid = pid ∧ s.procs pid = some (job, before) ∧ phase = before.replied := by
  obtain ⟨handled, rest, -, rfl⟩ := step_arborist hstep
  rw [answer_procs] at hproc
  by_cases hreply : replies_to f s.station = some pid
  · rw [if_pos hreply] at hproc
    obtain ⟨⟨j, before⟩, hbefore, heq⟩ := Option.map_eq_some_iff.mp hproc
    obtain ⟨rfl, rfl⟩ := Prod.mk.inj heq
    cases hst : s.station with
    | answering m payload =>
      rw [hst] at hreply
      simp only [replies_to] at hreply
      split at hreply
      · cases hreply
      · rename_i hwritten
        exact .inr ⟨m, payload, before, rfl, hwritten, Option.some.inj hreply, hbefore, rfl⟩
    | waiting | placed m | copying m unread | panicked => simp [hst, replies_to] at hreply
  · rw [if_neg hreply] at hproc
    exact .inl hproc

/-- With the arborist's promise of an ok the blob is stored. -/
theorem arborist_promised (hc : Consistent T s) {f : Faults} (hstep : step T trust_fs s (.arborist f) = some s')
    {u : Udig} (hspared : RenameSparedAt s (.arborist f) u) (h : AckPromised s' u) :
    AckPromised s u ∨ Stored L s'.tree s'.writable u := by
  obtain ⟨pid, verb, scan_buf, phase, hproc', hpromised⟩ := h
  rcases step_replied hstep hproc' with hproc | ⟨m, payload, before, hst, hwritten, rfl, hproc, -⟩
  · rcases hpromised with hhandled | ⟨m, hnext, rfl⟩
    · exact .inl ⟨pid, verb, scan_buf, phase, hproc, .inl hhandled⟩
    · obtain ⟨howned, hstored⟩ := step_chmodded hc hstep hnext
      exact .inr (hstored u (howned.put_path hproc))
  · by_cases hzero : payload = 0
    · exact .inl ⟨m.reply_pid, verb, scan_buf, before, hproc, .inr ⟨m, hzero ▸ hst, rfl⟩⟩
    · have hspare := (hspared f m payload verb scan_buf before rfl hst hzero hproc).resolve_left hwritten
      exact .inr ((step_keeps hc hstep hspare).resolve_right (by simp [unlinked]))

theorem step_promised (hc : Consistent T s) {e : Event} (hstep : step T trust_fs s e = some s')
    {u : Udig} (hspared : RenameSparedAt s e u) (h : AckPromised s' u) :
    AckPromised s u ∨ Stored L s'.tree s'.writable u := by
  cases e with
  | fork p job =>
    obtain ⟨hfree, rfl⟩ := step_fork hstep
    obtain ⟨pid, verb, scan_buf, phase, hproc', hpromised⟩ := h
    by_cases hpid : pid = p
    · subst hpid
      simp only [Server.set, Function.update_self, Option.some.injEq, Prod.mk.injEq] at hproc'
      obtain ⟨-, rfl⟩ := hproc'
      rcases hpromised with hhandled | ⟨m, hst, rfl⟩
      · exact hhandled.elim
      · -- the process that the arborist is about to answer waits, and is not free
        have hmem : m ∈ outstanding s.station s.pipe := by
          rw [show s.station = .answering m 0 from hst]
          exact List.mem_cons_self
        obtain ⟨j, ph, hproc, hwait, -⟩ := (hc.owned m hmem).waits
        cases free_iff.mp hfree j ph hproc
        exact hwait.elim
    · simp only [Server.set, Function.update_of_ne hpid] at hproc'
      exact .inl ⟨pid, verb, scan_buf, phase, hproc', hpromised⟩
  | call p c =>
    obtain ⟨job, ph, q, hproc, hcall, rfl⟩ := step_call hstep
    obtain ⟨pid, verb, scan_buf, phase, hproc', hpromised⟩ := h
    simp only [record_procs, record_station, Server.set] at hproc' hpromised
    by_cases hpid : pid = p
    · subst hpid
      simp only [Function.update_self, Option.some.injEq, Prod.mk.injEq] at hproc'
      obtain ⟨rfl, rfl⟩ := hproc'
      exact .inl ⟨pid, verb, scan_buf, ph, hproc, hpromised.imp_left fun hp => call_handled hcall hp⟩
    · rw [Function.update_of_ne hpid] at hproc'
      exact .inl ⟨pid, verb, scan_buf, phase, hproc', hpromised⟩
  | arborist f => exact arborist_promised hc hstep hspared h
  | restart =>
    cases hstep
    obtain ⟨pid, verb, scan_buf, phase, hproc', -⟩ := h
    simp [Server.booted] at hproc'

/-- Each put that is promised its ok has its blob in the store. -/
structure PromisedStored (T : TmpMap) (s : Server L) : Prop where
  consistent : Consistent T s
  stored : ∀ u, AckPromised s u → Stored L s.tree s.writable u

theorem promisedStored_step (h : PromisedStored T s) {e : Event} (hspared : RenameSpared s e)
    (htake : NoConcurrentTake trust_fs s e) (hstep : step T trust_fs s e = some s') : PromisedStored T s' where
  consistent := consistent_step s e s' h.consistent hstep
  stored u hu := by
    rcases step_promised h.consistent hstep (hspared u) hu with hold | hnew
    · rcases step_keeps h.consistent hstep (h.stored u hold) with hkept | hunlink
      · exact hkept
      · exact absurd hold.pending (htake u hunlink)
    · exact hnew

theorem promisedStored_booted {t : Store} (ht : Sound L t) :
    PromisedStored T (Server.booted t : Server L) where
  consistent := consistent_booted ht
  stored u hu := by
    obtain ⟨pid, verb, scan_buf, phase, hproc, -⟩ := hu
    simp [Server.booted] at hproc

end steps

/-- No failure of the arborist is on its way to a process. -/
def Server.unfailing (s : Server L) : Prop :=
  match s.station with
  | .answering _ payload => payload = 0
  | _ => True

instance (s : Server L) : Decidable s.unfailing := by
  unfold Server.unfailing
  split <;> infer_instance

theorem Server.unfailing.spared {s : Server L} (h : s.unfailing) (e : Event) : RenameSpared s e := by
  intro u f m payload verb scan_buf phase _ hst hne _
  rw [Server.unfailing, hst] at h
  exact absurd h hne

/-- The process has only its last reply to write. -/
def Server.answering (s : Server L) (pid : ℕ) : Option Job :=
  match s.procs pid with
  | some (job, .answering) => some job
  | _ => none

theorem answering_eq_some {s : Server L} {pid : ℕ} {job : Job} :
    s.answering pid = some job ↔ s.procs pid = some (job, .answering) := by
  unfold Server.answering
  split <;> simp_all

section survival
variable {s s' : Server L}

@[simp] theorem set_opens (s : Server L) (pid : ℕ) (job : Job) (phase : Phase L) :
    (s.set pid job phase).opens = s.opens := rfl

@[simp] theorem set_acks (s : Server L) (pid : ℕ) (job : Job) (phase : Phase L) :
    (s.set pid job phase).acks = s.acks := rfl

theorem answer_history (s : Server L) (reply : Option ℕ) :
    (s.answer reply).opens = s.opens ∧ (s.answer reply).acks = s.acks := by
  cases reply with
  | none => exact ⟨rfl, rfl⟩
  | some pid =>
    simp only [Server.answer]
    split <;> exact ⟨rfl, rfl⟩

theorem step_opens {e : Event} (hstep : step T trust_fs s e = some s') {o : ℕ × Udig × ℕ}
    (ho : o ∈ s.opens) : o ∈ s'.opens := by
  cases e with
  | fork pid job =>
    obtain ⟨-, rfl⟩ := step_fork hstep
    exact ho
  | call pid c =>
    obtain ⟨job, phase, p, -, -, rfl⟩ := step_call hstep
    rcases p.note with _ | u | u
    · exact ho
    · exact List.mem_cons_of_mem _ ho
    · exact ho
  | arborist f =>
    obtain ⟨handled, rest, -, rfl⟩ := step_arborist hstep
    rw [(answer_history _ _).1]
    exact ho
  | restart =>
    cases hstep
    exact ho

/-- A new acknowledgement is of a put that was promised its ok. -/
theorem step_acks {e : Event} (hstep : step T trust_fs s e = some s') {u : Udig} {acked : ℕ}
    (ha : (u, acked) ∈ s'.acks) :
    (u, acked) ∈ s.acks ∨ AckPromised s u ∧ unlinked trust_fs s e = none := by
  cases e with
  | fork pid job =>
    obtain ⟨-, rfl⟩ := step_fork hstep
    exact .inl ha
  | call pid c =>
    obtain ⟨job, phase, p, hproc, hcall, rfl⟩ := step_call hstep
    cases hnote : p.note with
    | none =>
      rw [hnote] at ha
      exact .inl ha
    | some n =>
      rw [hnote] at ha
      cases n with
      | opened v => exact .inl ha
      | acked v =>
        obtain ⟨-, rfl, verb, scan_buf, rfl, rfl⟩ := call_acked hcall hnote
        rcases List.mem_cons.mp ha with heq | hold
        · cases heq
          exact .inr ⟨⟨pid, verb, scan_buf, _, hproc, .inl trivial⟩, by simp [unlinked, hproc, removes]⟩
        · exact .inl hold
  | arborist f =>
    obtain ⟨handled, rest, -, rfl⟩ := step_arborist hstep
    rw [(answer_history _ _).2] at ha
    exact .inl ha
  | restart =>
    cases hstep
    exact .inl ha

/-- A blob that a put has acknowledged is in the store, or a take has opened it since. -/
structure AcksSurvive (T : TmpMap) (s : Server L) : Prop where
  promised : PromisedStored T s
  survive : ∀ u acked, (u, acked) ∈ s.acks → Stored L s.tree s.writable u ∨
    ∃ pid opened, (pid, u, opened) ∈ s.opens ∧ acked < opened

theorem acksSurvive_step (h : AcksSurvive T s) {e : Event} (hspared : RenameSpared s e)
    (htake : TakeCurrent trust_fs s e) (hstep : step T trust_fs s e = some s') : AcksSurvive T s' where
  promised := promisedStored_step h.promised hspared (fun u hu => (htake u hu).1) hstep
  survive u acked ha := by
    have hkeeps := fun hb => step_keeps h.promised.consistent hstep (u := u) hb
    rcases step_acks hstep ha with hold | ⟨hpromised, hno⟩
    · rcases h.survive u acked hold with hb | ⟨pid, opened, ho, hlt⟩
      · rcases hkeeps hb with hkept | hunlink
        · exact .inl hkept
        · obtain ⟨-, pid, opened, ho, hlast⟩ := htake u hunlink
          exact .inr ⟨pid, opened, step_opens hstep ho, hlast acked hold⟩
      · exact .inr ⟨pid, opened, step_opens hstep ho, hlt⟩
    · rcases hkeeps (h.promised.stored u hpromised) with hkept | hunlink
      · exact .inl hkept
      · cases hno.symm.trans hunlink

end survival

/-- An arborist that nothing fails, as far as a rename and its reply. -/
def quiet_turns : List Faults := List.replicate 3 {}

/-- A take of the blob until its client has the bytes. -/
def take_opens (pid : ℕ) (u : Udig) : List Event :=
  [.fork pid (.take u), .call pid .is_wrap, .call pid .blob_open, .call pid (.blob_bytes [])]

/-- What follows when the client says ok. -/
def take_ends (pid : ℕ) : List Event :=
  [.call pid .arbor_trim, .arborist {}, .call pid .write_ok]

/-- The process that an event starts. -/
def Event.forked : Event → Option ℕ
  | .fork pid _ => some pid
  | _ => none

theorem step_unforked {s s' : Server L} {e : Event} (hstep : step T trust_fs s e = some s') {pid : ℕ}
    (hs : s.procs pid = none) (he : e.forked ≠ some pid) : s'.procs pid = none := by
  cases e with
  | fork p job =>
    obtain ⟨-, rfl⟩ := step_fork hstep
    have hpid : pid ≠ p := fun hp => he (by rw [hp]; rfl)
    simpa [Server.set, Function.update_of_ne hpid] using hs
  | call p c =>
    obtain ⟨job, phase, q, hproc, -, rfl⟩ := step_call hstep
    have hpid : pid ≠ p := by
      rintro rfl
      cases hs.symm.trans hproc
    simpa [Server.set, Function.update_of_ne hpid] using hs
  | arborist f =>
    obtain ⟨handled, rest, -, rfl⟩ := step_arborist hstep
    rw [answer_procs]
    split <;> simp [hs]
  | restart =>
    cases hstep
    rfl

/-- A process number that no fork has used stays free. -/
theorem free_of_no_fork {s s' : Server L} {es : List Event} {pid : ℕ} (hes : ∀ e ∈ es, e.forked ≠ some pid)
    (h : s.procs pid = none) (hrun : exec (step T trust_fs) s es = some s') : s'.free pid = true := by
  have hnone : s'.procs pid = none :=
    invariant_along (I := fun s => s.procs pid = none) (P := fun _ e => e.forked ≠ some pid)
      (fun s e s' hs he hstep => step_unforked hstep hs he) h (along_of_forall (fun e he _ => hes e he) s) hrun
  simp [Server.free, hnone]

/-- The process is a put that has not ended. -/
def Server.putting (s : Server L) (pid : ℕ) : Bool :=
  match s.procs pid with
  | some (_, .done) => false
  | some (.put .., _) => true
  | _ => false

theorem not_putPending {s : Server L} (h : ∀ pid, s.putting pid = false) (hst : s.station = .waiting) (u : Udig) :
    ¬ PutPending s u := by
  rintro ⟨pid, verb, scan_buf, phase, hproc, hhandled | hserves⟩
  · have hno := h pid
    cases phase <;> simp [Server.putting, hproc, Phase.Handled] at hno hhandled
  · rw [hst] at hserves
    exact hserves

/-- A put, a take of its blob to the end, and a put of the blob again. -/
def put_after_take : List Event × List Event :=
  (put_abc 7 quiet_turns ++ take_opens 8 abc_udig,
    take_ends 8 ++ put_abc 9 quiet_turns)

end Blobio
