import Blobio.AcknowledgedPuts

/-! The logs in `spool/wrap`: when each of them that is not rolled has its blob in the
store, whatever the takes. -/
namespace Blobio
open EventRuns FileTrees

variable {L : DigestLibrary} {T : TmpMap} {trust_fs : Bool}

/-- A wrap has had the move of its log's blob and has yet to spool the log. -/
def SpoolPending (s : Server L) (u : Udig) : Prop :=
  (∃ pid m name, s.procs pid = some (.wrap m, .moved (.log name) u)) ∨
    ∃ pid m name time drift, s.procs pid = some (.wrap m, .moving (.log name) u time drift) ∧
      s.station.Serves pid

/-- The log of the udig is wrapped and not rolled, or about to be. -/
def Unrolled (s : Server L) (u : Udig) : Prop :=
  (s.tree.file? (wrap_path u)).isSome ∨ SpoolPending s u

/-- The arborist tells a wrap that the move of its log's blob has failed only if nothing is written
to the fifo, or where the blob is stored all the same. -/
def MoveSpared (s : Server L) (e : Event) : Prop :=
  ∀ f m payload dm name u time drift, e = .arborist f → s.station = .answering m payload → payload ≠ 0 →
    s.procs m.reply_pid = some (.wrap dm, .moving (.log name) u time drift) →
      f.reply = true ∨ Stored L s.tree s.writable u

/-- Nothing unlinks a log that was wrapped since the take of it looked into `spool/wrap`. -/
def NoTakeOfUnrolled (trust_fs : Bool) (s : Server L) (e : Event) : Prop :=
  ∀ u, unlinked trust_fs s e = some u → ¬ Unrolled s u

/-- Only a wrap makes an entry of `spool/wrap`, from the phase after the log's move. -/
theorem call_wrap_path {t : Store} {pid : ℕ} {job : Job} {phase : Phase L} {c : Call}
    {p : Progress L} (h : call L T trust_fs t pid job phase c = some p) {u : Udig}
    (hu : (p.tree.file? (wrap_path u)).isSome) :
    (t.file? (wrap_path u)).isSome ∨ ∃ m name, job = .wrap m ∧ phase = .moved (.log name) u := by
  cases call_entry h (wrap_path u) with
  | same h =>
    rw [FileTree.file?_congr h] at hu
    exact .inl hu
  | spooled _ h =>
    cases h with
    | frozen name hq => exact absurd hq.symm (frozen_path_ne_wrap_path name u)
    | wrapped m name v hq hjob hphase =>
      cases wrap_path_injective hq
      exact .inr ⟨m, name, hjob, hphase⟩
    | rolled hnone =>
      rcases hnone with hsame | hnone
      · rw [FileTree.file?_congr hsame] at hu
        exact .inl hu
      · simp [FileTree.file?, hnone] at hu
  | created hout _ => exact absurd (head?_wrap_path u) hout.2
  | own h => exact absurd (head?_wrap_path u) (tmp_outside h).2
  | removed v hv _ _ => simpa using congrArg List.length hv

/-- No call of a wrap goes past the arborist's reply by itself. -/
theorem call_not_moved {t : Store} {pid : ℕ} {m : DigestModule} {phase : Phase L} {c : Call}
    {p : Progress L} (h : call L T trust_fs t pid (.wrap m) phase c = some p) (part : WrapPart)
    (u : Udig) : p.phase ≠ .moved part u := by
  have hstream : ∀ part' reads time drift,
      (digest_stream L T t pid m part' reads time drift).phase ≠ .moved part u := by
    intro part' reads time drift
    unfold digest_stream
    split <;> simp
  cases c with
  | digest_log reads time drift =>
    simp only [call] at h
    split at h
    · rename_i heq
      cases heq
      split at h
      · cases h
        simp
      · split at h
        · cases h
          exact hstream _ reads time drift
        · cases h
    · cases h
  | digest_set udigs time drift =>
    simp only [call] at h
    split at h
    · rename_i heq
      cases heq
      cases h
      exact hstream _ _ time drift
    · cases h
  | freeze name log =>
    simp only [call] at h
    split at h
    · obtain ⟨t', -, hp⟩ := Option.map_eq_some_iff.mp h
      subst hp
      simp
    · cases h
  | _ =>
    simp only [call] at h
    try split at h
    all_goals try split at h
    all_goals cases h
    all_goals simp

section steps
variable {s s' : Server L}

/-- The log gets its entry in the spool from here whatever the arborist does. -/
def SpoolPromised (s : Server L) (u : Udig) : Prop :=
  (s.tree.file? (wrap_path u)).isSome ∨
    (∃ pid m name, s.procs pid = some (.wrap m, .moved (.log name) u)) ∨
      ∃ pid dm name time drift m, s.procs pid = some (.wrap dm, .moving (.log name) u time drift) ∧
        s.station = .answering m 0 ∧ m.reply_pid = pid

theorem SpoolPromised.unrolled {u : Udig} (h : SpoolPromised s u) : Unrolled s u := by
  rcases h with hfile | hmoved | ⟨pid, dm, name, time, drift, m, hproc, hst, hpid⟩
  · exact .inl hfile
  · exact .inr (.inl hmoved)
  · exact .inr (.inr ⟨pid, dm, name, time, drift, hproc, by rw [hst]; exact ⟨rfl, hpid⟩⟩)

/-- The request of a wrap is for the place of its blob. -/
theorem Owned.move_path {m : MoveRequest} (h : Owned T s m) {dm : DigestModule} {part : WrapPart} {u : Udig}
    {time : ℤ} {drift : ℕ} (hproc : s.procs m.reply_pid = some (.wrap dm, .moving part u time drift)) :
    m.tgt_path = u.path := by
  obtain ⟨job, ph, msg, hproc', hawaits, hm⟩ := h
  obtain ⟨rfl, rfl⟩ := Prod.mk.inj (Option.some.inj (hproc.symm.trans hproc'))
  cases hawaits
  exact (congrArg MoveRequest.tgt_path (Option.some.inj hm)).symm

/-- The arborist makes no entry of the spool. -/
theorem arborist_wrap_path (hc : Consistent T s) {f : Faults} (hstep : step T trust_fs s (.arborist f) = some s')
    (u : Udig) : s'.tree.file? (wrap_path u) = s.tree.file? (wrap_path u) := by
  obtain ⟨handled, rest, harb, rfl⟩ := step_arborist hstep
  have hturn := consistent_turn hc harb
  have hout : (wrap_path u).head? ≠ some data := by
    rw [head?_wrap_path]
    exact fun h => data_ne_spool (Option.some.inj h).symm
  rw [answer_tree]
  refine turn_outside hturn hc.carries hc.station hout fun m hm hsrc => ?_
  obtain ⟨j, ph, -, -, htmp⟩ := (hc.owned m (by rw [turn_outstanding hturn, hm]; exact List.mem_cons_self)).waits
  exact (tmp_outside htmp).2 (by rw [hsrc, head?_wrap_path])

theorem arborist_spooled (hc : Consistent T s) {f : Faults} (hstep : step T trust_fs s (.arborist f) = some s')
    (hspared : MoveSpared s (.arborist f)) {u : Udig} (h : SpoolPromised s' u) :
    SpoolPromised s u ∨ Stored L s'.tree s'.writable u := by
  rcases h with hfile | ⟨pid, dm, name, hproc'⟩ | ⟨pid, dm, name, time, drift, m, hproc', hnext, hpid⟩
  · exact .inl (.inl (arborist_wrap_path hc hstep u ▸ hfile))
  · rcases step_replied hstep hproc' with hproc | ⟨m, payload, before, hst, hwritten, rfl, hproc, heq⟩
    · exact .inl (.inr (.inl ⟨pid, dm, name, hproc⟩))
    · cases before <;> cases heq
      · rename_i time drift
        by_cases hzero : payload = 0
        · exact .inl (.inr (.inr ⟨m.reply_pid, dm, name, time, drift, m, hproc, hzero ▸ hst, rfl⟩))
        · have hspare := (hspared f m payload dm name u time drift rfl hst hzero hproc).resolve_left hwritten
          exact .inr ((step_keeps hc hstep hspare).resolve_right (by simp [unlinked]))
      · exact .inl (.inr (.inl ⟨m.reply_pid, dm, name, hproc⟩))
  · subst hpid
    rcases step_replied hstep hproc' with hproc | ⟨m', payload, before, -, -, -, -, heq⟩
    · obtain ⟨howned, hstored⟩ := step_chmodded hc hstep hnext
      exact .inr (hstored u (howned.move_path hproc))
    · cases before <;> cases heq

/-- A log is promised its entry with the reply to its move, and with that its blob is stored. -/
theorem step_spooled (hc : Consistent T s) {e : Event} (hstep : step T trust_fs s e = some s')
    (hspared : MoveSpared s e) {u : Udig} (h : SpoolPromised s' u) :
    SpoolPromised s u ∨ Stored L s'.tree s'.writable u := by
  cases e with
  | fork p job =>
    obtain ⟨-, rfl⟩ := step_fork hstep
    rcases h with hfile | ⟨pid, m, name, hproc'⟩ | ⟨pid, dm, name, time, drift, m, hproc', hst⟩
    · exact .inl (.inl hfile)
    · have hpid : pid ≠ p := by
        rintro rfl
        simp [Server.set] at hproc'
      simp only [Server.set, Function.update_of_ne hpid] at hproc'
      exact .inl (.inr (.inl ⟨pid, m, name, hproc'⟩))
    · have hpid : pid ≠ p := by
        rintro rfl
        simp [Server.set] at hproc'
      simp only [Server.set, Function.update_of_ne hpid] at hproc'
      exact .inl (.inr (.inr ⟨pid, dm, name, time, drift, m, hproc', hst⟩))
  | call p c =>
    obtain ⟨job, phase, q, hproc, hcall, rfl⟩ := step_call hstep
    rcases h with hfile | ⟨pid, m, name, hproc'⟩ | ⟨pid, dm, name, time, drift, m, hproc', hst, hmine⟩
    · rw [record_tree] at hfile
      rcases call_wrap_path hcall hfile with hold | ⟨m, name, rfl, rfl⟩
      · exact .inl (.inl hold)
      · exact .inl (.inr (.inl ⟨p, m, name, hproc⟩))
    · simp only [record_procs, Server.set] at hproc'
      by_cases hpid : pid = p
      · subst hpid
        simp only [Function.update_self, Option.some.injEq, Prod.mk.injEq] at hproc'
        obtain ⟨rfl, hphase⟩ := hproc'
        exact absurd hphase (call_not_moved hcall _ u)
      · rw [Function.update_of_ne hpid] at hproc'
        exact .inl (.inr (.inl ⟨pid, m, name, hproc'⟩))
    · simp only [record_procs, record_station, Server.set] at hproc' hst
      by_cases hpid : pid = p
      · -- the process that the arborist is about to answer makes no call
        subst hpid
        have hmem : m ∈ outstanding s.station s.pipe := by
          rw [hst]
          exact List.mem_cons_self
        obtain ⟨j, ph, hp, hwait, -⟩ := (hc.owned m hmem).waits
        rw [hmine] at hp
        obtain ⟨rfl, rfl⟩ := Prod.mk.inj (Option.some.inj (hproc.symm.trans hp))
        simp [call_waits hwait] at hcall
      · rw [Function.update_of_ne hpid] at hproc'
        exact .inl (.inr (.inr ⟨pid, dm, name, time, drift, m, hproc', hst, hmine⟩))
  | arborist f => exact arborist_spooled hc hstep hspared h
  | restart =>
    cases hstep
    rcases h with hfile | ⟨pid, m, name, hproc'⟩ | ⟨pid, dm, name, time, drift, m, hproc', -⟩
    · exact .inl (.inl hfile)
    all_goals simp [Server.booted] at hproc'

/-- Each log that is spooled, or is promised to be, has its blob in the store. -/
structure SpooledStored (T : TmpMap) (s : Server L) : Prop where
  consistent : Consistent T s
  stored : ∀ u, SpoolPromised s u → Stored L s.tree s.writable u

theorem spooledStored_step (h : SpooledStored T s) {e : Event} (hspared : MoveSpared s e)
    (htake : NoTakeOfUnrolled trust_fs s e) (hstep : step T trust_fs s e = some s') :
    SpooledStored T s' where
  consistent := consistent_step s e s' h.consistent hstep
  stored u hu := by
    rcases step_spooled h.consistent hstep hspared hu with hold | hnew
    · rcases step_keeps h.consistent hstep (h.stored u hold) with hkept | hunlink
      · exact hkept
      · exact absurd hold.unrolled (htake u hunlink)
    · exact hnew

end steps

/-- A wrap of a log that is read so, to its last ok. -/
def log_wrapped (pid : ℕ) (reads : List Bytes) : List Event :=
  wrap_moves pid reads ++ quiet_turns.map .arborist ++
    [.call pid .spool_log, .call pid (.digest_set [] 1700000000 1), .call pid .arbor_move] ++
      quiet_turns.map .arborist ++ [.call pid .write_ok]

theorem Server.unfailing.move_spared {s : Server L} (h : s.unfailing) (e : Event) : MoveSpared s e := by
  intro f m payload dm name u time drift _ hst hne _
  rw [Server.unfailing, hst] at h
  exact absurd h hne

/-- A put of the empty blob, which reads nothing, to its last ok. -/
def put_empty (pid : ℕ) : List Event :=
  [.fork pid (.put .put empty_udig []), .call pid (.put_open 1700000000), .call pid .arbor_rename] ++
    quiet_turns.map .arborist ++ [.call pid .cleanup, .call pid .write_ok]

end Blobio
