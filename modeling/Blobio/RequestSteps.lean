import Blobio.RequestProcesses

/-! What one step of the server can do: to the process it is of, to the pipe, and to
each entry of the blob tree. -/
namespace Blobio
open FileTrees

variable {L : DigestLibrary} {T : TmpMap} {trust_fs : Bool}

/-- The temporary file that a process holds. -/
def Phase.tmp (T : TmpMap) (pid : ℕ) : Job → Phase L → Option Path
  | .put verb u _, .eating time _ | .put verb u _, .digested time | .put verb u _, .renaming time
  | .put verb u _, .renamed time => some (put_tmp T pid verb u time)
  | .wrap m, .copied _ _ time drift | .wrap m, .moving _ _ time drift =>
    some (digest_tmp T pid m time drift)
  | _, _ => none

theorem put_tmp_outside (pid : ℕ) (verb : PutVerb) (u : Udig) (time : ℤ) :
    (put_tmp T pid verb u time).head? ≠ some data ∧ (put_tmp T pid verb u time).head? ≠ some spool :=
  T.head?_append ..

theorem digest_tmp_outside (pid : ℕ) (m : DigestModule) (time : ℤ) (drift : ℕ) :
    (digest_tmp T pid m time drift).head? ≠ some data ∧
      (digest_tmp T pid m time drift).head? ≠ some spool :=
  T.head?_append ..

theorem tmp_outside {pid : ℕ} {job : Job} {phase : Phase L} {q : Path}
    (h : phase.tmp T pid job = some q) : q.head? ≠ some data ∧ q.head? ≠ some spool := by
  unfold Phase.tmp at h
  split at h <;> cases h
  all_goals first | exact put_tmp_outside .. | exact digest_tmp_outside ..

private theorem put_digest_name {verb : PutVerb} {time time' : ℤ} {pid pid' drift : ℕ} {d : Digest} :
    put_tmp_name verb.text time pid d ≠ digest_tmp_name time' pid' drift := by
  intro h
  have hput : (put_tmp_name verb.text time pid d).head? = verb.text.head? := by
    cases verb <;> rfl
  have hdigest : (digest_tmp_name time' pid' drift).head? = some 'd' := rfl
  rw [h, hdigest] at hput
  cases verb <;> exact absurd hput (by decide)

/-- No two processes hold one temporary file. -/
theorem tmp_pid {pid pid' : ℕ} {job job' : Job} {phase phase' : Phase L} {q : Path}
    (h : phase.tmp T pid job = some q) (h' : phase'.tmp T pid' job' = some q) : pid = pid' := by
  have hform : ∀ (pid : ℕ) (job : Job) (phase : Phase L), phase.tmp T pid job = some q →
      (∃ verb time d, q.getLast? = some (put_tmp_name (PutVerb.text verb) time pid d)) ∨
        ∃ time drift, q.getLast? = some (digest_tmp_name time pid drift) := by
    intro pid job phase h
    unfold Phase.tmp at h
    split at h <;> cases h
    all_goals first
      | exact .inl ⟨_, _, _, List.getLast?_concat⟩
      | exact .inr ⟨_, _, List.getLast?_concat⟩
  rcases hform pid job phase h with ⟨verb, time, d, hq⟩ | ⟨time, drift, hq⟩ <;>
    rcases hform pid' job' phase' h' with ⟨verb', time', d', hq'⟩ | ⟨time', drift', hq'⟩ <;>
      have heq := Option.some.inj (hq.symm.trans hq')
  · exact put_tmp_name_pid heq
  · exact absurd heq put_digest_name
  · exact absurd heq.symm put_digest_name
  · exact digest_tmp_name_pid heq

/-- The blob that a call removes: a take its client agreed to, and the zap of a blob that fails
its digest. -/
def removes (L : DigestLibrary) (trust_fs : Bool) : Job → Phase L → Call → Option Udig
  | .take u, .served, .take_reply true => some u
  | .take u, .serving b, .blob_bytes more | .get u, .serving b, .blob_bytes more =>
    if (trust_fs ∧ u.algorithm ≠ .sha) ∨ L.H u.algorithm (b ++ more) = u.digest.raw then none else some u
  | _, _, _ => none

/-- What a call may do in the log spool. -/
inductive Spooled (t t' : Store) (job : Job) (phase : Phase L) (q : Path) : Prop
  | frozen (name : Text) (hq : q = frozen_path name)
  | wrapped (m : DigestModule) (name : Text) (u : Udig) (hq : q = wrap_path u) (hjob : job = .wrap m)
      (hphase : phase = .moved (.log name) u)
  | rolled (hnone : t'.lstat q = t.lstat q ∨ t'.lstat q = none)

/-- What a call may do to the entry at a path. -/
inductive Entry (T : TmpMap) (trust_fs : Bool) (t t' : Store) (pid : ℕ) (job : Job) (phase : Phase L) (c : Call)
    (q : Path) : Prop
  | same (h : t'.lstat q = t.lstat q)
  | spooled (h : q.head? = some spool) (hentry : Spooled t t' job phase q)
  | created (hq : q.head? ≠ some data ∧ q.head? ≠ some spool) (h : t.lstat q = none)
  | own (h : phase.tmp T pid job = some q)
  | removed (u : Udig) (hq : q = u.path) (h : removes L trust_fs job phase c = some u)
      (hnone : t'.lstat q = t.lstat q ∨ t'.lstat q = none)

section entries
variable {t : Store} {pid : ℕ} {job : Job} {phase : Phase L} {c : Call} {q : Path}

theorem modify_entry (t : Store) {p q : Path} (f : Bytes → Bytes) (hq : q ≠ p) :
    (t.modify p f).lstat q = t.lstat q := by
  cases h : t.lstat p with
  | none => unfold FileTree.modify; split <;> simp_all
  | some n =>
    cases n with
    | file b => rw [FileTree.lstat_modify h, if_neg hq]
    | dir | link => unfold FileTree.modify; split <;> simp_all

theorem put_open_entry (verb : PutVerb) (u : Udig) (scan_buf : Bytes) (time : ℤ) (q : Path) :
    (put_open L T t pid verb u scan_buf time).tree.lstat q = t.lstat q ∨
      (q.head? ≠ some data ∧ q.head? ≠ some spool) ∧ t.lstat q = none := by
  unfold put_open
  dsimp only
  cases h : t.create (put_tmp T pid verb u time) [] with
  | error e => exact .inl rfl
  | ok t' =>
    obtain ⟨-, hnone, hst⟩ := FileTree.create_ok h
    by_cases hq : q = put_tmp T pid verb u time
    · subst hq
      exact .inr ⟨put_tmp_outside .., hnone⟩
    · refine .inl ?_
      have ht' : t'.lstat q = t.lstat q := by rw [hst, if_neg hq]
      dsimp only
      split
      · exact ht'
      · split
        · exact ht'
        · split
          · dsimp only
            split
            · rw [unlink_quietly_of_ne t' hq, ht']
            · exact ht'
          · exact (modify_entry t' _ hq).trans ht'

theorem digest_stream_entry (m : DigestModule) (part : WrapPart) (reads : List Bytes) (time : ℤ)
    (drift : ℕ) (q : Path) :
    (digest_stream L T t pid m part reads time drift).tree.lstat q = t.lstat q ∨
      (q.head? ≠ some data ∧ q.head? ≠ some spool) ∧ t.lstat q = none := by
  unfold digest_stream
  split
  · exact .inl rfl
  · rename_i t' h
    obtain ⟨-, hnone, hst⟩ := FileTree.create_ok h
    by_cases hq : q = digest_tmp T pid m time drift
    · subst hq
      exact .inr ⟨digest_tmp_outside .., hnone⟩
    · exact .inl (by rw [hst, if_neg hq])

theorem unlink_own (h : phase.tmp T pid job = some p) (q : Path) :
    Entry T trust_fs t (unlink_quietly t p) pid job phase c q := by
  by_cases hq : q = p
  · exact .own (hq ▸ h)
  · exact .same (unlink_quietly_of_ne t hq)

theorem unlink_removed {u : Udig} (h : removes L trust_fs job phase c = some u) (q : Path) :
    Entry T trust_fs t (unlink_quietly t u.path) pid job phase c q := by
  by_cases hq : q = u.path
  · subst hq
    exact .removed u rfl h (unlink_quietly_self t u.path)
  · exact .same (unlink_quietly_of_ne t hq)

theorem unlink_spooled {p : Path} (hp : p.head? = some spool) (q : Path) :
    Entry T trust_fs t (unlink_quietly t p) pid job phase c q := by
  by_cases hq : q = p
  · subst hq
    exact .spooled hp (.rolled (unlink_quietly_self t q))
  · exact .same (unlink_quietly_of_ne t hq)

theorem blob_open_tree (t : Store) (u : Udig) (note : Option Note) :
    (blob_open L t u note).tree = t := by
  unfold blob_open
  split <;> rfl

theorem blob_bytes_entry {u : Udig} {b more : Bytes} {next : Phase L}
    (hremoves : ¬ ((trust_fs ∧ u.algorithm ≠ .sha) ∨ L.H u.algorithm (b ++ more) = u.digest.raw) →
      removes L trust_fs job phase c = some u) (q : Path) :
    Entry T trust_fs t (blob_bytes L trust_fs t u (b ++ more) next).tree pid job phase c q := by
  unfold blob_bytes
  split
  · exact .same rfl
  · rename_i hbad
    exact unlink_removed (hremoves hbad) q

theorem freeze_entry {name : Text} {log : Bytes} {t' : Store} (h : t.overwrite (frozen_path name) log = .ok t')
    (q : Path) : Entry T trust_fs t t' pid job phase c q := by
  by_cases hq : q = frozen_path name
  · exact .spooled (by rw [hq, head?_frozen_path]) (.frozen name hq)
  · exact .same (by rw [(FileTree.overwrite_ok h).2.2, if_neg hq])

theorem spool_entry {m : DigestModule} {name : Text} {u : Udig} {t' : Store}
    (h : t.rename (frozen_path name) (wrap_path u) = .ok t') (q : Path) :
    Entry T trust_fs t t' pid (.wrap m) (.moved (.log name) u : Phase L) c q := by
  obtain ⟨-, b, -, hst⟩ := FileTree.rename_ok (frozen_path_ne_wrap_path name u) h
  by_cases hwrap : q = wrap_path u
  · exact .spooled (by rw [hwrap, head?_wrap_path]) (.wrapped m name u hwrap rfl rfl)
  · by_cases hfrozen : q = frozen_path name
    · exact .spooled (by rw [hfrozen, head?_frozen_path]) (.frozen name hfrozen)
    · exact .same (by rw [hst, if_neg hwrap, if_neg hfrozen])

/-- The calls of a put. -/
theorem put_entry {p : Progress L} (h : call L T trust_fs t pid job phase c = some p)
    (hc : (∃ time, c = .put_open time) ∨ (∃ chunk, c = .blob_read chunk) ∨ c = .croak ∨ c = .cleanup) (q : Path) :
    Entry T trust_fs t p.tree pid job phase c q := by
  rcases hc with ⟨time, rfl⟩ | ⟨chunk, rfl⟩ | rfl | rfl <;> simp only [call] at h <;> split at h
  · cases h
    rcases put_open_entry _ _ _ _ q with hq | ⟨hout, hnone⟩
    · exact .same hq
    · exact .created hout hnone
  · cases h
  · split at h
    · cases h
    · cases h
      rename_i verb u _ time _ _
      by_cases hq : q = put_tmp T pid verb u time
      · exact .own (congrArg some hq).symm
      · exact .same (modify_entry t _ hq)
  · cases h
  · cases h
    exact unlink_own rfl q
  · cases h
  · cases h
    exact unlink_own rfl q
  · cases h

/-- The calls of a get or a take. -/
theorem take_entry {p : Progress L} (h : call L T trust_fs t pid job phase c = some p)
    (hc : c = .blob_open ∨ (∃ more, c = .blob_bytes more) ∨ ∃ ok, c = .take_reply ok) (q : Path) :
    Entry T trust_fs t p.tree pid job phase c q := by
  rcases hc with rfl | ⟨more, rfl⟩ | ⟨ok, rfl⟩ <;> simp only [call] at h <;> split at h
  · cases h
    exact .same (by rw [blob_open_tree])
  · split at h
    · cases h
      exact .same rfl
    · cases h
      exact .same (by rw [blob_open_tree])
  · cases h
  · split at h
    · cases h
      exact blob_bytes_entry (fun hbad => by rw [removes, if_neg hbad]) q
    · cases h
  · split at h
    · cases h
      exact blob_bytes_entry (fun hbad => by rw [removes, if_neg hbad]) q
    · cases h
  · cases h
  · cases h
    cases ok with
    | true => exact unlink_removed rfl q
    | false => exact .same rfl
  · cases h

/-- The calls of a wrap that write. -/
theorem wrap_entry {p : Progress L} (h : call L T trust_fs t pid job phase c = some p)
    (hc : (∃ name log, c = .freeze name log) ∨ (∃ reads time drift, c = .digest_log reads time drift) ∨
      (∃ udigs time drift, c = .digest_set udigs time drift) ∨ c = .spool_log) (q : Path) :
    Entry T trust_fs t p.tree pid job phase c q := by
  rcases hc with ⟨name, log, rfl⟩ | ⟨reads, time, drift, rfl⟩ | ⟨udigs, time, drift, rfl⟩ | rfl <;>
    simp only [call] at h <;> split at h
  · obtain ⟨t', ht', hp⟩ := Option.map_eq_some_iff.mp h
    subst hp
    cases hover : t.overwrite (frozen_path name) log with
    | error e => simp [hover, Except.toOption] at ht'
    | ok t'' =>
      rw [hover] at ht'
      cases ht'
      exact freeze_entry hover q
  · cases h
  · split at h
    · cases h
      exact .same rfl
    · split at h
      · cases h
        rcases digest_stream_entry _ _ _ _ _ q with hq | ⟨hout, hnone⟩
        · exact .same hq
        · exact .created hout hnone
      · cases h
  · cases h
  · cases h
    rcases digest_stream_entry _ _ _ _ _ q with hq | ⟨hout, hnone⟩
    · exact .same hq
    · exact .created hout hnone
  · cases h
  · split at h
    · rename_i t' hren
      cases h
      exact spool_entry hren q
    · cases h
      exact .same rfl
  · cases h

theorem call_entry {p : Progress L} (h : call L T trust_fs t pid job phase c = some p) (q : Path) :
    Entry T trust_fs t p.tree pid job phase c q := by
  cases c with
  | put_open time => exact put_entry h (.inl ⟨time, rfl⟩) q
  | blob_read chunk => exact put_entry h (.inr (.inl ⟨chunk, rfl⟩)) q
  | croak => exact put_entry h (.inr (.inr (.inl rfl))) q
  | cleanup => exact put_entry h (.inr (.inr (.inr rfl))) q
  | blob_open => exact take_entry h (.inl rfl) q
  | blob_bytes more => exact take_entry h (.inr (.inl ⟨more, rfl⟩)) q
  | take_reply ok => exact take_entry h (.inr (.inr ⟨ok, rfl⟩)) q
  | freeze name log => exact wrap_entry h (.inl ⟨name, log, rfl⟩) q
  | digest_log reads time drift => exact wrap_entry h (.inr (.inl ⟨reads, time, drift, rfl⟩)) q
  | digest_set udigs time drift => exact wrap_entry h (.inr (.inr (.inl ⟨udigs, time, drift, rfl⟩))) q
  | spool_log => exact wrap_entry h (.inr (.inr (.inr rfl))) q
  | arbor_rename | is_wrap | arbor_trim | eat | arbor_move =>
    simp only [call] at h
    split at h
    · cases h
      exact .same rfl
    · cases h
  | write_ok | roll_copy udig_set =>
    simp only [call] at h
    split at h <;> try split at h
    all_goals cases h
    all_goals exact .same rfl
  | roll_unlink =>
    simp only [call] at h
    split at h
    · cases h
      exact unlink_spooled (head?_wrap_path _) q
    · cases h
      exact .same rfl
    · cases h
  | die =>
    simp only [call] at h
    split at h
    all_goals cases h
    exact .same rfl

end entries

/-- The calls that write to the arborist's pipe. -/
def Call.sends : Call → Bool
  | .arbor_rename | .arbor_move | .arbor_trim => true
  | _ => false

theorem call_quiet {t : Store} {pid : ℕ} {job : Job} {phase : Phase L} {c : Call} {p : Progress L}
    (h : call L T trust_fs t pid job phase c = some p) (hc : c.sends = false) : p.send = none := by
  have hopen : ∀ verb u scan_buf time, (put_open L T t pid verb u scan_buf time).send = none := by
    intro verb u scan_buf time
    unfold put_open
    dsimp only
    split
    · rfl
    · split <;> try split
      all_goals try split
      all_goals rfl
  have hblob : ∀ u note, (blob_open L t u note).send = none := by
    intro u note
    unfold blob_open
    split <;> rfl
  have hbytes : ∀ u b next, (blob_bytes L trust_fs t u b next).send = none := by
    intro u b next
    unfold blob_bytes
    split <;> rfl
  have hstream : ∀ m part reads time drift,
      (digest_stream L T t pid m part reads time drift).send = none := by
    intro m part reads time drift
    unfold digest_stream
    split <;> rfl
  cases c <;> simp only [Call.sends, Bool.true_eq_false] at hc
  all_goals simp only [call] at h
  case freeze name log =>
    split at h
    · obtain ⟨t', -, hp⟩ := Option.map_eq_some_iff.mp h
      subst hp
      rfl
    · cases h
  all_goals split at h <;> try split at h
  all_goals try split at h
  all_goals cases h
  all_goals first | rfl | exact hopen .. | exact hblob .. | exact hbytes .. | exact hstream ..

/-- The process waits for the arborist's reply. -/
def Phase.Waits : Phase L → Prop
  | .renaming _ | .moving .. => True
  | _ => False

theorem call_waits {t : Store} {pid : ℕ} {job : Job} {phase : Phase L} {c : Call}
    (h : phase.Waits) : call L T trust_fs t pid job phase c = none := by
  cases phase <;> simp only [Phase.Waits] at h
  all_goals cases c <;> simp only [call]

/-- The message that a waiting process has sent. -/
def Phase.awaits (T : TmpMap) (pid : ℕ) : Job → Phase L → Option Message
  | .put verb u _, .renaming time => some (.R ⟨pid, put_tmp T pid verb u time, u.path⟩)
  | .wrap m, .moving _ u time drift => some (.M ⟨pid, digest_tmp T pid m time drift, u.path⟩)
  | _, _ => none

section steps
variable {s s' : Server L}

@[simp] theorem record_tree (s : Server L) (pid : ℕ) (n : Option Note) :
    (s.record pid n).tree = s.tree := by
  rcases n with _ | _ | _ <;> rfl

@[simp] theorem record_procs (s : Server L) (pid : ℕ) (n : Option Note) :
    (s.record pid n).procs = s.procs := by
  rcases n with _ | _ | _ <;> rfl

@[simp] theorem record_pipe (s : Server L) (pid : ℕ) (n : Option Note) :
    (s.record pid n).pipe = s.pipe := by
  rcases n with _ | _ | _ <;> rfl

@[simp] theorem record_writable (s : Server L) (pid : ℕ) (n : Option Note) :
    (s.record pid n).writable = s.writable := by
  rcases n with _ | _ | _ <;> rfl

@[simp] theorem record_station (s : Server L) (pid : ℕ) (n : Option Note) :
    (s.record pid n).station = s.station := by
  rcases n with _ | _ | _ <;> rfl

theorem step_fork {pid : ℕ} {job : Job} (h : step T trust_fs s (.fork pid job) = some s') :
    s.free pid ∧ s' = s.set pid job .started := by
  simp only [step] at h
  split at h
  · cases h
    exact ⟨by assumption, rfl⟩
  · cases h

theorem step_call {pid : ℕ} {c : Call} (h : step T trust_fs s (.call pid c) = some s') :
    ∃ job phase p, s.procs pid = some (job, phase) ∧
      call L T trust_fs s.tree pid job phase c = some p ∧
      s' = ({ s with tree := p.tree, pipe := s.pipe ++ p.send.toList }.set pid job p.phase).record
        pid p.note := by
  simp only [step] at h
  split at h
  · cases h
  · rename_i job phase hproc
    obtain ⟨p, hp, hs⟩ := Option.map_eq_some_iff.mp h
    exact ⟨job, phase, p, hproc, hp, hs.symm⟩

theorem step_arborist {f : Faults} (h : step T trust_fs s (.arborist f) = some s') :
    ∃ handled pipe, arborist f s.tree s.writable s.station s.pipe = some (handled, pipe) ∧
      s' = Server.answer
        { s with
          tree := handled.tree
          writable := handled.writable
          station := handled.station
          pipe := pipe } (replies_to f s.station) := by
  simp only [step] at h
  obtain ⟨⟨handled, pipe⟩, harb, hs⟩ := Option.map_eq_some_iff.mp h
  exact ⟨handled, pipe, harb, hs.symm⟩

@[simp] theorem answer_tree (s : Server L) (pid : Option ℕ) : (s.answer pid).tree = s.tree := by
  cases pid with
  | none => rfl
  | some pid => simp only [Server.answer]; split <;> rfl

@[simp] theorem answer_pipe (s : Server L) (pid : Option ℕ) : (s.answer pid).pipe = s.pipe := by
  cases pid with
  | none => rfl
  | some pid => simp only [Server.answer]; split <;> rfl

@[simp] theorem answer_writable (s : Server L) (pid : Option ℕ) : (s.answer pid).writable = s.writable := by
  cases pid with
  | none => rfl
  | some pid => simp only [Server.answer]; split <;> rfl

@[simp] theorem answer_station (s : Server L) (pid : Option ℕ) : (s.answer pid).station = s.station := by
  cases pid with
  | none => rfl
  | some pid => simp only [Server.answer]; split <;> rfl

/-- A reply moves its own process on and no other. -/
theorem answer_procs (s : Server L) (reply : Option ℕ) (pid : ℕ) :
    (s.answer reply).procs pid = if reply = some pid then
      (s.procs pid).map fun p => (p.1, p.2.replied) else s.procs pid := by
  cases reply with
  | none => rfl
  | some r =>
    simp only [Server.answer]
    by_cases hr : r = pid
    · subst hr
      cases h : s.procs r <;> simp [Server.set, h]
    · cases h : s.procs r with
      | none => simp [hr]
      | some p => simp [Server.set, hr, Function.update_of_ne (Ne.symm hr)]

theorem answer_proc {reply : Option ℕ} {pid : ℕ} {job : Job} {phase : Phase L}
    (h : (s.answer reply).procs pid = some (job, phase)) :
    ∃ before, s.procs pid = some (job, before) ∧ (phase = before ∨ phase = before.replied) := by
  rw [answer_procs] at h
  split at h
  · obtain ⟨⟨j, before⟩, hbefore, heq⟩ := Option.map_eq_some_iff.mp h
    obtain ⟨rfl, rfl⟩ := Prod.mk.inj heq
    exact ⟨before, hbefore, .inr rfl⟩
  · exact ⟨phase, h, .inl rfl⟩

/-- A process keeps its job from its fork on. -/
theorem step_job {e : Event} (h : step T trust_fs s e = some s') {pid : ℕ} {job : Job} {phase : Phase L}
    (hproc : s'.procs pid = some (job, phase)) :
    (∃ before, s.procs pid = some (job, before)) ∨ e = .fork pid job := by
  cases e with
  | fork p j =>
    obtain ⟨-, rfl⟩ := step_fork h
    by_cases hp : pid = p
    · subst hp
      simp only [Server.set, Function.update_self, Option.some.injEq, Prod.mk.injEq] at hproc
      exact .inr (by rw [hproc.1])
    · simp only [Server.set, Function.update_of_ne hp] at hproc
      exact .inl ⟨phase, hproc⟩
  | call p c =>
    obtain ⟨j, before, q, hbefore, -, rfl⟩ := step_call h
    simp only [record_procs, Server.set] at hproc
    by_cases hp : pid = p
    · subst hp
      simp only [Function.update_self, Option.some.injEq, Prod.mk.injEq] at hproc
      exact .inl ⟨before, hproc.1 ▸ hbefore⟩
    · rw [Function.update_of_ne hp] at hproc
      exact .inl ⟨phase, hproc⟩
  | arborist f =>
    obtain ⟨handled, pipe, -, rfl⟩ := step_arborist h
    obtain ⟨before, hbefore, -⟩ := answer_proc hproc
    exact .inl ⟨before, hbefore⟩
  | restart =>
    cases h
    cases hproc

theorem call_done (t : Store) (pid : ℕ) (job : Job) (c : Call) :
    call L T trust_fs t pid job (.done : Phase L) c = none := by
  cases c <;> cases job <;> rfl

theorem free_iff {pid : ℕ} : s.free pid = true ↔ ∀ job phase, s.procs pid = some (job, phase) →
    phase = .done := by
  unfold Server.free
  cases hproc : s.procs pid with
  | none => simp
  | some p =>
    obtain ⟨job, phase⟩ := p
    cases phase <;> simp

/-- A process that is gone stays so until its number is used for another. -/
theorem free_step {e : Event} (h : step T trust_fs s e = some s') {pid : ℕ} (hfree : s.free pid = true)
    (he : ∀ job, e ≠ .fork pid job) : s'.free pid = true := by
  rw [free_iff] at hfree ⊢
  intro job phase hproc
  cases e with
  | fork p j =>
    obtain ⟨-, rfl⟩ := step_fork h
    have hp : pid ≠ p := fun hp => he j (by rw [hp])
    simp only [Server.set, Function.update_of_ne hp] at hproc
    exact hfree job phase hproc
  | call p c =>
    obtain ⟨j, before, q, hbefore, hcall, rfl⟩ := step_call h
    simp only [record_procs, Server.set] at hproc
    by_cases hp : pid = p
    · subst hp
      rw [hfree j before hbefore, call_done] at hcall
      cases hcall
    · rw [Function.update_of_ne hp] at hproc
      exact hfree job phase hproc
  | arborist f =>
    obtain ⟨handled, pipe, -, rfl⟩ := step_arborist h
    obtain ⟨before, hbefore, hphase⟩ := answer_proc hproc
    rw [hfree job before hbefore] at hphase
    exact hphase.elim id id
  | restart =>
    cases h
    cases hproc

end steps

end Blobio
