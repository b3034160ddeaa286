import Blobio.AcknowledgedPuts

/-! The client's side of a give and of a take, the connection, and the server's process on
the other end of it. -/
namespace Blobio
open EventRuns FileTrees

inductive HandOver | give | take deriving DecidableEq

/-- What is on its way over the connection: a reply of a line, or bytes of the blob. -/
inductive Sent
  | ok
  | no
  | bytes (chunk : Bytes)
  deriving DecidableEq

/-- Where the client is. A take is `complete` when what it has read matches the digest. -/
inductive ClientPhase
  | requested
  | sending (rest : Bytes)
  | reading
  | complete
  | acked
  | gone
  deriving DecidableEq

/-- How many replies the client has read. -/
def ClientPhase.oks : ClientPhase → ℕ
  | .requested | .gone => 0
  | .sending _ | .reading | .complete => 1
  | .acked => 2

structure Exchange (L : DigestLibrary) where
  verb : HandOver
  u : Udig
  pid : ℕ
  server : Server L
  client : ClientPhase := .requested
  /-- The input of a give, the output of a take. -/
  file : Option Bytes
  up : List Sent := []
  down : List Sent := []
  connected : Bool := true
  /-- The history: the server has taken the request, and the ok of a take. -/
  accepted : Bool := false
  heard : Bool := false

inductive ExchangeEvent
  | accept
  | serve (c : Call)
  | write_part (n : ℕ)
  | others (e : Event)
  | read_reply (unlink_fails : Bool)
  | send_blob (n : ℕ)
  | read_blob (n : ℕ)
  | send_ok
  | send_ok_fails (arrived : Bool)
  | die
  | killed
  | cut

def HandOver.job (u : Udig) : HandOver → Job
  | give => .put .give u []
  | take => .take u

/-- The other clients take another blob, and have other processes. -/
def Event.Elsewhere (pid : ℕ) (u : Udig) : Event → Prop
  | .fork p job => p ≠ pid ∧ job ≠ .take u
  | .call p _ => p ≠ pid
  | .arborist _ | .restart => True

instance (pid : ℕ) (u : Udig) : ∀ e : Event, Decidable (e.Elsewhere pid u)
  | .fork p job => inferInstanceAs (Decidable (p ≠ pid ∧ job ≠ .take u))
  | .call p _ => inferInstanceAs (Decidable (p ≠ pid))
  | .arborist _ => isTrue trivial
  | .restart => isTrue trivial

/-- The bytes of a stream that has any. -/
def Sent.ofBytes (chunk : Bytes) : List Sent :=
  if chunk = [] then [] else [.bytes chunk]

theorem Sent.ok_not_mem_ofBytes (chunk : Bytes) : Sent.ok ∉ Sent.ofBytes chunk := by
  unfold Sent.ofBytes
  split <;> simp

/-- The replies that the server writes with a call, and the bytes. -/
def Call.replies {L : DigestLibrary} (before after : Phase L) : Call → List Sent
  | .is_wrap =>
    match after with
    | .done => [.no]
    | _ => []
  | .blob_open =>
    match after with
    | .serving _ => [.ok]
    | _ => [.no]
  | .blob_bytes more =>
    match before with
    | .serving b => Sent.ofBytes (b ++ more)
    | _ => []
  | .put_open _ =>
    match after with
    | .done => [.no]
    | _ => []
  | .croak => [.no]
  | .write_ok => [.ok]
  | _ => []

namespace Exchange
variable {L : DigestLibrary}

/-- What is written to a connection that is cut is lost. -/
def write (s : Exchange L) (stream out : List Sent) : List Sent :=
  if s.connected then stream ++ out else stream

/-- A call that reads from the client takes what it reads off the stream. -/
def read (s : Exchange L) : Call → Option (List Sent)
  | .blob_read chunk =>
    match s.up with
    | .bytes c :: up =>
      if chunk <+: c then some (if chunk = c then up else .bytes (c.drop chunk.length) :: up) else none
    | _ => none
  | .take_reply ok =>
    match s.up with
    | .ok :: up => if ok then some up else none
    | .no :: up => if ok then none else some up
    | _ => none
  | _ => some s.up

/-- The client after a reply, with its file and with what it answers. -/
def read_reply (s : Exchange L) (unlink_fails : Bool) : Sent → Option
    (ClientPhase × Option Bytes × List Sent)
  | .ok =>
    match s.verb, s.client with
    | .give, .requested => some (.sending (s.file.getD []), s.file, [])
    | .take, .requested =>
      some (if s.u.digest.chars = s.u.algorithm.empty_ascii then .complete else .reading, s.file, [])
    | .give, .sending [] => some (if unlink_fails then (.gone, s.file, [.no]) else (.acked, none, []))
    | .take, .acked => some (.gone, s.file, [])
    | _, _ => none
  | .no =>
    match s.verb, s.client with
    | _, .requested | .give, .sending [] | .take, .acked => some (.gone, s.file, [])
    | _, _ => none
  | .bytes _ => none

section steps
variable (T : TmpMap) (trust_fs : Bool)

/-- A call of the server's process for this client. -/
def serve (s : Exchange L) (c : Call) (out : Phase L → Phase L → List Sent) : Option (Exchange L) :=
  match s.server.procs s.pid, s.read c with
  | some (_, before), some up =>
    (Blobio.step T trust_fs s.server (.call s.pid c)).bind fun server =>
      match server.procs s.pid with
      | some (_, after) => some { s with
          server := server
          up := up
          down := s.write s.down (out before after)
          heard := s.heard || (c = .take_reply true) }
      | none => none
  | _, _ => none

def step (s : Exchange L) : ExchangeEvent → Option (Exchange L)
  | .accept =>
    if s.accepted then none
    else (Blobio.step T trust_fs s.server (.fork s.pid (s.verb.job s.u))).map fun server =>
      { s with
        server := server
        accepted := true
        down := if s.verb = .give then s.write s.down [.ok] else s.down }
  | .serve c => s.serve T trust_fs c fun before after => c.replies before after
  | .write_part n => s.serve T trust_fs .die fun before _ =>
      match before with
      | .serving b => Sent.ofBytes (b.take n)
      | _ => []
  | .others e =>
    if e.Elsewhere s.pid s.u then
      (Blobio.step T trust_fs s.server e).map fun server => { s with server := server }
    else none
  | .read_reply unlink_fails =>
    match s.down with
    | reply :: down => (s.read_reply unlink_fails reply).map fun (client, file, out) =>
        { s with client := client, file := file, up := s.write s.up out, down := down }
    | [] => none
  | .send_blob n =>
    match s.verb, s.client with
    | .give, .sending rest =>
      if 0 < n ∧ n ≤ rest.length then some { s with
        client := .sending (rest.drop n)
        up := s.write s.up [.bytes (rest.take n)] }
      else none
    | _, _ => none
  | .read_blob n =>
    match s.verb, s.client, s.down with
    | .take, .reading, .bytes c :: down =>
      if 0 < n ∧ n ≤ c.length then
        let blob := s.file.getD [] ++ c.take n
        some { s with
          client := if L.H s.u.algorithm blob = s.u.digest.raw then .complete else .reading
          file := some blob
          down := if n = c.length then down else .bytes (c.drop n) :: down }
      else none
    | _, _, _ => none
  | .send_ok =>
    match s.verb, s.client with
    | .take, .complete => some { s with client := .acked, up := s.write s.up [.ok] }
    | .give, .acked => some { s with client := .gone, up := s.write s.up [.ok] }
    | _, _ => none
  | .send_ok_fails arrived =>
    match s.verb, s.client with
    | .take, .complete => some { s with
        client := .gone
        file := none
        up := if arrived then s.write s.up [.ok] else s.up }
    | _, _ => none
  | .die =>
    -- an error unlinks the output path in `cleanup`
    if s.client = .gone then none
    else some { s with client := .gone, file := if s.verb = .take then none else s.file }
  | .killed => if s.client = .gone then none else some { s with client := .gone }
  | .cut => some { s with connected := false, up := [], down := [] }

end steps

/-- A client that has opened its file and its connection, before the server has taken
the request. -/
def opened (L : DigestLibrary) (verb : HandOver) (u : Udig) (pid : ℕ) (t : Store) (input : Bytes) :
    Exchange L where
  verb := verb
  u := u
  pid := pid
  server := Server.booted t
  file := if verb = .give then some input else some []

/-- The client's file is the complete blob. -/
def Complete (s : Exchange L) : Prop :=
  ∃ b, s.file = some b ∧ L.digest s.u.algorithm b = s.u.digest

/-- The side that hands the blob over has it. -/
def Offered (L : DigestLibrary) (verb : HandOver) (u : Udig) (t : Store) (input : Bytes) : Prop :=
  match verb with
  | .give => L.digest u.algorithm input = u.digest
  | .take => HoldsBlob L t u.path u

def Kept (s : Exchange L) : Prop :=
  s.Complete ∨ HoldsBlob L s.server.tree s.u.path s.u

/-- The server has not read the client's ok, and never will. -/
def Unheard (s : Exchange L) : Prop :=
  s.heard = false ∧ (s.connected = false ∨ s.server.free s.pid = true)

/-- For a give the arborist answers no rename of the blob that has failed, and no other process
unlinks it. For a take the client gives up neither with an ok on its way nor behind one that the
server has read. -/
def Careful (trust_fs : Bool) (s : Exchange L) (e : ExchangeEvent) : Prop :=
  match s.verb, e with
  | .give, .others e => RenameSparedAt s.server e s.u ∧ unlinked trust_fs s.server e ≠ some s.u
  | .take, .die => s.client = .acked → s.Unheard
  | .take, .send_ok_fails arrived => arrived = false
  | _, _ => True

/-! ### The server's side -/

/-- The server is consistent, and the client's process is the only one that takes the blob. -/
structure Alone (T : TmpMap) (verb : HandOver) (u : Udig) (pid : ℕ) (accepted : Bool) (server : Server L) :
    Prop where
  consistent : Consistent T server
  own : ∀ job phase, server.procs pid = some (job, phase) → accepted = true ∧ job = verb.job u
  takes : ∀ p phase, server.procs p = some (.take u, phase) → p = pid

section server
variable {T : TmpMap} {trust_fs : Bool} {verb : HandOver} {u : Udig} {pid : ℕ} {accepted accepted' : Bool}
  {server server' : Server L} {e : Event}

theorem Alone.step (h : Alone T verb u pid accepted server)
    (hstep : Blobio.step T trust_fs server e = some server')
    (hmono : accepted = true → accepted' = true)
    (hfork : ∀ p job, e = .fork p job → p ≠ pid ∧ job ≠ .take u ∨
      p = pid ∧ job = verb.job u ∧ accepted' = true) : Alone T verb u pid accepted' server' where
  consistent := consistent_step server e server' h.consistent hstep
  own job phase hproc := by
    rcases step_job hstep hproc with ⟨before, hbefore⟩ | he
    · exact ⟨hmono (h.own job before hbefore).1, (h.own job before hbefore).2⟩
    · rcases hfork pid job he with ⟨hne, -⟩ | ⟨-, hjob, haccepted⟩
      · exact absurd rfl hne
      · exact ⟨haccepted, hjob⟩
  takes p phase hproc := by
    rcases step_job hstep hproc with ⟨before, hbefore⟩ | he
    · exact h.takes p before hbefore
    · rcases hfork p _ he with ⟨-, hne⟩ | ⟨hp, -⟩
      · exact absurd rfl hne
      · exact hp

/-- What a reader of the blob was at when it opened it is the blob. -/
def ReadersWhole (L : DigestLibrary) (u : Udig) (server : Server L) : Prop :=
  ∀ p job b, server.procs p = some (job, .serving b) → job = .get u ∨ job = .take u →
    L.digest u.algorithm b = u.digest

/-- What a call opens of a stored blob is the blob. -/
theorem call_serves {t : Store} {p : ℕ} {job : Job} {phase : Phase L} {c : Call} {progress : Progress L} {b : Bytes}
    (h : call L T trust_fs t p job phase c = some progress) (hserves : progress.phase = .serving b)
    (hjob : job = .get u ∨ job = .take u) : t.file? u.path = some b := by
  have hopens : ∀ note, (blob_open L t u note).phase = .serving b → t.file? u.path = some b := by
    intro note hb
    unfold blob_open at hb
    split at hb
    · rename_i c hc
      cases hb
      exact FileTree.file?_eq_some.mpr hc
    · cases hb
  cases c with
  | blob_open =>
    simp only [call] at h
    split at h
    · cases h
      rcases hjob with hjob | hjob <;> cases hjob
      exact hopens _ hserves
    · split at h <;> cases h
      · cases hserves
      · rcases hjob with hjob | hjob <;> cases hjob
        exact hopens _ hserves
    · cases h
  | put_open | blob_read | digest_log | digest_set =>
    rcases hjob with rfl | rfl <;> cases h
  | blob_bytes more =>
    simp only [call, blob_bytes] at h
    split at h
    all_goals try split at h
    all_goals cases h
    all_goals split at hserves <;> cases hserves
  | take_reply ok =>
    simp only [call] at h
    split at h
    · cases h
      cases ok <;> cases hserves
    · cases h
  | is_wrap =>
    simp only [call] at h
    split at h
    · cases h
      dsimp only at hserves
      split at hserves <;> cases hserves
    · cases h
  | _ =>
    rcases hjob with rfl | rfl <;> simp only [call] at h
    all_goals try split at h
    all_goals cases h
    all_goals cases hserves

theorem readersWhole_step (hstep : Blobio.step T trust_fs server e = some server')
    (h : ReadersWhole L u server) (hu : Stored L server.tree server.writable u) : ReadersWhole L u server' := by
  intro p job b hproc hjob
  cases e with
  | fork p' job' =>
    obtain ⟨-, rfl⟩ := step_fork hstep
    by_cases hp : p = p'
    · subst hp
      simp [Server.set] at hproc
    · simp only [Server.set, Function.update_of_ne hp] at hproc
      exact h p job b hproc hjob
  | call p' c =>
    obtain ⟨job', phase, progress, hbefore, hcall, rfl⟩ := step_call hstep
    simp only [record_procs, Server.set] at hproc
    by_cases hp : p = p'
    · subst hp
      simp only [Function.update_self, Option.some.injEq, Prod.mk.injEq] at hproc
      obtain ⟨rfl, hserves⟩ := hproc
      obtain ⟨d, hd, hdigest⟩ := hu.1
      cases (call_serves hcall hserves hjob).symm.trans hd
      exact hdigest
    · rw [Function.update_of_ne hp] at hproc
      exact h p job b hproc hjob
  | arborist f =>
    rcases step_replied hstep hproc with hold | ⟨m, payload, before, -, -, -, hbefore, heq⟩
    · exact h p job b hold hjob
    · cases before <;> cases heq
      exact h p job b hbefore hjob
  | restart =>
    cases hstep
    cases hproc

/-- While no reader has less than the blob, only the client's own process unlinks it. -/
theorem Alone.unlinks (h : Alone T verb u pid accepted server) (hreaders : ReadersWhole L u server)
    (hstep : Blobio.step T trust_fs server e = some server') (hunlink : unlinked trust_fs server e = some u) :
    verb = .take ∧ e = .call pid (.take_reply true) := by
  cases e with
  | fork | arborist | restart => cases hunlink
  | call p c =>
    obtain ⟨job, phase, progress, hproc, hcall, -⟩ := step_call hstep
    simp only [unlinked, hproc, Option.bind_some] at hunlink
    unfold removes at hunlink
    have hzap : ∀ b more v, GrownBy L server.tree v b more → server.procs p = some (job, .serving b) →
        (job = .get v ∨ job = .take v) →
        (if (trust_fs ∧ v.algorithm ≠ .sha) ∨ L.H v.algorithm (b ++ more) = v.digest.raw then none else some v) =
          some u → False := by
      intro b more v hgrown hserving hjob hif
      split at hif
      · cases hif
      · rename_i hbad
        cases hif
        have hwhole := DigestLibrary.digest_eq_iff.mp (hreaders p job b hserving hjob)
        rcases hgrown with rfl | ⟨hpart, -⟩
        · exact hbad (.inr (by rw [List.append_nil]; exact hwhole))
        · exact hpart hwhole
    split at hunlink
    · cases hunlink
      obtain rfl := h.takes p _ hproc
      have hjob := (h.own _ _ hproc).2
      cases verb with
      | give => cases hjob
      | take => exact ⟨rfl, rfl⟩
    · simp only [call] at hcall
      split at hcall
      · rename_i hgrown
        exact (hzap _ _ _ hgrown hproc (.inr rfl) hunlink).elim
      · cases hcall
    · simp only [call] at hcall
      split at hcall
      · rename_i hgrown
        exact (hzap _ _ _ hgrown hproc (.inl rfl) hunlink).elim
      · cases hcall
    · cases hunlink

/-- The second ok of a put is its last one. -/
theorem replies_put {t : Store} {put_verb : PutVerb} {scan_buf : Bytes} {before : Phase L} {c : Call} {p : Progress L}
    (h : call L T trust_fs t pid (.put put_verb u scan_buf) before c = some p) :
    .ok ∉ c.replies before p.phase ∨ before = .answering ∧ c.replies before p.phase = [.ok] := by
  cases c with
  | is_wrap => simp [call] at h
  | blob_open => simp [call] at h
  | blob_bytes more => simp [call] at h
  | put_open time =>
    refine .inl ?_
    simp only [Call.replies]
    split <;> simp
  | croak => exact .inl (by simp [Call.replies])
  | write_ok =>
    simp only [call] at h
    split at h
    · exact .inr ⟨rfl, rfl⟩
    · exact .inr ⟨rfl, rfl⟩
    · rename_i hjob
      cases hjob
    · cases h
  | _ => exact .inl (by simp [Call.replies])

end server

theorem serve_ok {T : TmpMap} {trust_fs : Bool} {s s' : Exchange L} {c : Call}
    {out : Phase L → Phase L → List Sent} (h : s.serve T trust_fs c out = some s') :
    ∃ job before p up server, s.server.procs s.pid = some (job, before) ∧ s.read c = some up ∧
      call L T trust_fs s.server.tree s.pid job before c = some p ∧
      Blobio.step T trust_fs s.server (.call s.pid c) = some server ∧ s' = { s with
        server := server
        up := up
        down := s.write s.down (out before p.phase)
        heard := s.heard || (c = .take_reply true) } := by
  unfold serve at h
  split at h
  · rename_i job before up hproc hup
    obtain ⟨server, hserver, hrest⟩ := Option.bind_eq_some_iff.mp h
    obtain ⟨j, b, p, hproc', hcall, rfl⟩ := step_call hserver
    obtain ⟨rfl, rfl⟩ := Prod.mk.inj (Option.some.inj (hproc.symm.trans hproc'))
    simp only [record_procs, Server.set, Function.update_self, Option.some.injEq] at hrest
    exact ⟨job, before, p, up, _, hproc, hup, hcall, hserver, hrest.symm⟩
  · cases h

theorem count_write_le (s : Exchange L) (stream out : List Sent) :
    (s.write stream out).count .ok ≤ stream.count .ok + out.count .ok := by
  unfold write
  split
  · exact (List.count_append ..).le
  · exact Nat.le_add_right _ _

/-! ### The give -/

/-- A give has read or is to read two replies only when its blob is stored. -/
structure GiveGuarded (s : Exchange L) : Prop where
  pending : AckPromised s.server s.u → Stored L s.server.tree s.server.writable s.u
  promised : 2 ≤ s.down.count .ok + s.client.oks → Stored L s.server.tree s.server.writable s.u
  kept : s.Complete ∨ Stored L s.server.tree s.server.writable s.u

section give
variable {T : TmpMap} {trust_fs : Bool} {s s' : Exchange L}

/-- The server is at work, and the client's file as it was. -/
theorem GiveGuarded.server (h : GiveGuarded s) {e : Event}
    (halone : Alone T .give s.u s.pid s.accepted s.server)
    (hstep : Blobio.step T trust_fs s.server e = some s'.server) (hspared : RenameSparedAt s.server e s.u)
    (hunlink : unlinked trust_fs s.server e ≠ some s.u)
    (hu : s'.u = s.u) (hclient : s'.client = s.client) (hfile : s'.file = s.file)
    (hdown : 2 ≤ s'.down.count .ok + s.client.oks →
      Stored L s.server.tree s.server.writable s.u) : GiveGuarded s' := by
  have hkeeps : Stored L s.server.tree s.server.writable s.u →
      Stored L s'.server.tree s'.server.writable s.u :=
    fun hb => (step_keeps halone.consistent hstep hb).resolve_right hunlink
  refine ⟨fun hp => ?_, fun hcount => ?_, ?_⟩
  · rw [hu] at hp ⊢
    exact (step_promised halone.consistent hstep hspared hp).elim (fun hp => hkeeps (h.pending hp)) id
  · rw [hu]
    rw [hclient] at hcount
    exact hkeeps (hdown hcount)
  · rw [Complete, hu, hfile]
    exact h.kept.imp_right hkeeps

/-- The client is at work, and reads at most what is there. -/
theorem GiveGuarded.client (h : GiveGuarded s) (hserver : s'.server = s.server) (hu : s'.u = s.u)
    (hcount : s'.down.count .ok + s'.client.oks ≤ s.down.count .ok + s.client.oks)
    (hfile : s'.file = s.file ∨ 2 ≤ s.down.count .ok + s.client.oks) : GiveGuarded s' := by
  refine ⟨?_, fun h2 => ?_, ?_⟩
  · rw [hserver, hu]
    exact h.pending
  · rw [hserver, hu]
    exact h.promised (h2.trans hcount)
  · rw [Complete, hserver, hu]
    rcases hfile with hfile | h2
    · rw [hfile]
      exact h.kept
    · exact .inr (h.promised h2)

theorem GiveGuarded.serve (h : GiveGuarded s)
    (halone : Alone T .give s.u s.pid s.accepted s.server)
    {c : Call} {out : Phase L → Phase L → List Sent}
    (hout : ∀ before p, .ok ∉ out before p ∨ out before p = c.replies before p)
    (hs : s.serve T trust_fs c out = some s') : GiveGuarded s' := by
  obtain ⟨job, before, p, up, server, hproc, -, hcall, hstep, rfl⟩ := serve_ok hs
  obtain rfl := (halone.own job before hproc).2
  have hspared : RenameSparedAt s.server (.call s.pid c) s.u := by
    intro f _ _ _ _ _ he
    cases he
  have hunlink : unlinked trust_fs s.server (.call s.pid c) ≠ some s.u := by
    simp [unlinked, hproc, removes, HandOver.job]
  refine h.server halone hstep hspared hunlink rfl rfl rfl fun hcount => ?_
  have hquiet : .ok ∉ out before p.phase ∨ before = .answering := by
    rcases hout before p.phase with hno | heq
    · exact .inl hno
    · rw [heq]
      exact (replies_put hcall).imp_right And.left
  rcases hquiet with hno | rfl
  · have hle := count_write_le s s.down (out before p.phase)
    rw [List.count_eq_zero_of_not_mem hno] at hle
    refine h.promised ?_
    dsimp only at hcount
    omega
  · exact h.pending ⟨s.pid, .give, [], .answering, hproc, .inl trivial⟩

/-- Each reply that is read is one ok at most, and the input goes with the second. -/
theorem read_reply_give (hv : s.verb = .give) {unlink_fails : Bool} {reply : Sent} {client : ClientPhase}
    {file : Option Bytes} {out : List Sent} (h : s.read_reply unlink_fails reply = some (client, file,
      out)) :
    client.oks ≤ [reply].count .ok + s.client.oks ∧
      (file = s.file ∨ 2 ≤ [reply].count .ok + s.client.oks) := by
  cases reply with
  | bytes chunk => cases h
  | no =>
    simp only [read_reply, hv] at h
    split at h
    all_goals cases h
    all_goals exact ⟨Nat.zero_le _, .inl rfl⟩
  | ok =>
    simp only [read_reply, hv] at h
    split at h
    · rename_i hclient
      cases h
      exact ⟨by simp [ClientPhase.oks], .inl rfl⟩
    · rename_i hverb _
      cases hverb
    · rename_i hclient
      split at h
      · cases h
        exact ⟨Nat.zero_le _, .inl rfl⟩
      · cases h
        simp [ClientPhase.oks, hclient]
    · rename_i hverb _
      cases hverb
    · cases h

theorem GiveGuarded.step (h : GiveGuarded s) (hv : s.verb = .give)
    (halone : Alone T .give s.u s.pid s.accepted s.server)
    (hfresh : s.accepted = false → s.down = [] ∧ s.client.oks = 0) {e : ExchangeEvent} (he : s.Careful trust_fs e)
    (hs : s.step T trust_fs e = some s') : GiveGuarded s' := by
  cases e with
  | accept =>
    simp only [Exchange.step] at hs
    split at hs
    · cases hs
    · rename_i hnot
      obtain ⟨server, hserver, rfl⟩ := Option.map_eq_some_iff.mp hs
      obtain ⟨hnil, hoks⟩ := hfresh (by simpa using hnot)
      refine h.server halone hserver (fun f _ _ _ _ _ hf => by cases hf) (by simp [unlinked]) rfl rfl rfl
        fun hcount => ?_
      have hle := count_write_le s s.down [.ok]
      rw [hnil] at hle
      simp only [hnil] at hcount
      simp at hle
      omega
  | serve c => exact h.serve halone (fun _ _ => .inr rfl) hs
  | write_part n =>
    refine h.serve halone (fun before _ => .inl ?_) hs
    split
    · exact Sent.ok_not_mem_ofBytes _
    · exact List.not_mem_nil
  | others e =>
    simp only [Exchange.step] at hs
    split at hs
    · obtain ⟨server, hserver, rfl⟩ := Option.map_eq_some_iff.mp hs
      have hcareful : RenameSparedAt s.server e s.u ∧ unlinked trust_fs s.server e ≠ some s.u := by
        simpa [Careful, hv] using he
      exact h.server halone hserver hcareful.1 hcareful.2 rfl rfl rfl h.promised
    · cases hs
  | read_reply unlink_fails =>
    simp only [Exchange.step] at hs
    split at hs
    · rename_i reply down hdown
      obtain ⟨⟨client, file, out⟩, hread, rfl⟩ := Option.map_eq_some_iff.mp hs
      obtain ⟨hoks, hfile⟩ := read_reply_give hv hread
      have hcount : s.down.count .ok = down.count .ok + [reply].count .ok := by
        rw [hdown, ← List.singleton_append, List.count_append, Nat.add_comm]
      refine h.client rfl rfl ?_ (hfile.imp_right fun h2 => ?_)
      · dsimp only
        omega
      · omega
    · cases hs
  | send_blob n =>
    simp only [Exchange.step, hv] at hs
    split at hs
    · rename_i rest _ hclient
      split at hs
      · cases hs
        exact h.client rfl rfl (by simp [hclient, ClientPhase.oks]) (.inl rfl)
      · cases hs
    · cases hs
  | read_blob n =>
    simp only [Exchange.step, hv] at hs
    cases hs
  | send_ok =>
    simp only [Exchange.step, hv] at hs
    split at hs
    · rename_i hverb _
      cases hverb
    · cases hs
      exact h.client rfl rfl (by simp [ClientPhase.oks]) (.inl rfl)
    · cases hs
  | send_ok_fails arrived =>
    simp only [Exchange.step, hv] at hs
    cases hs
  | die =>
    simp only [Exchange.step, hv] at hs
    split at hs
    · cases hs
    · cases hs
      exact h.client rfl rfl (by simp [ClientPhase.oks]) (.inl rfl)
  | killed =>
    simp only [Exchange.step] at hs
    split at hs
    · cases hs
    · cases hs
      exact h.client rfl rfl (by simp [ClientPhase.oks]) (.inl rfl)
  | cut =>
    cases hs
    exact h.client rfl rfl (by simp) (.inl rfl)

end give

/-! ### The take -/

/-- The server has the blob until it has heard the client, and an ok that it may hear
says that the client has it. -/
structure TakeGuarded (s : Exchange L) : Prop where
  stored : (Stored L s.server.tree s.server.writable s.u ∧ ReadersWhole L s.u s.server) ∨ s.heard = true
  opened : s.client = .requested → s.file = some []
  early : s.client.oks < 2 → s.client ≠ .gone → s.heard = false ∧ .ok ∉ s.up
  complete : s.client = .complete ∨ s.client = .acked → s.Complete
  heard : s.heard = true → s.Complete
  inflight : .ok ∈ s.up → s.Complete ∨ s.accepted = true ∧ s.server.free s.pid = true
  cut : s.connected = false → s.up = []

section take
variable {T : TmpMap} {trust_fs : Bool} {s s' : Exchange L}

theorem write_nil (s : Exchange L) (stream : List Sent) : s.write stream [] = stream := by
  unfold write
  split
  · exact List.append_nil _
  · rfl

theorem write_cut {s : Exchange L} {stream : List Sent} (out : List Sent) (h : s.connected = false) :
    s.write stream out = stream :=
  if_neg (by simp [h])

theorem TakeGuarded.kept (h : TakeGuarded s) : s.Kept :=
  h.stored.elim (fun hs => .inr hs.1.1) fun hheard => .inl (h.heard hheard)

/-- The server is at work, and the client's file as it was. -/
theorem TakeGuarded.server (h : TakeGuarded s) {e : Event}
    (halone : Alone T .take s.u s.pid s.accepted s.server)
    (hstep : Blobio.step T trust_fs s.server e = some s'.server)
    (hsame : s'.u = s.u ∧ s'.client = s.client ∧ s'.file = s.file ∧ s'.connected = s.connected)
    (hup : (.ok ∈ s'.up → .ok ∈ s.up) ∧ (s.up = [] → s'.up = []))
      (hheard : s'.heard = s.heard ∨ s'.heard = true ∧ .ok ∈ s.up ∧ s.Complete)
    (htake : e = .call s.pid (.take_reply true) → s'.heard = true)
    (hfree : s.accepted = true → s.server.free s.pid = true → s'.accepted = true ∧
      s'.server.free s'.pid = true) :
    TakeGuarded s' := by
  obtain ⟨hu, hclient, hfile, hconnected⟩ := hsame
  have hcomplete : s'.Complete ↔ s.Complete := by
    rw [Complete, Complete, hu, hfile]
  refine ⟨?_, ?_, fun hoks hgone => ?_, ?_, fun ht => ?_, fun hok => ?_, fun hc => ?_⟩
  · rw [hu]
    rcases h.stored with ⟨hb, hreaders⟩ | ht
    · rcases step_keeps halone.consistent hstep hb with hkept | hunlink
      · exact .inl ⟨hkept, readersWhole_step hstep hreaders hb⟩
      · exact .inr (htake (halone.unlinks hreaders hstep hunlink).2)
    · exact .inr (hheard.elim (fun heq => heq.trans ht) And.left)
  · rw [hclient, hfile]
    exact h.opened
  · rw [hclient] at hoks hgone
    obtain ⟨ht, hok⟩ := h.early hoks hgone
    exact ⟨hheard.elim (fun heq => heq.trans ht) fun hnew => absurd hnew.2.1 hok, fun hmem => hok
      (hup.1 hmem)⟩
  · rw [hclient, hcomplete]
    exact h.complete
  · rw [hcomplete]
    exact hheard.elim (fun heq => h.heard (heq.symm.trans ht)) fun hnew => hnew.2.2
  · rw [hcomplete]
    exact (h.inflight (hup.1 hok)).imp_right fun hf => hfree hf.1 hf.2
  · rw [hconnected] at hc
    exact hup.2 (h.cut hc)

theorem not_free_of_call {server : Server L} {pid : ℕ} {job : Job} {before : Phase L} {c : Call} {p : Progress L}
    (hproc : server.procs pid = some (job, before)) {t : Store}
      (hcall : call L T trust_fs t pid job before c = some p) :
    server.free pid ≠ true := by
  intro hfree
  rw [free_iff.mp hfree job before hproc, call_done] at hcall
  cases hcall

/-- What a call reads it takes off the stream, an ok only as the reply to a take. -/
theorem read_ok {s : Exchange L} {c : Call} {up : List Sent} (h : s.read c = some up) :
    (.ok ∈ up → .ok ∈ s.up) ∧ (s.up = [] → up = []) ∧ (c = .take_reply true → .ok ∈ s.up) := by
  unfold read at h
  split at h
  · split at h
    · rename_i c' rest hup
      split at h
      · cases h
        refine ⟨fun hok => ?_, fun hnil => ?_, fun hc => by cases hc⟩
        · rw [hup]
          split at hok
          · exact List.mem_cons_of_mem _ hok
          · simpa using hok
        · cases hup.symm.trans hnil
      · cases h
    · cases h
  · split at h
    · rename_i rest hup
      rw [hup]
      exact ⟨fun _ => List.mem_cons_self, fun hnil => (List.cons_ne_nil _ _ hnil).elim,
        fun _ => List.mem_cons_self⟩
    · rename_i rest hup
      split at h
      · cases h
      · rename_i hno
        cases h
        rw [hup]
        refine ⟨List.mem_cons_of_mem _, fun hnil => (List.cons_ne_nil _ _ hnil).elim, fun hc => ?_⟩
        cases hc
        exact absurd rfl hno
    · cases h
  · rename_i hnot
    cases h
    exact ⟨id, id, fun hc => absurd hc (hnot true)⟩

theorem TakeGuarded.serve (h : TakeGuarded s) (halone : Alone T .take s.u s.pid s.accepted s.server)
    {c : Call} {out : Phase L → Phase L → List Sent} (hs : s.serve T trust_fs c out = some s') :
    TakeGuarded s' := by
  obtain ⟨job, before, p, up, server, hproc, hread, hcall, hstep, rfl⟩ := serve_ok hs
  have hbusy := not_free_of_call hproc hcall
  obtain ⟨hup, hnil, hok⟩ := read_ok hread
  refine h.server halone hstep ⟨rfl, rfl, rfl, rfl⟩ ⟨hup, hnil⟩ ?_ (fun he => ?_)
    (fun _ hfree => absurd hfree hbusy)
  · by_cases hc : c = .take_reply true
    · refine .inr ⟨by simp [hc], hok hc, ?_⟩
      exact (h.inflight (hok hc)).resolve_right fun hf => hbusy hf.2
    · exact .inl (by simp [hc])
  · cases he
    simp

/-- The client is at work, and has not sent its ok yet. -/
theorem TakeGuarded.client (h : TakeGuarded s) (hearly : s.heard = false ∧ .ok ∉ s'.up)
    (hserver : s'.server = s.server ∧ s'.u = s.u ∧ s'.heard = s.heard)
    (hopened : s'.client ≠ .requested) (hcut : s'.connected = false → s'.up = [])
    (hcomplete : s'.client = .complete ∨ s'.client = .acked → s'.Complete) : TakeGuarded s' := by
  obtain ⟨hserver, hu, hheard⟩ := hserver
  refine ⟨?_, fun hc => absurd hc hopened, fun _ _ => ⟨hheard.trans hearly.1, hearly.2⟩, hcomplete,
    fun ht => ?_,
    fun hok => absurd hok hearly.2, hcut⟩
  · rw [hserver, hu, hheard]
    exact h.stored
  · cases hearly.1.symm.trans (hheard.symm.trans ht)

/-- A reply moves the client on, and nothing else. -/
theorem read_reply_take (hv : s.verb = .take) {unlink_fails : Bool} {reply : Sent} {client : ClientPhase}
    {file : Option Bytes} {out : List Sent} (h : s.read_reply unlink_fails reply = some (client, file,
      out)) :
    file = s.file ∧ out = [] ∧ (client = .gone ∨ s.client = .requested ∧
      (client = .reading ∨ client = .complete ∧ s.u.digest.chars = s.u.algorithm.empty_ascii)) := by
  cases reply with
  | bytes chunk => cases h
  | no =>
    simp only [read_reply, hv] at h
    split at h
    all_goals cases h
    all_goals exact ⟨rfl, rfl, .inl rfl⟩
  | ok =>
    simp only [read_reply, hv] at h
    split at h
    · rename_i hverb _
      cases hverb
    · rename_i hclient
      cases h
      refine ⟨rfl, rfl, .inr ⟨hclient, ?_⟩⟩
      split
      · rename_i hempty
        exact .inr ⟨rfl, hempty⟩
      · exact .inl rfl
    · rename_i hverb _
      cases hverb
    · cases h
      exact ⟨rfl, rfl, .inl rfl⟩
    · cases h

/-- A client that leaves with its file leaves everything as it was. -/
theorem TakeGuarded.leave (h : TakeGuarded s) (down : List Sent) :
    TakeGuarded { s with client := .gone, down := down } where
  stored := h.stored
  opened hc := by cases hc
  early _ hgone := absurd rfl hgone
  complete hc := by rcases hc with hc | hc <;> cases hc
  heard := h.heard
  inflight := h.inflight
  cut := h.cut

/-- A client that gives up unlinks its file, which no ok promises. -/
theorem TakeGuarded.unlink (h : TakeGuarded s) (hheard : s.heard = false)
    (hok : .ok ∈ s.up → s.accepted = true ∧ s.server.free s.pid = true) :
    TakeGuarded { s with client := .gone, file := none } where
  stored := h.stored
  opened hc := by cases hc
  early _ hgone := absurd rfl hgone
  complete hc := by rcases hc with hc | hc <;> cases hc
  heard ht := by cases hheard.symm.trans ht
  inflight hmem := .inr (hok hmem)
  cut := h.cut

theorem TakeGuarded.accept (h : TakeGuarded s)
    (halone : Alone T .take s.u s.pid s.accepted s.server) (hs : s.step T trust_fs .accept = some s') :
    TakeGuarded s' := by
  simp only [Exchange.step] at hs
  split at hs
  · cases hs
  · rename_i hnot
    obtain ⟨server, hserver, rfl⟩ := Option.map_eq_some_iff.mp hs
    exact h.server halone hserver ⟨rfl, rfl, rfl, rfl⟩ ⟨id, id⟩ (.inl rfl) (fun hf => by cases hf)
      fun ht => absurd ht hnot

theorem TakeGuarded.others (h : TakeGuarded s) (halone : Alone T .take s.u s.pid s.accepted s.server) {e : Event}
    (hs : s.step T trust_fs (.others e) = some s') : TakeGuarded s' := by
  simp only [Exchange.step] at hs
  split at hs
  · rename_i helse
    obtain ⟨server, hserver, rfl⟩ := Option.map_eq_some_iff.mp hs
    refine h.server halone hserver ⟨rfl, rfl, rfl, rfl⟩ ⟨id, id⟩ (.inl rfl)
      (fun hf => ?_) fun ht hfree => ?_
    · rw [hf] at helse
      exact absurd rfl helse
    · refine ⟨ht, free_step hserver hfree fun job hf => ?_⟩
      rw [hf] at helse
      exact helse.1 rfl
  · cases hs

theorem TakeGuarded.read (h : TakeGuarded s) (hv : s.verb = .take) {unlink_fails : Bool}
    (hs : s.step T trust_fs (.read_reply unlink_fails) = some s') : TakeGuarded s' := by
  simp only [Exchange.step] at hs
  split at hs
  · rename_i reply down hdown
    obtain ⟨⟨client, file, out⟩, hread, rfl⟩ := Option.map_eq_some_iff.mp hs
    obtain ⟨rfl, rfl, rfl | ⟨hclient, hnext⟩⟩ := read_reply_take hv hread
    · simp only [write_nil]
      exact h.leave down
    · have hearly := h.early (by simp [hclient, ClientPhase.oks]) (by simp [hclient])
      simp only [write_nil]
      refine h.client hearly ⟨rfl, rfl, rfl⟩ ?_ h.cut fun hc => ?_
      · rcases hnext with rfl | ⟨rfl, -⟩ <;> simp
      · rcases hnext with rfl | ⟨rfl, hempty⟩
        · rcases hc with hc | hc <;> cases hc
        · refine ⟨[], h.opened hclient, ?_⟩
          rw [DigestLibrary.digest_nil]
          exact (Digest.ext hempty).symm
  · cases hs

theorem TakeGuarded.collect (h : TakeGuarded s) (hv : s.verb = .take) {n : ℕ}
    (hs : s.step T trust_fs (.read_blob n) = some s') : TakeGuarded s' := by
  simp only [Exchange.step, hv] at hs
  split at hs
  · rename_i c down _ hclient hdown
    split at hs
    · cases hs
      have hearly := h.early (by simp [hclient, ClientPhase.oks]) (by simp [hclient])
      refine h.client hearly ⟨rfl, rfl, rfl⟩ ?_ h.cut fun hc => ?_
      · split <;> simp
      · split at hc
        · rename_i hmatch
          exact ⟨_, rfl, DigestLibrary.digest_eq_iff.mpr hmatch⟩
        · rcases hc with hc | hc <;> cases hc
    · cases hs
  · cases hs

theorem TakeGuarded.agree (h : TakeGuarded s) (hv : s.verb = .take)
    (hs : s.step T trust_fs .send_ok = some s') : TakeGuarded s' := by
  simp only [Exchange.step] at hs
  split at hs
  · rename_i hclient
    cases hs
    have hcomplete : s.Complete := h.complete (.inl hclient)
    refine ⟨h.stored, fun hc => (by cases hc), fun hoks _ => ?_, fun _ => hcomplete, h.heard,
      fun _ => .inl hcomplete,
      fun hc => ?_⟩
    · simp [ClientPhase.oks] at hoks
    · exact (write_cut [.ok] hc).trans (h.cut hc)
  · rename_i hverb _
    cases hv.symm.trans hverb
  · cases hs

/-- A client that gives up before its ok, or careful behind it, promises nothing. -/
theorem TakeGuarded.die (h : TakeGuarded s) (hv : s.verb = .take)
    (hfresh : s.accepted = false → s.down = [] ∧ s.client.oks = 0) (he : s.client = .acked → s.Unheard)
    (hs : s.step T trust_fs .die = some s') : TakeGuarded s' := by
  simp only [Exchange.step] at hs
  split at hs
  · cases hs
  · rename_i hgone
    cases hs
    by_cases hacked : s.client = .acked
    · obtain ⟨hheard, hcut | hfree⟩ := he hacked
      · exact h.unlink hheard fun hmem => absurd hmem (by simp [h.cut hcut])
      · refine h.unlink hheard fun _ => ⟨?_, hfree⟩
        by_contra hnot
        have hoks := (hfresh (by simpa using hnot)).2
        simp [hacked, ClientPhase.oks] at hoks
    · have hoks : s.client.oks < 2 := by
        cases hc : s.client <;> simp_all [ClientPhase.oks]
      obtain ⟨hheard, hok⟩ := h.early hoks hgone
      exact h.unlink hheard fun hmem => absurd hmem hok

theorem TakeGuarded.step (h : TakeGuarded s) (hv : s.verb = .take)
    (halone : Alone T .take s.u s.pid s.accepted s.server)
    (hfresh : s.accepted = false → s.down = [] ∧ s.client.oks = 0) {e : ExchangeEvent} (he : s.Careful trust_fs e)
    (hs : s.step T trust_fs e = some s') : TakeGuarded s' := by
  cases e with
  | accept => exact h.accept halone hs
  | serve c => exact h.serve halone hs
  | write_part n => exact h.serve halone hs
  | others e => exact h.others halone hs
  | read_reply unlink_fails => exact h.read hv hs
  | send_blob n =>
    simp only [Exchange.step, hv] at hs
    cases hs
  | read_blob n => exact h.collect hv hs
  | send_ok => exact h.agree hv hs
  | send_ok_fails arrived =>
    simp only [Exchange.step] at hs
    split at hs
    · rename_i hclient
      cases hs
      have harrived : arrived = false := by simpa [Careful, hv] using he
      obtain ⟨hheard, hok⟩ := h.early (by simp [hclient, ClientPhase.oks]) (by simp [hclient])
      subst harrived
      exact h.unlink hheard fun hmem => absurd hmem hok
    · cases hs
  | die =>
    simp only [Careful, hv] at he
    exact h.die hv hfresh he hs
  | killed =>
    simp only [Exchange.step] at hs
    split at hs
    · cases hs
    · cases hs
      exact h.leave s.down
  | cut =>
    cases hs
    exact ⟨h.stored, h.opened, fun hoks hgone => ⟨(h.early hoks hgone).1, List.not_mem_nil⟩, h.complete,
      h.heard,
      fun hok => absurd hok List.not_mem_nil, fun _ => rfl⟩

end take

/-! ### The whole exchange -/

structure Guarded (T : TmpMap) (s : Exchange L) : Prop where
  alone : Alone T s.verb s.u s.pid s.accepted s.server
  fresh : s.accepted = false → s.down = [] ∧ s.client.oks = 0
  give : s.verb = .give → GiveGuarded s
  take : s.verb = .take → TakeGuarded s

section runs
variable {T : TmpMap} {trust_fs : Bool} {s s' : Exchange L} {e : ExchangeEvent}

/-- What a step does to the server and to the reading of the client. -/
inductive SideStep (T : TmpMap) (trust_fs : Bool) (s s' : Exchange L) : Prop
  | accepted (hserver : Blobio.step T trust_fs s.server (.fork s.pid (s.verb.job s.u)) = some s'.server)
      (haccepted : s'.accepted = true)
  | served (c : Call) (hserver : Blobio.step T trust_fs s.server (.call s.pid c) = some s'.server)
      (haccepted : s'.accepted = s.accepted)
  | elsewhere (e : Event) (helse : e.Elsewhere s.pid s.u)
      (hserver : Blobio.step T trust_fs s.server e = some s'.server) (haccepted : s'.accepted = s.accepted)
      (hdown : s'.down = s.down) (hclient : s'.client = s.client)
  | client (hserver : s'.server = s.server) (haccepted : s'.accepted = s.accepted)
      (hquiet : s.down = [] → s.client.oks = 0 → s'.down = [] ∧ s'.client.oks = 0)

/-- The blob and the two sides stay, and one of these is at work. -/
theorem step_side (hs : s.step T trust_fs e = some s') :
    (s'.verb = s.verb ∧ s'.u = s.u ∧ s'.pid = s.pid) ∧ SideStep T trust_fs s s' := by
  have hserve : ∀ c out, s.serve T trust_fs c out = some s' →
      (s'.verb = s.verb ∧ s'.u = s.u ∧ s'.pid = s.pid) ∧ SideStep T trust_fs s s' := by
    intro c out h
    obtain ⟨job, before, p, up, server, -, -, -, hstep, rfl⟩ := serve_ok h
    exact ⟨⟨rfl, rfl, rfl⟩, .served c hstep rfl⟩
  cases e with
  | accept =>
    simp only [Exchange.step] at hs
    split at hs
    · cases hs
    · obtain ⟨server, hserver, rfl⟩ := Option.map_eq_some_iff.mp hs
      exact ⟨⟨rfl, rfl, rfl⟩, .accepted hserver rfl⟩
  | serve c => exact hserve _ _ hs
  | write_part n => exact hserve _ _ hs
  | others e =>
    simp only [Exchange.step] at hs
    split at hs
    · rename_i helse
      obtain ⟨server, hserver, rfl⟩ := Option.map_eq_some_iff.mp hs
      exact ⟨⟨rfl, rfl, rfl⟩, .elsewhere e helse hserver rfl rfl rfl⟩
    · cases hs
  | read_reply unlink_fails =>
    simp only [Exchange.step] at hs
    split at hs
    · rename_i reply down hdown
      obtain ⟨⟨client, file, out⟩, -, rfl⟩ := Option.map_eq_some_iff.mp hs
      exact ⟨⟨rfl, rfl, rfl⟩, .client rfl rfl fun hnil => by cases hdown.symm.trans hnil⟩
    · cases hs
  | send_blob n =>
    simp only [Exchange.step] at hs
    split at hs
    · rename_i rest _ hclient
      split at hs
      · cases hs
        exact ⟨⟨rfl, rfl, rfl⟩, .client rfl rfl fun _ hoks => by simp [hclient, ClientPhase.oks] at hoks⟩
      · cases hs
    · cases hs
  | read_blob n =>
    simp only [Exchange.step] at hs
    split at hs
    · rename_i c down _ hclient hdown
      split at hs
      · cases hs
        exact ⟨⟨rfl, rfl, rfl⟩, .client rfl rfl fun hnil => by cases hdown.symm.trans hnil⟩
      · cases hs
    · cases hs
  | send_ok =>
    simp only [Exchange.step] at hs
    split at hs
    · rename_i _ hclient
      cases hs
      exact ⟨⟨rfl, rfl, rfl⟩, .client rfl rfl fun _ hoks => by simp [hclient, ClientPhase.oks] at hoks⟩
    · cases hs
      exact ⟨⟨rfl, rfl, rfl⟩, .client rfl rfl fun hnil _ => ⟨hnil, rfl⟩⟩
    · cases hs
  | send_ok_fails arrived =>
    simp only [Exchange.step] at hs
    split at hs
    · cases hs
      exact ⟨⟨rfl, rfl, rfl⟩, .client rfl rfl fun hnil _ => ⟨hnil, rfl⟩⟩
    · cases hs
  | die =>
    simp only [Exchange.step] at hs
    split at hs
    · cases hs
    · cases hs
      exact ⟨⟨rfl, rfl, rfl⟩, .client rfl rfl fun hnil _ => ⟨hnil, rfl⟩⟩
  | killed =>
    simp only [Exchange.step] at hs
    split at hs
    · cases hs
    · cases hs
      exact ⟨⟨rfl, rfl, rfl⟩, .client rfl rfl fun hnil _ => ⟨hnil, rfl⟩⟩
  | cut =>
    cases hs
    exact ⟨⟨rfl, rfl, rfl⟩, .client rfl rfl fun _ hoks => ⟨rfl, hoks⟩⟩

theorem alone_step (h : Alone T s.verb s.u s.pid s.accepted s.server) (hside : SideStep T trust_fs s s') :
    Alone T s.verb s.u s.pid s'.accepted s'.server := by
  cases hside with
  | accepted hserver haccepted =>
    refine h.step hserver (fun _ => haccepted) fun p job he => ?_
    cases he
    exact .inr ⟨rfl, rfl, haccepted⟩
  | served c hserver haccepted =>
    rw [haccepted]
    exact h.step hserver id fun p job he => by cases he
  | elsewhere e helse hserver haccepted =>
    rw [haccepted]
    refine h.step hserver id fun p job he => .inl ?_
    rw [he] at helse
    exact helse
  | client hserver haccepted =>
    rw [haccepted, hserver]
    exact h

/-- Before the server has taken the request nothing has come back to the client. -/
theorem fresh_step (h : s.accepted = false → s.down = [] ∧ s.client.oks = 0)
    (halone : Alone T s.verb s.u s.pid s.accepted s.server) (hside : SideStep T trust_fs s s') :
    s'.accepted = false → s'.down = [] ∧ s'.client.oks = 0 := by
  intro hnot
  cases hside with
  | accepted hserver haccepted => cases haccepted.symm.trans hnot
  | served c hserver haccepted =>
    obtain ⟨job, before, p, hproc, -⟩ := step_call hserver
    cases (halone.own job before hproc).1.symm.trans (haccepted.symm.trans hnot)
  | elsewhere e helse hserver haccepted hdown hclient =>
    rw [hdown, hclient]
    exact h (haccepted.symm.trans hnot)
  | client hserver haccepted hquiet =>
    obtain ⟨hnil, hoks⟩ := h (haccepted.symm.trans hnot)
    exact hquiet hnil hoks

theorem guarded_step (h : Guarded T s) (he : s.Careful trust_fs e)
    (hs : s.step T trust_fs e = some s') : Guarded T s' := by
  obtain ⟨⟨hverb, hu, hpid⟩, hside⟩ := step_side hs
  refine ⟨?_, fresh_step h.fresh h.alone hside, fun hv => ?_, fun hv => ?_⟩
  · rw [hverb, hu, hpid]
    exact alone_step h.alone hside
  · rw [hverb] at hv
    exact (h.give hv).step hv (hv ▸ h.alone) h.fresh he hs
  · rw [hverb] at hv
    exact (h.take hv).step hv (hv ▸ h.alone) h.fresh he hs

theorem Guarded.kept (h : Guarded T s) : s.Kept := by
  cases hv : s.verb with
  | give => exact (h.give hv).kept.imp_right And.left
  | take => exact (h.take hv).kept

theorem guarded_opened {verb : HandOver} {u : Udig} {t : Store} {input : Bytes} (ht : Sound L t)
    (hoffered : Offered L verb u t input) (pid : ℕ) : Guarded T (opened L verb u pid t input) where
  alone := ⟨consistent_booted ht, fun _ _ hproc => (by cases hproc), fun _ _ hproc => (by cases hproc)⟩
  fresh _ := ⟨rfl, rfl⟩
  give hv := by
    obtain rfl : verb = .give := hv
    refine ⟨?_, fun h2 => ?_, .inl ⟨input, rfl, hoffered⟩⟩
    · rintro ⟨p, _, _, _, hproc, -⟩
      cases hproc
    · simp [opened, ClientPhase.oks] at h2
  take hv := by
    obtain rfl : verb = .take := hv
    refine ⟨.inl ⟨⟨hoffered, List.not_mem_nil⟩, fun _ _ _ hproc => (by cases hproc)⟩, fun _ => rfl,
      fun _ _ => ⟨rfl, List.not_mem_nil⟩, fun hc => ?_, fun ht => (by cases ht),
      fun hok => absurd hok List.not_mem_nil, fun hc => (by cases hc)⟩
    rcases hc with hc | hc <;> cases hc

end runs

/-- A give whose blob goes in two pieces, with the turns of the arborist. -/
def give_abc (turns : List Faults) : List ExchangeEvent :=
  [.accept, .read_reply false, .send_blob 2, .send_blob 1, .serve (.put_open 1700000000),
    .serve (.blob_read (octets "ab".toList)), .serve (.blob_read (octets "c".toList)), .serve .arbor_rename] ++
    turns.map (fun f => .others (.arborist f)) ++
    [.serve .cleanup, .serve .write_ok, .read_reply false, .send_ok]

theorem abc_offered : Offered known_digests .give abc_udig fresh_store (octets "abc".toList) := rfl

theorem careful_of_quiet {s : Exchange L} {e : ExchangeEvent} (hverb : s.verb = .give)
    (hquiet : s.server.unfailing ∧ ∀ e', e = .others e' → unlinked false s.server e' = none) :
    s.Careful false e := by
  unfold Careful
  rw [hverb]
  cases e with
  | others e' => exact ⟨hquiet.1.spared e' s.u, by simp [hquiet.2 e' rfl]⟩
  | _ => trivial

/-- The arborist is the only other process that is at work. -/
def foreign : ExchangeEvent → Bool
  | .others (.arborist _) => false
  | .others _ => true
  | _ => false

theorem unlinked_of_not_foreign {server : Server L} {e : ExchangeEvent} {e' : Event} (h : foreign e = false)
    (he : e = .others e') : unlinked false server e' = none := by
  subst he
  cases e' <;> simp [foreign] at h
  rfl

/-- The store after a put of the blob. -/
def abc_store : Store :=
  ((exec (Blobio.step default_tmp false) (Server.booted fresh_store : Server known_digests)
    (put_abc 7 quiet_turns)).map (·.tree)).getD fresh_store

/-- A take that loses its connection behind the client's ok. -/
def take_abc_cut : List ExchangeEvent :=
  [.accept, .serve .is_wrap, .serve .blob_open, .read_reply false, .serve (.blob_bytes []), .read_blob 1,
    .read_blob 2, .send_ok, .serve (.take_reply true), .cut, .die]

theorem abc_store_sound : Sound known_digests abc_store := by
  unfold abc_store
  cases hrun : exec (Blobio.step default_tmp false) (Server.booted fresh_store : Server known_digests)
      (put_abc 7 quiet_turns) with
  | none => exact fresh_store_sound
  | some s =>
    refine sound_of_one_device fresh_store_sound (fun e he f hf => ?_) hrun
    subst hf
    simp [put_abc, quiet_turns] at he
    simp [he]

def AlwaysKept (verb : HandOver) : Prop :=
  ∀ (L : DigestLibrary) (T : TmpMap) (u : Udig) (t : Store) (input : Bytes), Sound L t →
    Offered L verb u t input →
    ∀ es s, exec (Exchange.step T false) (opened L verb u 7 t input) es = some s → s.Kept

end Exchange

end Blobio
