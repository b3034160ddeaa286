import Blobio.BrrLogger
import Blobio.BrrRecords
import Blobio.MarkedCuts

/-! Wraps among other requests. A wrap has the logger freeze the active log while it runs,
and sends its own record to the logger when it ends. -/
namespace Blobio
open EventRuns FileTrees MarkedCuts

def RequestChild.Recorded.payload (x : RequestChild.Recorded) : Bytes :=
  x.message.map Char.toUInt8

/-- The record of a wrap that was answered with ok. -/
def ok_wrap (payload : Bytes) : Bool :=
  let fields := (payload.map fun b => Char.ofNat b.toNat).splitOn '\t'
  fields[2]? = some "wrap".toList ∧ fields[4]? = some "ok".toList

/-- `brr_logger` takes each message of this length for the fifo path of a wrap. -/
def asks_freeze (payload : Bytes) : Bool :=
  payload.length = 25

/-- Where the process of a wrap is. The name of its frozen log is known by its parts. -/
inductive WrapPhase
  | started
  | asked
  | frozen (time : ℕ) (seq : UInt16)
  | digested (time : ℕ) (seq : UInt16) (u : Udig)
  | spooled
  deriving DecidableEq

structure Requester where
  pid : ℕ
  verb : Verb
  algorithm : DigestModule
  phase : WrapPhase := .started

structure WrapServer where
  logger : Logger
  /-- The messages that the logger has yet to read. -/
  pipe : List Bytes := []
  requesters : List Requester := []
  /-- The logger waits in the open of a fifo that no process reads. -/
  stuck : Bool := false
  /-- Where the log is that is frozen first, as long as there is that log. -/
  first : Option Path := some log_path

inductive WrapEvent
  | fork (pid : ℕ) (verb : Verb) (m : DigestModule)
  | ask (pid : ℕ)
  | brr_logger
  | digest (pid : ℕ)
  | spool (pid : ℕ)
  | brr_send (pid : ℕ) (x : RequestChild.Recorded)
  | leave (pid : ℕ)
  | roll (pid : ℕ) (u : Udig)
  | restart (time : ℕ)

/-- A log goes from one path to another, over the log that was there. -/
def follow (first : Option Path) (src tgt : Path) : Option Path :=
  if first = some src then some tgt else if first = some tgt then none else first

/-- A wrap renames its frozen log to `spool/wrap/<udig>.brr`. -/
def Logger.spool_log (s : Logger) (time : ℕ) (seq : UInt16) (u : Udig) : Option Logger :=
  let name := log_wrap_name time seq
  (s.tree.rename (frozen_path name) (wrap_path u)).toOption.map fun t =>
    { s with tree := t, frozen := s.frozen.map (FrozenLog.take_out s.tree name) }

/-- A roll unlinks a wrapped log, if there is one. -/
def Logger.roll (s : Logger) (u : Udig) : Logger :=
  { s with tree := (s.tree.unlink (wrap_path u)).toOption.getD s.tree }

namespace WrapServer

def requester? (s : WrapServer) (pid : ℕ) : Option Requester :=
  s.requesters.find? (·.pid = pid)

def set (s : WrapServer) (pid : ℕ) (phase : WrapPhase) : WrapServer :=
  { s with requesters := s.requesters.map fun p => if p.pid = pid then { p with phase := phase } else p }

def leave (s : WrapServer) (pid : ℕ) : WrapServer :=
  { s with requesters := s.requesters.filter (·.pid ≠ pid) }

/-- The logger writes the path of the frozen log to the fifo of the request. -/
def answer (s : WrapServer) (payload : Bytes) : WrapServer :=
  match s.requesters.find? fun p => p.phase = .asked ∧ wrap_request p.pid = payload with
  | some p => s.set p.pid (.frozen s.logger.time s.logger.seq)
  | none => { s with stuck := true }

/-- One turn of the logger, with the answer to a wrap. -/
def turn (s : WrapServer) (payload : Bytes) (rest : List Bytes) : Option WrapServer :=
  (brr_logger s.logger payload).map fun logger =>
    let s' := { s with logger := logger, pipe := rest }
    if asks_freeze payload then
      { s'.answer payload with
        first := follow s.first log_path (frozen_path (log_wrap_name logger.time logger.seq)) }
    else s'

/-- The first start of a server on a new blobio root. -/
def started (time : ℕ) : WrapServer where
  logger := Logger.started time

/-- One step. A process that fails leaves without a record, and so does one whose verb is
not in the mask; whatever stands in the pipe is gone at a restart. -/
def step (L : DigestLibrary) (s : WrapServer) : WrapEvent → Option WrapServer
  | .fork pid verb m =>
    if (s.requester? pid).isSome then none
    else some { s with requesters := { pid := pid, verb := verb, algorithm := m } :: s.requesters }
  | .ask pid =>
    match s.requester? pid with
    | some ⟨_, .wrap, _, .started⟩ => some { s.set pid .asked with pipe := s.pipe ++ [wrap_request pid] }
    | _ => none
  | .brr_logger =>
    match s.stuck, s.pipe with
    | false, payload :: rest => s.turn payload rest
    | _, _ => none
  | .digest pid =>
    match s.requester? pid with
    | some ⟨_, _, m, .frozen time seq⟩ =>
      match s.logger.tree.file? (frozen_path (log_wrap_name time seq)) with
      | some records => some (s.set pid (.digested time seq ⟨m, L.digest m records.flatten⟩))
      | none => some (s.leave pid)
    | _ => none
  | .spool pid =>
    match s.requester? pid with
    | some ⟨_, _, _, .digested time seq u⟩ =>
      match s.logger.spool_log time seq u with
      | some logger => some { s.set pid .spooled with
          logger := logger
          first := follow s.first (frozen_path (log_wrap_name time seq)) (wrap_path u) }
      | none => some (s.leave pid)
    | _ => none
  | .brr_send pid x =>
    match s.requester? pid with
    | some p =>
      if x.data.requested.verb = p.verb ∧ (p.verb = .wrap → p.phase = .spooled) then
        some { s.leave pid with pipe := s.pipe ++ [x.payload] }
      else none
    | none => none
  | .leave pid => if (s.requester? pid).isSome then some (s.leave pid) else none
  | .roll pid u =>
    match s.requester? pid with
    | some ⟨_, .roll, _, _⟩ => some { s with
        logger := s.logger.roll u
        first := if s.first = some (wrap_path u) then none else s.first }
    | _ => none
  | .restart time => (s.logger.step (.restart time)).map fun logger =>
      { logger := logger, first := s.first }

end WrapServer

/-- What a process writes to the logger. -/
def WrapEvent.message? : WrapEvent → Option Bytes
  | .ask pid => some (wrap_request pid)
  | .brr_send _ x => some x.payload
  | _ => none

/-- The active log may be frozen as the first one, or since it has the record of a wrap. -/
def WrapServer.may_freeze (s : WrapServer) : Bool :=
  s.first = some log_path ∨ s.logger.active.any ok_wrap

/-- A wrap asks for its freeze only after the ok record of a wrap has been sent since the
last freeze was asked for, or as the first one that asks. -/
def AsksInTurn (s : WrapServer) (e : WrapEvent) : Prop :=
  ∀ payload ∈ e.message?, asks_freeze payload = true →
    may_cut asks_freeze ok_wrap s.may_freeze s.pipe = true

instance (s : WrapServer) (e : WrapEvent) : Decidable (AsksInTurn s e) :=
  inferInstanceAs (Decidable (∀ payload ∈ e.message?, _))

/-! ### The records of requests -/

section records
open RequestChild Recorded

theorem chars_of_bytes {t : Text} (h : ∀ c ∈ t, c.toNat < 256) :
    (t.map Char.toUInt8).map (fun b => Char.ofNat b.toNat) = t := by
  rw [List.map_map]
  refine (List.map_congr_left fun c hc => ?_).trans (List.map_id t)
  have hbyte : c.toUInt8.toNat = c.toNat := Nat.mod_eq_of_lt (h c hc)
  rw [Function.comp_apply, hbyte, Char.ofNat_toNat]
  rfl

theorem splitOn_line {b : BrrFields} (htab : '\t' ∉ b.start_time ∧ '\t' ∉ b.tag ∧ '\t' ∉ b.detail ∧
    '\t' ∉ b.verb.text ∧ '\t' ∉ b.udig ∧ '\t' ∉ b.chat_history ∧ '\t' ∉ b.byte_count ∧ '\t' ∉ b.sec ∧
    '\t' ∉ b.nsec) : (b.line ++ ['\n']).splitOn '\t' =
    [b.start_time, b.tag ++ '~' :: b.detail, b.verb.text, b.udig, b.chat_history, b.byte_count,
      b.sec ++ '.' :: (b.nsec ++ ['\n'])] := by
  obtain ⟨htime, htag, hdet, hverb, hudig, hchat, hbytes, hsec, hnsec⟩ := htab
  have htransport : '\t' ∉ b.tag ++ '~' :: b.detail := by
    simp [htag, hdet]
  have hduration : '\t' ∉ b.sec ++ '.' :: (b.nsec ++ ['\n']) := by
    simp [hsec, hnsec]
  have hline : b.line ++ ['\n'] = b.start_time ++ '\t' :: ((b.tag ++ '~' :: b.detail) ++ '\t' ::
      (b.verb.text ++ '\t' :: (b.udig ++ '\t' :: (b.chat_history ++ '\t' :: (b.byte_count ++ '\t' ::
        (b.sec ++ '.' :: (b.nsec ++ ['\n']))))))) := by
    simp [BrrFields.line]
  rw [hline, List.splitOn_append_cons_self_of_not_mem htime,
    List.splitOn_append_cons_self_of_not_mem htransport,
    List.splitOn_append_cons_self_of_not_mem hverb, List.splitOn_append_cons_self_of_not_mem hudig,
    List.splitOn_append_cons_self_of_not_mem hchat, List.splitOn_append_cons_self_of_not_mem hbytes,
    List.splitOn_eq_singleton hduration]

/-- Of the records that requests leave these are the ones of wraps with an ok. -/
theorem ok_wrap_payload {x : Recorded} (h : x.Regular) :
    ok_wrap x.payload = true ↔ x.data.requested.verb = .wrap ∧ x.data.chat_history = "ok".toList := by
  have hm := fields_matches h
  have hlatin : ∀ c ∈ x.fields.line ++ ['\n'], c.toNat < 256 := by
    intro c hc
    rcases List.mem_append.mp hc with hc | hc
    · exact hm.latin c hc
    · rw [List.mem_singleton.mp hc]
      decide
  rw [ok_wrap, payload, message_eq h, chars_of_bytes hlatin,
    splitOn_line (hm.not_mem List.mem_cons_self), decide_eq_true_eq,
    ← text_eq_wrap]
  simp [fields]

/-- No record is taken for the request of a freeze. -/
theorem asks_freeze_payload {x : Recorded} (h : x.Regular) : asks_freeze x.payload = false := by
  have hm := fields_matches h
  obtain ⟨date, fraction, zone, ht, hd, hf, hz⟩ := hm.start_time.parts
  have hdate : date.length = 20 := hd.length_eq.symm
  have hzone : zone.length = 6 := hz.length_eq.symm
  have htime : x.fields.start_time.length = date.length + fraction.length + zone.length := by
    rw [ht, List.length_append, List.length_append]
  have hlen : x.payload.length = (x.fields.line ++ ['\n']).length := by
    rw [payload, message_eq h, List.length_map]
  rw [asks_freeze, decide_eq_false_iff_not, hlen]
  simp only [BrrFields.line, List.length_append]
  omega

end records

/-! ### The logs of the spool -/

/-- Each log but the active one and the first has the record of a wrap. -/
def LogsMarked (t : Spool) (first : Option Path) : Prop :=
  ∀ p records, t.file? p = some records → p ≠ log_path → first ≠ some p → records.any ok_wrap = true

theorem follow_ne {first : Option Path} {src tgt p : Path} (h : follow first src tgt ≠ some p)
    (hsrc : p ≠ src) (htgt : p ≠ tgt) : first ≠ some p := by
  intro hp
  have hne : ∀ q, p ≠ q → first ≠ some q := fun q hq hfirst => hq (Option.some.inj (hp.symm.trans hfirst))
  rw [follow, if_neg (hne src hsrc), if_neg (hne tgt htgt)] at h
  exact h hp

theorem follow_tgt {first : Option Path} {src tgt : Path} (h : follow first src tgt ≠ some tgt) :
    first ≠ some src := by
  intro hsrc
  rw [follow, if_pos hsrc] at h
  exact h rfl

theorem follow_ne_src {first : Option Path} {src tgt : Path} (h : src ≠ tgt) :
    follow first src tgt ≠ some src := by
  intro hsrc
  unfold follow at hsrc
  split at hsrc
  · exact h (Option.some.inj hsrc).symm
  · rename_i hne
    split at hsrc
    · cases hsrc
    · exact hne hsrc

section spools
variable {t t' : Spool} {first : Option Path}

theorem LogsMarked.congr (h : LogsMarked t first) (hst : ∀ q ≠ log_path, t'.lstat q = t.lstat q) :
    LogsMarked t' first := by
  intro p records hp hlog hfirst
  exact h p records ((FileTree.file?_congr (hst p hlog)).symm.trans hp) hlog hfirst

/-- A rename carries a marked log, or the first one, to its target. -/
theorem LogsMarked.rename {src tgt : Path} {records : List Bytes} (h : LogsMarked t first)
    (hst : ∀ q ≠ log_path, t'.lstat q =
      if q = tgt then some (.file records) else if q = src then none else t.lstat q)
    (hrecords : first ≠ some src → records.any ok_wrap = true) :
    LogsMarked t' (follow first src tgt) := by
  intro p records' hp hlog hfirst
  rw [FileTree.file?_eq_some, hst p hlog] at hp
  split at hp
  · rename_i htgt
    subst htgt
    cases hp
    exact hrecords (follow_tgt hfirst)
  · rename_i htgt
    split at hp
    · cases hp
    · rename_i hsrc
      exact h p records' (FileTree.file?_eq_some.mpr hp) hlog (follow_ne hfirst hsrc htgt)

theorem LogsMarked.unlink {tgt : Path} (h : LogsMarked t first)
    (hst : ∀ q, t'.file? q = if q = tgt then none else t.file? q) :
    LogsMarked t' (if first = some tgt then none else first) := by
  intro p records hp hlog hfirst
  rw [hst] at hp
  split at hp
  · cases hp
  · rename_i htgt
    refine h p records hp hlog ?_
    rintro rfl
    rw [if_neg fun heq => htgt (Option.some.inj heq)] at hfirst
    exact hfirst rfl

end spools

theorem wrap_path_ne_log_path (u : Udig) : wrap_path u ≠ log_path := by
  intro h
  simpa [log_path] using congrArg List.length h

/-! ### What one step does -/

/-- What a step does to the logger, to its pipe and to the first log. -/
inductive SpoolChange (s : WrapServer) (e : WrapEvent) (s' : WrapServer) : Prop
  | sent (logger : s'.logger = s.logger) (pipe : s'.pipe = s.pipe ++ e.message?.toList)
      (first : s'.first = s.first)
  | logged (payload : Bytes) (taken : s.pipe = payload :: s'.pipe)
      (logger : brr_logger s.logger payload = some s'.logger)
      (first : s'.first = if asks_freeze payload then
        follow s.first log_path (frozen_path (log_wrap_name s'.logger.time s'.logger.seq)) else s.first)
  | spooled (time : ℕ) (seq : UInt16) (u : Udig) (logger : s.logger.spool_log time seq u = some s'.logger)
      (pipe : s'.pipe = s.pipe)
      (first : s'.first = follow s.first (frozen_path (log_wrap_name time seq)) (wrap_path u))
  | rolled (u : Udig) (logger : s'.logger = s.logger.roll u) (pipe : s'.pipe = s.pipe)
      (first : s'.first = if s.first = some (wrap_path u) then none else s.first)
  | restarted (time : ℕ) (logger : s.logger.step (.restart time) = some s'.logger) (pipe : s'.pipe = [])
      (first : s'.first = s.first)

namespace WrapServer
variable {L : DigestLibrary} {s s' : WrapServer}

theorem answer_frame (s : WrapServer) (payload : Bytes) :
    (s.answer payload).logger = s.logger ∧ (s.answer payload).pipe = s.pipe := by
  unfold answer
  split <;> exact ⟨rfl, rfl⟩

theorem turn_change {payload : Bytes} {rest : List Bytes} {e : WrapEvent} (hpipe : s.pipe = payload :: rest)
    (h : s.turn payload rest = some s') : SpoolChange s e s' := by
  obtain ⟨logger, hlogger, rfl⟩ := Option.map_eq_some_iff.mp h
  obtain ⟨hsame, hrest⟩ := answer_frame { s with logger := logger, pipe := rest } payload
  cases hcut : asks_freeze payload with
  | true =>
    refine .logged payload ?_ ?_ ?_
    · simpa [hrest] using hpipe
    · simpa [hsame] using hlogger
    · simp [hsame, hcut]
  | false =>
    refine .logged payload ?_ ?_ ?_
    · simpa using hpipe
    · simpa using hlogger
    · simp [hcut]

theorem step_change {e : WrapEvent} (h : step L s e = some s') : SpoolChange s e s' := by
  cases e with
  | fork pid verb m =>
    simp only [step] at h
    split at h
    · cases h
    · cases h
      exact .sent rfl (List.append_nil _).symm rfl
  | ask pid =>
    simp only [step] at h
    split at h
    · cases h
      exact .sent rfl rfl rfl
    · cases h
  | brr_logger =>
    simp only [step] at h
    split at h
    · rename_i hpipe
      exact turn_change hpipe h
    · cases h
  | digest pid =>
    simp only [step] at h
    split at h
    · split at h
      · cases h
        exact .sent rfl (List.append_nil _).symm rfl
      · cases h
        exact .sent rfl (List.append_nil _).symm rfl
    · cases h
  | spool pid =>
    simp only [step] at h
    split at h
    · split at h
      · rename_i hspool
        cases h
        exact .spooled _ _ _ hspool rfl rfl
      · cases h
        exact .sent rfl (List.append_nil _).symm rfl
    · cases h
  | brr_send pid x =>
    simp only [step] at h
    split at h
    · split at h
      · cases h
        exact .sent rfl rfl rfl
      · cases h
    · cases h
  | leave pid =>
    simp only [step] at h
    split at h
    · cases h
      exact .sent rfl (List.append_nil _).symm rfl
    · cases h
  | roll pid u =>
    simp only [step] at h
    split at h
    · cases h
      exact .rolled u rfl rfl rfl
    · cases h
  | restart time =>
    simp only [step] at h
    obtain ⟨logger, hlogger, rfl⟩ := Option.map_eq_some_iff.mp h
    exact .restarted time hlogger rfl rfl

end WrapServer

/-! ### The messages on their way -/

/-- The log is in place, and what is in it and in the pipe has a record of a wrap
between any two freezes. -/
structure InTurn (s : WrapServer) : Prop where
  active : ∃ records, s.logger.tree.file? log_path = some records
  asked : Marked asks_freeze ok_wrap s.may_freeze s.pipe
  logs : LogsMarked s.logger.tree s.first

section turns
variable {s s' : WrapServer}

theorem may_freeze_congr (h : s'.logger.active = s.logger.active)
    (hfirst : s'.first = some log_path ↔ s.first = some log_path) : s'.may_freeze = s.may_freeze := by
  rw [WrapServer.may_freeze, WrapServer.may_freeze, h, decide_eq_decide, hfirst]

theorem follow_log_path {first : Option Path} {src tgt : Path} (hsrc : src ≠ log_path)
    (htgt : tgt ≠ log_path) :
    follow first src tgt = some log_path ↔ first = some log_path := by
  unfold follow
  split
  · rename_i h
    rw [h, Option.some.injEq, Option.some.injEq]
    exact iff_of_false htgt hsrc
  · split
    · rename_i h
      rw [h, Option.some.injEq]
      exact iff_of_false (Option.some_ne_none _).symm htgt
    · exact Iff.rfl

theorem inTurn_sent (h : InTurn s) {e : WrapEvent} (he : AsksInTurn s e) (hlogger : s'.logger = s.logger)
    (hpipe : s'.pipe = s.pipe ++ e.message?.toList) (hfirst : s'.first = s.first) : InTurn s' := by
  have hmay : s'.may_freeze = s.may_freeze := may_freeze_congr (by rw [hlogger]) (by rw [hfirst])
  refine ⟨hlogger ▸ h.active, ?_, hlogger ▸ hfirst ▸ h.logs⟩
  rw [hmay, hpipe]
  cases hm : e.message? with
  | none => simpa using h.asked
  | some payload => exact marked_concat.mpr ⟨h.asked, he payload hm⟩

theorem active_eq {l : Logger} {records : List Bytes} (h : l.tree.file? log_path = some records) :
    l.active = records := by
  rw [Logger.active, h]
  rfl

/-- A freeze begins the log anew, behind the frozen one. -/
theorem inTurn_freeze {payload : Bytes} (h : InTurn s) (hpipe : s.pipe = payload :: s'.pipe)
    (hcut : asks_freeze payload = true) (hs : answer_wrap s.logger = some s'.logger)
    (hfirst : s'.first = follow s.first log_path
      (frozen_path (log_wrap_name s'.logger.time s'.logger.seq))) : InTurn s' := by
  obtain ⟨t, hlogger, hst⟩ := answer_wrap_ok hs
  have hlog : s'.logger.tree.file? log_path = some [] := by
    rw [hlogger, FileTree.file?_eq_some, hst, if_pos rfl]
  have hasked := h.asked
  rw [hpipe, Marked] at hasked
  have hnew : s'.first ≠ some log_path := by
    rw [hfirst]
    exact follow_ne_src (log_wrap_path_ne _ _).symm
  have hnot : s'.may_freeze = false := by
    rw [WrapServer.may_freeze, active_eq hlog]
    simpa using hnew
  refine ⟨⟨[], hlog⟩, ?_, ?_⟩
  · rw [hnot]
    simpa [hcut] using hasked.2
  · rw [hfirst, hlogger]
    have hrenamed : ∀ q ≠ log_path, t.lstat q =
        if q = frozen_path (log_wrap_name s.logger.time (s.logger.seq + 1)) then some (.file s.logger.active)
        else if q = log_path then none else s.logger.tree.lstat q := by
      intro q hq
      rw [hst, if_neg hq, if_neg hq]
    refine h.logs.rename hrenamed fun hne => ?_
    have hmay := hasked.1 hcut
    rw [WrapServer.may_freeze, decide_eq_true_eq] at hmay
    exact hmay.resolve_left hne

/-- A record is in the log where it was in the pipe. -/
theorem inTurn_record {payload : Bytes} (h : InTurn s) (hpipe : s.pipe = payload :: s'.pipe)
    (hcut : asks_freeze payload = false) (hfirst : s'.first = s.first)
    (hlogger : s'.logger = { s.logger with
      tree := s.logger.tree.modify log_path (· ++ [payload])
      received := s.logger.received ++ [payload] }) : InTurn s' := by
  obtain ⟨records, hrecords⟩ := h.active
  have hst := FileTree.lstat_modify (FileTree.file?_eq_some.mp hrecords) (· ++ [payload])
  have hlog : s'.logger.tree.file? log_path = some (records ++ [payload]) := by
    rw [hlogger, FileTree.file?_eq_some, hst, if_pos rfl]
  have hmay : s'.may_freeze = (s.may_freeze || ok_wrap payload) := by
    rw [WrapServer.may_freeze, WrapServer.may_freeze, active_eq hlog, active_eq hrecords, hfirst]
    simp [Bool.or_assoc]
  have hasked := h.asked
  rw [hpipe, Marked] at hasked
  refine ⟨⟨_, hlog⟩, ?_, ?_⟩
  · rw [hmay]
    simpa [hcut] using hasked.2
  · rw [hfirst, hlogger]
    refine h.logs.congr fun q hq => ?_
    rw [hst, if_neg hq]

theorem inTurn_logged {payload : Bytes} (h : InTurn s) (hpipe : s.pipe = payload :: s'.pipe)
    (hs : brr_logger s.logger payload = some s'.logger)
    (hfirst : s'.first = if asks_freeze payload then
      follow s.first log_path (frozen_path (log_wrap_name s'.logger.time s'.logger.seq)) else s.first) :
    InTurn s' := by
  unfold brr_logger at hs
  split at hs
  · cases hs
  · split at hs
    · rename_i hlen
      have hcut : asks_freeze payload = true := decide_eq_true hlen
      rw [if_pos hcut] at hfirst
      exact inTurn_freeze h hpipe hcut hs hfirst
    · rename_i hlen
      have hcut : asks_freeze payload = false := decide_eq_false hlen
      rw [hcut] at hfirst
      exact inTurn_record h hpipe hcut hfirst (Option.some.inj hs).symm

theorem inTurn_of_elsewhere (h : InTurn s)
    (hlog : s'.logger.tree.file? log_path = s.logger.tree.file? log_path)
    (hpipe : s'.pipe = s.pipe) (hfirst : s'.first = some log_path ↔ s.first = some log_path)
    (hlogs : LogsMarked s'.logger.tree s'.first) : InTurn s' := by
  have hactive : s'.logger.active = s.logger.active := by
    rw [Logger.active, Logger.active, hlog]
  obtain ⟨records, hrecords⟩ := h.active
  refine ⟨⟨records, hlog.trans hrecords⟩, ?_, hlogs⟩
  rw [may_freeze_congr hactive hfirst, hpipe]
  exact h.asked

theorem inTurn_spooled {time : ℕ} {seq : UInt16} {u : Udig} (h : InTurn s)
    (hs : s.logger.spool_log time seq u = some s'.logger) (hpipe : s'.pipe = s.pipe)
    (hfirst : s'.first = follow s.first (frozen_path (log_wrap_name time seq)) (wrap_path u)) :
    InTurn s' := by
  obtain ⟨t, ht, hlogger⟩ := Option.map_eq_some_iff.mp hs
  have hren : s.logger.tree.rename (frozen_path (log_wrap_name time seq)) (wrap_path u) = .ok t := by
    cases hr : s.logger.tree.rename (frozen_path (log_wrap_name time seq)) (wrap_path u) with
    | error e => simp [hr, Except.toOption] at ht
    | ok t' =>
      rw [hr] at ht
      exact congrArg Except.ok (Option.some.inj ht)
  obtain ⟨-, records, hrecords, hst⟩ := FileTree.rename_ok (frozen_path_ne_wrap_path _ u) hren
  have hsrc := log_wrap_path_ne time seq
  have htgt := wrap_path_ne_log_path u
  refine inTurn_of_elsewhere h ?_ hpipe ?_ ?_
  · refine FileTree.file?_congr ?_
    rw [← hlogger, hst, if_neg htgt.symm, if_neg hsrc.symm]
  · rw [hfirst]
    exact follow_log_path hsrc htgt
  · rw [hfirst, ← hlogger]
    refine h.logs.rename (fun q _ => hst q) fun hne => ?_
    exact h.logs _ records (FileTree.file?_eq_some.mpr hrecords) hsrc hne

/-- An unlink that fails finds no log. -/
theorem roll_file? (l : Logger) (u : Udig) (q : Path) :
    (l.roll u).tree.file? q = if q = wrap_path u then none else l.tree.file? q := by
  unfold Logger.roll
  cases hun : l.tree.unlink (wrap_path u) with
  | ok t =>
    have hst := (FileTree.unlink_ok hun).2 q
    by_cases hq : q = wrap_path u
    · rw [if_pos hq] at hst ⊢
      exact FileTree.file?_eq_none.mpr (by simp [Except.toOption, hst])
    · rw [if_neg hq] at hst ⊢
      exact FileTree.file?_congr hst
  | error e =>
    change l.tree.file? q = _
    by_cases hq : q = wrap_path u
    · rw [if_pos hq, hq]
      cases hfile : l.tree.file? (wrap_path u) with
      | none => rfl
      | some records =>
        obtain ⟨t, ht, -⟩ := FileTree.unlink_file (FileTree.file?_eq_some.mp hfile)
        cases hun.symm.trans ht
    · rw [if_neg hq]

theorem inTurn_rolled {u : Udig} (h : InTurn s) (hlogger : s'.logger = s.logger.roll u)
    (hpipe : s'.pipe = s.pipe)
    (hfirst : s'.first = if s.first = some (wrap_path u) then none else s.first) : InTurn s' := by
  have htgt := wrap_path_ne_log_path u
  refine inTurn_of_elsewhere h ?_ hpipe ?_ ?_
  · rw [hlogger, roll_file?, if_neg htgt.symm]
  · rw [hfirst]
    split
    · rename_i hu
      rw [hu, Option.some.injEq]
      exact iff_of_false (Option.some_ne_none _).symm htgt
    · exact Iff.rfl
  · rw [hfirst, hlogger]
    exact h.logs.unlink (roll_file? s.logger u)

theorem inTurn_restarted {time : ℕ} (h : InTurn s) (hs : s.logger.step (.restart time) = some s'.logger)
    (hpipe : s'.pipe = []) (hfirst : s'.first = s.first) : InTurn s' := by
  obtain ⟨records, hrecords⟩ := h.active
  have htree : s'.logger.tree = s.logger.tree := by
    rw [← Option.some.inj hs]
    exact io_open_append_present (FileTree.file?_eq_some.mp hrecords)
  refine ⟨⟨records, htree ▸ hrecords⟩, ?_, ?_⟩
  · rw [hpipe]
    trivial
  · rw [htree, hfirst]
    exact h.logs

theorem inTurn_step {L : DigestLibrary} {e : WrapEvent} (h : InTurn s) (he : AsksInTurn s e)
    (hs : s.step L e = some s') : InTurn s' := by
  cases WrapServer.step_change hs with
  | sent logger pipe first => exact inTurn_sent h he logger pipe first
  | logged payload taken logger first => exact inTurn_logged h taken logger first
  | spooled time seq u logger pipe first => exact inTurn_spooled h logger pipe first
  | rolled u logger pipe first => exact inTurn_rolled h logger pipe first
  | restarted time logger pipe first => exact inTurn_restarted h logger pipe first

end turns

theorem inTurn_started (time : ℕ) : InTurn (WrapServer.started time) := by
  refine ⟨(intact_started time).active, trivial, ?_⟩
  intro p records hp hlog
  rw [FileTree.file?_eq_some] at hp
  change (Logger.started time).tree.lstat p = _ at hp
  rw [started_tree, if_neg hlog] at hp
  cases (FileTree.lstat_ofDirs hp).1

/-- In a run in which the wraps ask for their freezes in turn each wrapped log but the first
has the record of a wrap that was answered with ok. -/
theorem wrapped_log_recorded {L : DigestLibrary} (time : ℕ) {es : List WrapEvent} {s : WrapServer}
    (hturns : Along (WrapServer.step L) AsksInTurn (.started time) es)
    (hrun : exec (WrapServer.step L) (.started time) es = some s) {u : Udig} {records : List Bytes}
    (hlog : s.logger.tree.file? (wrap_path u) = some records) (hfirst : s.first ≠ some (wrap_path u)) :
    ∃ payload ∈ records, ok_wrap payload = true := by
  have hs : InTurn s := invariant_along (fun s e s' h he hs => inTurn_step h he hs)
    (inTurn_started time) hturns hrun
  exact List.any_eq_true.mp (hs.logs _ records hlog (wrap_path_ne_log_path u) hfirst)

/-! ### Two wraps -/

section examples
open RequestChild

/-- A wrap of an empty log over the loopback, which takes one second. -/
def wrap_at (start : ℤ) : Recorded where
  config := every_verb
  turns := { read := .bytes "wrap\n".toList } ::
    List.replicate 9 { set_digest := ⟨"d9b83dcfbf8ff8d810838c9a0a8bd4b69a17f212".toList, by decide,
      by decide⟩ }
  child :=
    { requested := some ⟨.wrap, .sha, "d9b83dcfbf8ff8d810838c9a0a8bd4b69a17f212".toList⟩
      chat_history := "ok".toList
      request_exit_status := 0x18
      happened := [.sent .ok,
        .brr ⟨⟨.wrap, .sha, "d9b83dcfbf8ff8d810838c9a0a8bd4b69a17f212".toList⟩, "ok".toList, 0⟩] }
  data := ⟨⟨.wrap, .sha, "d9b83dcfbf8ff8d810838c9a0a8bd4b69a17f212".toList⟩, "ok".toList, 0⟩
  left := ⟨by decide +kernel, by decide⟩
  start_time := ⟨start, 0, no_nsec_lt⟩
  end_time := ⟨start + 1, 0, no_nsec_lt⟩
  log := quiet_log
  bind_address := ⟨0x7f000001#32, 1797#16⟩
  remote_address := ⟨0x7f000001#32, 60000#16⟩

/-- The hash of the empty log and that of the log with the record of its wrap. -/
def known_log_hash (m : DigestModule) (log : Bytes) : Bytes :=
  if log = [] then m.empty.raw else decode_hex "d8bfc738e84bdf877abe259d5ca1eeeabecc6c9d".toList

def known_log_digests : DigestLibrary where
  Context := Bytes
  init _ := []
  update _ ctx chunk := ctx ++ chunk
  final := known_log_hash
  H := known_log_hash
  final_foldl m chunks := by
    have hfold : ∀ ctx : Bytes, chunks.foldl (· ++ ·) ctx = ctx ++ chunks.flatten := by
      induction chunks with
      | nil => simp
      | cons c cs ih => simp [ih]
    exact congrArg (known_log_hash m) (hfold [])
  length_H m log := by
    unfold known_log_hash
    split
    · cases m <;> rfl
    · rfl
  H_nil _ := rfl

def wrap_log (pid : ℕ) : List WrapEvent :=
  [.fork pid .wrap .sha, .ask pid, .brr_logger, .digest pid, .spool pid]

/-- A wrap that ends, and the wrap of the log with its record. -/
def wraps_in_turn : List WrapEvent :=
  wrap_log 7 ++ [.brr_send 7 (wrap_at 1700000000), .brr_logger] ++ wrap_log 9

def wrapped_udig : Udig :=
  ⟨.sha, ⟨"d8bfc738e84bdf877abe259d5ca1eeeabecc6c9d".toList, by decide, by decide⟩⟩

theorem second_log_recorded :
    ∃ s ∈ exec (WrapServer.step known_log_digests) (.started 4198448) wraps_in_turn,
      ∃ records, s.logger.tree.file? (wrap_path wrapped_udig) = some records ∧
        s.first ≠ some (wrap_path wrapped_udig) ∧ ∃ payload ∈ records, ok_wrap payload = true := by
  have hend : ∃ s ∈ exec (WrapServer.step known_log_digests) (.started 4198448) wraps_in_turn,
      s.logger.tree.file? (wrap_path wrapped_udig) = some [(wrap_at 1700000000).payload] ∧
        s.first ≠ some (wrap_path wrapped_udig) := by
    decide +kernel
  have hturns : Along (WrapServer.step known_log_digests) AsksInTurn (.started 4198448) wraps_in_turn := by
    decide +kernel
  obtain ⟨s, hrun, hlog, hfirst⟩ := hend
  exact ⟨s, hrun, _, hlog, hfirst, wrapped_log_recorded 4198448 hturns hrun hlog hfirst⟩

/-- Two wraps that ask for their freezes before one of them ends. -/
def overlapping_wraps : List WrapEvent :=
  [.fork 7 .wrap .sha, .fork 9 .wrap .sha, .ask 7, .ask 9, .brr_logger, .brr_logger, .digest 7, .spool 7,
    .digest 9, .spool 9]

theorem wrapped_log_not_always_recorded : ¬ ∀ (L : DigestLibrary) (time : ℕ) (es : List WrapEvent)
    (s : WrapServer), exec (WrapServer.step L) (.started time) es = some s → ∀ u records,
      s.logger.tree.file? (wrap_path u) = some records → s.first ≠ some (wrap_path u) →
        ∃ payload ∈ records, ok_wrap payload = true := by
  intro h
  have hend : ∃ s ∈ exec (WrapServer.step known_log_digests) (.started 4198448) overlapping_wraps,
      s.logger.tree.file? (wrap_path ⟨.sha, DigestModule.sha.empty⟩) = some [] ∧
        s.first ≠ some (wrap_path ⟨.sha, DigestModule.sha.empty⟩) := by
    decide +kernel
  obtain ⟨s, hrun, hlog, hfirst⟩ := hend
  obtain ⟨payload, hmem, -⟩ := h known_log_digests _ _ s hrun _ [] hlog hfirst
  cases hmem

end examples

end Blobio
