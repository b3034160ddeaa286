import Blobio.RecordMessages
import Blobio.WrapSets
import Mathlib.Data.List.Nodup

/-! The answers of wraps. A wrap that is answered with ok gets the udig of the set of frozen logs,
its own log first, and leaves a record that has that udig. -/
namespace Blobio
open EventRuns FileTrees TerminatedLines WrapSets

/-! ### The udig in a record -/

/-- The fourth field of a record. -/
def record_udig (payload : Bytes) : Option Text :=
  ((payload.map fun b => Char.ofNat b.toNat).splitOn '\t')[3]?

section records
open RequestChild Recorded
variable {c : Char} {f : Text}

theorem isgraph_of_graph_set : ∀ c ∈ graph_set, isgraph c := by
  decide +kernel

theorem isgraph_of_isDigit (h : c.isDigit) : isgraph c := by
  have hdigit := mem_digits.mpr h
  have hset : ∀ c ∈ digits, isgraph c := by decide
  exact hset c hdigit

theorem graphic_padded_int (w : ℕ) (i : ℤ) : ∀ c ∈ padded_int w i, isgraph c := by
  cases i with
  | ofNat n => exact fun c hc => isgraph_of_isDigit (DecimalNumerals.isDigit_of_mem_padded hc)
  | negSucc n =>
    rw [padded_int, List.forall_mem_cons]
    exact ⟨by decide, fun c hc => isgraph_of_isDigit (DecimalNumerals.isDigit_of_mem_padded hc)⟩

theorem graphic_start_text (t : Tm) (tv_nsec : ℕ) : ∀ c ∈ start_text t tv_nsec, isgraph c := by
  have hpadded : ∀ w n, ∀ c ∈ DecimalNumerals.padded w n, isgraph c :=
    fun w n c hc => isgraph_of_isDigit (DecimalNumerals.isDigit_of_mem_padded hc)
  have hzone : ∀ c ∈ "+00:00".toList, isgraph c := by decide
  simp only [start_text, List.forall_mem_append, List.forall_mem_cons]
  exact ⟨graphic_padded_int _ _, by decide, hpadded _ _, by decide, hpadded _ _, by decide, hpadded _ _,
    by decide,
    hpadded _ _, by decide, hpadded _ _, by decide, hpadded _ _, hzone⟩

theorem RequestChild.Recorded.not_mem_fields (x : Recorded)
    (hc : isgraph c = false) : c ∉ x.fields.start_time ∧ c ∉ x.fields.tag ∧
    c ∉ x.fields.detail ∧ c ∉ x.fields.verb.text ∧ c ∉ x.fields.udig ∧ c ∉ x.fields.chat_history ∧
      c ∉ x.fields.byte_count ∧ c ∉ x.fields.sec ∧ c ∉ x.fields.nsec := by
  have hgraphic : ∀ f : Text, (∀ d ∈ f, isgraph d) → c ∉ f := by
    intro f hf hmem
    rw [hf c hmem] at hc
    cases hc
  have hdecimal : ∀ n, ∀ d ∈ Nat.toDigits 10 n, isgraph d :=
    fun n d hd => isgraph_of_isDigit (DecimalNumerals.isDigit_of_mem_decimal hd)
  have hverb : ∀ v : Verb, ∀ d ∈ v.text, isgraph d := by
    intro v
    cases v <;> decide
  have hchat : ∀ d ∈ x.fields.chat_history, isgraph d := by
    obtain ⟨rs, hrs, -, heq⟩ := x.left.chat
    have hchats : ∀ v, ∀ rs ∈ reached v, ∀ d ∈ joined rs, isgraph d := by
      intro v
      cases v <;> decide
    rw [fields, heq]
    exact hchats _ rs hrs
  refine ⟨hgraphic _ (graphic_start_text _ _), hgraphic _ (by decide : ∀ d ∈ "tcp4".toList, isgraph d), ?_,
    hgraphic _ (hverb _), ?_, hgraphic _ hchat, hgraphic _ (hdecimal _), hgraphic _ (hdecimal _), ?_⟩
  · exact hgraphic _ fun d hd => isgraph_of_graph_set d ((chars_detail _ _).subset d hd)
  · exact hgraphic _ fun d hd => isgraph_of_graph_set d (x.udig_syntax.chars.2.2 d hd)
  · exact hgraphic _ fun d hd => isgraph_of_isDigit (DecimalNumerals.isDigit_of_mem_padded hd)

theorem RequestChild.Recorded.not_mem_fields_line (x : Recorded) (hc : isgraph c = false)
    (htab : c ≠ '\t') : c ∉ x.fields.line := by
  obtain ⟨htime, htag, hdetail, hverb, hudig, hchat, hbytes, hsec, hnsec⟩ := x.not_mem_fields hc
  have hseparators : c ≠ '~' ∧ c ≠ '.' := by
    constructor <;> rintro rfl <;> cases hc
  simp [BrrFields.line, htime, htag, hdetail, hverb, hudig, hchat, hbytes, hsec, hnsec, htab, hseparators]

theorem RequestChild.Recorded.latin_fields_line (x : Recorded) : ∀ c ∈ x.fields.line ++ ['\n'],
    c.toNat < 256 := by
  intro c hc
  by_contra hlarge
  have hgraph : isgraph c = false := by
    have hle : ¬ c ≤ '~' := by
      intro hle
      have hnat : c.toNat ≤ '~'.toNat := UInt32.le_iff_toNat_le.mp hle
      exact hlarge (hnat.trans_lt (by decide))
    simp [isgraph, between, hle]
  have hother : ∀ d : Char, d.toNat < 256 → c ≠ d := by
    rintro d hd rfl
    exact hlarge hd
  rcases List.mem_append.mp hc with hc | hc
  · exact x.not_mem_fields_line hgraph (hother '\t' (by decide)) hc
  · exact hother '\n' (by decide) (List.mem_singleton.mp hc)

theorem record_fields (x : Recorded) : (x.record.map fun b => Char.ofNat b.toNat).splitOn '\t' =
    [x.fields.start_time, x.fields.tag ++ '~' :: x.fields.detail, x.fields.verb.text, x.fields.udig,
      x.fields.chat_history, x.fields.byte_count, x.fields.sec ++ '.' :: (x.fields.nsec ++ ['\n'])] := by
  rw [record, brr_text_eq, chars_of_bytes x.latin_fields_line, splitOn_line (x.not_mem_fields (by decide))]

theorem ok_wrap_record (x : Recorded) : ok_wrap x.record = true ↔
    x.data.requested.verb = .wrap ∧ x.data.chat_history = "ok".toList := by
  rw [ok_wrap, record_fields, decide_eq_true_eq, ← text_eq_wrap]
  simp [fields]

theorem record_udig_record (x : Recorded) : record_udig x.record = some (udig_text x.data.requested) := by
  rw [record_udig, record_fields]
  rfl

/-- A record is one line. -/
theorem record_line (x : Recorded) : ∃ l : Bytes, 10 ∉ l ∧ x.record = l ++ [10] := by
  refine ⟨x.fields.line.map Char.toUInt8, ?_, ?_⟩
  · intro hmem
    obtain ⟨c, hc, heq⟩ := List.mem_map.mp hmem
    have hlatin := x.latin_fields_line c (List.mem_append_left _ hc)
    have hnewline : c = '\n' := by
      have hnat : c.toUInt8.toNat = c.toNat := Nat.mod_eq_of_lt hlatin
      rw [heq] at hnat
      exact Char.toNat_inj.mp hnat.symm
    exact x.not_mem_fields_line (by decide) (by decide) (hnewline ▸ hc)
  · rw [record, brr_text_eq, List.map_append]
    rfl

/-- The request of a freeze has no tab. -/
theorem ok_wrap_request (pid : ℕ) : ok_wrap (wrap_request pid) = false := by
  have htab : '\t' ∉ (wrap_request pid).map fun b => Char.ofNat b.toNat := by
    intro hmem
    obtain ⟨b, hb, heq⟩ := List.mem_map.mp hmem
    rcases List.mem_append.mp hb with hb | hb
    · obtain ⟨c, hc, rfl⟩ := List.mem_map.mp hb
      have hgraph : isgraph c := by
        have hends : (∀ c ∈ "run/wrap-".toList, isgraph c) ∧ ∀ c ∈ ".fifo".toList, isgraph c := by decide
        rcases List.mem_append.mp hc with hc | hc
        · rcases List.mem_append.mp hc with hc | hc
          · exact hends.1 c hc
          · exact isgraph_of_isDigit (DecimalNumerals.isDigit_of_mem_padded hc)
        · exact hends.2 c hc
      have hlatin : c.toNat < 256 := by
        by_contra hlarge
        have hle : c ≤ '~' := by
          rw [isgraph, between, Bool.and_eq_true, decide_eq_true_eq, decide_eq_true_eq] at hgraph
          exact hgraph.2
        have hnat : c.toNat ≤ '~'.toNat := UInt32.le_iff_toNat_le.mp hle
        exact hlarge (hnat.trans_lt (by decide))
      have hbyte : c.toUInt8.toNat = c.toNat := Nat.mod_eq_of_lt hlatin
      rw [hbyte, Char.ofNat_toNat] at heq
      rw [heq] at hgraph
      cases hgraph
    · rw [List.mem_singleton.mp hb] at heq
      cases heq
  rw [ok_wrap, List.splitOn_eq_singleton htab]
  rfl

end records

/-! ### Wraps up to their answers -/

/-- The wrap whose request the logger reads. -/
def WrapServer.asking (s : WrapServer) (payload : Bytes) : Option Requester :=
  s.requesters.find? fun p => p.phase = .asked ∧ wrap_request p.pid = payload

/-- An answer, and what is in the log that its wrap has frozen. -/
structure WrapAnswer where
  udig : Udig
  log : Bytes

structure AnswerServer where
  server : WrapServer
  /-- By the pid of a wrap, from the digest of its frozen log until its answer. -/
  frozen_udig : ℕ → Option Udig := fun _ => none
  /-- By the pid of a wrap, from its answer until its record. -/
  wrap_set_udig : ℕ → Option Udig := fun _ => none
  /-- By the pid of a wrap, what is in its frozen log, until its answer. -/
  log_of : ℕ → Option Bytes := fun _ => none
  answers : List WrapAnswer := []
  frozen_logs : List (List Bytes) := []
  /-- All that has been digested. -/
  digested : List (DigestModule × Bytes) := []

/-- What `readdir` returns to a wrap is left open, as others may rename and unlink meanwhile. -/
inductive AnswerEvent
  | serve (e : WrapEvent)
  | answer (pid : ℕ) (dir : SpoolWrap)

def put {α : Type} (f : ℕ → Option α) (pid : ℕ) (v : Option α) : ℕ → Option α :=
  fun q => if q = pid then v else f q

namespace AnswerServer

def started (time : ℕ) : AnswerServer where
  server := .started time

/-- A pid has 32 bits, a clock 64, and the record of a wrap has the udig that it was answered with. -/
def Sends (s : AnswerServer) : WrapEvent → Prop
  | .ask pid => pid < 2 ^ 32
  | .brr_send pid x => x.start_time.Representable ∧ x.end_time.Representable ∧
    (x.data.requested.verb = .wrap → x.data.chat_history = "ok".toList →
      (s.wrap_set_udig pid).map Udig.text = some (RequestChild.udig_text x.data.requested))
  | _ => True

instance (s : AnswerServer) : (e : WrapEvent) → Decidable (s.Sends e)
  | .ask pid => inferInstanceAs (Decidable (pid < 2 ^ 32))
  | .brr_send _ _ => inferInstanceAs (Decidable (_ ∧ _ ∧ (_ → _ → _)))
  | .fork .. | .brr_logger | .digest _ | .spool _ | .leave _ | .roll .. | .restart _ => isTrue trivial

def freeze (s : AnswerServer) (payload : Bytes) : AnswerServer :=
  let s' := { s with frozen_logs := s.frozen_logs ++ [s.server.logger.active] }
  match s.server.asking payload with
  | some p => { s' with
      log_of := put s.log_of p.pid (some s.server.logger.active.flatten)
      frozen_udig := put s.frozen_udig p.pid none }
  | none => s'

def note (L : DigestLibrary) (s : AnswerServer) : WrapEvent → AnswerServer
  | .brr_logger =>
    match s.server.pipe with
    | payload :: _ => if asks_freeze payload then s.freeze payload else s
    | [] => s
  | .digest pid =>
    match s.server.requester? pid with
    | some ⟨_, _, m, .frozen time seq⟩ =>
      match s.server.logger.tree.file? (frozen_path (log_wrap_name time seq)) with
      | some records => { s with
          frozen_udig := put s.frozen_udig pid (some ⟨m, L.digest m records.flatten⟩)
          digested := s.digested ++ [(m, records.flatten)] }
      | none => s
    | _ => s
  | _ => s

/-- The variables of a process are gone with it. -/
def kept {α : Type} (server : WrapServer) (f : ℕ → Option α) : ℕ → Option α :=
  fun pid => if (server.requester? pid).isSome then f pid else none

def move (s : AnswerServer) (server : WrapServer) : AnswerServer :=
  { s with
    server := server
    frozen_udig := kept server s.frozen_udig
    wrap_set_udig := kept server s.wrap_set_udig
    log_of := kept server s.log_of }

/-- The blob of a set, of which a wrap answers the udig. -/
def set_blob (installed : Installed) (u : Udig) (dir : SpoolWrap) : Bytes :=
  (WrapSets.wrap_set installed u.text dir.entries).map Char.toUInt8

def step (L : DigestLibrary) (installed : Installed) (s : AnswerServer) : AnswerEvent → Option AnswerServer
  | .serve e => if s.Sends e then (s.server.step L e).map (s.note L e).move else none
  | .answer pid dir =>
    match s.server.requester? pid, s.frozen_udig pid with
    | some ⟨_, _, m, .spooled⟩, some u =>
      let wrap_set_udig : Udig := ⟨m, L.digest m (set_blob installed u dir)⟩
      some { s with
        frozen_udig := put s.frozen_udig pid none
        wrap_set_udig := put s.wrap_set_udig pid (some wrap_set_udig)
        log_of := put s.log_of pid none
        answers := s.answers ++ [⟨wrap_set_udig, (s.log_of pid).getD []⟩]
        digested := s.digested ++ [(m, set_blob installed u dir)] }
    | _, _ => none

/-- The next turn of the logger freezes the active log. -/
def freezes (s : AnswerServer) : AnswerEvent → Bool
  | .serve .brr_logger => s.server.pipe.head?.any asks_freeze
  | _ => false

end AnswerServer

/-- The wrap waits to digest the log of that name. -/
def Requester.awaits (p : Requester) (time : ℕ) (seq : UInt16) : Bool :=
  match p.phase with
  | .frozen time' seq' => log_wrap_name time' seq' = log_wrap_name time seq
  | _ => false

/-- A log is frozen with the record of an answered wrap, or with other records than all the logs
before, and under a name that no other wrap waits for. -/
def ToldApart (s : AnswerServer) (e : AnswerEvent) : Prop :=
  s.freezes e = true →
    (∀ p ∈ s.server.requesters, p.awaits s.server.logger.time (s.server.logger.seq + 1) = false) ∧
      (s.server.logger.active.any ok_wrap = true ∨
        s.server.logger.active.flatten ∉ s.frozen_logs.map List.flatten)

instance (s : AnswerServer) (e : AnswerEvent) : Decidable (ToldApart s e) :=
  inferInstanceAs (Decidable (_ → _ ∧ (_ ∨ _)))

/-- No two different streams among these have one digest. -/
def CollisionFree (L : DigestLibrary) (digested : List (DigestModule × Bytes)) : Prop :=
  ∀ m x y, (m, x) ∈ digested → (m, y) ∈ digested → L.digest m x = L.digest m y → x = y

theorem CollisionFree.mono {L : DigestLibrary} {digested digested' : List (DigestModule × Bytes)}
    (h : CollisionFree L digested') (hsub : digested ⊆ digested') : CollisionFree L digested :=
  fun m x y hx hy => h m x y (hsub hx) (hsub hy)

/-! ### What a step does to a process and to its frozen log -/

namespace WrapServer
variable {L : DigestLibrary} {s s' : WrapServer} {pid q : ℕ} {p : Requester} {time : ℕ} {seq : UInt16}

theorem requester?_set (s : WrapServer) (pid : ℕ) (phase : WrapPhase) (q : ℕ) :
    (s.set pid phase).requester? q =
    (s.requester? q).map fun p => if p.pid = pid then { p with phase := phase } else p := by
  have hpid : ((fun p => decide (p.pid = q)) ∘ fun p : Requester => if p.pid = pid then { p with phase :=
    phase } else p) =
      fun p => decide (p.pid = q) := by
    funext p
    by_cases h : p.pid = pid <;> simp [h]
  rw [requester?, set, List.find?_map, hpid]
  rfl

theorem requester?_leave (s : WrapServer) (pid q : ℕ) :
    (s.leave pid).requester? q = if q = pid then none else s.requester? q := by
  rw [requester?, leave, List.find?_filter]
  split_ifs with h
  · subst h
    refine List.find?_eq_none.mpr fun p _ => ?_
    simp
  · have hpid : (fun p : Requester => decide (decide (p.pid ≠ pid) = true ∧ decide (p.pid = q) = true)) =
        fun p => decide (p.pid = q) := by
      funext p
      by_cases hp : p.pid = q <;> simp [hp, h]
    rw [hpid, requester?]

/-- A process that waits to digest its log after another's change of phase waited before. -/
theorem frozen_of_set {phase : WrapPhase} (hp : (s.set pid phase).requester? q = some p)
    (hphase : p.phase = .frozen time seq) :
    s.requester? q = some p ∨ q = pid ∧ phase = .frozen time seq := by
  rw [requester?_set, Option.map_eq_some_iff] at hp
  obtain ⟨r, hr, rfl⟩ := hp
  have hpid : r.pid = q := by simpa using List.find?_some hr
  split_ifs at hphase ⊢ with h
  · exact .inr ⟨hpid.symm.trans h, hphase⟩
  · exact .inl hr

theorem frozen_of_leave (hp : (s.leave pid).requester? q = some p) : s.requester? q = some p := by
  rw [requester?_leave] at hp
  split_ifs at hp
  exact hp

theorem frozen_of_answer {payload : Bytes} (hp : (s.answer payload).requester? q = some p)
    (hphase : p.phase = .frozen time seq) : s.requester? q = some p ∨
      ((s.asking payload).map Requester.pid = some q ∧ time = s.logger.time ∧ seq = s.logger.seq) := by
  have hanswer : s.answer payload = match s.asking payload with
      | some r => s.set r.pid (.frozen s.logger.time s.logger.seq)
      | none => { s with stuck := true } := rfl
  rw [hanswer] at hp
  cases hasking : s.asking payload with
  | none =>
    rw [hasking] at hp
    exact .inl hp
  | some r =>
    rw [hasking] at hp
    rcases frozen_of_set hp hphase with hp | ⟨rfl, hfrozen⟩
    · exact .inl hp
    · obtain ⟨htime, hseq⟩ := WrapPhase.frozen.inj hfrozen
      exact .inr ⟨rfl, htime.symm, hseq.symm⟩

theorem frozen_of_turn {payload : Bytes} {rest : List Bytes} (h : s.turn payload rest = some s')
    (hp : s'.requester? q = some p) (hphase : p.phase = .frozen time seq) : s.requester? q = some p ∨
      (asks_freeze payload = true ∧ (s.asking payload).map Requester.pid = some q ∧ time = s'.logger.time ∧
        seq = s'.logger.seq) := by
  obtain ⟨logger, -, rfl⟩ := Option.map_eq_some_iff.mp h
  cases hcut : asks_freeze payload with
  | false =>
    rw [hcut] at hp
    exact .inl hp
  | true =>
    simp only [hcut, if_true] at hp
    rcases frozen_of_answer hp hphase with hp | ⟨hasking, htime, hseq⟩
    · exact .inl hp
    · obtain ⟨hlogger, -⟩ := answer_frame { s with logger := logger, pipe := rest } payload
      refine .inr ⟨rfl, hasking, ?_, ?_⟩
      · simp only [if_true, hlogger]
        exact htime
      · simp only [if_true, hlogger]
        exact hseq

/-- The wrap whose request is read waits for the log that is frozen. -/
theorem phase_of_turn {payload : Bytes} {rest : List Bytes} (h : s.turn payload rest = some s')
    (hcut : asks_freeze payload = true) {r : Requester} (hasking : s.asking payload = some r)
    (hp : s'.requester? r.pid = some p) : p.phase = .frozen s'.logger.time s'.logger.seq := by
  obtain ⟨logger, -, rfl⟩ := Option.map_eq_some_iff.mp h
  obtain ⟨hlogger, -⟩ := answer_frame { s with logger := logger, pipe := rest } payload
  simp only [hcut, if_true, hlogger] at hp ⊢
  have hanswer : ({ s with logger := logger, pipe := rest } : WrapServer).answer payload =
      match s.asking payload with
      | some r => ({ s with logger := logger, pipe := rest } : WrapServer).set r.pid
        (.frozen logger.time logger.seq)
      | none => { s with logger := logger, pipe := rest, stuck := true } := rfl
  change (({ s with logger := logger, pipe :=
    rest } : WrapServer).answer payload).requester? r.pid = some p at hp
  rw [hanswer, hasking] at hp
  dsimp only at hp
  rw [requester?_set, Option.map_eq_some_iff] at hp
  obtain ⟨r', hr', rfl⟩ := hp
  have hpid : r'.pid = r.pid := by simpa using List.find?_some hr'
  rw [if_pos hpid]

/-- Only a freeze makes a process wait to digest its log. -/
theorem frozen_of_step {e : WrapEvent} (h : step L s e = some s') (hp : s'.requester? q = some p)
    (hphase : p.phase = .frozen time seq) : s.requester? q = some p ∨
      (e = .brr_logger ∧ ∃ payload, s.pipe.head? = some payload ∧ asks_freeze payload = true ∧
        (s.asking payload).map Requester.pid = some q ∧ time = s'.logger.time ∧ seq = s'.logger.seq) := by
  cases e with
  | fork pid verb m =>
    simp only [step] at h
    split at h
    · cases h
    · cases h
      rw [requester?, List.find?_cons] at hp
      split at hp
      · cases hp
        cases hphase
      · exact .inl hp
  | ask pid =>
    simp only [step] at h
    split at h
    · cases h
      rcases frozen_of_set hp hphase with hp | ⟨-, hfrozen⟩
      · exact .inl hp
      · cases hfrozen
    · cases h
  | brr_logger =>
    simp only [step] at h
    split at h
    · rename_i payload rest hstuck hpipe
      rcases frozen_of_turn h hp hphase with hp | hfrozen
      · exact .inl hp
      · exact .inr ⟨rfl, payload, by rw [hpipe]; rfl, hfrozen⟩
    · cases h
  | digest pid =>
    simp only [step] at h
    split at h
    · split at h
      · cases h
        rcases frozen_of_set hp hphase with hp | ⟨-, hfrozen⟩
        · exact .inl hp
        · cases hfrozen
      · cases h
        exact .inl (frozen_of_leave hp)
    · cases h
  | spool pid =>
    simp only [step] at h
    split at h
    · split at h
      · cases h
        rcases frozen_of_set hp hphase with hp | ⟨-, hfrozen⟩
        · exact .inl hp
        · cases hfrozen
      · cases h
        exact .inl (frozen_of_leave hp)
    · cases h
  | brr_send pid x =>
    simp only [step] at h
    split at h
    · split at h
      · cases h
        exact .inl (frozen_of_leave hp)
      · cases h
    · cases h
  | leave pid =>
    simp only [step] at h
    split at h
    · cases h
      exact .inl (frozen_of_leave hp)
    · cases h
  | roll pid u =>
    simp only [step] at h
    split at h
    · cases h
      exact .inl hp
    · cases h
  | restart t =>
    simp only [step] at h
    obtain ⟨logger, -, rfl⟩ := Option.map_eq_some_iff.mp h
    cases hp

/-- A step that is no turn of the logger writes to its pipe, or empties it; it leaves the active log
alone and writes to no log that waits for its wrap. -/
structure Elsewhere (s s' : WrapServer) (messages : List Bytes) : Prop where
  pipe : s'.pipe = s.pipe ++ messages ∨ s'.pipe = []
  active : s'.logger.tree.file? log_path = s.logger.tree.file? log_path
  frozen : ∀ time seq records, s'.logger.tree.file? (frozen_path (log_wrap_name time seq)) = some records →
    s.logger.tree.file? (frozen_path (log_wrap_name time seq)) = some records

theorem Elsewhere.of_logger {messages : List Bytes} (hlogger : s'.logger = s.logger)
    (hpipe : s'.pipe = s.pipe ++ messages) : Elsewhere s s' messages :=
  ⟨.inl hpipe, by rw [hlogger], fun _ _ _ h => by rwa [hlogger] at h⟩

theorem elsewhere_spooled {u : Udig} (hs : s.logger.spool_log time seq u = some s'.logger)
    (hpipe : s'.pipe = s.pipe) :
    Elsewhere s s' [] := by
  obtain ⟨t, ht, hlogger⟩ := Option.map_eq_some_iff.mp hs
  have hren : s.logger.tree.rename (frozen_path (log_wrap_name time seq)) (wrap_path u) = .ok t := by
    cases hr : s.logger.tree.rename (frozen_path (log_wrap_name time seq)) (wrap_path u) with
    | error e => simp [hr, Except.toOption] at ht
    | ok t' =>
      rw [hr] at ht
      exact congrArg Except.ok (Option.some.inj ht)
  obtain ⟨-, records, hrecords, hst⟩ := FileTree.rename_ok (frozen_path_ne_wrap_path _ u) hren
  refine ⟨.inl (by rw [hpipe, List.append_nil]), ?_, fun time' seq' records' h => ?_⟩
  · refine FileTree.file?_congr ?_
    rw [← hlogger, hst, if_neg (wrap_path_ne_log_path u).symm, if_neg (log_wrap_path_ne time seq).symm]
  · rw [← hlogger, FileTree.file?_eq_some, hst, if_neg (frozen_path_ne_wrap_path _ u)] at h
    split_ifs at h
    exact FileTree.file?_eq_some.mpr h

theorem elsewhere_of_step {e : WrapEvent} (hactive : ∃ records, s.logger.tree.file? log_path = some records)
    (h : step L s e = some s') (he : e ≠ .brr_logger) : Elsewhere s s' e.message?.toList := by
  cases e with
  | brr_logger => exact absurd rfl he
  | fork pid verb m =>
    simp only [step] at h
    split at h
    · cases h
    · cases h
      exact .of_logger rfl (List.append_nil _).symm
  | ask pid =>
    simp only [step] at h
    split at h
    · cases h
      exact .of_logger rfl rfl
    · cases h
  | digest pid =>
    simp only [step] at h
    split at h
    · split at h
      · cases h
        exact .of_logger rfl (List.append_nil _).symm
      · cases h
        exact .of_logger rfl (List.append_nil _).symm
    · cases h
  | spool pid =>
    simp only [step] at h
    split at h
    · split at h
      · rename_i hspool
        cases h
        exact elsewhere_spooled hspool rfl
      · cases h
        exact .of_logger rfl (List.append_nil _).symm
    · cases h
  | brr_send pid x =>
    simp only [step] at h
    split at h
    · split at h
      · cases h
        exact .of_logger rfl rfl
      · cases h
    · cases h
  | leave pid =>
    simp only [step] at h
    split at h
    · cases h
      exact .of_logger rfl (List.append_nil _).symm
    · cases h
  | roll pid u =>
    simp only [step] at h
    split at h
    · cases h
      refine ⟨.inl (List.append_nil _).symm, ?_, fun time' seq' records h => ?_⟩
      · change (s.logger.roll u).tree.file? log_path = _
        rw [roll_file?, if_neg (wrap_path_ne_log_path u).symm]
      · change (s.logger.roll u).tree.file? _ = _ at h
        rw [roll_file?, if_neg (frozen_path_ne_wrap_path _ u)] at h
        exact h
    · cases h
  | restart t =>
    obtain ⟨records, hrecords⟩ := hactive
    simp only [step] at h
    obtain ⟨logger, hlogger, rfl⟩ := Option.map_eq_some_iff.mp h
    have htree : logger.tree = s.logger.tree := by
      rw [← Option.some.inj hlogger]
      exact io_open_append_present (FileTree.file?_eq_some.mp hrecords)
    exact ⟨.inr rfl, by simp only [htree], fun _ _ _ h => by simpa only [htree] using h⟩

/-- A turn of the logger: the active log is frozen, and an empty one in its place, or it gets a record. -/
inductive Turned (s s' : WrapServer) (payload : Bytes) : Prop
  | froze (hcut : asks_freeze payload = true) (htime : s'.logger.time = s.logger.time)
      (hseq : s'.logger.seq = s.logger.seq + 1) (hactive : s'.logger.tree.file? log_path = some [])
      (hfrozen : ∀ time seq, s'.logger.tree.file? (frozen_path (log_wrap_name time seq)) =
        if log_wrap_name time seq = log_wrap_name s.logger.time (s.logger.seq + 1) then some s.logger.active
        else s.logger.tree.file? (frozen_path (log_wrap_name time seq)))
  | logged (hcut : asks_freeze payload = false)
      (hactive : s'.logger.tree.file? log_path = some (s.logger.active ++ [payload]))
      (hfrozen : ∀ time seq, s'.logger.tree.file? (frozen_path (log_wrap_name time seq)) =
        s.logger.tree.file? (frozen_path (log_wrap_name time seq)))

theorem turn_frame {payload : Bytes} {rest : List Bytes} (h : s.turn payload rest = some s') :
    brr_logger s.logger payload = some s'.logger ∧ s'.pipe = rest := by
  obtain ⟨logger, hlogger, rfl⟩ := Option.map_eq_some_iff.mp h
  obtain ⟨hsame, hrest⟩ := answer_frame { s with logger := logger, pipe := rest } payload
  cases hcut : asks_freeze payload with
  | true => exact ⟨by simpa [hsame] using hlogger, by simp [hrest]⟩
  | false => exact ⟨by simpa using hlogger, by simp⟩

theorem turned_of_step (hactive : ∃ records, s.logger.tree.file? log_path = some records)
    (h : step L s .brr_logger = some s') : ∃ payload, s.pipe = payload :: s'.pipe ∧ Turned s s' payload :=
      by
  simp only [step] at h
  split at h
  · rename_i payload rest hstuck hpipe
    obtain ⟨hlogger, hrest⟩ := turn_frame h
    refine ⟨payload, by rw [hpipe, hrest], ?_⟩
    obtain ⟨records, hrecords⟩ := hactive
    unfold brr_logger at hlogger
    split at hlogger
    · cases hlogger
    · split at hlogger
      · rename_i hlen
        obtain ⟨t, heq, hst⟩ := answer_wrap_ok hlogger
        refine .froze (decide_eq_true hlen) (by rw [heq]) (by rw [heq]) ?_ fun time seq => ?_
        · rw [heq, FileTree.file?_eq_some, hst, if_pos rfl]
        · rw [heq]
          split_ifs with hname
          · rw [FileTree.file?_eq_some, hst, if_neg (log_wrap_path_ne _ _), hname, if_pos rfl]
          · refine FileTree.file?_congr ?_
            rw [hst, if_neg (log_wrap_path_ne _ _), if_neg]
            exact fun hpath => hname (log_wrap_name_eq_iff.mpr (log_wrap_path_eq_iff.mp hpath))
      · rename_i hlen
        have hst := FileTree.lstat_modify (FileTree.file?_eq_some.mp hrecords) (· ++ [payload])
        have heq := (Option.some.inj hlogger).symm
        refine .logged (decide_eq_false hlen) ?_ fun time seq => ?_
        · rw [heq, FileTree.file?_eq_some, hst, if_pos rfl, active_eq hrecords]
        · rw [heq]
          exact FileTree.file?_congr (by rw [hst, if_neg (log_wrap_path_ne _ _)])
  · cases h

end WrapServer

/-! ### What holds along a run -/

def IsLine (payload : Bytes) : Prop :=
  ∃ l : Bytes, 10 ∉ l ∧ payload = l ++ [10]

/-- The request of a freeze, or a record. -/
def IsMessage (payload : Bytes) : Prop :=
  asks_freeze payload = true ∧ ok_wrap payload = false ∨ asks_freeze payload = false ∧ IsLine payload

namespace AnswerServer
variable {L : DigestLibrary} {installed : Installed} {s s' : AnswerServer} {e : WrapEvent}

/-- The udigs in the records of wraps that are on their way or in a log. -/
def udigs_of (payloads : List Bytes) : List Text :=
  (payloads.filter ok_wrap).filterMap record_udig

def recorded (s : AnswerServer) : List Text :=
  udigs_of (s.frozen_logs.flatten ++ s.server.logger.active ++ s.server.pipe)

def answered (s : AnswerServer) : List Text :=
  s.answers.map fun a => a.udig.text

/-- Each answer is recorded at most once, and the log and the pipe hold records only. -/
structure Recording (s : AnswerServer) : Prop where
  active : ∃ records, s.server.logger.tree.file? log_path = some records
  lines : ∀ payload ∈ s.frozen_logs.flatten ++ s.server.logger.active, IsLine payload
  pipe : ∀ payload ∈ s.server.pipe, IsMessage payload
  once : s.recorded.Nodup
  known : ∀ t ∈ s.recorded, t ∈ s.answered
  pending : ∀ pid u, s.wrap_set_udig pid = some u → u.text ∈ s.answered ∧ u.text ∉ s.recorded
  apart : ∀ pid pid' u, s.wrap_set_udig pid = some u → s.wrap_set_udig pid' = some u → pid = pid'

/-- The udig of the set of an answer is that of a blob whose first line is the udig of its log. -/
def AnswerOf (L : DigestLibrary) (digested : List (DigestModule × Bytes)) (a : WrapAnswer) : Prop :=
  ∃ installed u dir, a.udig.digest = L.digest a.udig.algorithm (set_blob installed u dir) ∧
    (a.udig.algorithm, set_blob installed u dir) ∈ digested ∧ u.digest = L.digest u.algorithm a.log ∧
      (u.algorithm, a.log) ∈ digested

/-- The logs that have been frozen are told apart, and each is of one wrap. -/
structure Granted (L : DigestLibrary) (s : AnswerServer) : Prop where
  once : (s.frozen_logs.map List.flatten).Nodup
  granted : ∀ pid c, s.log_of pid = some c → c ∈ s.frozen_logs.map List.flatten ∧ ∀ a ∈ s.answers, a.log ≠ c
  apart : ∀ pid pid' c, s.log_of pid = some c → s.log_of pid' = some c → pid = pid'
  waiting : ∀ pid p time seq, s.server.requester? pid = some p → p.phase = .frozen time seq →
    ∃ c, s.log_of pid = some c ∧ ∀ records,
      s.server.logger.tree.file? (frozen_path (log_wrap_name time seq)) = some records → records.flatten = c
  digested : ∀ pid u, s.frozen_udig pid = some u →
    ∃ c, s.log_of pid = some c ∧ u.digest = L.digest u.algorithm c ∧ (u.algorithm, c) ∈ s.digested
  answered : ∀ a ∈ s.answers, a.log ∈ s.frozen_logs.map List.flatten ∧ AnswerOf L s.digested a

theorem kept_eq_some {α : Type} {server : WrapServer} {f : ℕ → Option α} {pid : ℕ} {v : α} :
    kept server f pid = some v ↔ (server.requester? pid).isSome ∧ f pid = some v := by
  rw [kept]
  split_ifs with h
  · exact (and_iff_right h).symm
  · exact iff_of_false nofun fun hboth => h hboth.1

theorem put_eq_some {α : Type} {f : ℕ → Option α} {pid q : ℕ} {v : Option α} {x : α} :
    put f pid v q = some x ↔ q = pid ∧ v = some x ∨ q ≠ pid ∧ f q = some x := by
  rw [put]
  split_ifs with h
  · simp [h]
  · simp [h]

theorem serve_eq_some : step L installed s (.serve e) = some s' ↔
    s.Sends e ∧ ∃ server, s.server.step L e = some server ∧ (s.note L e).move server = s' := by
  rw [step]
  split_ifs with h
  · rw [and_iff_right h, Option.map_eq_some_iff]
  · exact iff_of_false nofun fun hboth => h hboth.1

theorem freeze_frame (s : AnswerServer) (payload : Bytes) : (s.freeze payload).answers = s.answers ∧
    (s.freeze payload).wrap_set_udig = s.wrap_set_udig ∧ (s.freeze payload).digested = s.digested ∧
      (s.freeze payload).frozen_logs = s.frozen_logs ++ [s.server.logger.active] := by
  unfold freeze
  cases s.server.asking payload <;> exact ⟨rfl, rfl, rfl, rfl⟩

theorem freeze_asking {payload : Bytes} {r : Requester} (h : s.server.asking payload = some r) :
    (s.freeze payload).log_of = put s.log_of r.pid (some s.server.logger.active.flatten) ∧
      (s.freeze payload).frozen_udig = put s.frozen_udig r.pid none := by
  rw [freeze, h]
  exact ⟨rfl, rfl⟩

theorem freeze_not_asking {payload : Bytes} (h : s.server.asking payload = none) :
    (s.freeze payload).log_of = s.log_of ∧ (s.freeze payload).frozen_udig = s.frozen_udig := by
  rw [freeze, h]
  exact ⟨rfl, rfl⟩

theorem note_frame (L : DigestLibrary) (s : AnswerServer) (he : e ≠ .brr_logger) :
    (s.note L e).answers = s.answers ∧
    (s.note L e).wrap_set_udig = s.wrap_set_udig ∧ (s.note L e).frozen_logs = s.frozen_logs ∧
      (s.note L e).log_of = s.log_of := by
  cases e with
  | brr_logger => exact absurd rfl he
  | digest pid =>
    simp only [note]
    split
    · split <;> exact ⟨rfl, rfl, rfl, rfl⟩
    · exact ⟨rfl, rfl, rfl, rfl⟩
  | _ => exact ⟨rfl, rfl, rfl, rfl⟩

theorem udigs_of_append (xs ys : List Bytes) : udigs_of (xs ++ ys) = udigs_of xs ++ udigs_of ys := by
  rw [udigs_of, List.filter_append, List.filterMap_append]
  rfl

theorem active_congr {l l' : Logger}
    (h : l'.tree.file? log_path = l.tree.file? log_path) : l'.active = l.active := by
  rw [Logger.active, h]
  rfl

/-! #### The records -/

/-- Messages of which the records of wraps have the udigs of answers, none of them recorded. -/
theorem Recording.sent {messages : List Bytes} (h : Recording s)
    (hpipe : s'.server.pipe = s.server.pipe ++ messages ∨
    s'.server.pipe = []) (hactive : s'.server.logger.tree.file? log_path = s.server.logger.tree.file? log_path)
    (hfrozen : s'.frozen_logs = s.frozen_logs) (hanswers : s'.answers = s.answers)
    (hpending : ∀ pid u, s'.wrap_set_udig pid = some u → s.wrap_set_udig pid = some u ∧
      u.text ∉ udigs_of messages)
    (hmessages : ∀ payload ∈ messages, IsMessage payload) (honce : (udigs_of messages).Nodup)
    (hnew : ∀ t ∈ udigs_of messages, t ∈ s.answered ∧ t ∉ s.recorded) : Recording s' := by
  have hsame := active_congr hactive
  have hanswered : s'.answered = s.answered := by
    rw [AnswerServer.answered, hanswers]
    rfl
  have hall : s.recorded ++ udigs_of messages =
      udigs_of (s.frozen_logs.flatten ++ s.server.logger.active ++ (s.server.pipe ++ messages)) := by
    rw [recorded, ← udigs_of_append, List.append_assoc]
  have hnodup : (s.recorded ++ udigs_of messages).Nodup :=
    List.nodup_append.mpr ⟨h.once, honce, fun t ht t' ht' heq => (hnew t' ht').2 (heq ▸ ht)⟩
  have hsub : s'.recorded.Sublist (s.recorded ++ udigs_of messages) := by
    rw [hall, recorded, hfrozen, hsame]
    refine List.Sublist.filterMap _ (List.Sublist.filter _ (List.Sublist.append_left ?_ _))
    rcases hpipe with hpipe | hpipe
    · rw [hpipe]
    · rw [hpipe]
      exact List.nil_sublist _
  refine ⟨hactive ▸ h.active, ?_, ?_, hnodup.sublist hsub, ?_, ?_, ?_⟩
  · rw [hfrozen, hsame]
    exact h.lines
  · rcases hpipe with hpipe | hpipe
    · rw [hpipe, List.forall_mem_append]
      exact ⟨h.pipe, hmessages⟩
    · rw [hpipe]
      exact nofun
  · intro t ht
    rw [hanswered]
    rcases List.mem_append.mp (hsub.subset ht) with ht | ht
    · exact h.known t ht
    · exact (hnew t ht).1
  · intro pid u hu
    obtain ⟨hu, hout⟩ := hpending pid u hu
    obtain ⟨hin, hnot⟩ := h.pending pid u hu
    rw [hanswered]
    refine ⟨hin, fun ht => ?_⟩
    rcases List.mem_append.mp (hsub.subset ht) with ht | ht
    · exact hnot ht
    · exact hout ht
  · intro pid pid' u hu hu'
    exact h.apart pid pid' u (hpending pid u hu).1 (hpending pid' u hu').1

theorem isMessage_record (x : RequestChild.Recorded) : IsMessage x.record :=
  .inr ⟨decide_eq_false (Nat.ne_of_gt x.lt_record_length), record_line x⟩

theorem isMessage_request {pid : ℕ} (h : pid < 2 ^ 32) : IsMessage (wrap_request pid) :=
  .inl ⟨decide_eq_true (RequestChild.wrap_request_length (h.trans (by decide))), ok_wrap_request pid⟩

theorem requester?_of_send {server : WrapServer} {pid : ℕ} {x : RequestChild.Recorded}
    (h : s.server.step L (.brr_send pid x) = some server) : server.requester? pid = none := by
  simp only [WrapServer.step] at h
  split at h
  · split at h
    · cases h
      exact (WrapServer.requester?_leave _ _ _).trans (if_pos rfl)
    · cases h
  · cases h

/-- The record that a process sends has the udig of its own answer, if it is that of an answered wrap. -/
theorem udigs_of_record (x : RequestChild.Recorded) : udigs_of [x.record] =
    if x.data.requested.verb = .wrap ∧ x.data.chat_history = "ok".toList then
      [RequestChild.udig_text x.data.requested] else [] := by
  by_cases hok : ok_wrap x.record = true
  · rw [if_pos ((ok_wrap_record x).mp hok), udigs_of, List.filter_cons_of_pos hok]
    simp [record_udig_record]
  · rw [if_neg fun h => hok ((ok_wrap_record x).mpr h), udigs_of, List.filter_cons_of_neg hok]
    rfl

theorem Recording.elsewhere (h : Recording s) (he : e ≠ .brr_logger)
    (hs : step L installed s (.serve e) = some s') : Recording s' := by
  obtain ⟨hsends, server, hserver, rfl⟩ := serve_eq_some.mp hs
  obtain ⟨hanswers, hwrap, hlogs, -⟩ := s.note_frame L he
  have hels := WrapServer.elsewhere_of_step h.active hserver he
  have hkept : ∀ pid u, kept server (s.note L e).wrap_set_udig pid = some u →
      (server.requester? pid).isSome ∧ s.wrap_set_udig pid = some u := by
    intro pid u hu
    rw [kept_eq_some, hwrap] at hu
    exact hu
  have hquiet : udigs_of e.message?.toList = [] → (∀ payload ∈ e.message?.toList, IsMessage payload) →
      Recording ((s.note L e).move server) := by
    intro hnone hmessages
    refine h.sent hels.pipe hels.active hlogs hanswers (fun pid u hu => ⟨(hkept pid u hu).2,
      ?_⟩) hmessages ?_ ?_
    · rw [hnone]
      exact List.not_mem_nil
    · rw [hnone]
      exact List.nodup_nil
    · rw [hnone]
      exact nofun
  cases e with
  | ask pid =>
    refine hquiet ?_ ?_
    · simp [WrapEvent.message?, udigs_of, ok_wrap_request]
    · exact List.forall_mem_singleton.mpr (isMessage_request hsends)
  | brr_send pid x =>
    obtain ⟨hstart, hend, hreport⟩ := hsends
    have hmessage : (WrapEvent.brr_send pid x).message?.toList = [x.record] := by
      rw [WrapEvent.message?, RequestChild.Recorded.payload_eq hstart hend]
      rfl
    have hmessages : ∀ payload ∈ (WrapEvent.brr_send pid x).message?.toList, IsMessage payload := by
      rw [hmessage]
      exact List.forall_mem_singleton.mpr (isMessage_record x)
    by_cases hok : x.data.requested.verb = .wrap ∧ x.data.chat_history = "ok".toList
    · obtain ⟨u, hu, htext⟩ := Option.map_eq_some_iff.mp (hreport hok.1 hok.2)
      have hnew : udigs_of (WrapEvent.brr_send pid x).message?.toList = [u.text] := by
        rw [hmessage, udigs_of_record, if_pos hok, htext]
      refine h.sent hels.pipe hels.active hlogs hanswers (fun pid' u' hu' => ?_) hmessages ?_ ?_
      · obtain ⟨hsome, hu'⟩ := hkept pid' u' hu'
        rw [hnew, List.mem_singleton]
        refine ⟨hu', fun heq => ?_⟩
        obtain rfl := Udig.text_injective heq
        obtain rfl := h.apart pid' pid u' hu' hu
        rw [requester?_of_send hserver] at hsome
        cases hsome
      · rw [hnew]
        exact List.nodup_singleton _
      · rw [hnew]
        exact List.forall_mem_singleton.mpr (h.pending pid u hu)
    · refine hquiet ?_ hmessages
      rw [hmessage, udigs_of_record, if_neg hok]
  | brr_logger => exact absurd rfl he
  | _ => exact hquiet rfl nofun

theorem note_turn (L : DigestLibrary) {payload : Bytes} {rest : List Bytes}
    (hpipe : s.server.pipe = payload :: rest) :
    s.note L .brr_logger = if asks_freeze payload then s.freeze payload else s := by
  simp only [note, hpipe]

theorem Recording.same (h : Recording s) (hactive : ∃ records,
    s'.server.logger.tree.file? log_path = some records)
    (hlines : ∀ payload ∈ s'.frozen_logs.flatten ++ s'.server.logger.active, IsLine payload)
    (hpipe : ∀ payload ∈ s'.server.pipe, IsMessage payload) (hrecorded : s'.recorded = s.recorded)
    (hanswers : s'.answers = s.answers) (hpending : ∀ pid u, s'.wrap_set_udig pid = some u →
      s.wrap_set_udig pid = some u) :
    Recording s' := by
  have hanswered : s'.answered = s.answered := by
    rw [AnswerServer.answered, hanswers]
    rfl
  refine ⟨hactive, hlines, hpipe, hrecorded ▸ h.once, ?_, ?_, ?_⟩
  · rw [hrecorded, hanswered]
    exact h.known
  · intro pid u hu
    rw [hrecorded, hanswered]
    exact h.pending pid u (hpending pid u hu)
  · intro pid pid' u hu hu'
    exact h.apart pid pid' u (hpending pid u hu) (hpending pid' u hu')

/-- A turn of the logger takes no record away. -/
theorem Recording.turn (h : Recording s) (hs : step L installed s
    (.serve .brr_logger) = some s') : Recording s' := by
  obtain ⟨-, server, hserver, rfl⟩ := serve_eq_some.mp hs
  obtain ⟨payload, hpipe, hturned⟩ := WrapServer.turned_of_step h.active hserver
  have hmessages := h.pipe
  rw [hpipe, List.forall_mem_cons] at hmessages
  have hlines := h.lines
  cases hturned with
  | froze hcut htime hseq hactive hfrozen =>
    have hnot : ok_wrap payload = false := by
      rcases hmessages.1 with hasked | hline
      · exact hasked.2
      · rw [hline.1] at hcut
        cases hcut
    obtain ⟨hanswers, hwrap, -, hlogs⟩ := s.freeze_frame payload
    have hlogs' : ((s.freeze payload).move server).frozen_logs.flatten ++ server.logger.active =
        s.frozen_logs.flatten ++ s.server.logger.active := by
      rw [active_eq hactive, List.append_nil]
      exact (congrArg List.flatten hlogs).trans (by simp)
    rw [note_turn L hpipe, if_pos hcut]
    refine h.same ⟨_, hactive⟩ ?_ hmessages.2 ?_ hanswers fun pid u hu => ?_
    · rw [← hlogs'] at hlines
      exact hlines
    · change udigs_of (_ ++ server.logger.active ++ server.pipe) = _
      have hskip : udigs_of (payload :: server.pipe) = udigs_of server.pipe := by
        rw [udigs_of, List.filter_cons_of_neg (by simp [hnot])]
        rfl
      rw [hlogs', recorded, hpipe, udigs_of_append _ server.pipe, udigs_of_append _
        (payload :: server.pipe), hskip]
    · have hu' := (kept_eq_some.mp hu).2
      rwa [hwrap] at hu'
  | logged hcut hactive hfrozen =>
    have hline : IsLine payload := by
      rcases hmessages.1 with hasked | hline
      · rw [hasked.1] at hcut
        cases hcut
      · exact hline.2
    rw [note_turn L hpipe, hcut]
    refine h.same ⟨_, hactive⟩ ?_ hmessages.2 ?_ rfl fun pid u hu => (kept_eq_some.mp hu).2
    · change ∀ p ∈ s.frozen_logs.flatten ++ server.logger.active, IsLine p
      rw [active_eq hactive, ← List.append_assoc, List.forall_mem_append, List.forall_mem_singleton]
      exact ⟨hlines, hline⟩
    · change udigs_of (s.frozen_logs.flatten ++ server.logger.active ++ server.pipe) = _
      rw [active_eq hactive, recorded, hpipe]
      simp

theorem Recording.serve (h : Recording s) (hs : step L installed s (.serve e) = some s') : Recording s' :=
    by
  by_cases he : e = .brr_logger
  · subst he
    exact h.turn hs
  · exact h.elsewhere he hs

theorem Recording.answer (h : Recording s) {pid : ℕ} {a : WrapAnswer} (hserver : s'.server = s.server)
    (hfrozen : s'.frozen_logs = s.frozen_logs) (hanswers : s'.answers = s.answers ++ [a])
    (hwrap : s'.wrap_set_udig = put s.wrap_set_udig pid (some a.udig)) (hnew : a.udig.text ∉ s.answered) :
    Recording s' := by
  have hrecorded : s'.recorded = s.recorded := by
    rw [recorded, hserver, hfrozen]
    rfl
  have hanswered : s'.answered = s.answered ++ [a.udig.text] := by
    rw [AnswerServer.answered, hanswers, List.map_append]
    rfl
  refine ⟨hserver ▸ h.active, ?_, hserver ▸ h.pipe, hrecorded ▸ h.once, ?_, ?_, ?_⟩
  · rw [hfrozen, hserver]
    exact h.lines
  · rw [hrecorded, hanswered]
    exact fun t ht => List.mem_append_left _ (h.known t ht)
  · intro q u hu
    rw [hwrap, put_eq_some] at hu
    rw [hrecorded, hanswered]
    rcases hu with ⟨-, hu⟩ | ⟨-, hu⟩
    · cases hu
      exact ⟨by simp, fun ht => hnew (h.known _ ht)⟩
    · obtain ⟨hin, hnot⟩ := h.pending q u hu
      exact ⟨List.mem_append_left _ hin, hnot⟩
  · intro q q' u hu hu'
    rw [hwrap, put_eq_some] at hu hu'
    rcases hu with ⟨rfl, hu⟩ | ⟨-, hu⟩
    · rcases hu' with ⟨rfl, -⟩ | ⟨-, hu'⟩
      · rfl
      · cases hu
        exact absurd (h.pending q' _ hu').1 hnew
    · rcases hu' with ⟨rfl, hu'⟩ | ⟨-, hu'⟩
      · cases hu'
        exact absurd (h.pending q _ hu).1 hnew
      · exact h.apart q q' u hu hu'

/-! #### The logs -/

theorem exists_lines {payloads : List Bytes} (h : ∀ payload ∈ payloads, IsLine payload) :
    ∃ lines : List Bytes, (∀ l ∈ lines, 10 ∉ l) ∧ payloads = lines.map (· ++ [10]) := by
  induction payloads with
  | nil => exact ⟨[], nofun, rfl⟩
  | cons payload payloads ih =>
    rw [List.forall_mem_cons] at h
    obtain ⟨⟨l, hl, rfl⟩, hrest⟩ := h
    obtain ⟨lines, hlines, rfl⟩ := ih hrest
    exact ⟨l :: lines, List.forall_mem_cons.mpr ⟨hl, hlines⟩, rfl⟩

theorem flatten_lines (lines : List Bytes) : (lines.map (· ++ [10])).flatten = terminated 10 lines := by
  rw [terminated, List.flatMap_def]

/-- The records of a log can be told from its bytes. -/
theorem flatten_injective {log log' : List Bytes} (h : ∀ payload ∈ log, IsLine payload)
    (h' : ∀ payload ∈ log', IsLine payload) (heq : log.flatten = log'.flatten) : log = log' := by
  obtain ⟨lines, hlines, rfl⟩ := exists_lines h
  obtain ⟨lines', hlines', rfl⟩ := exists_lines h'
  rw [flatten_lines, flatten_lines] at heq
  rw [terminated_injective hlines hlines' heq]

theorem mem_udigs_of {payload : Bytes} {payloads : List Bytes} (hmem : payload ∈ payloads)
    (hok : ok_wrap payload = true) : ∃ t, record_udig payload = some t ∧ t ∈ udigs_of payloads := by
  have hfields := hok
  rw [ok_wrap, decide_eq_true_eq] at hfields
  obtain ⟨hlt, -⟩ := List.getElem?_eq_some_iff.mp hfields.2
  have hsome : record_udig payload = some _ := List.getElem?_eq_getElem (Nat.lt_of_succ_lt hlt)
  exact ⟨_, hsome, List.mem_filterMap.mpr ⟨payload, List.mem_filter.mpr ⟨hmem, hok⟩, hsome⟩⟩

/-- A log with a record of a wrap is none of those that were frozen before. -/
theorem Recording.fresh (h : Recording s) (hmark : s.server.logger.active.any ok_wrap = true) :
    s.server.logger.active.flatten ∉ s.frozen_logs.map List.flatten := by
  intro hmem
  obtain ⟨log, hlog, heq⟩ := List.mem_map.mp hmem
  obtain ⟨payload, hpayload, hok⟩ := List.any_eq_true.mp hmark
  have hlines := h.lines
  rw [List.forall_mem_append] at hlines
  have hsub : ∀ p ∈ log, p ∈ s.frozen_logs.flatten := fun p hp => List.mem_flatten.mpr ⟨log, hlog, hp⟩
  obtain rfl := flatten_injective (fun p hp => hlines.1 p (hsub p hp)) hlines.2 heq
  obtain ⟨t, ht, hfrozen⟩ := mem_udigs_of (hsub payload hpayload) hok
  obtain ⟨t', ht', hactive⟩ := mem_udigs_of hpayload hok
  obtain rfl := Option.some.inj (ht.symm.trans ht')
  have honce := h.once
  rw [recorded, udigs_of_append, udigs_of_append] at honce
  exact (List.nodup_append.mp (List.nodup_append.mp honce).1).2.2 t hfrozen t hactive rfl

theorem AnswerOf.mono {digested digested' : List (DigestModule × Bytes)} {a : WrapAnswer}
    (h : AnswerOf L digested a)
    (hsub : digested ⊆ digested') : AnswerOf L digested' a := by
  obtain ⟨installed, u, dir, hudig, hset, hu, hlog⟩ := h
  exact ⟨installed, u, dir, hudig, hsub hset, hu, hsub hlog⟩

theorem note_digested (L : DigestLibrary) (s : AnswerServer) (he : e ≠ .brr_logger) :
    s.digested ⊆ (s.note L e).digested ∧ ∀ pid u, (s.note L e).frozen_udig pid = some u →
      s.frozen_udig pid = some u ∨ ∃ p time seq records, s.server.requester? pid = some p ∧
        p.phase = .frozen time seq ∧
          s.server.logger.tree.file? (frozen_path (log_wrap_name time seq)) = some records ∧
            u.digest = L.digest u.algorithm records.flatten ∧
              (u.algorithm, records.flatten) ∈ (s.note L e).digested := by
  cases e with
  | brr_logger => exact absurd rfl he
  | digest pid =>
    simp only [note]
    split
    · rename_i m time seq hrequester
      split
      · rename_i records hrecords
        refine ⟨List.subset_append_left _ _, fun q u hu => ?_⟩
        change put s.frozen_udig pid (some ⟨m, L.digest m records.flatten⟩) q = some u at hu
        rcases put_eq_some.mp hu with ⟨rfl, hudig⟩ | ⟨-, hu⟩
        · cases hudig
          exact .inr ⟨_, time, seq, records, hrequester, rfl, hrecords, rfl, by simp⟩
        · exact .inl hu
      · exact ⟨List.Subset.refl _, fun _ _ hu => .inl hu⟩
    · exact ⟨List.Subset.refl _, fun _ _ hu => .inl hu⟩
  | _ => exact ⟨List.Subset.refl _, fun _ _ hu => .inl hu⟩

theorem Granted.elsewhere (h : Granted L s) (hactive : ∃ records,
    s.server.logger.tree.file? log_path = some records)
    (he : e ≠ .brr_logger) (hs : step L installed s (.serve e) = some s') : Granted L s' := by
  obtain ⟨-, server, hserver, rfl⟩ := serve_eq_some.mp hs
  obtain ⟨hanswers, -, hlogs, hlog⟩ := s.note_frame L he
  obtain ⟨hsub, hnote⟩ := s.note_digested L he
  have hels := WrapServer.elsewhere_of_step hactive hserver he
  have hkept : ∀ pid c, kept server (s.note L e).log_of pid = some c ↔
      (server.requester? pid).isSome ∧ s.log_of pid = some c := by
    intro pid c
    rw [kept_eq_some, hlog]
  refine ⟨?_, fun pid c hc => ?_, fun pid pid' c hc hc' => ?_, fun pid p time seq hp hphase => ?_,
    fun pid u hu => ?_, ?_⟩
  · change ((s.note L e).frozen_logs.map List.flatten).Nodup
    rw [hlogs]
    exact h.once
  · change c ∈ (s.note L e).frozen_logs.map List.flatten ∧ ∀ a ∈ (s.note L e).answers, a.log ≠ c
    rw [hlogs, hanswers]
    exact h.granted pid c ((hkept pid c).mp hc).2
  · exact h.apart pid pid' c ((hkept pid c).mp hc).2 ((hkept pid' c).mp hc').2
  · rcases WrapServer.frozen_of_step hserver hp hphase with hp' | ⟨hturn, -⟩
    · obtain ⟨c, hc, hrecords⟩ := h.waiting pid p time seq hp' hphase
      exact ⟨c, (hkept pid c).mpr ⟨Option.isSome_of_eq_some hp, hc⟩,
        fun records hfile => hrecords records (hels.frozen time seq records hfile)⟩
    · exact absurd hturn he
  · obtain ⟨hsome, hu⟩ := kept_eq_some.mp hu
    rcases hnote pid u hu with hu | ⟨p, time, seq, records, hp, hphase, hfile, hudig, hmem⟩
    · obtain ⟨c, hc, hudig, hmem⟩ := h.digested pid u hu
      exact ⟨c, (hkept pid c).mpr ⟨hsome, hc⟩, hudig, hsub hmem⟩
    · obtain ⟨c, hc, hrecords⟩ := h.waiting pid p time seq hp hphase
      rw [hrecords records hfile] at hudig hmem
      exact ⟨c, (hkept pid c).mpr ⟨hsome, hc⟩, hudig, hmem⟩
  · change ∀ a ∈ (s.note L e).answers, a.log ∈ (s.note L e).frozen_logs.map List.flatten ∧
      AnswerOf L (s.note L e).digested a
    rw [hanswers, hlogs]
    exact fun a ha => ⟨(h.answered a ha).1, (h.answered a ha).2.mono hsub⟩

/-- A freeze grants its log to one wrap. -/
theorem Granted.freeze (h : Granted L s) {payload : Bytes}
    (hfresh : s.server.logger.active.flatten ∉ s.frozen_logs.map List.flatten) :
    (((s.freeze payload).frozen_logs).map List.flatten).Nodup ∧
      (∀ pid c, (s.freeze payload).log_of pid = some c →
        c ∈ (s.freeze payload).frozen_logs.map List.flatten ∧ ∀ a ∈ s.answers, a.log ≠ c) ∧
      ∀ pid pid' c, (s.freeze payload).log_of pid = some c → (s.freeze payload).log_of pid' = some c →
        pid = pid' := by
  have hlogs : (s.freeze payload).frozen_logs.map List.flatten =
      s.frozen_logs.map List.flatten ++ [s.server.logger.active.flatten] := by
    rw [(s.freeze_frame payload).2.2.2, List.map_append]
    rfl
  have hlog : ∀ pid c, (s.freeze payload).log_of pid = some c → s.log_of pid = some c ∨
      (s.server.asking payload).map Requester.pid = some pid ∧ c = s.server.logger.active.flatten := by
    intro pid c hc
    cases hasking : s.server.asking payload with
    | none =>
      rw [(freeze_not_asking hasking).1] at hc
      exact .inl hc
    | some r =>
      rw [(freeze_asking hasking).1] at hc
      rcases put_eq_some.mp hc with ⟨rfl, hlog⟩ | ⟨-, hc⟩
      · exact .inr ⟨rfl, (Option.some.inj hlog).symm⟩
      · exact .inl hc
  rw [hlogs]
  refine ⟨?_, fun pid c hc => ?_, fun pid pid' c hc hc' => ?_⟩
  · exact List.nodup_append_comm.mp (List.nodup_cons.mpr ⟨hfresh, h.once⟩)
  · rcases hlog pid c hc with hc | ⟨-, rfl⟩
    · exact ⟨List.mem_append_left _ (h.granted pid c hc).1, (h.granted pid c hc).2⟩
    · exact ⟨by simp, fun a ha heq => hfresh (heq ▸ (h.answered a ha).1)⟩
  · rcases hlog pid c hc with hc | ⟨hr, rfl⟩
    · rcases hlog pid' c hc' with hc' | ⟨-, rfl⟩
      · exact h.apart pid pid' c hc hc'
      · exact absurd (h.granted pid _ hc).1 hfresh
    · rcases hlog pid' _ hc' with hc' | ⟨hr', -⟩
      · exact absurd (h.granted pid' _ hc').1 hfresh
      · exact Option.some.inj (hr.symm.trans hr')

/-- The variables of the wraps that a freeze is not for. -/
theorem freeze_frozen_udig {payload : Bytes} {pid : ℕ} {u : Udig} (hu :
    (s.freeze payload).frozen_udig pid = some u) :
    s.frozen_udig pid = some u ∧ (s.freeze payload).log_of pid = s.log_of pid := by
  cases hasking : s.server.asking payload with
  | none =>
    rw [(freeze_not_asking hasking).2] at hu
    exact ⟨hu, by rw [(freeze_not_asking hasking).1]⟩
  | some r =>
    rw [(freeze_asking hasking).2] at hu
    rcases put_eq_some.mp hu with ⟨-, hnone⟩ | ⟨hne, hu⟩
    · cases hnone
    · exact ⟨hu, by rw [(freeze_asking hasking).1, put, if_neg hne]⟩

/-- Behind a freeze each wrap that waits for a log has the log of that name. -/
theorem Granted.waiting_of_freeze (h : Granted L s) {server : WrapServer} {payload : Bytes}
    (hserver : s.server.step L .brr_logger = some server) (hpipe : s.server.pipe = payload :: server.pipe)
    (hcut : asks_freeze payload = true)
    (hfree : ∀ p ∈ s.server.requesters, p.awaits s.server.logger.time (s.server.logger.seq + 1) = false)
    (hfrozen : ∀ time seq, server.logger.tree.file? (frozen_path (log_wrap_name time seq)) =
      if log_wrap_name time seq = log_wrap_name s.server.logger.time (s.server.logger.seq + 1) then
        some s.server.logger.active
      else s.server.logger.tree.file? (frozen_path (log_wrap_name time seq)))
    (htime : server.logger.time = s.server.logger.time) (hseq : server.logger.seq = s.server.logger.seq + 1)
    {pid : ℕ} {p : Requester} {time : ℕ} {seq : UInt16} (hp : server.requester? pid = some p)
    (hphase : p.phase = .frozen time seq) :
    ∃ c, kept server (s.freeze payload).log_of pid = some c ∧ ∀ records,
      server.logger.tree.file? (frozen_path (log_wrap_name time seq)) = some records →
        records.flatten = c := by
  have hsome : (server.requester? pid).isSome := Option.isSome_of_eq_some hp
  by_cases hasked : (s.server.asking payload).map Requester.pid = some pid
  · obtain ⟨r, hasking, rfl⟩ := Option.map_eq_some_iff.mp hasked
    have hturn : s.server.turn payload server.pipe = some server := by
      have hstep := hserver
      simp only [WrapServer.step, hpipe] at hstep
      split at hstep
      · rename_i heq
        cases heq
        exact hstep
      · cases hstep
    obtain ⟨rfl, rfl⟩ := WrapPhase.frozen.inj (hphase.symm.trans
      (WrapServer.phase_of_turn hturn hcut hasking hp))
    refine ⟨s.server.logger.active.flatten, kept_eq_some.mpr ⟨hsome, ?_⟩, fun records hfile => ?_⟩
    · rw [(freeze_asking hasking).1, put, if_pos rfl]
    · rw [hfrozen, htime, hseq, if_pos rfl] at hfile
      rw [Option.some.inj hfile]
  · rcases WrapServer.frozen_of_step hserver hp hphase with hp' | ⟨-, payload', hhead, -, hasked', -⟩
    · obtain ⟨c, hc, hrecords⟩ := h.waiting pid p time seq hp' hphase
      have hname : ¬ log_wrap_name time seq = log_wrap_name s.server.logger.time
        (s.server.logger.seq + 1) := by
        intro hname
        have hawaits := hfree p (List.mem_of_find?_eq_some hp')
        rw [Requester.awaits, hphase] at hawaits
        simp [hname] at hawaits
      refine ⟨c, kept_eq_some.mpr ⟨hsome, ?_⟩, fun records hfile => hrecords records ?_⟩
      · cases hasking : s.server.asking payload with
        | none =>
          rw [(freeze_not_asking hasking).1]
          exact hc
        | some r =>
          rw [hasking] at hasked
          rw [(freeze_asking hasking).1, put, if_neg fun heq => hasked (congrArg some heq.symm)]
          exact hc
      · rw [hfrozen, if_neg hname] at hfile
        exact hfile
    · rw [hpipe] at hhead
      obtain rfl := Option.some.inj hhead
      exact absurd hasked' hasked

theorem Granted.turn (h : Granted L s) (hrecording : Recording s) (hapart : ToldApart s
    (.serve .brr_logger))
    (hs : step L installed s (.serve .brr_logger) = some s') : Granted L s' := by
  obtain ⟨-, server, hserver, rfl⟩ := serve_eq_some.mp hs
  obtain ⟨payload, hpipe, hturned⟩ := WrapServer.turned_of_step hrecording.active hserver
  cases hturned with
  | logged hcut hactive hfrozen =>
    rw [note_turn L hpipe, hcut]
    refine ⟨h.once, fun pid c hc => h.granted pid c (kept_eq_some.mp hc).2,
      fun pid pid' c hc hc' => h.apart pid pid' c (kept_eq_some.mp hc).2 (kept_eq_some.mp hc').2,
      fun pid p time seq hp hphase => ?_, fun pid u hu => ?_, h.answered⟩
    · rcases WrapServer.frozen_of_step hserver hp hphase with hp' | ⟨-, payload', hhead, hcut', -⟩
      · obtain ⟨c, hc, hrecords⟩ := h.waiting pid p time seq hp' hphase
        refine ⟨c, kept_eq_some.mpr ⟨Option.isSome_of_eq_some hp, hc⟩,
          fun records hfile => hrecords records ?_⟩
        exact (hfrozen time seq).symm.trans hfile
      · rw [hpipe] at hhead
        obtain rfl := Option.some.inj hhead
        rw [hcut] at hcut'
        cases hcut'
    · obtain ⟨hsome, hu⟩ := kept_eq_some.mp hu
      obtain ⟨c, hc, hudig, hmem⟩ := h.digested pid u hu
      exact ⟨c, kept_eq_some.mpr ⟨hsome, hc⟩, hudig, hmem⟩
  | froze hcut htime hseq hactive hfrozen =>
    have hfreezes : s.freezes (.serve .brr_logger) = true := by
      rw [freezes, hpipe]
      exact hcut
    obtain ⟨hfree, hdistinct⟩ := hapart hfreezes
    have hfresh : s.server.logger.active.flatten ∉ s.frozen_logs.map List.flatten := by
      rcases hdistinct with hmark | hfresh
      · exact hrecording.fresh hmark
      · exact hfresh
    obtain ⟨honce, hgranted, hone⟩ := h.freeze hfresh
    obtain ⟨hanswers, -, hdigested, hlogs⟩ := s.freeze_frame payload
    rw [note_turn L hpipe, if_pos hcut]
    refine ⟨honce, fun pid c hc => ?_, fun pid pid' c hc hc' => hone pid pid' c (kept_eq_some.mp hc).2
      (kept_eq_some.mp hc').2,
      fun pid p time seq hp hphase => ?_, fun pid u hu => ?_, fun a ha => ?_⟩
    · change c ∈ (s.freeze payload).frozen_logs.map List.flatten ∧ ∀ a ∈ (s.freeze payload).answers,
      a.log ≠ c
      rw [hanswers]
      exact hgranted pid c (kept_eq_some.mp hc).2
    · exact h.waiting_of_freeze hserver hpipe hcut hfree hfrozen htime hseq hp hphase
    · obtain ⟨hsome, hu⟩ := kept_eq_some.mp hu
      obtain ⟨hu, hlog⟩ := freeze_frozen_udig hu
      obtain ⟨c, hc, hudig, hmem⟩ := h.digested pid u hu
      exact ⟨c, kept_eq_some.mpr ⟨hsome, hlog.trans hc⟩, hudig, hdigested.symm ▸ hmem⟩
    · change a ∈ (s.freeze payload).answers at ha
      rw [hanswers] at ha
      change a.log ∈ (s.freeze payload).frozen_logs.map List.flatten ∧ AnswerOf L
        (s.freeze payload).digested a
      rw [hlogs, hdigested, List.map_append]
      exact ⟨List.mem_append_left _ (h.answered a ha).1, (h.answered a ha).2⟩

/-! #### The answers -/

theorem latin_udig_text (u : Udig) : ∀ c ∈ u.text, c.toNat < 256 ∧ c ≠ '\n' := by
  have hname : ∀ c ∈ u.algorithm.name, c.toNat < 256 ∧ c ≠ '\n' := by
    cases u.algorithm <;> decide
  have hhex : ∀ c ∈ nib2hex, c.toNat < 256 ∧ c ≠ '\n' := by decide
  rw [Udig.text, List.forall_mem_append, List.forall_mem_cons]
  exact ⟨hname, by decide, fun c hc => hhex c (u.digest.hex_chars c hc)⟩

/-- The first line of a set is the udig of the log that has been frozen for it. -/
theorem set_blob_udig {installed installed' : Installed} {u u' : Udig} {dir dir' : SpoolWrap}
    (h : set_blob installed u dir = set_blob installed' u' dir') : u = u' := by
  have hline : ∀ (installed : Installed) (u : Udig) (dir : SpoolWrap),
      (set_blob installed u dir).takeWhile (· ≠ 10) = u.text.map Char.toUInt8 := by
    intro installed u dir
    have hbytes : ∀ b ∈ u.text.map Char.toUInt8, decide (b ≠ 10) = true := by
      intro b hb
      obtain ⟨c, hc, rfl⟩ := List.mem_map.mp hb
      obtain ⟨hlatin, hne⟩ := latin_udig_text u c hc
      refine decide_eq_true fun heq => hne (Char.toNat_inj.mp ?_)
      have hnat : c.toUInt8.toNat = c.toNat := Nat.mod_eq_of_lt hlatin
      rw [heq] at hnat
      exact hnat.symm
    rw [set_blob, WrapSets.wrap_set, put_wrap_set, List.append_assoc, List.map_append,
      List.takeWhile_append_of_pos hbytes, List.append_right_eq_self]
    rfl
  have htext : u.text.map Char.toUInt8 = u'.text.map Char.toUInt8 := by
    rw [← hline installed u dir, h, hline]
  refine Udig.text_injective ?_
  rw [← chars_of_bytes fun c hc => (latin_udig_text u c hc).1, htext,
    chars_of_bytes fun c hc => (latin_udig_text u' c hc).1]

/-- The answers for two logs are different, as long as no digests collide. -/
theorem AnswerOf.log_eq {digested : List (DigestModule × Bytes)} {a a' : WrapAnswer}
    (hfree : CollisionFree L digested)
    (h : AnswerOf L digested a) (h' : AnswerOf L digested a') (heq : a.udig = a'.udig) : a.log = a'.log :=
      by
  obtain ⟨installed, u, dir, hudig, hset, hu, hlog⟩ := h
  obtain ⟨installed', u', dir', hudig', hset', hu', hlog'⟩ := h'
  rw [heq] at hudig hset
  have hblob := hfree _ _ _ hset hset' (hudig.symm.trans hudig')
  obtain rfl := set_blob_udig hblob
  exact hfree _ _ _ hlog hlog' (hu.symm.trans hu')

/-- What an answer does. -/
structure Answered (L : DigestLibrary) (s s' : AnswerServer) (pid : ℕ) (c : Bytes) (u : Udig) : Prop where
  requester : ∃ p, s.server.requester? pid = some p ∧ p.phase = .spooled
  frozen_udig : s.frozen_udig pid = some u
  log : s.log_of pid = some c
  eq : ∃ a m installed dir, a.log = c ∧ a.udig = ⟨m, L.digest m (set_blob installed u dir)⟩ ∧ s' = { s with
    frozen_udig := put s.frozen_udig pid none
    wrap_set_udig := put s.wrap_set_udig pid (some a.udig)
    log_of := put s.log_of pid none
    answers := s.answers ++ [a]
    digested := s.digested ++ [(m, set_blob installed u dir)] }

theorem Granted.answered_of_step (h : Granted L s) {pid : ℕ} {dir : SpoolWrap}
    (hs : step L installed s (.answer pid dir) = some s') : ∃ c u, Answered L s s' pid c u := by
  simp only [step] at hs
  split at hs
  · rename_i m u hrequester hfrozen
    cases hs
    obtain ⟨c, hc, -⟩ := h.digested pid u hfrozen
    exact ⟨c, u, ⟨_, hrequester, rfl⟩, hfrozen, hc, ⟨⟨m, L.digest m (set_blob installed u dir)⟩,
      (s.log_of pid).getD []⟩,
      m, installed, dir, by rw [hc]; rfl, rfl, rfl⟩
  · cases hs

theorem Granted.answer (h : Granted L s) {pid : ℕ} {c : Bytes} {u : Udig} (hs : Answered L s s' pid c u) :
    Granted L s' := by
  obtain ⟨⟨p, hp, hspooled⟩, hfrozen, hlog, a, m, installed, dir, rfl, hudig, rfl⟩ := hs
  obtain ⟨c, hc, hdigest, hmem⟩ := h.digested pid u hfrozen
  obtain rfl := Option.some.inj (hlog.symm.trans hc)
  have hsub : s.digested ⊆ s.digested ++ [(m, set_blob installed u dir)] := List.subset_append_left _ _
  refine ⟨h.once, fun q c hc => ?_, fun q q' c hc hc' => ?_, fun q p' time seq hp' hphase => ?_,
    fun q u' hu' => ?_, ?_⟩
  · rcases put_eq_some.mp hc with ⟨-, hnone⟩ | ⟨hne, hc⟩
    · cases hnone
    · refine ⟨(h.granted q c hc).1, ?_⟩
      rw [List.forall_mem_append, List.forall_mem_singleton]
      exact ⟨(h.granted q c hc).2, fun heq => hne (h.apart q pid c hc (heq ▸ hlog))⟩
  · rcases put_eq_some.mp hc with ⟨-, hnone⟩ | ⟨-, hc⟩
    · cases hnone
    · rcases put_eq_some.mp hc' with ⟨-, hnone⟩ | ⟨-, hc'⟩
      · cases hnone
      · exact h.apart q q' c hc hc'
  · obtain ⟨c, hc, hrecords⟩ := h.waiting q p' time seq hp' hphase
    refine ⟨c, put_eq_some.mpr (.inr ⟨?_, hc⟩), hrecords⟩
    rintro rfl
    obtain rfl := Option.some.inj (hp.symm.trans hp')
    rw [hspooled] at hphase
    cases hphase
  · rcases put_eq_some.mp hu' with ⟨-, hnone⟩ | ⟨hne, hu'⟩
    · cases hnone
    · obtain ⟨c, hc, hdigest', hmem'⟩ := h.digested q u' hu'
      exact ⟨c, put_eq_some.mpr (.inr ⟨hne, hc⟩), hdigest', hsub hmem'⟩
  · rw [List.forall_mem_append, List.forall_mem_singleton]
    refine ⟨fun a ha => ⟨(h.answered a ha).1, (h.answered a ha).2.mono hsub⟩, (h.granted pid _ hlog).1, ?_⟩
    exact ⟨installed, u, dir, by rw [hudig], by rw [hudig]; simp, hdigest, hsub hmem⟩

/-- The log that an answer is for has had no answer. -/
theorem Granted.fresh_answer (h : Granted L s) {pid : ℕ} {c : Bytes} {u : Udig}
    (hs : Answered L s s' pid c u)
    (hfree : CollisionFree L s'.digested) :
    ∃ a, s'.answers = s.answers ++ [a] ∧ s'.wrap_set_udig = put s.wrap_set_udig pid (some a.udig) ∧
      a.udig.text ∉ s.answered := by
  have hgranted := h.answer hs
  obtain ⟨-, -, hlog, a, m, installed, dir, rfl, hudig, rfl⟩ := hs
  refine ⟨a, rfl, rfl, fun hmem => ?_⟩
  obtain ⟨a', ha', htext⟩ := List.mem_map.mp hmem
  have hold := (hgranted.answered a' (List.mem_append_left _ ha')).2
  have hnew := (hgranted.answered a (by simp)).2
  exact (h.granted pid _ hlog).2 a' ha' (hold.log_eq hfree hnew (Udig.text_injective htext))

/-- As long as no digests collide the answers are different. -/
structure Distinct (L : DigestLibrary) (s : AnswerServer) : Prop where
  recording : Recording s
  granted : Granted L s
  answers : s.answered.Nodup

theorem step_digested {f : AnswerEvent} (h : step L installed s f = some s') : s.digested ⊆ s'.digested :=
    by
  cases f with
  | serve e =>
    obtain ⟨-, server, -, rfl⟩ := serve_eq_some.mp h
    by_cases he : e = .brr_logger
    · subst he
      change s.digested ⊆ (s.note L .brr_logger).digested
      cases hpipe : s.server.pipe with
      | nil => simp [note, hpipe]
      | cons payload rest =>
        rw [note_turn L hpipe]
        split_ifs with hcut
        · rw [(s.freeze_frame payload).2.2.1]
          exact List.Subset.refl _
        · exact List.Subset.refl _
    · exact (s.note_digested L he).1
  | answer pid dir =>
    simp only [step] at h
    split at h
    · cases h
      exact List.subset_append_left _ _
    · cases h

theorem Distinct.step {f : AnswerEvent} (h : Distinct L s) (hapart : ToldApart s f)
    (hfree : CollisionFree L s'.digested)
    (hs : step L installed s f = some s') : Distinct L s' := by
  cases f with
  | serve e =>
    have hanswered : s'.answered = s.answered := by
      obtain ⟨-, server, -, rfl⟩ := serve_eq_some.mp hs
      have hanswers : (s.note L e).answers = s.answers := by
        by_cases he : e = .brr_logger
        · subst he
          cases hpipe : s.server.pipe with
          | nil => simp [note, hpipe]
          | cons payload rest =>
            rw [note_turn L hpipe]
            split_ifs with hcut
            · exact (s.freeze_frame payload).1
            · rfl
        · exact (s.note_frame L he).1
      exact congrArg (List.map fun a => a.udig.text) hanswers
    refine ⟨h.recording.serve hs, ?_, hanswered ▸ h.answers⟩
    by_cases he : e = .brr_logger
    · subst he
      exact h.granted.turn h.recording hapart hs
    · exact h.granted.elsewhere h.recording.active he hs
  | answer pid dir =>
    obtain ⟨c, u, hanswered⟩ := h.granted.answered_of_step hs
    obtain ⟨a, hanswers, hwrap, hnew⟩ := h.granted.fresh_answer hanswered hfree
    have heq : s'.server = s.server ∧ s'.frozen_logs = s.frozen_logs := by
      obtain ⟨-, -, -, -, -, -, -, -, -, rfl⟩ := hanswered
      exact ⟨rfl, rfl⟩
    refine ⟨h.recording.answer heq.1 heq.2 hanswers hwrap hnew, h.granted.answer hanswered, ?_⟩
    rw [answered, hanswers, List.map_append]
    exact List.nodup_append_comm.mp (List.nodup_cons.mpr ⟨hnew, h.answers⟩)

theorem distinct_started (L : DigestLibrary) (time : ℕ) : Distinct L (.started time) := by
  have hactive := (intact_started time).active
  have hempty : (Logger.started time).active = [] := by
    have hfile : (Logger.started time).tree.file? log_path = some [] := by
      rw [FileTree.file?_eq_some, started_tree, if_pos rfl]
    exact active_eq hfile
  have hrecorded : (started time).recorded = [] := by
    change udigs_of ([] ++ (Logger.started time).active ++ []) = []
    rw [hempty]
    rfl
  refine ⟨⟨hactive, ?_, nofun, ?_, ?_, nofun, nofun⟩, ⟨List.nodup_nil, nofun, nofun, nofun, nofun, nofun⟩,
    List.nodup_nil⟩
  · change ∀ payload ∈ [] ++ (Logger.started time).active, IsLine payload
    rw [hempty]
    exact nofun
  · rw [hrecorded]
    exact List.nodup_nil
  · rw [hrecorded]
    exact nofun

end AnswerServer

/-- In a run in which the logs are told apart when they are frozen no two wraps are answered with the same
udig, unless two digests collide. -/
theorem wrap_answers_distinct {L : DigestLibrary} {installed : Installed} (time : ℕ) {es : List AnswerEvent}
    {s : AnswerServer} (hapart : Along (AnswerServer.step L installed) ToldApart (.started time) es)
    (hrun : exec (AnswerServer.step L installed) (.started time) es = some s)
    (hfree : CollisionFree L s.digested) : (s.answers.map WrapAnswer.udig).Nodup := by
  have hdistinct : CollisionFree L s.digested → AnswerServer.Distinct L s := by
    refine invariant_along (I := fun s => CollisionFree L s.digested → AnswerServer.Distinct L s) ?_
      (fun _ => AnswerServer.distinct_started L time) hapart hrun
    intro s e s' h he hs hfree
    exact (h (hfree.mono (AnswerServer.step_digested hs))).step he hfree hs
  refine List.Nodup.of_map Udig.text ?_
  rw [List.map_map]
  exact (hdistinct hfree).answers

/-! ### Two answers -/

section examples

instance (L : DigestLibrary) (digested : List (DigestModule × Bytes)) : Decidable
    (CollisionFree L digested) :=
  decidable_of_iff (∀ p ∈ digested, ∀ q ∈ digested, p.1 = q.1 → L.digest p.1 p.2 = L.digest q.1 q.2 →
    p.2 = q.2)
    ⟨fun h m x y hx hy => h (m, x) hx (m, y) hy rfl, fun h p hp q hq heq => by
      obtain ⟨m, x⟩ := p
      obtain ⟨m', y⟩ := q
      obtain rfl : m = m' := heq
      exact h m x y hp hq⟩

def set_of (lines : List String) : Bytes :=
  (lines.flatMap fun l => l.toList ++ ['\n']).map Char.toUInt8

/-- The hashes of the empty log, of the log with the record of its wrap, and of the sets of both. -/
def known_set_hash (m : DigestModule) (blob : Bytes) : Bytes :=
  if blob = [] then m.empty.raw
  else if blob = set_of ["sha:da39a3ee5e6b4b0d3255bfef95601890afd80709"] then
    decode_hex "d9b83dcfbf8ff8d810838c9a0a8bd4b69a17f212".toList
  else if blob = set_of ["sha:d8bfc738e84bdf877abe259d5ca1eeeabecc6c9d",
      "sha:da39a3ee5e6b4b0d3255bfef95601890afd80709"] then
    decode_hex "f6faea4c5f6f5266c1391d4e57083879a737f644".toList
  else decode_hex "d8bfc738e84bdf877abe259d5ca1eeeabecc6c9d".toList

def known_set_digests : DigestLibrary where
  Context := Bytes
  init _ := []
  update _ ctx chunk := ctx ++ chunk
  final := known_set_hash
  H := known_set_hash
  final_foldl m chunks := by
    have hfold : ∀ ctx : Bytes, chunks.foldl (· ++ ·) ctx = ctx ++ chunks.flatten := by
      induction chunks with
      | nil => simp
      | cons c cs ih => simp [ih]
    exact congrArg (known_set_hash m) (hfold [])
  length_H m blob := by
    unfold known_set_hash
    split_ifs
    · cases m <;> rfl
    · rfl
    · rfl
    · rfl
  H_nil _ := rfl

def one_log : SpoolWrap where
  entries := [⟨".".toList, .other⟩, ⟨"..".toList, .other⟩, log_entry empty_log]
  nodup_names := by decide +kernel

def both_logs : SpoolWrap where
  entries := [⟨".".toList, .other⟩, ⟨"..".toList, .other⟩, log_entry empty_log, log_entry wrapped_udig]
  nodup_names := by decide +kernel

/-- A wrap that ends, and the wrap of the log with its record. -/
def answers_in_turn : List AnswerEvent :=
  (wrap_log 7).map .serve ++ [.answer 7 one_log, .serve (.brr_send 7 (wrap_at 1700000000)),
    .serve .brr_logger] ++
    (wrap_log 9).map .serve ++ [.answer 9 both_logs]

theorem answers_in_turn_distinct :
    ∃ s ∈ exec (AnswerServer.step known_set_digests every_module) (.started 4198448) answers_in_turn,
      s.answers.length = 2 ∧ (s.answers.map WrapAnswer.udig).Nodup := by
  have hend : ∃ s ∈ exec (AnswerServer.step known_set_digests every_module)
    (.started 4198448) answers_in_turn,
      s.answers.length = 2 ∧ CollisionFree known_set_digests s.digested := by
    decide +kernel
  have hapart : Along (AnswerServer.step known_set_digests every_module) ToldApart (.started 4198448)
      answers_in_turn := by
    decide +kernel
  obtain ⟨s, hrun, hlength, hfree⟩ := hend
  exact ⟨s, hrun, hlength, wrap_answers_distinct 4198448 hapart hrun hfree⟩

/-- Two wraps that freeze an empty log each. -/
def answers_overlapping : List AnswerEvent :=
  [.serve (.fork 7 .wrap .sha), .serve (.fork 9 .wrap .sha), .serve (.ask 7), .serve (.ask 9),
    .serve .brr_logger,
    .serve .brr_logger, .serve (.digest 7), .serve (.spool 7), .answer 7 one_log, .serve (.digest 9),
    .serve (.spool 9), .answer 9 one_log]

theorem wrap_answers_not_always_distinct : ¬ ∀ (L : DigestLibrary) (installed : Installed) (time : ℕ)
    (es : List AnswerEvent) (s : AnswerServer), exec (AnswerServer.step L installed)
      (.started time) es = some s →
      CollisionFree L s.digested → (s.answers.map WrapAnswer.udig).Nodup := by
  intro h
  have hend : ∃ s ∈ exec (AnswerServer.step known_set_digests every_module)
    (.started 4198448) answers_overlapping,
      CollisionFree known_set_digests s.digested ∧ ¬ (s.answers.map WrapAnswer.udig).Nodup := by
    decide +kernel
  obtain ⟨s, hrun, hfree, hsame⟩ := hend
  exact hsame (h _ _ _ _ s hrun hfree)

end examples

end Blobio
