import Blobio.RequestOutcomes

/-! What the listening process makes of the exits of its request processes. -/
namespace Blobio.Listener
open RequestChild TurnPrograms Standing

/-- The counters of the listening process; the last four are a family of one for each verb,
such as get_count, get_no_count, put_no2_count and give_no3_count. -/
inductive Counter
  | accept_count
  | exit_count
  | success_count
  | error_count
  | timeout_count
  | signal_count
  | fault_count
  | ok_count
  | no_count
  | no2_count
  | no3_count
  | verb_count (v : Verb)
  | verb_no_count (v : Verb)
  | verb_no2_count (v : Verb)
  | verb_no3_count (v : Verb)
  deriving DecidableEq

/-- The counters that an exit adds one to, in turn, and whether the process panics then. -/
structure Reaped where
  bumped : List Counter
  panicked : Bool
  deriving DecidableEq

/-- A counter of all verbs and, by way of a pointer, that of the verb. -/
def count_no (total : Counter) : Option Counter → Reaped
  | some v_no => ⟨[total, v_no], false⟩
  | none => ⟨[total], true⟩

def bump_no (exit_status : BitVec 8) (v_no v_no2 v_no3 : Option Counter) : Reaped :=
  if exit_status &&& 0x3 ≠ 0 then ⟨[], false⟩
  else match ((exit_status &&& 0x60) >>> 5).toNat with
    | 0 => ⟨[.ok_count], false⟩
    | 1 => count_no .no_count v_no
    | 2 => count_no .no2_count v_no2
    | 3 => count_no .no3_count v_no3
    | _ => ⟨[], false⟩

def class_count (s8 : BitVec 8) : List Counter :=
  match (s8 &&& 0x3).toNat with
  | 0 => [.success_count]
  | 1 => [.error_count]
  | 2 => [.timeout_count]
  | 3 => [.fault_count]
  | _ => []

/-- The counters that bump_no is called with. -/
def bump_verb (s8 : BitVec 8) (v : Verb) : Reaped :=
  match v with
  | .cat => bump_no s8 (some (.verb_no_count .cat)) none none
  | .get => bump_no s8 (some (.verb_no_count .get)) none none
  | .put => bump_no s8 (some (.verb_no_count .put)) (some (.verb_no2_count .put)) none
  | .give => bump_no s8 (some (.verb_no_count .give)) (some (.verb_no2_count .give))
      (some (.verb_no3_count .give))
  | .take => bump_no s8 (some (.verb_no_count .take)) (some (.verb_no2_count .take))
      (some (.verb_no3_count .take))
  | .eat => bump_no s8 (some (.verb_no_count .eat)) none none
  | .wrap => bump_no s8 (some (.verb_no_count .wrap)) none none
  | .roll => bump_no s8 (some (.verb_no_count .roll)) none none

def verb_of (s8 : BitVec 8) : Option Verb :=
  match ((s8 &&& 0x1C) >>> 2).toNat with
  | 0 => some .cat
  | 1 => some .get
  | 2 => some .put
  | 3 => some .give
  | 4 => some .take
  | 5 => some .eat
  | 6 => some .wrap
  | 7 => some .roll
  | _ => none

inductive Signal
  | SIGINT
  | SIGQUIT
  | SIGTERM
  | SIGPIPE
  | SIGKILL
  | other
  deriving DecidableEq

/-- The status of a request process that has been waited for. -/
inductive Exit
  | signaled (sig : Signal)
  | exited (s8 : BitVec 8)

/-- One request process in the loop of reap_request. -/
def reap_request : Exit → Reaped
  | .signaled sig => ⟨[.exit_count, .signal_count], sig = .other⟩
  | .exited s8 =>
    match verb_of s8 with
    | some v =>
      let r := bump_verb s8 v
      ⟨.exit_count :: class_count s8 ++ .verb_count v :: r.bumped, r.panicked⟩
    | none => ⟨.exit_count :: class_count s8, s8 &&& 0x3 = 0⟩

/-! ### The exit status of a request -/

/-- The counters of the outcome of a chat, by the place of its no. -/
def chat_counts (v : Verb) (rs : List Reply) : List Counter :=
  if rs.getLast? = some .no then
    match rs.length with
    | 1 => [.no_count, .verb_no_count v]
    | 2 => [.no2_count, .verb_no2_count v]
    | _ => [.no3_count, .verb_no3_count v]
  else [.ok_count]

/-- What a request's exit should add to: its class, its verb and, where all went well, the
outcome of its chat. -/
def outcome_counts (v : Verb) (class_bits : BitVec 8) (rs : List Reply) : Reaped :=
  ⟨.exit_count :: class_count class_bits ++ .verb_count v ::
    (if class_bits = 0 then chat_counts v rs else []), false⟩

/-- Behind a callback: the module's close, the record, and the exit. -/
def exit_request (config : Config) : Prog Unit := do
  store_op
  record_request config

/-- The status is built and taken apart without a panic over the chat, and says what the request
came to. -/
def Decoded (v : Verb) (s : Child) : Prop :=
  .no_chat ∉ s.happened ∧ reap_request (.exited s.request_exit_status) =
    outcome_counts v (outcome s.happened) (replies s.happened)

/-- A complaint marks a request that nothing fails in, or the class of the last failure is not its own. -/
def Misjudged (s : Child) : Prop :=
  match last_failure s.happened with
  | none => Hazardous s.happened
  | some why => why = .lost .reply_read true

theorem eq_rest_or_class (b : BitVec 8) : b = rest_of b ||| class_of b := by
  rw [rest_of, class_of, ← BitVec.and_or_distrib_left, show
    (0xFC : BitVec 8) ||| 0x3 = BitVec.allOnes 8 from rfl,
    BitVec.and_allOnes]

theorem class_cases (b : BitVec 8) : class_of b ∈ [0#8, 1, 2, 3] := by
  have hlt : (class_of b).toNat ≤ 3 := by
    rw [class_of, BitVec.toNat_and]
    exact Nat.and_le_right
  have hcases : ∀ n : Fin 4, BitVec.ofNat 8 n ∈ [0#8, 1, 2, 3] := by decide
  have hmem := hcases ⟨(class_of b).toNat, by omega⟩
  rwa [BitVec.ofNat_toNat, BitVec.setWidth_eq] at hmem

theorem outcome_cases (happened : List Happening) : outcome happened ∈ [0#8, 1, 2, 3] := by
  have hclass : ∀ o ∈ [none, some 1#8, some 2, some 3], o.getD 0 ∈ [0#8, 1, 2, 3] := by simp
  refine hclass _ ?_
  cases last_failure happened with
  | none => exact List.mem_cons_self
  | some why =>
    rw [Option.bind_some]
    unfold Happening.failure
    split <;> decide

/-- Every status that a verb can leave behind, with every chat that it can come to. -/
theorem counted_of_coded (v : Verb) : ∀ rs ∈ reached v,
    ∀ bits, chat_status (joined rs) (verb_bits v <<< 2) = some bits → ∀ c ∈ [0#8, 1, 2, 3],
      (reap_request (.exited (bits ||| c))).bumped[1]? = (class_count c).head? ∧
        (reap_request (.exited (bits ||| c)) = outcome_counts v c rs ↔ (c = 0 → rs ≠ [.ok, .ok, .no])) := by
  have hall : ∀ v ∈ [Verb.cat, .get, .put, .give, .take, .eat, .wrap, .roll], ∀ rs ∈ reached v,
      (chat_status (joined rs) (verb_bits v <<< 2)).all fun bits => ∀ c ∈ [0#8, 1, 2, 3],
        (reap_request (.exited (bits ||| c))).bumped[1]? = (class_count c).head? ∧
          (reap_request (.exited (bits ||| c)) = outcome_counts v c rs ↔ (c = 0 → rs ≠ [.ok, .ok, .no])) := by
    decide +kernel
  intro rs hrs bits hbits
  have h := hall v (by cases v <;> decide) rs hrs
  rw [hbits] at h
  exact of_decide_eq_true h

theorem decoded_iff_of_coded {v : Verb} {rs : List Reply} (hrs : rs ∈ reached v) {bits c c' : BitVec 8}
    (hbits : chat_status (joined rs) (verb_bits v <<< 2) = some bits) (hc : c ∈ [0#8, 1, 2, 3])
    (hc' : c' ∈ [0#8, 1, 2, 3]) : reap_request (.exited (bits ||| c)) = outcome_counts v c' rs ↔
      c = c' ∧ (c = 0 → rs ≠ [.ok, .ok, .no]) := by
  obtain ⟨hclass, hiff⟩ := counted_of_coded v rs hrs bits hbits c hc
  have hcounts : ∀ c ∈ [0#8, 1, 2, 3], ∀ c' ∈ [0#8, 1, 2, 3],
      (class_count c).head? = (class_count c').head? → c = c' := by decide
  have hsecond : ∀ c' ∈ [0#8, 1, 2, 3], (outcome_counts v c' rs).bumped[1]? = (class_count c').head? := by
    intro c' hc'
    simp only [List.mem_cons, List.not_mem_nil, or_false] at hc'
    rcases hc' with rfl | rfl | rfl | rfl <;> rfl
  constructor
  · intro h
    rw [h, hsecond c' hc'] at hclass
    obtain rfl := hcounts c' hc' c hc hclass
    exact ⟨rfl, hiff.mp h⟩
  · rintro ⟨rfl, h⟩
    exact hiff.mpr h

/-- A fault counts as such for its verb, before the chat is in the status and behind that. -/
theorem fault_decoded (v : Verb) : ∀ rs ∈ reached v, ∀ bits,
    bits = verb_bits v <<< 2 ∨ chat_status (joined rs) (verb_bits v <<< 2) = some bits →
      reap_request (.exited (bits ||| 3)) = ⟨[.exit_count, .fault_count, .verb_count v], false⟩ := by
  intro rs hrs bits hbits
  rcases hbits with rfl | hbits
  · cases v <;> rfl
  · have hfault : 3#8 ∈ [0#8, 1, 2, 3] := by decide
    exact (decoded_iff_of_coded hrs hbits hfault hfault).mpr ⟨rfl, nofun⟩

theorem decoded_of_gone {v : Verb} {bits : BitVec 8} {rs : List Reply} {s : Child} (hrs : rs ∈ reached v)
    (h : Gone bits s) (hbits : bits = verb_bits v <<< 2 ∨ chat_status (joined rs) (verb_bits v <<< 2) = some bits) :
    Decoded v s := by
  refine ⟨h.answered, ?_⟩
  rw [eq_rest_or_class s.request_exit_status, h.bits, h.fault, fault_decoded v rs hrs bits hbits, outcome, h.failed]
  rfl

/-- A closed request is in the class of its last failure just when it is not misjudged. -/
theorem class_eq_iff {config : Config} {t : Standing} {s : Child} (h : Closed config t s) :
    class_of s.request_exit_status = outcome s.happened ↔ ¬ Misjudged s := by
  rcases h.marks with ⟨-, hc⟩ | hm
  · rw [hc.1, outcome, Misjudged, hc.last_failure]
    refine iff_of_true rfl ?_
    rintro ⟨why, hmem, hh⟩
    rw [(hc.2 why hmem).2] at hh
    cases hh
  · rw [outcome, Misjudged]
    cases hlast : last_failure s.happened with
    | none =>
      refine iff_of_false hm.ne_zero fun hhazard => hhazard ?_
      by_contra hnone
      exact hm.last_failure_ne hnone hlast
    | some why =>
      have hright := hm.right why hlast
      by_cases hwhy : why = .lost .reply_read true
      · subst hwhy
        have hone : class_of s.request_exit_status = 1 := (Option.some.inj hright).symm
        rw [hone]
        exact iff_of_false (by decide) (not_not.mpr rfl)
      · rw [Happening.coded_eq_failure hwhy] at hright
        rw [Option.bind_some, hright]
        exact iff_of_true rfl hwhy

/-- A request whose callback returns counts for what it came to just if a fault of the server ends it,
or if it has a chat, that is not ok,ok,no, and it is not misjudged; a request whose callback leaves counts
as its verb's fault. -/
theorem exit_status_decoded (config : Config) (r : Requested) (scan_buf : Text)
    (turns : List RequestChild.Turn) :
    match callback config.trust_fs r (dispatched r scan_buf) turns with
    | .done _ t rest => ∀ s, (exit_request config t rest).left? = some s →
        (Decoded r.verb s ↔ last_failure s.happened = some .fault ∨
          t.chat_history ≠ [] ∧ t.chat_history ≠ "ok,ok,no".toList ∧ ¬ Misjudged s)
    | .left s => Decoded r.verb s
    | .waiting _ => True := by
  have hwp : wp (callback config.trust_fs r) (fun _ => Returned r) (Gone (verb_bits r.verb <<< 2)) Moment
      (dispatched r scan_buf) :=
    wp_callback (opened_stands r scan_buf)
  cases hrun : callback config.trust_fs r (dispatched r scan_buf) turns with
  | waiting s => trivial
  | left s =>
    have hgone : Gone (verb_bits r.verb <<< 2) s := left_of_wp hwp (congrArg Result.left? hrun)
    have hnil : [] ∈ reached r.verb := by
      cases r.verb <;> decide
    exact decoded_of_gone hnil hgone (.inl rfl)
  | done a u rest =>
    intro s hleft
    have hreturned := done_of_wp hwp hrun
    obtain ⟨t, hu, ht⟩ : Returned r u := hreturned
    have hexit : wp (exit_request config) (fun _ _ => False) (Exited config t) Moment u :=
      wp_bind (wp_mono (wp_store_op hu (wp_record_request hu)) (fun _ _ h => h) (fun _ h => .gone (.inl rfl) h)
        fun _ h => h)
    have hnil : u.chat_history ≠ [] ↔ t.chat ≠ [] := by
      rw [hu.chatting.chat, not_iff_not]
      exact joined_injective.eq_iff' rfl
    have hno : u.chat_history ≠ "ok,ok,no".toList ↔ t.chat ≠ [.ok, .ok, .no] := by
      rw [hu.chatting.chat, not_iff_not]
      exact joined_injective.eq_iff' rfl
    rw [hnil, hno]
    cases left_of_wp hexit hleft with
    | gone hbits hs =>
      rw [ht.bits] at hbits
      exact iff_of_true (decoded_of_gone ht.reached hs hbits) (.inl hs.failed)
    | unanswered hchat hpanic hf _ =>
      exact iff_of_false (fun hd => hd.1 hpanic) (not_or.mpr ⟨hf, fun h => h.1 hchat⟩)
    | closed hchat hs =>
      have hpanic : .no_chat ∉ s.happened := fun hmem => nomatch hs.running _ hmem
      have hfault : last_failure s.happened ≠ some .fault := by
        intro hf
        cases hs.running _ (mem_of_last_failure hf).1
      have hcoded := hs.coded
      rw [ht.bits] at hcoded
      have hiff := decoded_iff_of_coded ht.reached hcoded (class_cases s.request_exit_status)
        (outcome_cases s.happened)
      rw [← eq_rest_or_class, class_eq_iff hs] at hiff
      -- a give that is refused in the end has not failed, so that its class is that of a success
      have hrefused : ¬ Misjudged s → t.chat = [.ok, .ok, .no] → class_of s.request_exit_status = 0 := by
        intro hjudged hrs
        rw [(class_eq_iff hs).mpr hjudged, outcome, hs.unfailed (ht.refused hrs)]
        rfl
      rw [Decoded, hs.replied, hiff]
      constructor
      · rintro ⟨-, hjudged, hzero⟩
        exact .inr ⟨hchat, fun hrs => hzero (hrefused hjudged hrs) hrs, hjudged⟩
      · rintro (hf | ⟨-, hrs, hjudged⟩)
        · exact absurd hf hfault
        · exact ⟨hpanic, hjudged, fun _ => hrs⟩

def give_empty : Requested :=
  ⟨.give, .sha, empty_sha⟩

/-- A give whose client answers in the end, as its callback leaves it. -/
def give_answered (reply : Reply) : Child :=
  { dispatched give_empty [] with
    chat_history := joined [.ok, .ok, reply]
    request_exit_status := 0x0C
    happened := [.sent .ok, .sent .ok, .received reply] }

def give_exit (reply : Reply) : Child :=
  note (.brr ⟨give_empty, joined [.ok, .ok, reply], 0⟩) (give_answered reply)

def give_turns (reply : Reply) : List RequestChild.Turn :=
  [{}, {}, {}, {}, { read := .bytes (reply.text ++ ['\n']) }, {}, {}, {}, {}, {}]

theorem give_ok_decoded : callback false give_empty (dispatched give_empty []) (give_turns .ok) =
      .done () (give_answered .ok) (List.replicate 4 {}) ∧
    (exit_request every_verb (give_answered .ok) (List.replicate 4 {})).left? = some (give_exit .ok) ∧
      Decoded .give (give_exit .ok) := by
  have hrun : callback every_verb.trust_fs give_empty (dispatched give_empty []) (give_turns .ok) =
    .done () (give_answered .ok) (List.replicate 4 {}) := rfl
  have hexit : (exit_request every_verb (give_answered .ok) (List.replicate 4 {})).left? =
    some (give_exit .ok) := rfl
  have hdecoded := exit_status_decoded every_verb give_empty [] (give_turns .ok)
  rw [hrun] at hdecoded
  refine ⟨hrun, hexit, (hdecoded _ hexit).mpr (.inr ⟨by decide, by decide, ?_⟩)⟩
  rintro ⟨why, hmem, hh⟩
  revert why
  decide

/-- A give whose client answers no in the end counts as ok. -/
theorem give_no3_undecoded : callback false give_empty (dispatched give_empty []) (give_turns .no) =
      .done () (give_answered .no) (List.replicate 4 {}) ∧
    (exit_request every_verb (give_answered .no) (List.replicate 4 {})).left? = some (give_exit .no) ∧
      ¬ Decoded .give (give_exit .no) := by
  refine ⟨rfl, rfl, ?_⟩
  rintro ⟨-, hcounted⟩
  revert hcounted
  decide

end Blobio.Listener
