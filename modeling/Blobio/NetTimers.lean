import Blobio.BufferPieces
import Blobio.HexDigests

/-! The transfers over the network under the interval timer: which call is made with the timer
set to what, and what a write of a buffer has sent. -/
namespace Blobio.NetTimers
open BufferPieces

inductive Outcome
  | done (n : ℕ)
  | interrupted
  | failed

/-- What the blocking call comes to, and whether the alarm was caught before the timer is disabled
again. -/
structure Answer where
  outcome : Outcome
  alarm : Bool

inductive Ending
  | returned (status : ℤ)
  | panic
  | waiting
  deriving DecidableEq

/-- The seconds that the timer was set to for each call, what was sent, and the end. -/
structure Trace where
  armed : List ℕ
  pieces : List Piece := []
  ending : Ending

def Trace.after (it_value : ℕ) (pieces : List Piece) (t : Trace) : Trace :=
  { t with armed := it_value :: t.armed, pieces := pieces ++ t.pieces }

/-- The loop of `net_accept` and of `net_read`. The timer's value is 0 once it has been disabled,
also when the call is made again; a second alarm is a panic of its handler. -/
def timed_call (done : ℕ → ℤ) (timed_out : ℤ) (it_value : ℕ) (alarm_caught : Bool) : List Answer → Trace
  | [] => { armed := [it_value], ending := .waiting }
  | a :: answers =>
    if a.alarm ∧ alarm_caught then { armed := [it_value], ending := .panic }
    else
      let caught := alarm_caught || a.alarm
      match a.outcome with
      | .done n => { armed := [it_value], ending := .returned (done n) }
      | .failed => { armed := [it_value], ending := .returned (-1) }
      | .interrupted =>
        if caught then { armed := [it_value], ending := .returned timed_out }
        else (timed_call done timed_out 0 caught answers).after it_value []

def net_accept (timeout : ℕ) : List Answer → Trace :=
  timed_call (fun _ => 0) 1 timeout false

def net_read (buf_size timeout : ℕ) : List Answer → Trace :=
  timed_call (fun n => min n buf_size) (-2) timeout false

/-- From the position `b` on. A short write is made up for in the same loop. -/
def net_write_rest (buf_size b it_value : ℕ) (alarm_caught : Bool) : List Answer → Trace
  | [] => { armed := [it_value], ending := .waiting }
  | a :: answers =>
    if a.alarm ∧ alarm_caught then { armed := [it_value], ending := .panic }
    else
      let caught := alarm_caught || a.alarm
      match a.outcome with
      | .done n =>
        let nwrite := min n (buf_size - b)
        if b + nwrite < buf_size then
          (net_write_rest buf_size (b + nwrite) 0 caught answers).after it_value [⟨b, nwrite⟩]
        else { armed := [it_value], pieces := [⟨b, nwrite⟩], ending := .returned 0 }
      | .failed => { armed := [it_value], ending := .returned (-1) }
      | .interrupted =>
        if caught then { armed := [it_value], ending := .returned 1 }
        else (net_write_rest buf_size b 0 caught answers).after it_value []

def net_write (buf_size timeout : ℕ) : List Answer → Trace :=
  net_write_rest buf_size 0 timeout false

/-! ### The timer -/

def Armed (timeout : ℕ) (t : Trace) : Prop :=
  ∀ v ∈ t.armed, v = timeout

/-- The first call is interrupted by a signal other than the alarm. -/
def Interrupted (answers : List Answer) : Prop :=
  ∃ rest, answers = ⟨.interrupted, false⟩ :: rest

/-- The first call takes less than the buffer. -/
def Short (buf_size : ℕ) (answers : List Answer) : Prop :=
  ∃ n alarm rest, answers = ⟨.done n, alarm⟩ :: rest ∧ n < buf_size

variable {done : ℕ → ℤ} {timed_out : ℤ} {timeout it_value buf_size b : ℕ} {caught : Bool}
  {answers : List Answer}

theorem armed_after {pieces : List Piece} {t : Trace} :
    Armed timeout (t.after it_value pieces) ↔ it_value = timeout ∧ Armed timeout t := by
  simp [Armed, Trace.after]

/-- Some call is made, and every one without a timer. -/
def Unarmed (t : Trace) : Prop :=
  t.armed ≠ [] ∧ Armed 0 t

theorem Unarmed.after {pieces : List Piece} {t : Trace} (h : Unarmed t) : Unarmed (t.after 0 pieces) :=
  ⟨List.cons_ne_nil _ _, armed_after.mpr ⟨rfl, h.2⟩⟩

theorem unarmed_once (pieces : List Piece) (e : Ending) : Unarmed ⟨[0], pieces, e⟩ :=
  ⟨List.cons_ne_nil _ _, by simp [Armed]⟩

theorem Unarmed.armed_iff {t : Trace} (h : Unarmed t) : Armed timeout t ↔ timeout = 0 := by
  constructor
  · intro ht
    obtain ⟨v, hv⟩ := List.exists_mem_of_ne_nil _ h.1
    rw [← ht v hv, h.2 v hv]
  · rintro rfl
    exact h.2

/-- A loop that goes back does so without a timer. -/
theorem timed_call_unarmed : Unarmed (timed_call done timed_out 0 caught answers) := by
  induction answers generalizing caught with
  | nil => exact unarmed_once _ _
  | cons a answers ih =>
    unfold timed_call
    split_ifs with hpanic
    · exact unarmed_once _ _
    · cases a.outcome with
      | done n => exact unarmed_once _ _
      | failed => exact unarmed_once _ _
      | interrupted =>
        dsimp only
        split_ifs
        · exact unarmed_once _ _
        · exact ih.after

theorem net_write_rest_unarmed : Unarmed (net_write_rest buf_size b 0 caught answers) := by
  induction answers generalizing b caught with
  | nil => exact unarmed_once _ _
  | cons a answers ih =>
    unfold net_write_rest
    split_ifs with hpanic
    · exact unarmed_once _ _
    · cases a.outcome with
      | done n =>
        dsimp only
        split_ifs
        · exact ih.after
        · exact unarmed_once _ _
      | failed => exact unarmed_once _ _
      | interrupted =>
        dsimp only
        split_ifs
        · exact unarmed_once _ _
        · exact ih.after

theorem armed_once (pieces : List Piece) (e : Ending) : Armed timeout ⟨[timeout], pieces, e⟩ := by
  simp [Armed]

theorem timed_call_armed_iff : Armed timeout (timed_call done timed_out timeout false answers) ↔
    timeout = 0 ∨ ¬ Interrupted answers := by
  cases answers with
  | nil => exact iff_of_true (armed_once _ _) (Or.inr (by simp [Interrupted]))
  | cons a answers =>
    obtain ⟨outcome, alarm⟩ := a
    cases outcome with
    | done n => exact iff_of_true (by simp [timed_call, Armed]) (Or.inr (by simp [Interrupted]))
    | failed => exact iff_of_true (by simp [timed_call, Armed]) (Or.inr (by simp [Interrupted]))
    | interrupted =>
      cases alarm with
      | true => exact iff_of_true (by simp [timed_call, Armed]) (Or.inr (by simp [Interrupted]))
      | false =>
        have hback : Interrupted (⟨.interrupted, false⟩ :: answers) := ⟨answers, rfl⟩
        simp only [timed_call, Bool.false_eq_true, and_self, if_false, Bool.or_self, armed_after,
          true_and, timed_call_unarmed.armed_iff, hback, not_true_eq_false, or_false]

theorem net_write_armed_iff : Armed timeout (net_write buf_size timeout answers) ↔
    timeout = 0 ∨ ¬ (Interrupted answers ∨ Short buf_size answers) := by
  cases answers with
  | nil => exact iff_of_true (armed_once _ _) (Or.inr (by simp [Interrupted, Short]))
  | cons a answers =>
    obtain ⟨outcome, alarm⟩ := a
    cases outcome with
    | done n =>
      have hstay : ¬ Interrupted (⟨.done n, alarm⟩ :: answers) := by simp [Interrupted]
      by_cases hlt : n < buf_size
      · have hshort : Short buf_size (⟨.done n, alarm⟩ :: answers) := ⟨n, alarm, answers, rfl, hlt⟩
        simp [net_write, net_write_rest, hlt, armed_after, net_write_rest_unarmed.armed_iff, hshort]
      · have hwhole : ¬ Short buf_size (⟨.done n, alarm⟩ :: answers) := by
          simpa [Short] using Nat.le_of_not_lt hlt
        refine iff_of_true ?_ (Or.inr (by simp [hstay, hwhole]))
        simp [net_write, net_write_rest, hlt, Armed]
    | failed =>
      exact iff_of_true (by simp [net_write, net_write_rest, Armed]) (Or.inr (by simp [Interrupted, Short]))
    | interrupted =>
      cases alarm with
      | true =>
        exact iff_of_true (by simp [net_write, net_write_rest, Armed])
          (Or.inr (by simp [Interrupted, Short]))
      | false =>
        have hback : Interrupted (⟨.interrupted, false⟩ :: answers) := ⟨answers, rfl⟩
        simp [net_write, net_write_rest, armed_after, net_write_rest_unarmed.armed_iff, hback]

/-! ### The buffer -/

/-- A write that returns 0 has sent the buffer, each byte once and in order. -/
def SentRight (buf_size : ℕ) (t : Trace) : Prop :=
  t.ending = .returned 0 → positions t.pieces = List.range buf_size ∧
    ∀ buf : Bytes, buf.length = buf_size → bytes buf t.pieces = buf

theorem net_write_rest_chained (hle : b ≤ buf_size) :
    let t := net_write_rest buf_size b it_value caught answers
    Chained b t.pieces ∧ (t.ending = .returned 0 → total t.pieces = buf_size - b) := by
  induction answers generalizing b it_value caught with
  | nil => exact ⟨trivial, fun h => by cases h⟩
  | cons a answers ih =>
    unfold net_write_rest
    split_ifs with hpanic
    · exact ⟨trivial, fun h => by cases h⟩
    · cases a.outcome with
      | done n =>
        dsimp only
        split_ifs with hlt
        · obtain ⟨hrest, htotal⟩ := @ih 0 (b + min n (buf_size - b)) (caught || a.alarm) (Nat.le_of_lt hlt)
          refine ⟨⟨Or.inr rfl, hrest⟩, fun hret => ?_⟩
          have hsum := htotal hret
          simp only [Trace.after, List.singleton_append, total_cons, hsum]
          omega
        · refine ⟨⟨Or.inr rfl, trivial⟩, fun _ => ?_⟩
          simp only [total_cons, total_nil]
          omega
      | failed => exact ⟨trivial, fun h => by cases h⟩
      | interrupted =>
        dsimp only
        split_ifs
        · exact ⟨trivial, fun h => by cases h⟩
        · exact ih hle

theorem net_write_sent (buf_size timeout : ℕ) (answers : List Answer) :
    SentRight buf_size (net_write buf_size timeout answers) := by
  intro hret
  obtain ⟨hchained, htotal⟩ := @net_write_rest_chained timeout buf_size 0 false answers (Nat.zero_le _)
  have hsum := htotal hret
  rw [Nat.sub_zero] at hsum
  constructor
  · have hpositions := positions_eq_iff.mpr hchained
    rw [hsum, ← List.range_eq_range'] at hpositions
    exact hpositions
  · rintro buf rfl
    exact (bytes_of_chained buf hchained).trans (by rw [hsum, List.drop_zero, List.take_length])

/-- The timer is lost where a loop goes back; what is sent is right all the same. -/
theorem timers_right_iff (timeout buf_size : ℕ) (answers : List Answer) :
    (Armed timeout (net_accept timeout answers) ↔ timeout = 0 ∨ ¬ Interrupted answers) ∧
    (Armed timeout (net_read buf_size timeout answers) ↔ timeout = 0 ∨ ¬ Interrupted answers) ∧
    (Armed timeout (net_write buf_size timeout answers) ∧ SentRight buf_size (net_write buf_size timeout answers) ↔
      timeout = 0 ∨ ¬ (Interrupted answers ∨ Short buf_size answers)) :=
  ⟨timed_call_armed_iff, timed_call_armed_iff,
    (and_iff_left (net_write_sent buf_size timeout answers)).trans net_write_armed_iff⟩

/-- A read that is interrupted waits without a timer, and so does the rest of a short write. -/
theorem timer_lost : ¬ ∀ (timeout buf_size : ℕ) (answers : List Answer),
    Armed timeout (net_accept timeout answers) ∧ Armed timeout (net_read buf_size timeout answers) ∧
      Armed timeout (net_write buf_size timeout answers) ∧
        SentRight buf_size (net_write buf_size timeout answers) := by
  intro h
  have hread := (h 20 4096 [⟨.interrupted, false⟩]).2.1
  revert hread
  simp [net_read, timed_call, Armed, Trace.after]

end Blobio.NetTimers
