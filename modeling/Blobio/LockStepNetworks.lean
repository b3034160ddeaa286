import Blobio.EventRuns
import Mathlib.Data.List.Nodup
import Mathlib.Data.List.Perm.Basic
import Mathlib.Data.List.Range
import Mathlib.Logic.Function.Basic

/-! Networks of goroutines that turn one message on each of their channels into one message
on each channel they feed, round by round. A parent process hands out the rounds: it gives
the next one to every node that asks for it, and waits for the message on the last channel. -/
namespace LockStep

/-- What a node does next in a round, from the messages it has received in it. -/
inductive Turn (V : Type*)
  /-- it receives from whichever of these ports has a message first -/
  | take (ports : List ℕ)
  | send (v : V)
  /-- the streams of its ports do not fit together -/
  | crash
  /-- it gives the process up over a message that it cannot work on -/
  | abort

/-- The channel that a node has been given as an input. A dead port stands where the node
was given none: nothing is ever received there. -/
structure Port where
  chan : ℕ
  live : Bool
  deriving DecidableEq

/-- A goroutine. A node that does not ask for its rounds begins the next one with the next
message; a node that spawns leaves its messages to goroutines of their own. -/
structure Node (V : Type*) where
  asks : Bool := true
  spawns : Bool := false
  ins : List Port
  outs : List ℕ
  turn : ℕ → List (ℕ × V) → Turn V

/-- The nodes, the number of channels, the channel that the parent reads and the number of
nodes it hands the first round to. -/
structure Network (V : Type*) where
  nodes : List (Node V)
  channels : ℕ
  last : ℕ
  confluent : ℕ

/-- A goroutine at work: its round, what it has received unless it has done with the round,
and the messages that wait for their receivers. -/
structure Proc (V : Type*) where
  round : ℕ := 0
  got : Option (List (ℕ × V)) := none
  puts : List (ℕ × V) := []

/-- The whole network. `left` and `given` count the nodes that the parent has still to hand
the round to and those it has handed it to; `sent` is what has gone over each channel. -/
@[ext]
structure State (V : Type*) where
  round : ℕ := 0
  busy : Bool := false
  left : ℕ
  given : ℕ := 0
  procs : ℕ → Proc V := fun _ => {}
  sent : ℕ → List V := fun _ => []
  crashed : Bool := false
  aborted : Bool := false

inductive Event
  /-- the parent begins a round -/
  | begin
  /-- the parent answers the request of a node -/
  | hand (p : ℕ)
  /-- a node that waits for no message goes on -/
  | decide (p : ℕ)
  /-- a message goes from a node to a port of another -/
  | pass (q r i : ℕ)
  /-- the message on the last channel goes to the parent -/
  | finish (q : ℕ)
  deriving DecidableEq

variable {V : Type*}

namespace Turn

def ports : Turn V → List ℕ
  | take ps => ps
  | _ => []

end Turn

namespace Node

def ready (nd : Node V) (P : Proc V) : Bool :=
  P.got.isNone && (nd.spawns || P.puts.isEmpty)

/-- The ports from which the node would receive. -/
def awaits (nd : Node V) (P : Proc V) : List ℕ :=
  match P.got with
  | some l => (nd.turn P.round l).ports
  | none => if nd.asks ∨ P.puts ≠ [] then [] else (nd.turn (P.round + 1) []).ports

/-- The channels of the ports. -/
def reads (nd : Node V) : List ℕ := nd.ins.map Port.chan

end Node

namespace Proc

def receive (P : Proc V) (i : ℕ) (v : V) : Proc V :=
  match P.got with
  | some l => { P with got := some (l ++ [(i, v)]) }
  | none => { P with round := P.round + 1, got := some [(i, v)] }

def drop (P : Proc V) (c : ℕ) : Proc V :=
  { P with puts := P.puts.eraseP fun m => m.1 == c }

end Proc

def push (sent : ℕ → List V) (c : ℕ) (v : V) : ℕ → List V :=
  Function.update sent c (sent c ++ [v])

namespace State

def set (s : State V) (p : ℕ) (P : Proc V) : State V :=
  { s with procs := Function.update s.procs p P }

end State

def start (N : Network V) : State V where
  left := N.confluent

/-- The stamp of a message is the round it belongs to. -/
def step (stamp : V → ℕ) (N : Network V) (s : State V) (e : Event) : Option (State V) :=
  if s.crashed || s.aborted then none else
  match e with
  | .begin =>
    if s.busy then none else some { s with round := s.round + 1, busy := true, given := 0 }
  | .hand p => N.nodes[p]?.bind fun nd =>
      let P := s.procs p
      if s.busy ∧ 0 < s.left ∧ nd.asks ∧ nd.ready P ∧ P.round + 1 = s.round then
        some { s.set p { P with round := s.round, got := some [] } with
          left := s.left - 1, given := s.given + 1 }
      else none
  | .decide p => N.nodes[p]?.bind fun nd =>
      let P := s.procs p
      P.got.bind fun l =>
        match nd.turn P.round l with
        | .take _ => none
        | .send v => some (s.set p { P with got := none, puts := P.puts ++ nd.outs.map (·, v) })
        | .crash => some { s with crashed := true }
        | .abort => some { s with aborted := true }
  | .pass q r i => N.nodes[r]?.bind fun nd => nd.ins[i]?.bind fun port =>
      (s.procs q).puts.lookup port.chan |>.bind fun v =>
        let t := s.set q ((s.procs q).drop port.chan)
        if port.live ∧ i ∈ nd.awaits (s.procs r) then
          some { t.set r ((t.procs r).receive i v) with sent := push s.sent port.chan v }
        else none
  | .finish q => (s.procs q).puts.lookup N.last |>.bind fun v =>
      if s.busy ∧ s.left = 0 then
        some { s.set q ((s.procs q).drop N.last) with
          sent := push s.sent N.last v
          busy := false
          left := s.given
          given := 0
          crashed := stamp v != s.round }
      else none

/-- What one step does. -/
inductive Moved (stamp : V → ℕ) (N : Network V) (s s' : State V) : Event → Prop
  | begin (hbusy : s.busy = false)
      (heq : s' = { s with round := s.round + 1, busy := true, given := 0 }) : Moved _ N s s' .begin
  | hand {p : ℕ} {nd : Node V} (hnd : N.nodes[p]? = some nd) (hbusy : s.busy = true)
      (hleft : 0 < s.left) (hasks : nd.asks = true) (hready : nd.ready (s.procs p) = true)
      (hround : (s.procs p).round + 1 = s.round)
      (heq : s' = { s.set p { s.procs p with round := s.round, got := some [] } with
        left := s.left - 1, given := s.given + 1 }) : Moved _ N s s' (.hand p)
  | decide {p : ℕ} {nd : Node V} {l : List (ℕ × V)} {v : V} (hnd : N.nodes[p]? = some nd)
      (hgot : (s.procs p).got = some l) (hturn : nd.turn (s.procs p).round l = .send v)
      (heq : s' = s.set p
        { s.procs p with got := none, puts := (s.procs p).puts ++ nd.outs.map (·, v) }) :
      Moved _ N s s' (.decide p)
  | crash {p : ℕ} {nd : Node V} {l : List (ℕ × V)} (hnd : N.nodes[p]? = some nd)
      (hgot : (s.procs p).got = some l) (hturn : nd.turn (s.procs p).round l = .crash)
      (heq : s' = { s with crashed := true }) : Moved _ N s s' (.decide p)
  | abort {p : ℕ} {nd : Node V} {l : List (ℕ × V)} (hnd : N.nodes[p]? = some nd)
      (hgot : (s.procs p).got = some l) (hturn : nd.turn (s.procs p).round l = .abort)
      (heq : s' = { s with aborted := true }) : Moved _ N s s' (.decide p)
  | pass {q r i : ℕ} {nd : Node V} {port : Port} {v : V} (hnd : N.nodes[r]? = some nd)
      (hport : nd.ins[i]? = some port) (hput : (s.procs q).puts.lookup port.chan = some v)
      (hlive : port.live = true) (hawaits : i ∈ nd.awaits (s.procs r))
      (heq : s' = { (s.set q ((s.procs q).drop port.chan)).set r
        (((s.set q ((s.procs q).drop port.chan)).procs r).receive i v) with
          sent := push s.sent port.chan v }) : Moved _ N s s' (.pass q r i)
  | finish {q : ℕ} {v : V} (hput : (s.procs q).puts.lookup N.last = some v)
      (hbusy : s.busy = true) (hleft : s.left = 0)
      (heq : s' = { s.set q ((s.procs q).drop N.last) with
        sent := push s.sent N.last v
        busy := false
        left := s.given
        given := 0
        crashed := stamp v != s.round }) : Moved _ N s s' (.finish q)

variable {stamp : V → ℕ} {N : Network V} {s s' : State V} {e : Event}

theorem step_moved (h : step stamp N s e = some s') :
    s.aborted = false ∧ Moved stamp N s s' e := by
  have hc : (s.crashed || s.aborted) = false := by
    by_contra hc
    unfold step at h
    rw [if_pos ((Bool.not_eq_false _).mp hc)] at h
    cases h
  refine ⟨(Bool.or_eq_false_iff.mp hc).2, ?_⟩
  unfold step at h
  rw [if_neg (by rw [hc]; exact Bool.false_ne_true)] at h
  cases e with
  | begin =>
    obtain ⟨hbusy, heq⟩ := Option.ite_none_left_eq_some.mp h
    exact .begin (Bool.not_eq_true _ ▸ hbusy) (Option.some.inj heq).symm
  | hand p =>
    obtain ⟨nd, hnd, hs⟩ := Option.bind_eq_some_iff.mp h
    obtain ⟨⟨hbusy, hleft, hasks, hready, hround⟩, heq⟩ := Option.ite_none_right_eq_some.mp hs
    exact .hand hnd hbusy hleft hasks hready hround (Option.some.inj heq).symm
  | decide p =>
    obtain ⟨nd, hnd, hs⟩ := Option.bind_eq_some_iff.mp h
    obtain ⟨l, hgot, hl⟩ := Option.bind_eq_some_iff.mp hs
    cases hturn : nd.turn (s.procs p).round l with
    | take ps => simp [hturn] at hl
    | send v =>
      simp only [hturn] at hl
      exact .decide hnd hgot hturn (Option.some.inj hl).symm
    | crash =>
      simp only [hturn] at hl
      exact .crash hnd hgot hturn (Option.some.inj hl).symm
    | abort =>
      simp only [hturn] at hl
      exact .abort hnd hgot hturn (Option.some.inj hl).symm
  | pass q r i =>
    obtain ⟨nd, hnd, hs⟩ := Option.bind_eq_some_iff.mp h
    obtain ⟨port, hport, hp⟩ := Option.bind_eq_some_iff.mp hs
    obtain ⟨v, hput, hv⟩ := Option.bind_eq_some_iff.mp hp
    obtain ⟨⟨hlive, hawaits⟩, heq⟩ := Option.ite_none_right_eq_some.mp hv
    exact .pass hnd hport hput hlive hawaits (Option.some.inj heq).symm
  | finish q =>
    obtain ⟨v, hput, hv⟩ := Option.bind_eq_some_iff.mp h
    obtain ⟨⟨hbusy, hleft⟩, heq⟩ := Option.ite_none_right_eq_some.mp hv
    exact .finish hput hbusy hleft (Option.some.inj heq).symm

/-- What a step does can happen, as long as the process runs. -/
theorem step_of_moved (hcrashed : s.crashed = false) (haborted : s.aborted = false)
    (h : Moved stamp N s s' e) : step stamp N s e = some s' := by
  unfold step
  rw [if_neg (by simp [hcrashed, haborted])]
  cases h with
  | begin hbusy heq => simp [hbusy, heq]
  | hand hnd hbusy hleft hasks hready hround heq =>
    simp only [hnd, Option.bind_some]
    rw [if_pos ⟨hbusy, hleft, hasks, hready, hround⟩, heq]
  | decide hnd hgot hturn heq => simp only [hnd, hgot, hturn, Option.bind_some, heq]
  | crash hnd hgot hturn heq => simp only [hnd, hgot, hturn, Option.bind_some, heq]
  | abort hnd hgot hturn heq => simp only [hnd, hgot, hturn, Option.bind_some, heq]
  | pass hnd hport hput hlive hawaits heq =>
    simp only [hnd, hport, hput, Option.bind_some]
    rw [if_pos ⟨hlive, hawaits⟩, heq]
  | finish hput hbusy hleft heq =>
    simp only [hput, Option.bind_some]
    rw [if_pos ⟨hbusy, hleft⟩, heq]

@[simp] theorem set_procs_self (s : State V) (p : ℕ) (P : Proc V) : (s.set p P).procs p = P :=
  Function.update_self ..

@[simp] theorem set_procs_of_ne (s : State V) {p q : ℕ} (P : Proc V) (h : q ≠ p) :
    (s.set p P).procs q = s.procs q := Function.update_of_ne h ..

@[simp] theorem push_self (sent : ℕ → List V) (c : ℕ) (v : V) : push sent c v c = sent c ++ [v] :=
  Function.update_self ..

@[simp] theorem push_of_ne (sent : ℕ → List V) {c d : ℕ} (v : V) (h : d ≠ c) :
    push sent c v d = sent d := Function.update_of_ne h ..

end LockStep
