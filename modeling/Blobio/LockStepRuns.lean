import Blobio.LockStepRounds
import Mathlib.Algebra.BigOperators.Group.Finset.Basic
import Mathlib.Algebra.Order.BigOperators.Group.Finset

/-! Runs of a network whose nodes keep to their rounds: the lock step holds throughout, no
state between two rounds is stuck, and a round is a bounded number of steps. -/
namespace LockStep
open EventRuns

variable {V : Type*} {stamp : V → ℕ} {N : Network V} {nd : Node V} {s s' : State V} {e : Event}

/-- A network whose nodes keep to their rounds and whose parent counts the nodes that ask. -/
structure Standing (stamp : V → ℕ) (N : Network V) : Prop where
  wired : Wired N
  disciplined : ∀ nd ∈ N.nodes, Disciplined stamp nd
  counted : N.confluent = N.askers.length

theorem nodes_lt {p : ℕ} (h : N.nodes[p]? = some nd) : p < N.nodes.length :=
  (List.getElem?_eq_some_iff.mp h).1

theorem mem_askers {p : ℕ} (hnd : N.nodes[p]? = some nd) : p ∈ N.askers ↔ nd.asks = true := by
  rw [Network.askers, List.mem_filter, hnd, List.mem_range]
  exact and_iff_right (nodes_lt hnd)

theorem askers_lt {p : ℕ} (h : p ∈ N.askers) : p < N.nodes.length :=
  List.mem_range.mp (List.mem_filter.mp h).1

theorem askers_nodup (N : Network V) : N.askers.Nodup := List.nodup_range.filter _

section set
variable {sent : ℕ → List V} {p : ℕ} {P : Proc V}

theorem stages_set (h : ∀ q nd', N.nodes[q]? = some nd' → Stage stamp nd' sent (s.procs q))
    (hnd : N.nodes[p]? = some nd) (hP : Stage stamp nd sent P) :
    ∀ q nd', N.nodes[q]? = some nd' → Stage stamp nd' sent ((s.set p P).procs q) := by
  intro q nd' hnd'
  by_cases hq : q = p
  · subst hq
    obtain rfl := Option.some.inj (hnd.symm.trans hnd')
    rwa [set_procs_self]
  · rw [set_procs_of_ne s P hq]
    exact h q nd' hnd'

theorem current_set (h : ∀ q < N.nodes.length, (s.procs q).round = s.round ∨
      s.busy = true ∧ (s.procs q).round + 1 = s.round ∧ (s.procs q).Done)
    (hP : P.round = s.round) :
    ∀ q < N.nodes.length, ((s.set p P).procs q).round = s.round ∨
      s.busy = true ∧ ((s.set p P).procs q).round + 1 = s.round ∧ ((s.set p P).procs q).Done := by
  intro q hq
  by_cases hqp : q = p
  · subst hqp
    rw [set_procs_self]
    exact Or.inl hP
  · rw [set_procs_of_ne s P hqp]
    exact h q hq

theorem quiet_set (h : ∀ q, N.nodes.length ≤ q → (s.procs q).puts = [])
    (hp : p < N.nodes.length) :
    ∀ q, N.nodes.length ≤ q → ((s.set p P).procs q).puts = [] := by
  intro q hq
  rw [set_procs_of_ne s P (by omega)]
  exact h q hq

/-- The nodes that hold the round are counted over the rounds of the nodes that ask. -/
theorem held_set (K : ℕ) (h : p ∈ N.askers → P.round = (s.procs p).round) :
    N.askers.countP (fun q => ((s.set p P).procs q).round == K) =
      N.askers.countP (fun q => (s.procs q).round == K) := by
  refine List.countP_congr fun q hq => ?_
  by_cases hqp : q = p
  · subst hqp
    rw [set_procs_self, h hq]
  · rw [set_procs_of_ne s P hqp]

end set

theorem Stage.begin {sent : ℕ → List V} {P : Proc V} (h : Stage stamp nd sent P) (hdone : P.Done) :
    Stage stamp nd sent { P with round := P.round + 1, got := some [] } := by
  obtain ⟨hgot, hputs⟩ := hdone
  cases h with
  | busy => cases hgot
  | idle ins outs apart mine =>
    simp only at hputs
    subst hputs
    exact .busy ⟨List.nodup_nil, fun _ hm => absurd hm List.not_mem_nil⟩
      (fun _ hm => absurd hm List.not_mem_nil) (fun i port hport => ins _ (mem_reads hport))
      fun c hc => by simpa using outs c hc

/-- A node is one round ahead of a channel that it feeds while it has something to do. -/
theorem Stage.le_sent {sent : ℕ → List V} {P : Proc V} (h : Stage stamp nd sent P) {c : ℕ}
    (hc : c ∈ nd.outs) :
    P.round ≤ (sent c).length + 1 ∧ (P.Done → (sent c).length = P.round) := by
  cases h with
  | @idle round puts ins outs apart mine =>
    have hsum := outs c hc
    have hone := List.nodup_iff_count_le_one.mp apart c
    refine ⟨?_, fun hd => ?_⟩
    · change round ≤ _
      omega
    · obtain rfl : puts = [] := hd.2
      exact hsum
  | busy arrived stamps ins outs =>
    exact ⟨(congrArg (· + 1) (outs c hc)).ge, fun hd => by cases hd.1⟩

/-- A node that sends has received the messages of its round on all its ports. -/
theorem Stage.decide {sent : ℕ → List V} {P : Proc V} {l : List (ℕ × V)} {v : V}
    (h : Stage stamp nd sent P) (hd : Disciplined stamp nd) (houts : nd.outs.Nodup)
    (hgot : P.got = some l) (hturn : nd.turn P.round l = .send v) :
    Stage stamp nd sent { P with got := none, puts := P.puts ++ nd.outs.map (·, v) } := by
  cases h with
  | idle => cases hgot
  | @busy round l' arrived stamps ins outs =>
    obtain rfl := Option.some.inj hgot
    obtain ⟨hall, hstamp⟩ := hd.sends round l' v (arrived.fair stamps) hturn
    have hfst : (([] : List (ℕ × V)) ++ nd.outs.map (·, v)).map Prod.fst = nd.outs := by
      rw [List.nil_append, List.map_map]
      exact List.map_id _
    refine .idle ?_ ?_ ?_ ?_
    · intro c hc
      obtain ⟨port, hport, rfl⟩ := List.mem_map.mp hc
      obtain ⟨i, hi⟩ := List.mem_iff_getElem?.mp hport
      rw [ins i port hi, if_pos (hall i (List.getElem?_eq_some_iff.mp hi).1)]
    · intro c hc
      rw [hfst, List.count_eq_one_of_mem houts hc, outs c hc]
    · rw [hfst]
      exact houts
    · intro m hm
      obtain ⟨c, hc, rfl⟩ := List.mem_map.mp hm
      exact ⟨hc, hstamp, l', arrived, hall, hturn⟩

namespace Lockstep

theorem start (h : Standing stamp N) : Lockstep stamp N (start N) where
  alive := rfl
  stages := fun p nd _ => .idle (fun _ _ => rfl) (fun _ _ => rfl) List.nodup_nil
    fun _ hm => absurd hm List.not_mem_nil
  told := by
    intro nd _ c _ j v hv
    cases hv
  current := fun _ _ => Or.inl rfl
  rested := fun _ => ⟨fun _ _ => ⟨rfl, rfl⟩, fun _ _ => rfl, h.counted⟩
  asked := fun hbusy => absurd hbusy Bool.false_ne_true
  quiet := fun _ _ => rfl

theorem round_le (h : Lockstep stamp N s) {p : ℕ} (hp : p < N.nodes.length) :
    (s.procs p).round ≤ s.round := by
  rcases h.current p hp with heq | ⟨-, heq, -⟩ <;> omega

/-- A node at work is in the round of the parent, which waits for it. -/
theorem at_work (h : Lockstep stamp N s) {p : ℕ} (hp : p < N.nodes.length)
    (hdone : ¬ (s.procs p).Done) : (s.procs p).round = s.round ∧ s.busy = true := by
  constructor
  · exact (h.current p hp).resolve_right fun hlate => hdone hlate.2.2
  · by_contra hbusy
    exact hdone ((h.rested (Bool.not_eq_true _ ▸ hbusy)).1 p hp)

/-- Every channel has carried one message in each round, but for the round that is on. -/
theorem sent_bounds (hw : Wired N) (h : Lockstep stamp N s) {c : ℕ} (hc : c < N.channels) :
    (s.sent c).length ≤ s.round ∧ s.round ≤ (s.sent c).length + 1 ∧
      (s.busy = false → (s.sent c).length = s.round) := by
  obtain ⟨p, nd, hp, hout⟩ := hw.feeder hc
  have hstage := h.stages p nd hp
  refine ⟨(hstage.sent_le hout).trans (h.round_le (nodes_lt hp)), ?_, fun hrest =>
    (h.rested hrest).2.1 c hc⟩
  obtain ⟨hbehind, hdone⟩ := hstage.le_sent hout
  rcases h.current p (nodes_lt hp) with heq | ⟨-, heq, hd⟩
  · omega
  · have hsent := hdone hd
    omega

/-- What has gone over a channel belongs to the rounds in their order. -/
theorem stamped (hw : Wired N) (h : Lockstep stamp N s) {c : ℕ} (hc : c < N.channels) {j : ℕ}
    {v : V} (hv : (s.sent c)[j]? = some v) : stamp v = j + 1 := by
  obtain ⟨p, nd, hp, hout⟩ := hw.feeder hc
  exact (h.told nd (List.mem_of_getElem? hp) c hout j v hv).1

theorem begin (hw : Wired N) (h : Lockstep stamp N s) (hbusy : s.busy = false) :
    Lockstep stamp N { s with round := s.round + 1, busy := true, given := 0 } := by
  obtain ⟨hdone, hsent, hleft⟩ := h.rested hbusy
  have hround : ∀ p < N.nodes.length, (s.procs p).round = s.round := fun p hp =>
    (h.current p hp).resolve_right fun hlate => by simp [hbusy] at hlate
  refine ⟨h.alive, h.stages, h.told, fun p hp => Or.inr ⟨rfl, ?_, hdone p hp⟩, ?_, fun _ => ?_,
    h.quiet⟩
  · change (s.procs p).round + 1 = s.round + 1
    rw [hround p hp]
  · intro hno
    cases hno
  · refine ⟨?_, ?_, hleft⟩
    · change (s.sent N.last).length + 1 = s.round + 1
      rw [hsent _ hw.last_lt]
    · symm
      rw [List.countP_eq_zero]
      intro p hp
      have hlt := hround p (askers_lt hp)
      simp only [beq_iff_eq]
      omega

theorem hand (h : Lockstep stamp N s) {p : ℕ} (hnd : N.nodes[p]? = some nd)
    (hbusy : s.busy = true) (hleft : 0 < s.left) (hasks : nd.asks = true)
    (hround : (s.procs p).round + 1 = s.round) :
    Lockstep stamp N { s.set p { s.procs p with round := s.round, got := some [] } with
      left := s.left - 1, given := s.given + 1 } := by
  have hdone := ((h.current p (nodes_lt hnd)).resolve_left (by omega)).2.2
  obtain ⟨hlast, hgiven, hsum⟩ := h.asked hbusy
  have hstage := (h.stages p nd hnd).begin hdone
  rw [hround] at hstage
  refine ⟨h.alive, stages_set h.stages hnd hstage, h.told, current_set h.current rfl,
    fun hno => absurd (hbusy.symm.trans hno) (by decide), fun _ => ⟨hlast, ?_, ?_⟩,
    quiet_set h.quiet (nodes_lt hnd)⟩
  · symm
    change _ = s.given + 1
    rw [hgiven]
    refine countP_flip (askers_nodup N) ((mem_askers hnd).mpr hasks) ?_ ?_ fun q hq => ?_
    · simp only [beq_eq_false_iff_ne]
      omega
    · simp only [set_procs_self, beq_iff_eq]
      rfl
    · exact congrArg (fun P : Proc V => P.round == s.round) (set_procs_of_ne s _ hq)
  · change s.left - 1 + (s.given + 1) = _
    omega

theorem go_on (hs : Standing stamp N) (h : Lockstep stamp N s) {p : ℕ} {l : List (ℕ × V)} {v : V}
    (hnd : N.nodes[p]? = some nd) (hgot : (s.procs p).got = some l)
    (hturn : nd.turn (s.procs p).round l = .send v) :
    Lockstep stamp N (s.set p
      { s.procs p with got := none, puts := (s.procs p).puts ++ nd.outs.map (·, v) }) := by
  have hmem := List.mem_of_getElem? hnd
  have hwork := h.at_work (nodes_lt hnd) fun hdone => by simp [hdone.1] at hgot
  have hstage := (h.stages p nd hnd).decide (hs.disciplined nd hmem) (hs.wired.outs_nodup hmem)
    hgot hturn
  refine ⟨h.alive, stages_set h.stages hnd hstage, h.told, current_set h.current hwork.1,
    fun hno => absurd (hwork.2.symm.trans hno) (by decide), fun hbusy => ?_,
    quiet_set h.quiet (nodes_lt hnd)⟩
  obtain ⟨hlast, hgiven, hsum⟩ := h.asked hbusy
  refine ⟨hlast, hgiven.trans (held_set (p := p) s.round ?_).symm, hsum⟩
  exact fun _ => rfl

/-- No node panics. -/
theorem no_crash (hs : Standing stamp N) (h : Lockstep stamp N s) {p : ℕ} {l : List (ℕ × V)}
    (hnd : N.nodes[p]? = some nd) (hgot : (s.procs p).got = some l) :
    nd.turn (s.procs p).round l ≠ .crash := by
  have hstage := h.stages p nd hnd
  revert hstage hgot
  generalize s.procs p = P
  intro hgot hstage
  cases hstage with
  | idle => cases hgot
  | busy arrived stamps ins outs =>
    obtain rfl := Option.some.inj hgot
    exact (hs.disciplined nd (List.mem_of_getElem? hnd)).sound _ _ (arrived.fair stamps)

/-- The sender of a message is a node in the round of the parent. -/
theorem sender (h : Lockstep stamp N s) {q c : ℕ} {v : V}
    (hput : (s.procs q).puts.lookup c = some v) :
    ∃ nq, N.nodes[q]? = some nq ∧ (s.procs q).round = s.round ∧ s.busy = true := by
  have hne : (s.procs q).puts ≠ [] := by
    intro hnil
    rw [hnil] at hput
    cases hput
  have hq : q < N.nodes.length := by
    by_contra hge
    exact hne (h.quiet q (by omega))
  exact ⟨_, List.getElem?_eq_getElem hq, h.at_work hq fun hdone => hne hdone.2⟩

/-- A message that goes concerns the node that fed its channel and the one that reads it. -/
theorem stages_sent (hw : Wired N) (h : Lockstep stamp N s) {q c : ℕ} {nq : Node V} {v : V}
    (hnq : N.nodes[q]? = some nq) (hput : (s.procs q).puts.lookup c = some v)
    (p : ℕ) (hnd : N.nodes[p]? = some nd) (hread : c ∉ nd.reads) :
    Stage stamp nd (push s.sent c v) ((s.set q ((s.procs q).drop c)).procs p) := by
  have hfed := ((h.stages q nq hnq).waits hput).1
  by_cases hpq : p = q
  · subst hpq
    obtain rfl := Option.some.inj (hnd.symm.trans hnq)
    rw [set_procs_self]
    exact (h.stages p nd hnd).send hput hread
  · have hout : c ∉ nd.outs := fun hout => hpq (hw.feeder_unique hnd hout hnq hfed)
    rw [set_procs_of_ne s _ hpq]
    exact (h.stages p nd hnd).frame (fun d hd => push_of_ne _ _ fun heq => hread (heq ▸ hd))
      fun d hd => push_of_ne _ _ fun heq => hout (heq ▸ hd)

theorem told_sent (hw : Wired N) (h : Lockstep stamp N s) {q c : ℕ} {nq : Node V} {v : V}
    (hnq : N.nodes[q]? = some nq) (hput : (s.procs q).puts.lookup c = some v)
    (hnd : nd ∈ N.nodes) : Told stamp nd (push s.sent c v) := by
  obtain ⟨hfed, hlen, hstamp, hproduced⟩ := (h.stages q nq hnq).waits hput
  obtain ⟨p, hp⟩ := List.mem_iff_getElem?.mp hnd
  by_cases hpq : p = q
  · subst hpq
    obtain rfl := Option.some.inj (hp.symm.trans hnq)
    refine (h.told nd hnd).send (j := (s.procs p).round - 1) (by omega) ?_ hproduced
    rw [hstamp]
    omega
  · refine (h.told nd hnd).frame (fun d _ => prefix_push _ _ _ d) fun d hd => ?_
    exact push_of_ne _ _ fun heq => hpq (hw.feeder_unique hp (heq ▸ hd) hnq hfed)

/-- A node that receives has nothing left to send, and the message is the next on its
channel. -/
theorem receiver (h : Lockstep stamp N s) {q r i : ℕ} {nq : Node V} {port : Port} {v : V}
    (hnq : N.nodes[q]? = some nq) (hput : (s.procs q).puts.lookup port.chan = some v)
    (hnd : N.nodes[r]? = some nd) (hport : nd.ins[i]? = some port)
    (hawaits : i ∈ nd.awaits (s.procs r)) :
    (s.procs r).puts = [] ∧ ((s.procs r).receive i v).round = s.round ∧
      (nd.asks = true → (s.procs r).round = s.round) := by
  obtain ⟨-, hlen, -, -⟩ := (h.stages q nq hnq).waits hput
  obtain ⟨nq', hnq', hround, -⟩ := h.sender hput
  have hcurrent := h.current r (nodes_lt hnd)
  have hread := (h.stages r nd hnd).read_le (mem_reads hport)
  have hstage := h.stages r nd hnd
  revert hstage hawaits hcurrent hread
  generalize s.procs r = P
  intro hawaits hcurrent hread hstage
  cases hstage with
  | @idle round puts ins outs apart mine =>
    have hidle : ¬ (nd.asks = true ∨ puts ≠ []) := by
      intro hno
      simp [Node.awaits, if_pos hno] at hawaits
    push Not at hidle
    have hin := ins _ (mem_reads hport)
    refine ⟨hidle.2, ?_, fun hasks => absurd hasks hidle.1⟩
    change round + 1 = s.round
    omega
  | @busy round l arrived stamps ins outs =>
    have hnow : round + 1 = s.round :=
      hcurrent.resolve_right fun hlate => by simp [Proc.Done] at hlate
    exact ⟨rfl, hnow, fun _ => hnow⟩

theorem pass (hs : Standing stamp N) (h : Lockstep stamp N s) {q r i : ℕ} {port : Port} {v : V}
    (hnd : N.nodes[r]? = some nd) (hport : nd.ins[i]? = some port)
    (hput : (s.procs q).puts.lookup port.chan = some v) (hawaits : i ∈ nd.awaits (s.procs r)) :
    Lockstep stamp N { (s.set q ((s.procs q).drop port.chan)).set r
      (((s.set q ((s.procs q).drop port.chan)).procs r).receive i v) with
        sent := push s.sent port.chan v } := by
  have hw := hs.wired
  have hmem := List.mem_of_getElem? hnd
  obtain ⟨nq, hnq, hround, hbusy⟩ := h.sender hput
  obtain ⟨hfed, hlen, hstamp, -⟩ := (h.stages q nq hnq).waits hput
  obtain ⟨hputs, hnow, hasker⟩ := h.receiver hnq hput hnd hport hawaits
  have hown := hw.not_own hmem (mem_reads hport)
  have hrq : r ≠ q := by
    rintro rfl
    obtain rfl := Option.some.inj (hnd.symm.trans hnq)
    exact hown hfed
  rw [set_procs_of_ne s _ hrq]
  have honly : ∀ p nd', N.nodes[p]? = some nd' → p ≠ r → port.chan ∉ nd'.reads := by
    intro p nd' hp hne hin
    obtain ⟨port', hport', hsame⟩ := List.mem_map.mp hin
    obtain ⟨j, hj⟩ := List.mem_iff_getElem?.mp hport'
    exact hne (hw.reader_unique hnd hport hp hj hsame).1.symm
  refine ⟨h.alive, ?_, fun nd' hnd' => h.told_sent hw hnq hput hnd', ?_,
    fun hno => absurd (hbusy.symm.trans hno) (by decide), fun _ => ?_, ?_⟩
  · intro p nd' hp
    by_cases hpr : p = r
    · subst hpr
      obtain rfl := Option.some.inj (hnd.symm.trans hp)
      change Stage stamp nd (push s.sent port.chan v) (State.procs (State.set _ _ _) p)
      rw [set_procs_self]
      refine (h.stages p nd hnd).receive hport hown (fun j port' hj hsame => ?_) hputs ?_ ?_
      · exact (hw.reader_unique hnd hport hnd hj hsame).2.symm
      · rw [hstamp, hround, hnow]
      · rw [hlen, hround, hnow]
    · change Stage stamp nd' (push s.sent port.chan v) (State.procs (State.set _ _ _) p)
      rw [set_procs_of_ne _ _ hpr]
      exact h.stages_sent hw hnq hput p hp (honly p nd' hp hpr)
  · exact current_set (s := s.set q ((s.procs q).drop port.chan)) (current_set h.current hround) hnow
  · obtain ⟨hlast, hgiven, hsum⟩ := h.asked hbusy
    refine ⟨?_, ?_, hsum⟩
    · change (push s.sent port.chan v N.last).length + 1 = s.round
      rw [push_of_ne _ _ (hw.last_unread hmem (mem_reads hport)).symm, hlast]
    · refine hgiven.trans ?_
      refine ((held_set (s := s.set q ((s.procs q).drop port.chan)) (p := r) s.round ?_).trans
        (held_set (p := q) s.round fun _ => rfl)).symm
      intro hr
      rw [set_procs_of_ne s _ hrq, hnow, hasker ((mem_askers hnd).mp hr)]
  · exact quiet_set (s := s.set q ((s.procs q).drop port.chan)) (quiet_set h.quiet (nodes_lt hnq))
      (nodes_lt hnd)

theorem finish (hs : Standing stamp N) (h : Lockstep stamp N s) {q : ℕ} {v : V}
    (hput : (s.procs q).puts.lookup N.last = some v) (hleft : s.left = 0) :
    Lockstep stamp N { s.set q ((s.procs q).drop N.last) with
      sent := push s.sent N.last v
      busy := false
      left := s.given
      given := 0
      crashed := stamp v != s.round } := by
  have hw := hs.wired
  obtain ⟨nq, hnq, hround, hbusy⟩ := h.sender hput
  obtain ⟨hfed, hlen, hstamp, -⟩ := (h.stages q nq hnq).waits hput
  obtain ⟨hlast, hgiven, hsum⟩ := h.asked hbusy
  have hstages : ∀ p nd', N.nodes[p]? = some nd' → Stage stamp nd' (push s.sent N.last v)
      ((s.set q ((s.procs q).drop N.last)).procs p) := fun p nd' hp =>
    h.stages_sent hw hnq hput p hp fun hin => hw.last_unread (List.mem_of_getElem? hp) hin rfl
  have hrounds : ∀ p < N.nodes.length,
      ((s.set q ((s.procs q).drop N.last)).procs p).round ≤ s.round := by
    intro p hp
    by_cases hpq : p = q
    · subst hpq
      rw [set_procs_self]
      exact h.round_le hp
    · rw [set_procs_of_ne s _ hpq]
      exact h.round_le hp
  obtain ⟨hall, hdone⟩ := drained hw hstages hrounds (by
    rw [push_self, List.length_append]
    exact hlast.ge)
  refine ⟨?_, hstages, fun nd' hnd' => h.told_sent hw hnq hput hnd', fun p hp => Or.inl (hdone p hp).1,
    fun _ => ⟨fun p hp => (hdone p hp).2, hall, ?_⟩, fun hno => absurd hno Bool.false_ne_true,
    quiet_set h.quiet (nodes_lt hnq)⟩
  · change (stamp v != s.round) = false
    rw [hstamp, hround]
    exact bne_self_eq_false _
  · change s.given = _
    omega

theorem abort (h : Lockstep stamp N s) : Lockstep stamp N { s with aborted := true } :=
  ⟨h.alive, h.stages, h.told, h.current, h.rested, h.asked, h.quiet⟩

/-- Every step of the network keeps the lock step. -/
theorem step (hs : Standing stamp N) (h : Lockstep stamp N s) (hstep : step stamp N s e = some s') :
    Lockstep stamp N s' := by
  obtain ⟨-, hmoved⟩ := step_moved hstep
  cases hmoved with
  | begin hbusy heq => exact heq ▸ h.begin hs.wired hbusy
  | hand hnd hbusy hleft hasks hready hround heq =>
    exact heq ▸ h.hand hnd hbusy hleft hasks hround
  | decide hnd hgot hturn heq => exact heq ▸ h.go_on hs hnd hgot hturn
  | crash hnd hgot hturn heq => exact absurd hturn (h.no_crash hs hnd hgot)
  | abort hnd hgot hturn heq => exact heq ▸ h.abort
  | pass hnd hport hput hlive hawaits heq => exact heq ▸ h.pass hs hnd hport hput hawaits
  | finish hput hbusy hleft heq => exact heq ▸ h.finish hs hput hleft

/-- In every state that a network can reach, its nodes are in lock step. -/
theorem run (hs : Standing stamp N) {es : List Event}
    (hrun : exec (LockStep.step stamp N) (LockStep.start N) es = some s) : Lockstep stamp N s :=
  invariant_exec (fun _ _ _ h => h.step hs) (start hs) hrun

/-- A node that the parent has still to hand the round to has done with the one before and
asks for the next. -/
theorem hand_over (h : Lockstep stamp N s) (hbusy : s.busy = true) :
    s.left = N.askers.countP (fun p => (s.procs p).round != s.round) ∧
      ∀ p ∈ N.askers, (s.procs p).round ≠ s.round →
        (s.procs p).round + 1 = s.round ∧ (s.procs p).Done := by
  obtain ⟨-, hgiven, hsum⟩ := h.asked hbusy
  constructor
  · have hsplit := List.length_eq_countP_add_countP (fun p => (s.procs p).round == s.round)
      (l := N.askers)
    have hnot : N.askers.countP (fun p => (s.procs p).round != s.round) =
        N.askers.countP (fun p => decide ¬ ((s.procs p).round == s.round) = true) :=
      List.countP_congr fun p _ => by simp [bne]
    omega
  · intro p hp hne
    exact ((h.current p (askers_lt hp)).resolve_left hne).2

theorem ready_of_done {P : Proc V} (h : P.Done) : nd.ready P = true := by
  simp [Node.ready, h.1, h.2]

/-- A node that has still to be handed the round can be. -/
theorem can_hand_to (h : Lockstep stamp N s) (hon : s.aborted = false) (hbusy : s.busy = true)
    {p : ℕ} (hp : p ∈ N.askers) (hne : (s.procs p).round ≠ s.round) :
    ∃ s', LockStep.step stamp N s (.hand p) = some s' := by
  obtain ⟨hcount, hready⟩ := h.hand_over hbusy
  obtain ⟨hround, hdone⟩ := hready p hp hne
  have hleft : 0 < s.left := hcount ▸ List.countP_pos_iff.mpr ⟨p, hp, by simpa using hne⟩
  have hget := List.getElem?_eq_getElem (askers_lt hp)
  exact ⟨_, step_of_moved h.alive hon
    (.hand hget hbusy hleft ((mem_askers hget).mp hp) (ready_of_done hdone) hround rfl)⟩

/-- While the parent has a node to hand the round to, it can. -/
theorem can_hand (h : Lockstep stamp N s) (hon : s.aborted = false) (hbusy : s.busy = true)
    (hleft : 0 < s.left) : ∃ p s', LockStep.step stamp N s (.hand p) = some s' := by
  obtain ⟨p, hp, hne⟩ := List.countP_pos_iff.mp ((h.hand_over hbusy).1 ▸ hleft)
  exact ⟨p, h.can_hand_to hon hbusy hp (by simpa using hne)⟩

/-- From any moment of a round, the parent can hand it to the nodes that do not have it yet,
each of them once and in any order, and is done. -/
theorem hands_over (hs : Standing stamp N) (h : Lockstep stamp N s) (hon : s.aborted = false)
    (hbusy : s.busy = true) {ps : List ℕ} (hnodup : ps.Nodup)
    (hps : ∀ p, p ∈ ps ↔ p ∈ N.askers ∧ (s.procs p).round ≠ s.round) :
    ∃ s', exec (LockStep.step stamp N) s (ps.map .hand) = some s' ∧ s'.left = 0 ∧
      ∀ p ∈ N.askers, (s'.procs p).round = s.round := by
  induction ps generalizing s with
  | nil =>
    have hall : ∀ p ∈ N.askers, (s.procs p).round = s.round := by
      intro p hp
      by_contra hne
      exact absurd ((hps p).mpr ⟨hp, hne⟩) List.not_mem_nil
    refine ⟨s, rfl, ?_, hall⟩
    rw [(h.hand_over hbusy).1, List.countP_eq_zero]
    intro p hp
    simp [hall p hp]
  | cons p ps ih =>
    obtain ⟨hfresh, hrest⟩ := List.nodup_cons.mp hnodup
    obtain ⟨hp, hne⟩ := (hps p).mp List.mem_cons_self
    obtain ⟨s₁, hstep⟩ := h.can_hand_to hon hbusy hp hne
    have hnext := h.step hs hstep
    cases (step_moved hstep).2 with
    | hand hnd _ hleft hasks hready hround heq =>
      subst heq
      have hrest' := ih hnext hon hbusy hrest fun q => by
        by_cases hq : q = p
        · subst hq
          constructor
          · exact fun hin => absurd hin hfresh
          · intro hno
            exact absurd (congrArg Proc.round (set_procs_self s q _)) hno.2
        · have hsame : ((s.set p { s.procs p with round := s.round, got := some [] }).procs q) =
              s.procs q := set_procs_of_ne s _ hq
          have hmem := hps q
          rw [List.mem_cons, or_iff_right hq] at hmem
          exact hmem.trans (by rw [← hsame]; rfl)
      obtain ⟨s', hrun, hdone⟩ := hrest'
      exact ⟨s', exec_cons.mpr ⟨_, hstep, hrun⟩, hdone⟩

/-- A channel behind in the round has its message waiting, when those in front of its node
have all carried theirs and the node does not wait to go on. -/
theorem waiting (hs : Standing stamp N) (h : Lockstep stamp N s) (hleft : s.left = 0)
    (hbusy : s.busy = true)
    (hturn : ∀ p nd l, N.nodes[p]? = some nd → (s.procs p).got = some l →
      ∃ ps, nd.turn (s.procs p).round l = .take ps)
    {q c : ℕ} {nq : Node V} (hnq : N.nodes[q]? = some nq) (hc : c ∈ nq.outs)
    (hbehind : (s.sent c).length < s.round) (hins : ∀ d ∈ nq.reads, s.round ≤ (s.sent d).length) :
    ∃ v, (s.procs q).puts.lookup c = some v := by
  have hmem := List.mem_of_getElem? hnq
  have hstage := h.stages q nq hnq
  -- a node that is handed its rounds has been handed this one, another begins it with its input
  have hround : (s.procs q).round = s.round := by
    refine (h.current q (nodes_lt hnq)).resolve_right fun hlate => ?_
    cases hasks : nq.asks with
    | true =>
      obtain ⟨hcount, -⟩ := h.hand_over hbusy
      have hnone := List.countP_eq_zero.mp (hcount.symm.trans hleft) q ((mem_askers hnq).mpr hasks)
      have heq : (s.procs q).round = s.round := by simpa using hnone
      omega
    | false =>
      obtain ⟨port, hport⟩ := List.exists_mem_of_ne_nil _ (hs.wired.driven nq hmem hasks)
      have hread : port.chan ∈ nq.reads := List.mem_map_of_mem hport
      have hle := hstage.read_le hread
      have hge := hins _ hread
      omega
  have hgot := hturn q nq
  revert hstage hround hgot
  generalize s.procs q = P
  intro hstage hround hgot
  cases hstage with
  | @idle round puts ins outs apart mine =>
    have hsum := outs c hc
    have hpos : 0 < (puts.map Prod.fst).count c := by
      simp only at hround
      omega
    obtain ⟨m, hm, rfl⟩ := List.mem_map.mp (List.count_pos_iff.mp hpos)
    exact Option.isSome_iff_exists.mp (List.lookup_isSome_iff.mpr ⟨m, hm, by simp⟩)
  | @busy round l arrived stamps ins outs =>
    obtain ⟨ps, hps⟩ := hgot l hnq rfl
    obtain ⟨⟨i, hi, hmissing⟩, -⟩ :=
      (hs.disciplined nq hmem).takes round l ps (arrived.fair stamps) hps
    have hget := List.getElem?_eq_getElem hi
    have hlen := ins i _ hget
    have hge := hins _ (mem_reads hget)
    rw [if_neg hmissing] at hlen
    simp only at hround
    omega

/-- The node behind a channel that is behind in the round receives from it. -/
theorem awaiting (hs : Standing stamp N) (h : Lockstep stamp N s) (hleft : s.left = 0)
    (hbusy : s.busy = true)
    (hturn : ∀ p nd l, N.nodes[p]? = some nd → (s.procs p).got = some l →
      ∃ ps, nd.turn (s.procs p).round l = .take ps)
    {r i : ℕ} {port : Port} (hnd : N.nodes[r]? = some nd) (hport : nd.ins[i]? = some port)
    (hbehind : (s.sent port.chan).length < s.round) : i ∈ nd.awaits (s.procs r) := by
  have hmem := List.mem_of_getElem? hnd
  have hi := (List.getElem?_eq_some_iff.mp hport).1
  have hstage := h.stages r nd hnd
  have hgot := hturn r nd
  have hcurrent := h.current r (nodes_lt hnd)
  have hheld : nd.asks = true → (s.procs r).round = s.round := by
    intro hasks
    obtain ⟨hcount, -⟩ := h.hand_over hbusy
    have hnone := List.countP_eq_zero.mp (hcount.symm.trans hleft) r ((mem_askers hnd).mpr hasks)
    simpa using hnone
  revert hstage hgot hcurrent hheld
  generalize s.procs r = P
  intro hstage hgot hcurrent hheld
  cases hstage with
  | @idle round puts ins outs apart mine =>
    have hin := ins _ (mem_reads hport)
    obtain ⟨-, -, hdone⟩ := hcurrent.resolve_left fun heq => by
      simp only at heq
      omega
    have hasks : ¬ nd.asks = true := fun hasks => by
      have heq := hheld hasks
      simp only at heq
      omega
    obtain rfl : puts = [] := hdone.2
    have hidle : ¬ (nd.asks = true ∨ ([] : List (ℕ × V)) ≠ []) := by simp [hasks]
    simp only [Node.awaits, if_neg hidle]
    have hnil := @Fair.nil V stamp nd.ins.length round
    have hd := hs.disciplined nd hmem
    cases hcase : nd.turn (round + 1) [] with
    | take ps =>
      exact (hd.takes round [] ps hnil hcase).2 i hi List.not_mem_nil
    | send v => exact absurd ((hd.sends round [] v hnil hcase).1 i hi) List.not_mem_nil
    | crash => exact absurd hcase (hd.sound round [] hnil)
    | abort => exact absurd (hd.aborts round [] hnil hcase i hi) List.not_mem_nil
  | @busy round l arrived stamps ins outs =>
    obtain ⟨ps, hps⟩ := hgot l hnd rfl
    have hnow : round + 1 = s.round :=
      hcurrent.resolve_right fun hlate => by simp [Proc.Done] at hlate
    have hmissing : i ∉ l.map Prod.fst := by
      intro hin
      have hlen := ins i port hport
      rw [if_pos hin] at hlen
      omega
    simp only [Node.awaits, hps, Turn.ports]
    exact ((hs.disciplined nd hmem).takes round l ps (arrived.fair stamps) hps).2 i hi hmissing

/-- While the parent waits for the round, some step of the network can be taken. -/
theorem not_stuck (hs : Standing stamp N) (h : Lockstep stamp N s) (hon : s.aborted = false)
    (hlive : ∀ nd ∈ N.nodes, ∀ port ∈ nd.ins, port.live = true) (hbusy : s.busy = true) :
    ∃ e s', e ≠ .begin ∧ LockStep.step stamp N s e = some s' := by
  by_cases hleft : 0 < s.left
  · obtain ⟨p, s', hstep⟩ := h.can_hand hon hbusy hleft
    exact ⟨.hand p, s', by simp, hstep⟩
  by_cases hturn : ∀ p nd l, N.nodes[p]? = some nd → (s.procs p).got = some l →
      ∃ ps, nd.turn (s.procs p).round l = .take ps
  · have hw := hs.wired
    have hleft : s.left = 0 := by omega
    have hbehind : ∃ c, c < N.channels ∧ (s.sent c).length < s.round :=
      ⟨N.last, hw.last_lt, by have hlast := (h.asked hbusy).1; omega⟩
    -- the first channel that is behind has its message waiting
    obtain ⟨hlt, hlen⟩ := Nat.find_spec hbehind
    obtain ⟨q, nq, hnq, hc⟩ := hw.feeder hlt
    obtain ⟨v, hput⟩ := h.waiting hs hleft hbusy hturn hnq hc hlen fun d hd => by
      have hmem := List.mem_of_getElem? hnq
      have hdc := hw.forward nq hmem d hd _ hc
      by_contra hno
      exact Nat.find_min hbehind hdc ⟨hdc.trans hlt, by omega⟩
    by_cases hlast : Nat.find hbehind = N.last
    · rw [hlast] at hput
      exact ⟨.finish q, _, nofun, step_of_moved h.alive hon (.finish hput hbusy hleft rfl)⟩
    · obtain ⟨r, nd, i, port, hnd, hport, hchan⟩ := hw.reader hlt hlast
      rw [← hchan] at hlen hput
      have hawaits := h.awaiting hs hleft hbusy hturn hnd hport hlen
      have hthere := hlive nd (List.mem_of_getElem? hnd) port (List.mem_of_getElem? hport)
      exact ⟨.pass q r i, _, nofun,
        step_of_moved h.alive hon (.pass hnd hport hput hthere hawaits rfl)⟩
  · push Not at hturn
    obtain ⟨p, nd, l, hnd, hgot, hno⟩ := hturn
    cases hcase : nd.turn (s.procs p).round l with
    | take ps => exact absurd hcase (hno ps)
    | crash => exact absurd hcase (h.no_crash hs hnd hgot)
    | abort =>
      exact ⟨.decide p, _, nofun, step_of_moved h.alive hon (.abort hnd hgot hcase rfl)⟩
    | send v =>
      exact ⟨.decide p, _, nofun, step_of_moved h.alive hon (.decide hnd hgot hcase rfl)⟩

end Lockstep

section bound

/-- Steps of a node in its rounds so far, the last of them counted when it is over. -/
def Proc.rank (P : Proc V) : ℕ := 2 * P.round + if P.got.isNone then 1 else 0

/-- The steps that the nodes have taken and the messages that have gone. -/
def State.work (N : Network V) (s : State V) : ℕ :=
  ∑ c ∈ Finset.range N.channels, (s.sent c).length +
    ∑ p ∈ Finset.range N.nodes.length, (s.procs p).rank

theorem sum_lt_of_update {n a : ℕ} {f g : ℕ → ℕ} (ha : a < n) (hlt : f a < g a)
    (h : ∀ b, b ≠ a → f b ≤ g b) : ∑ b ∈ Finset.range n, f b < ∑ b ∈ Finset.range n, g b := by
  refine Finset.sum_lt_sum (fun b _ => ?_) ⟨a, Finset.mem_range.mpr ha, hlt⟩
  by_cases hb : b = a
  · exact hb ▸ hlt.le
  · exact h b hb

theorem rank_drop (P : Proc V) (c : ℕ) : (P.drop c).rank = P.rank := rfl

theorem rank_receive (P : Proc V) (i : ℕ) (v : V) : P.rank ≤ (P.receive i v).rank := by
  cases P with
  | mk round got puts =>
    cases got with
    | none =>
      change 2 * round + 1 ≤ 2 * (round + 1) + 0
      omega
    | some l => simp [Proc.rank, Proc.receive]

theorem rank_set_le (s : State V) {p : ℕ} {P : Proc V} (h : (s.procs p).rank ≤ P.rank) (q : ℕ) :
    (s.procs q).rank ≤ ((s.set p P).procs q).rank := by
  by_cases hq : q = p
  · subst hq
    rwa [set_procs_self]
  · rw [set_procs_of_ne s P hq]

theorem sum_sent_lt {c : ℕ} (hc : c < N.channels) (sent : ℕ → List V) (v : V) :
    ∑ d ∈ Finset.range N.channels, (sent d).length <
      ∑ d ∈ Finset.range N.channels, (push sent c v d).length := by
  refine sum_lt_of_update hc ?_ fun d hd => ?_
  · rw [push_self, List.length_append]
    exact Nat.lt_succ_self _
  · rw [push_of_ne sent v hd]

/-- Every step adds to the work, but one that begins a round or gives up. -/
theorem work_lt (hs : Standing stamp N) (h : Lockstep stamp N s) (hne : e ≠ .begin)
    (hstep : step stamp N s e = some s') :
    s.work N < s'.work N + if s'.aborted then 1 else 0 := by
  have hw := hs.wired
  obtain ⟨-, hmoved⟩ := step_moved hstep
  cases hmoved with
  | begin hbusy heq => exact absurd rfl hne
  | @hand p nd hnd hbusy hleft hasks hready hround heq =>
    subst heq
    refine lt_of_lt_of_le ?_ (Nat.le_add_right _ _)
    have hgot : (s.procs p).got = none := by
      simpa using (Bool.and_eq_true_iff.mp hready).1
    have hrank : (s.procs p).rank <
        Proc.rank { s.procs p with round := s.round, got := some [] } := by
      simp only [Proc.rank, hgot, ← hround]
      simp
      omega
    exact Nat.add_lt_add_left (sum_lt_of_update (nodes_lt hnd) (by simpa using hrank)
      fun q _ => rank_set_le s hrank.le q) _
  | @decide p nd l v hnd hgot hturn heq =>
    subst heq
    refine lt_of_lt_of_le ?_ (Nat.le_add_right _ _)
    have hrank : (s.procs p).rank < Proc.rank
        { s.procs p with got := none, puts := (s.procs p).puts ++ nd.outs.map (·, v) } := by
      simp [Proc.rank, hgot]
    exact Nat.add_lt_add_left (sum_lt_of_update (nodes_lt hnd) (by simpa using hrank)
      fun q _ => rank_set_le s hrank.le q) _
  | crash hnd hgot hturn heq => exact absurd hturn (h.no_crash hs hnd hgot)
  | abort hnd hgot hturn heq =>
    subst heq
    exact Nat.lt_succ_self _
  | @pass q r i nd port v hnd hport hput hlive hawaits heq =>
    subst heq
    refine lt_of_lt_of_le ?_ (Nat.le_add_right _ _)
    obtain ⟨nq, hnq, -⟩ := h.sender hput
    have hfed := ((h.stages q nq hnq).waits hput).1
    refine Nat.add_lt_add_of_lt_of_le (sum_sent_lt (hw.out_lt (List.mem_of_getElem? hnq) hfed) _ v)
      (Finset.sum_le_sum fun p _ => ?_)
    exact (rank_set_le s (rank_drop _ _).ge p).trans (rank_set_le _ (rank_receive _ i v) p)
  | @finish q v hput hbusy hleft heq =>
    subst heq
    refine lt_of_lt_of_le ?_ (Nat.le_add_right _ _)
    refine Nat.add_lt_add_of_lt_of_le (sum_sent_lt hw.last_lt _ v) (Finset.sum_le_sum fun p _ => ?_)
    exact rank_set_le s (rank_drop _ _).ge p

theorem work_le (h : Lockstep stamp N s) (hw : Wired N) :
    s.work N ≤ N.channels * s.round + N.nodes.length * (2 * s.round + 1) := by
  refine Nat.add_le_add ?_ ?_
  · refine (Finset.sum_le_card_nsmul _ _ s.round fun c hc => ?_).trans ?_
    · obtain ⟨p, nd, hnd, hout⟩ := hw.feeder (Finset.mem_range.mp hc)
      exact ((h.stages p nd hnd).sent_le hout).trans (h.round_le (nodes_lt hnd))
    · rw [Finset.card_range, Nat.nsmul_eq_mul]
  · refine (Finset.sum_le_card_nsmul _ _ (2 * s.round + 1) fun p hp => ?_).trans ?_
    · have hround := h.round_le (Finset.mem_range.mp hp)
      unfold Proc.rank
      split <;> omega
    · rw [Finset.card_range, Nat.nsmul_eq_mul]

/-- The steps of a run between the beginnings of rounds are bounded by the rounds. -/
theorem steps_bounded (hs : Standing stamp N) {es : List Event}
    (hrun : exec (step stamp N) (start N) es = some s) :
    es.countP (fun e => e != .begin) ≤ (N.channels + 2 * N.nodes.length) * s.round + 1 := by
  have hwork : ∀ {es : List Event} {s : State V},
      exec (step stamp N) (start N) es = some s →
      es.countP (fun e => e != .begin) + N.nodes.length ≤
        s.work N + if s.aborted then 1 else 0 := by
    intro es
    induction es using List.reverseRecOn with
    | nil =>
      intro s hrun
      obtain rfl := Option.some.inj hrun
      simp [State.work, start, Proc.rank]
    | append_singleton es e ih =>
      intro s' hrun
      obtain ⟨s, hrun, hstep⟩ := exec_concat.mp hrun
      have hle := ih hrun
      obtain ⟨hon, hmoved⟩ := step_moved hstep
      rw [hon] at hle
      rw [List.countP_append]
      by_cases he : e = .begin
      · subst he
        cases hmoved with
        | begin hbusy heq =>
          subst heq
          exact hle.trans (Nat.le_add_right _ _)
      · have hone : [e].countP (fun e => e != .begin) ≤ 1 := List.countP_le_length
        have hlt := work_lt hs (Lockstep.run hs hrun) he hstep
        simp only [Bool.false_eq_true, if_false] at hle
        omega
  have hle := hwork hrun
  have hbound := work_le (Lockstep.run hs hrun) hs.wired
  rw [Nat.mul_add, Nat.mul_one, Nat.mul_left_comm] at hbound
  rw [Nat.add_mul, Nat.mul_assoc]
  split at hle <;> omega

end bound

end LockStep
