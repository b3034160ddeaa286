import Blobio.LockStepRuns

/-! What a node that is slow to receive holds up. These bounds hold in every network, whether
or not its nodes keep to their rounds. -/
namespace LockStep
open EventRuns

variable {V : Type*} {stamp : V → ℕ} {N : Network V} {nd : Node V} {s s' : State V} {e : Event}
  {P : Proc V} {c i : ℕ} {v : V}

theorem awaits_idle (h : i ∈ nd.awaits P) (hgot : P.got = none) :
    nd.asks = false ∧ P.puts = [] := by
  rw [Node.awaits, hgot] at h
  by_cases hidle : nd.asks = true ∨ P.puts ≠ []
  · simp [if_pos hidle] at h
  · simpa using hidle

theorem receive_idle (hgot : P.got = none) :
    P.receive i v = { P with round := P.round + 1, got := some [(i, v)] } := by
  simp [Proc.receive, hgot]

theorem receive_busy {l : List (ℕ × V)} (hgot : P.got = some l) :
    P.receive i v = { P with got := some (l ++ [(i, v)]) } := by
  simp [Proc.receive, hgot]

theorem mem_drop {d : ℕ} (hne : d ≠ c) :
    c ∈ (P.drop d).puts.map Prod.fst ↔ c ∈ P.puts.map Prod.fst := by
  have hkeep : ∀ m : ℕ × V, m.1 = c → (m ∈ P.puts.eraseP (fun m => m.1 == d) ↔ m ∈ P.puts) := by
    intro m hm
    apply List.mem_eraseP_of_neg
    simp only [hm, beq_iff_eq]
    exact fun heq => hne heq.symm
  constructor
  · intro hin
    obtain ⟨m, hm, heq⟩ := List.mem_map.mp hin
    exact List.mem_map.mpr ⟨m, (hkeep m heq).mp hm, heq⟩
  · intro hin
    obtain ⟨m, hm, heq⟩ := List.mem_map.mp hin
    exact List.mem_map.mpr ⟨m, (hkeep m heq).mpr hm, heq⟩

section frame

namespace Event

/-- The nodes that an event is about. -/
def nodes : Event → List ℕ
  | begin => []
  | hand p | decide p => [p]
  | pass q r _ => [q, r]
  | finish q => [q]

end Event

theorem step_procs {p : ℕ} (hstep : step stamp N s e = some s') (hp : p ∉ e.nodes) :
    s'.procs p = s.procs p := by
  cases (step_moved hstep).2 with
  | begin hbusy heq => exact heq ▸ rfl
  | crash hnd hgot hturn heq => exact heq ▸ rfl
  | abort hnd hgot hturn heq => exact heq ▸ rfl
  | hand hnd hbusy hleft hasks hready hround heq =>
    exact heq ▸ set_procs_of_ne s _ fun hin => hp (hin ▸ List.mem_cons_self)
  | decide hnd hgot hturn heq =>
    exact heq ▸ set_procs_of_ne s _ fun hin => hp (hin ▸ List.mem_cons_self)
  | @pass q r i nd port v hnd hport hput hlive hawaits heq =>
    obtain ⟨hq, hr⟩ : p ≠ q ∧ p ≠ r := by simpa [Event.nodes] using hp
    exact heq ▸ (set_procs_of_ne _ _ hr).trans (set_procs_of_ne s _ hq)
  | finish hput hbusy hleft heq =>
    exact heq ▸ set_procs_of_ne s _ fun hin => hp (hin ▸ List.mem_cons_self)

/-- A node that no event of a run is about is left as it was. -/
theorem exec_procs {p : ℕ} {es : List Event} (hrun : exec (step stamp N) s es = some s')
    (hp : ∀ e ∈ es, p ∉ e.nodes) : s'.procs p = s.procs p := by
  induction es generalizing s with
  | nil =>
    obtain rfl := Option.some.inj hrun
    rfl
  | cons e es ih =>
    obtain ⟨m, hm, hrest⟩ := exec_cons.mp hrun
    have htail := ih hrest fun f hf => hp f (List.mem_cons_of_mem _ hf)
    exact htail.trans (step_procs hm (hp e List.mem_cons_self))

end frame

section tally

/-- The parent counts the nodes that it hands a round to. -/
structure Tally (N : Network V) (s : State V) : Prop where
  behind : ∀ p ∈ N.askers, (s.procs p).round ≤ s.round
  waiting : s.busy = true → s.left + s.given = N.askers.length ∧
    s.given = N.askers.countP fun p => (s.procs p).round == s.round
  resting : s.busy = false → s.left = N.askers.length

namespace Tally

theorem frame (h : Tally N s) (hround : s'.round = s.round) (hbusy : s'.busy = s.busy)
    (hleft : s'.left = s.left) (hgiven : s'.given = s.given)
    (hsame : ∀ p ∈ N.askers, (s'.procs p).round = (s.procs p).round) : Tally N s' := by
  refine ⟨fun p hp => ?_, fun hb => ?_, fun hb => ?_⟩
  · rw [hsame p hp, hround]
    exact h.behind p hp
  · obtain ⟨hsum, hcount⟩ := h.waiting (hbusy ▸ hb)
    rw [hleft, hgiven, hround]
    refine ⟨hsum, hcount.trans (List.countP_congr fun p hp => ?_)⟩
    rw [hsame p hp]
  · rw [hleft]
    exact h.resting (hbusy ▸ hb)

theorem step (h : Tally N s) (hstep : step stamp N s e = some s') : Tally N s' := by
  cases (step_moved hstep).2 with
  | begin hbusy heq =>
    subst heq
    refine ⟨fun p hp => Nat.le_succ_of_le (h.behind p hp), fun _ => ⟨h.resting hbusy, ?_⟩, nofun⟩
    symm
    rw [List.countP_eq_zero]
    intro p hp
    have hle := h.behind p hp
    simp only [beq_iff_eq]
    omega
  | @hand p nd hnd hbusy hleft hasks hready hround heq =>
    subst heq
    obtain ⟨hsum, hcount⟩ := h.waiting hbusy
    refine ⟨fun q hq => ?_, fun _ => ⟨?_, ?_⟩, fun hno => ?_⟩
    · by_cases hqp : q = p
      · subst hqp
        exact (congrArg Proc.round (set_procs_self s q _)).le
      · exact (congrArg Proc.round (set_procs_of_ne s _ hqp)).trans_le (h.behind q hq)
    · change s.left - 1 + (s.given + 1) = _
      omega
    · change s.given + 1 = _
      rw [hcount]
      symm
      refine countP_flip (askers_nodup N) ((mem_askers hnd).mpr hasks) ?_ ?_ fun q hq => ?_
      · simp only [beq_eq_false_iff_ne]
        omega
      · exact beq_iff_eq.mpr (congrArg Proc.round (set_procs_self s p _))
      · exact congrArg (fun P : Proc V => P.round == s.round) (set_procs_of_ne s _ hq)
    · cases hbusy.symm.trans hno
  | @decide p nd l v hnd hgot hturn heq =>
    subst heq
    refine h.frame rfl rfl rfl rfl fun q _ => ?_
    by_cases hqp : q = p
    · subst hqp
      rw [set_procs_self]
    · rw [set_procs_of_ne s _ hqp]
  | crash hnd hgot hturn heq =>
    subst heq
    exact h.frame rfl rfl rfl rfl fun _ _ => rfl
  | abort hnd hgot hturn heq =>
    subst heq
    exact h.frame rfl rfl rfl rfl fun _ _ => rfl
  | @pass q r i nd port v hnd hport hput hlive hawaits heq =>
    subst heq
    have hdrop : ∀ p, ((s.set q ((s.procs q).drop port.chan)).procs p).round =
        (s.procs p).round := by
      intro p
      by_cases hpq : p = q
      · subst hpq
        rw [set_procs_self]
        rfl
      · rw [set_procs_of_ne s _ hpq]
    refine h.frame rfl rfl rfl rfl fun p hp => ?_
    change (State.procs (State.set _ _ _) p).round = _
    by_cases hpr : p = r
    · subst hpr
      rw [set_procs_self]
      have hgot : (s.procs p).got ≠ none := by
        intro hgot
        have hasks := (awaits_idle hawaits hgot).1
        rw [(mem_askers hnd).mp hp] at hasks
        cases hasks
      obtain ⟨l, hl⟩ := Option.ne_none_iff_exists'.mp hgot
      have hl' : ((s.set q ((s.procs q).drop port.chan)).procs p).got = some l := by
        by_cases hpq : p = q
        · subst hpq
          rw [set_procs_self]
          exact hl
        · rwa [set_procs_of_ne s _ hpq]
      rw [receive_busy hl']
      exact hdrop p
    · rw [set_procs_of_ne _ _ hpr]
      exact hdrop p
  | @finish q v hput hbusy hleft heq =>
    subst heq
    obtain ⟨hsum, hcount⟩ := h.waiting hbusy
    refine ⟨fun p hp => ?_, fun hno => (by cases hno), fun _ => ?_⟩
    · change (State.procs (State.set _ _ _) p).round ≤ s.round
      by_cases hpq : p = q
      · subst hpq
        rw [set_procs_self]
        exact h.behind p hp
      · rw [set_procs_of_ne s _ hpq]
        exact h.behind p hp
    · change s.given = _
      omega

theorem run (hcounted : N.confluent = N.askers.length) {es : List Event}
    (hrun : exec (LockStep.step stamp N) (start N) es = some s) : Tally N s :=
  invariant_exec (fun _ _ _ h => h.step)
    ⟨fun _ _ => le_rfl, fun hno => (by cases hno), fun _ => hcounted⟩ hrun

/-- While a node that asks is behind, the parent has somebody to hand the round to. -/
theorem left_pos (h : Tally N s) (hbusy : s.busy = true) {p : ℕ} (hp : p ∈ N.askers)
    (hbehind : (s.procs p).round ≠ s.round) : 0 < s.left := by
  obtain ⟨hsum, hcount⟩ := h.waiting hbusy
  have hlt : N.askers.countP (fun p => (s.procs p).round == s.round) < N.askers.length := by
    refine lt_of_le_of_ne List.countP_le_length fun heq => hbehind ?_
    simpa using List.countP_eq_length.mp heq p hp
  omega

end Tally

end tally

section backlog

/-- How far a node can be ahead of a channel that it feeds: by the round it is working on, or
whose message waits. -/
structure Backlog (c : ℕ) (sent : ℕ → List V) (P : Proc V) : Prop where
  ahead : P.round ≤ (sent c).length + 1
  level : P.got = none → c ∉ P.puts.map Prod.fst → P.round ≤ (sent c).length

theorem Backlog.mono {sent sent' : ℕ → List V} (h : Backlog c sent P)
    (hle : (sent c).length ≤ (sent' c).length) : Backlog c sent' P :=
  ⟨by have := h.ahead; omega, fun hgot hputs => (h.level hgot hputs).trans hle⟩

theorem length_push_le (sent : ℕ → List V) (d : ℕ) (v : V) (c : ℕ) :
    (sent c).length ≤ (push sent d v c).length :=
  (prefix_push sent d v c).length_le

/-- A message that the node has sent leaves it one less ahead. -/
theorem Backlog.drop {sent : ℕ → List V} (h : Backlog c sent P) (d : ℕ) (v : V) :
    Backlog c (push sent d v) (P.drop d) := by
  by_cases hd : d = c
  · subst hd
    have hlen : (push sent d v d).length = (sent d).length + 1 := by
      rw [push_self, List.length_append, List.length_singleton]
    have hahead := h.ahead
    constructor
    · rw [hlen]
      exact Nat.le_succ_of_le hahead
    · intro _ _
      rw [hlen]
      exact hahead
  · have hlen : push sent d v c = sent c := push_of_ne _ _ fun heq => hd heq.symm
    constructor
    · rw [hlen]
      exact h.ahead
    · intro hgot hputs
      rw [hlen]
      exact h.level hgot fun hin => hputs ((mem_drop hd).mpr hin)

theorem Backlog.receive {sent : ℕ → List V} (h : Backlog c sent P)
    (hidle : P.got = none → P.puts = []) : Backlog c sent (P.receive i v) := by
  cases hgot : P.got with
  | none =>
    have hlevel := h.level hgot fun hin => by simp [hidle hgot] at hin
    rw [receive_idle hgot]
    exact ⟨Nat.succ_le_succ hlevel, nofun⟩
  | some l =>
    rw [receive_busy hgot]
    exact ⟨h.ahead, nofun⟩

/-- A node that sends its messages itself is at most one round ahead of each channel it
feeds. -/
theorem backlog_step {p : ℕ} (hp : N.nodes[p]? = some nd) (hspawns : nd.spawns = false)
    (hc : c ∈ nd.outs) (h : Backlog c s.sent (s.procs p)) (hstep : step stamp N s e = some s') :
    Backlog c s'.sent (s'.procs p) := by
  cases (step_moved hstep).2 with
  | begin hbusy heq => exact heq ▸ h
  | crash hnd hgot hturn heq => exact heq ▸ h
  | abort hnd hgot hturn heq => exact heq ▸ h
  | @hand q nq hnq hbusy hleft hasks hready hround heq =>
    subst heq
    change Backlog c s.sent (State.procs (State.set _ _ _) p)
    by_cases hpq : p = q
    · subst hpq
      obtain rfl := Option.some.inj (hp.symm.trans hnq)
      rw [set_procs_self]
      rw [Node.ready, hspawns, Bool.false_or, Bool.and_eq_true] at hready
      have hlevel := h.level (by simpa using hready.1) fun hin => by
        simp [List.isEmpty_iff.mp hready.2] at hin
      refine ⟨?_, fun hgot => absurd hgot (Option.some_ne_none _)⟩
      change s.round ≤ _
      omega
    · rw [set_procs_of_ne s _ hpq]
      exact h
  | @decide q nq l v hnq hgot hturn heq =>
    subst heq
    change Backlog c s.sent (State.procs (State.set _ _ _) p)
    by_cases hpq : p = q
    · subst hpq
      obtain rfl := Option.some.inj (hp.symm.trans hnq)
      rw [set_procs_self]
      refine ⟨h.ahead, fun _ hputs => absurd ?_ hputs⟩
      simp [hc]
    · rw [set_procs_of_ne s _ hpq]
      exact h
  | @pass q r i nr port v hnr hport hput hlive hawaits heq =>
    subst heq
    have hsent : Backlog c (push s.sent port.chan v)
        ((s.set q ((s.procs q).drop port.chan)).procs p) := by
      by_cases hpq : p = q
      · subst hpq
        rw [set_procs_self]
        exact h.drop _ _
      · rw [set_procs_of_ne s _ hpq]
        exact h.mono (length_push_le ..)
    change Backlog c (push s.sent port.chan v) (State.procs (State.set _ _ _) p)
    by_cases hpr : p = r
    · subst hpr
      rw [set_procs_self]
      refine hsent.receive fun hgot => ?_
      by_cases hpq : p = q
      · subst hpq
        rw [set_procs_self] at hgot ⊢
        have hnil := (awaits_idle hawaits hgot).2
        simp [Proc.drop, hnil]
      · rw [set_procs_of_ne s _ hpq] at hgot ⊢
        exact (awaits_idle hawaits hgot).2
    · rw [set_procs_of_ne _ _ hpr]
      exact hsent
  | @finish q v hput hbusy hleft heq =>
    subst heq
    change Backlog c (push s.sent N.last v) (State.procs (State.set _ _ _) p)
    by_cases hpq : p = q
    · subst hpq
      rw [set_procs_self]
      exact h.drop _ _
    · rw [set_procs_of_ne s _ hpq]
      exact h.mono (length_push_le ..)

theorem backlog_run {p : ℕ} (hp : N.nodes[p]? = some nd) (hspawns : nd.spawns = false)
    (hc : c ∈ nd.outs) {es : List Event} (hrun : exec (step stamp N) (start N) es = some s) :
    (s.procs p).round ≤ (s.sent c).length + 1 :=
  (invariant_exec (fun _ _ _ h => backlog_step hp hspawns hc h)
    ⟨Nat.zero_le _, fun _ _ => Nat.zero_le _⟩ hrun : Backlog c s.sent (s.procs p)).ahead

end backlog

section uptake

/-- A node that takes one message a round has taken no more than it has begun rounds. -/
theorem uptake_step (hw : Wired N) {r : ℕ} (hr : N.nodes[r]? = some nd) (hasks : nd.asks = false)
    (hone : ∀ k l, l ≠ [] → (nd.turn k l).ports = []) (hc : c ∈ nd.reads)
    (h : (s.procs r).got ≠ some [] ∧ (s.sent c).length ≤ (s.procs r).round)
    (hstep : step stamp N s e = some s') :
    (s'.procs r).got ≠ some [] ∧ (s'.sent c).length ≤ (s'.procs r).round := by
  obtain ⟨hgot, hlen⟩ := h
  cases (step_moved hstep).2 with
  | begin hbusy heq => exact heq ▸ ⟨hgot, hlen⟩
  | crash hnd _ hturn heq => exact heq ▸ ⟨hgot, hlen⟩
  | abort hnd _ hturn heq => exact heq ▸ ⟨hgot, hlen⟩
  | @hand p nd' hnd' hbusy hleft hasks' hready hround heq =>
    subst heq
    have hne : r ≠ p := by
      intro hrp
      subst hrp
      obtain rfl := Option.some.inj (hr.symm.trans hnd')
      cases hasks.symm.trans hasks'
    change (State.procs (State.set _ _ _) r).got ≠ _ ∧ _ ≤ (State.procs (State.set _ _ _) r).round
    rw [set_procs_of_ne s _ hne]
    exact ⟨hgot, hlen⟩
  | @decide p nd' l v hnd' hgot' hturn heq =>
    subst heq
    by_cases hrp : r = p
    · subst hrp
      rw [set_procs_self]
      exact ⟨nofun, hlen⟩
    · rw [set_procs_of_ne s _ hrp]
      exact ⟨hgot, hlen⟩
  | @pass q r' i nd' port v hnd' hport hput hlive hawaits heq =>
    subst heq
    have hdrop : ((s.set q ((s.procs q).drop port.chan)).procs r).got = (s.procs r).got ∧
        ((s.set q ((s.procs q).drop port.chan)).procs r).round = (s.procs r).round := by
      by_cases hrq : r = q
      · subst hrq
        rw [set_procs_self]
        exact ⟨rfl, rfl⟩
      · rw [set_procs_of_ne s _ hrq]
        exact ⟨rfl, rfl⟩
    change (State.procs (State.set _ _ _) r).got ≠ _ ∧
      (push s.sent port.chan v c).length ≤ (State.procs (State.set _ _ _) r).round
    by_cases hrr : r = r'
    · subst hrr
      obtain rfl := Option.some.inj (hr.symm.trans hnd')
      have hidle : (s.procs r).got = none := by
        cases hcase : (s.procs r).got with
        | none => rfl
        | some l =>
          have hports := hone (s.procs r).round l fun hnil => hgot (hnil ▸ hcase)
          simp [Node.awaits, hcase, hports] at hawaits
      rw [set_procs_self, receive_idle (hdrop.1.trans hidle)]
      refine ⟨by simp, ?_⟩
      change _ ≤ (State.procs _ r).round + 1
      rw [hdrop.2]
      by_cases hd : port.chan = c
      · subst hd
        rw [push_self, List.length_append]
        exact Nat.succ_le_succ hlen
      · rw [push_of_ne _ _ fun heq => hd heq.symm]
        exact Nat.le_succ_of_le hlen
    · have hne : c ≠ port.chan := by
        intro heq
        obtain ⟨port', hport', hsame⟩ := List.mem_map.mp hc
        obtain ⟨j, hj⟩ := List.mem_iff_getElem?.mp hport'
        exact hrr (hw.reader_unique hr hj hnd' hport (hsame.trans heq).symm).1
      rw [set_procs_of_ne _ _ hrr, hdrop.1, hdrop.2, push_of_ne _ _ hne]
      exact ⟨hgot, hlen⟩
  | @finish q v hput hbusy hleft heq =>
    subst heq
    have hne := hw.last_unread (List.mem_of_getElem? hr) hc
    change (State.procs (State.set _ _ _) r).got ≠ _ ∧
      (push s.sent N.last v c).length ≤ (State.procs (State.set _ _ _) r).round
    rw [push_of_ne _ _ hne]
    by_cases hrq : r = q
    · subst hrq
      rw [set_procs_self]
      exact ⟨hgot, hlen⟩
    · rw [set_procs_of_ne s _ hrq]
      exact ⟨hgot, hlen⟩

theorem uptake_run (hw : Wired N) {r : ℕ} (hr : N.nodes[r]? = some nd) (hasks : nd.asks = false)
    (hone : ∀ k l, l ≠ [] → (nd.turn k l).ports = []) (hc : c ∈ nd.reads) {es : List Event}
    (hrun : exec (step stamp N) (start N) es = some s) :
    (s.sent c).length ≤ (s.procs r).round :=
  (invariant_exec (fun _ _ _ h => uptake_step hw hr hasks hone hc h)
    ⟨fun hno => (by cases hno), le_rfl⟩ hrun :
    (s.procs r).got ≠ some [] ∧ (s.sent c).length ≤ (s.procs r).round).2

/-- Nothing goes over the channels of a node that never takes. -/
theorem unread_step (hw : Wired N) {r : ℕ} (hr : N.nodes[r]? = some nd)
    (hnone : ∀ k l, (nd.turn k l).ports = []) (hc : c ∈ nd.reads) (h : s.sent c = [])
    (hstep : step stamp N s e = some s') : s'.sent c = [] := by
  cases (step_moved hstep).2 with
  | begin hbusy heq => exact heq ▸ h
  | crash hnd hgot hturn heq => exact heq ▸ h
  | abort hnd hgot hturn heq => exact heq ▸ h
  | hand hnd hbusy hleft hasks hready hround heq => exact heq ▸ h
  | decide hnd hgot hturn heq => exact heq ▸ h
  | @pass q r' i nd' port v hnd' hport hput hlive hawaits heq =>
    subst heq
    have hne : c ≠ port.chan := by
      intro heq
      obtain ⟨port', hport', hsame⟩ := List.mem_map.mp hc
      obtain ⟨j, hj⟩ := List.mem_iff_getElem?.mp hport'
      obtain ⟨rfl, -⟩ := hw.reader_unique hr hj hnd' hport (hsame.trans heq).symm
      obtain rfl := Option.some.inj (hr.symm.trans hnd')
      unfold Node.awaits at hawaits
      split at hawaits
      · simp [hnone] at hawaits
      · split at hawaits <;> simp [hnone] at hawaits
    exact (push_of_ne _ _ hne).trans h
  | @finish q v hput hbusy hleft heq =>
    subst heq
    exact (push_of_ne _ _ (hw.last_unread (List.mem_of_getElem? hr) hc)).trans h

theorem unread_run (hw : Wired N) {r : ℕ} (hr : N.nodes[r]? = some nd)
    (hnone : ∀ k l, (nd.turn k l).ports = []) (hc : c ∈ nd.reads) {es : List Event}
    (hrun : exec (step stamp N) (start N) es = some s) : s.sent c = [] :=
  invariant_exec (fun _ _ _ h => unread_step hw hr hnone hc h) rfl hrun

end uptake

section ends

theorem step_round (hstep : step stamp N s e = some s') (he : e ≠ .begin) : s'.round = s.round := by
  cases (step_moved hstep).2 with
  | begin hbusy heq => exact absurd rfl he
  | hand hnd hbusy hleft hasks hready hround heq => exact heq ▸ rfl
  | decide hnd hgot hturn heq => exact heq ▸ rfl
  | crash hnd hgot hturn heq => exact heq ▸ rfl
  | abort hnd hgot hturn heq => exact heq ▸ rfl
  | pass hnd hport hput hlive hawaits heq => exact heq ▸ rfl
  | finish hput hbusy hleft heq => exact heq ▸ rfl

/-- Where no state of the first round is stuck and the round is of so many steps at most, some run
gets to its end. -/
theorem first_round_ends {C : ℕ} (h : ∀ es s, exec (step stamp N) (start N) es = some s → s.round = 1 →
    es.countP (fun e => e != .begin) ≤ C ∧
      (s.busy = true → ∃ e s', e ≠ .begin ∧ step stamp N s e = some s')) :
    ∃ es s, exec (step stamp N) (start N) es = some s ∧ s.round = 1 ∧ s.busy = false := by
  have hlong : ∀ k, ∃ es s, exec (step stamp N) (start N) es = some s ∧ s.round = 1 ∧
      (s.busy = false ∨ k ≤ es.countP fun e => e != .begin) := by
    intro k
    induction k with
    | zero => exact ⟨[.begin], { start N with round := 1, busy := true }, rfl, rfl, .inr (Nat.zero_le _)⟩
    | succ k ih =>
      obtain ⟨es, s, hrun, hround, hend⟩ := ih
      rcases hend with hidle | hk
      · exact ⟨es, s, hrun, hround, .inl hidle⟩
      cases hbusy : s.busy with
      | false => exact ⟨es, s, hrun, hround, .inl hbusy⟩
      | true =>
        obtain ⟨e, s', he, hstep⟩ := (h es s hrun hround).2 hbusy
        refine ⟨es ++ [e], s', exec_concat.mpr ⟨s, hrun, hstep⟩, (step_round hstep he).trans hround, .inr ?_⟩
        rw [List.countP_append, List.countP_cons_of_pos (by simpa using he)]
        exact Nat.add_le_add_right hk 1
  obtain ⟨es, s, hrun, hround, hend⟩ := hlong (C + 1)
  refine ⟨es, s, hrun, hround, hend.resolve_right fun hk => ?_⟩
  have hle := (h es s hrun hround).1
  omega

/-- Where no node gives up, the process goes on. -/
theorem never_aborts (hturn : ∀ nd ∈ N.nodes, ∀ j l, nd.turn j l ≠ .abort) {es : List Event}
    (hrun : exec (step stamp N) (start N) es = some s) : s.aborted = false := by
  refine invariant_exec (I := fun s : State V => s.aborted = false) (fun s e s' h hstep => ?_) rfl hrun
  cases (step_moved hstep).2 with
  | begin hbusy heq => exact heq ▸ h
  | hand hnd hbusy hleft hasks hready hround heq => exact heq ▸ h
  | decide hnd hgot hturn heq => exact heq ▸ h
  | crash hnd hgot hturn heq => exact heq ▸ h
  | abort hnd hgot habort heq => exact absurd habort (hturn _ (List.mem_of_getElem? hnd) _ _)
  | pass hnd hport hput hlive hawaits heq => exact heq ▸ h
  | finish hput hbusy hleft heq => exact heq ▸ h

/-- All messages, those that have gone and those that wait, are of a kind. -/
structure Only (Q : ℕ → V → Prop) (s : State V) : Prop where
  puts : ∀ q, ∀ m ∈ (s.procs q).puts, Q m.1 m.2
  sent : ∀ c, ∀ v ∈ s.sent c, Q c v

section only
variable {Q : ℕ → V → Prop}

theorem Only.set (h : Only Q s) {p : ℕ} {P : Proc V} (hP : ∀ m ∈ P.puts, Q m.1 m.2) : Only Q (s.set p P) where
  puts := fun q m hm => by
    by_cases hq : q = p
    · subst hq
      rw [set_procs_self] at hm
      exact hP m hm
    · rw [set_procs_of_ne s P hq] at hm
      exact h.puts q m hm
  sent := h.sent

theorem Only.drop (h : Only Q s) (q d : ℕ) : ∀ m ∈ ((s.procs q).drop d).puts, Q m.1 m.2 :=
  fun m hm => h.puts q m (List.mem_of_mem_eraseP hm)

theorem Only.push (h : Only Q s) {q d : ℕ} {u : V} (hput : (s.procs q).puts.lookup d = some u) :
    ∀ c, ∀ v ∈ LockStep.push s.sent d u c, Q c v := by
  intro c v hv
  by_cases hc : c = d
  · subst hc
    rw [push_self, List.mem_append, List.mem_singleton] at hv
    rcases hv with hv | rfl
    · exact h.sent c v hv
    · exact h.puts q _ (mem_of_lookup hput)
  · rw [push_of_ne _ _ hc] at hv
    exact h.sent c v hv

theorem Only.step (hturn : ∀ nd ∈ N.nodes, ∀ j l v, nd.turn j l = .send v → ∀ c ∈ nd.outs, Q c v)
    (h : Only Q s) (hstep : LockStep.step stamp N s e = some s') : Only Q s' := by
  cases (step_moved hstep).2 with
  | begin hbusy heq => exact heq ▸ ⟨h.puts, h.sent⟩
  | crash hnd hgot hturn heq => exact heq ▸ ⟨h.puts, h.sent⟩
  | abort hnd hgot hturn heq => exact heq ▸ ⟨h.puts, h.sent⟩
  | @hand p nd hnd hbusy hleft hasks hready hround heq =>
    have hset := h.set (p := p) (P := { s.procs p with round := s.round, got := some [] }) (h.puts p)
    exact heq ▸ ⟨hset.puts, hset.sent⟩
  | @decide p nd l v hnd hgot hsend heq =>
    refine heq ▸ h.set fun m hm => ?_
    rcases List.mem_append.mp hm with hold | hnew
    · exact h.puts p m hold
    · obtain ⟨c, hc, rfl⟩ := List.mem_map.mp hnew
      exact hturn nd (List.mem_of_getElem? hnd) _ _ _ hsend c hc
  | @pass q r i nd port v hnd hport hput hlive hawaits heq =>
    have hdropped := h.set (p := q) (h.drop q port.chan)
    have hset := hdropped.set (p := r) (P := ((s.set q ((s.procs q).drop port.chan)).procs r).receive i v) (by
      unfold Proc.receive
      split <;> exact hdropped.puts r)
    exact heq ▸ ⟨hset.puts, h.push hput⟩
  | @finish q v hput hbusy hleft heq =>
    have hset := h.set (p := q) (h.drop q N.last)
    exact heq ▸ ⟨hset.puts, h.push hput⟩

/-- What the nodes send is all that ever goes over the channels. -/
theorem Only.run (hturn : ∀ nd ∈ N.nodes, ∀ j l v, nd.turn j l = .send v → ∀ c ∈ nd.outs, Q c v)
    {es : List Event} (hrun : exec (LockStep.step stamp N) (start N) es = some s) : Only Q s :=
  invariant_exec (I := Only Q) (fun _ _ _ h hstep => h.step hturn hstep)
    ⟨fun _ _ hm => absurd hm List.not_mem_nil, fun _ _ hv => absurd hv List.not_mem_nil⟩ hrun

end only

/-- Nothing goes over a channel whose reader was not given it. -/
theorem dead_unsent (hw : Wired N) {r i : ℕ} {port : Port} (hr : N.nodes[r]? = some nd)
    (hport : nd.ins[i]? = some port) (hdead : port.live = false) {es : List Event}
    (hrun : exec (step stamp N) (start N) es = some s) : s.sent port.chan = [] := by
  refine invariant_exec (I := fun s : State V => s.sent port.chan = []) (fun s e s' h hstep => ?_) rfl hrun
  cases (step_moved hstep).2 with
  | begin hbusy heq => exact heq ▸ h
  | crash hnd hgot hturn heq => exact heq ▸ h
  | abort hnd hgot hturn heq => exact heq ▸ h
  | hand hnd hbusy hleft hasks hready hround heq => exact heq ▸ h
  | decide hnd hgot hturn heq => exact heq ▸ h
  | @pass q r' i' nd' port' v hnd' hport' hput hlive hawaits heq =>
    subst heq
    have hne : port.chan ≠ port'.chan := by
      intro hsame
      obtain ⟨rfl, rfl⟩ := hw.reader_unique hr hport hnd' hport' hsame.symm
      obtain rfl := Option.some.inj (hr.symm.trans hnd')
      obtain rfl := Option.some.inj (hport.symm.trans hport')
      exact Bool.false_ne_true (hdead.symm.trans hlive)
    exact (push_of_ne _ _ hne).trans h
  | @finish q v hput hbusy hleft heq =>
    subst heq
    have hread : port.chan ∈ nd.reads := List.mem_map_of_mem (List.mem_of_getElem? hport)
    exact (push_of_ne _ _ (hw.last_unread (List.mem_of_getElem? hr) hread)).trans h

end ends

end LockStep
