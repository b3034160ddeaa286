import Blobio.LockStepNetworks

/-! The lock step of a network: in every round each node receives one message on each port
and sends one on each channel it feeds, whatever the order of the steps. -/
namespace LockStep
open EventRuns

variable {V : Type*}

/-- An element of one of the lists stands at one position only. -/
theorem position_unique {α : Type*} {L : List (List α)} (hL : L.flatten.Nodup) {p q i j : ℕ}
    {a b : List α} {x : α} (ha : L[p]? = some a) (hx : a[i]? = some x) (hb : L[q]? = some b)
    (hy : b[j]? = some x) : p = q ∧ i = j := by
  obtain ⟨hnodup, hdisj⟩ := List.nodup_flatten.mp hL
  have hpq : p = q := by
    by_contra hne
    obtain ⟨hp, rfl⟩ := List.getElem?_eq_some_iff.mp ha
    obtain ⟨hq, rfl⟩ := List.getElem?_eq_some_iff.mp hb
    rw [List.pairwise_iff_getElem] at hdisj
    rcases Nat.lt_or_gt_of_ne hne with hlt | hlt
    · exact hdisj p q hp hq hlt (List.mem_of_getElem? hx) (List.mem_of_getElem? hy)
    · exact hdisj q p hq hp hlt (List.mem_of_getElem? hy) (List.mem_of_getElem? hx)
  subst hpq
  obtain rfl : a = b := Option.some.inj (ha.symm.trans hb)
  have hi := (List.getElem?_eq_some_iff.mp hx).1
  exact ⟨rfl, (List.getElem?_inj hi (hnodup a (List.mem_of_getElem? ha))).mp (hx.trans hy.symm)⟩

/-- Flipping a test at one place of a list counts one more. -/
theorem countP_flip {α : Type*} {f g : α → Bool} {l : List α} (hl : l.Nodup) {a : α} (ha : a ∈ l)
    (hf : f a = false) (hg : g a = true) (h : ∀ b, b ≠ a → g b = f b) :
    l.countP g = l.countP f + 1 := by
  induction l with
  | nil => cases ha
  | cons b l ih =>
    obtain ⟨hb, hl⟩ := List.nodup_cons.mp hl
    rcases List.mem_cons.mp ha with rfl | hmem
    · have hrest : l.countP g = l.countP f :=
        List.countP_congr fun c hc => by rw [h c fun heq => hb (heq ▸ hc)]
      rw [List.countP_cons_of_pos hg, List.countP_cons_of_neg (by simp [hf]), hrest]
    · have hne : b ≠ a := fun heq => hb (heq ▸ hmem)
      rw [List.countP_cons, List.countP_cons, ih hl hmem, h b hne]
      omega

namespace Network

/-- The nodes that ask for their rounds. -/
def askers (N : Network V) : List ℕ :=
  (List.range N.nodes.length).filter fun p => N.nodes[p]?.any Node.asks

end Network

/-- Every channel is fed by one node and read by one, the last one by the parent, and each
node feeds only channels behind those it reads. -/
structure Wired (N : Network V) : Prop where
  fed : (N.nodes.map Node.outs).flatten.Perm (List.range N.channels)
  read : ((N.nodes.map Node.reads).flatten ++ [N.last]).Perm (List.range N.channels)
  forward : ∀ nd ∈ N.nodes, ∀ c ∈ nd.reads, ∀ d ∈ nd.outs, c < d
  speaks : ∀ nd ∈ N.nodes, nd.outs ≠ []
  driven : ∀ nd ∈ N.nodes, nd.asks = false → nd.ins ≠ []

/-- The messages have come on different ports, each of them as the one of its round. -/
structure Arrived (nd : Node V) (sent : ℕ → List V) (j : ℕ) (l : List (ℕ × V)) : Prop where
  distinct : (l.map Prod.fst).Nodup
  values : ∀ m ∈ l, ∃ port, nd.ins[m.1]? = some port ∧ (sent port.chan)[j]? = some m.2

/-- The node has made the message from the messages of the same round on all its ports. -/
def Produced (nd : Node V) (sent : ℕ → List V) (j : ℕ) (v : V) : Prop :=
  ∃ l, Arrived nd sent j l ∧ (∀ i < nd.ins.length, i ∈ l.map Prod.fst) ∧
    nd.turn (j + 1) l = .send v

/-- Messages of one round on different ports out of `n`. -/
structure Fair (stamp : V → ℕ) (n j : ℕ) (l : List (ℕ × V)) : Prop where
  distinct : (l.map Prod.fst).Nodup
  bounds : ∀ m ∈ l, m.1 < n
  stamps : ∀ m ∈ l, stamp m.2 = j + 1

/-- Of messages of its round on different ports, a node takes those it has not got, and it
sends one of the same round, or gives up, when it has them all. -/
structure Keeps (stamp : V → ℕ) (n : ℕ) (turn : ℕ → List (ℕ × V) → Turn V) : Prop where
  takes : ∀ j l ps, Fair stamp n j l → turn (j + 1) l = .take ps →
    (∃ i < n, i ∉ l.map Prod.fst) ∧ ∀ i < n, i ∉ l.map Prod.fst → i ∈ ps
  sends : ∀ j l v, Fair stamp n j l → turn (j + 1) l = .send v →
    (∀ i < n, i ∈ l.map Prod.fst) ∧ stamp v = j + 1
  aborts : ∀ j l, Fair stamp n j l → turn (j + 1) l = .abort → ∀ i < n, i ∈ l.map Prod.fst
  sound : ∀ j l, Fair stamp n j l → turn (j + 1) l ≠ .crash

abbrev Disciplined (stamp : V → ℕ) (nd : Node V) : Prop := Keeps stamp nd.ins.length nd.turn

/-- How far the channels around a node are, idle behind its round or busy in it. -/
inductive Stage (stamp : V → ℕ) (nd : Node V) (sent : ℕ → List V) : Proc V → Prop
  | idle {round : ℕ} {puts : List (ℕ × V)}
      (ins : ∀ c ∈ nd.reads, (sent c).length = round)
      (outs : ∀ c ∈ nd.outs, (sent c).length + (puts.map Prod.fst).count c = round)
      (apart : (puts.map Prod.fst).Nodup)
      (mine : ∀ m ∈ puts, m.1 ∈ nd.outs ∧ stamp m.2 = round ∧ Produced nd sent (round - 1) m.2) :
      Stage _ nd sent ⟨round, none, puts⟩
  | busy {round : ℕ} {l : List (ℕ × V)}
      (arrived : Arrived nd sent round l)
      (stamps : ∀ m ∈ l, stamp m.2 = round + 1)
      (ins : ∀ i port, nd.ins[i]? = some port →
        (sent port.chan).length = if i ∈ l.map Prod.fst then round + 1 else round)
      (outs : ∀ c ∈ nd.outs, (sent c).length = round) :
      Stage _ nd sent ⟨round + 1, some l, []⟩

/-- What a node has sent so far, it has made in the rounds so far. -/
def Told (stamp : V → ℕ) (nd : Node V) (sent : ℕ → List V) : Prop :=
  ∀ c ∈ nd.outs, ∀ j v, (sent c)[j]? = some v → stamp v = j + 1 ∧ Produced nd sent j v

def Proc.Done (P : Proc V) : Prop := P.got = none ∧ P.puts = []

/-- What holds between the steps of a network: no node is more than a round behind, and one
that is has done with it. -/
structure Lockstep (stamp : V → ℕ) (N : Network V) (s : State V) : Prop where
  alive : s.crashed = false
  stages : ∀ p nd, N.nodes[p]? = some nd → Stage stamp nd s.sent (s.procs p)
  told : ∀ nd ∈ N.nodes, Told stamp nd s.sent
  current : ∀ p < N.nodes.length, (s.procs p).round = s.round ∨
    s.busy = true ∧ (s.procs p).round + 1 = s.round ∧ (s.procs p).Done
  rested : s.busy = false → (∀ p < N.nodes.length, (s.procs p).Done) ∧
    (∀ c < N.channels, (s.sent c).length = s.round) ∧ s.left = N.askers.length
  asked : s.busy = true → (s.sent N.last).length + 1 = s.round ∧
    s.given = N.askers.countP (fun p => (s.procs p).round == s.round) ∧
    s.left + s.given = N.askers.length
  quiet : ∀ p, N.nodes.length ≤ p → (s.procs p).puts = []

variable {stamp : V → ℕ} {N : Network V} {nd : Node V} {sent sent' : ℕ → List V} {s s' : State V}
  {e : Event}

section wired

theorem Wired.feeder (h : Wired N) {c : ℕ} (hc : c < N.channels) :
    ∃ (p : ℕ) (nd : Node V), N.nodes[p]? = some nd ∧ c ∈ nd.outs := by
  have hmem := h.fed.mem_iff.mpr (List.mem_range.mpr hc)
  obtain ⟨cs, hcs, hin⟩ := List.mem_flatten.mp hmem
  obtain ⟨nd, hnd, rfl⟩ := List.mem_map.mp hcs
  obtain ⟨p, hp⟩ := List.mem_iff_getElem?.mp hnd
  exact ⟨p, nd, hp, hin⟩

theorem Wired.reader (h : Wired N) {c : ℕ} (hc : c < N.channels) (hlast : c ≠ N.last) :
    ∃ (p : ℕ) (nd : Node V) (i : ℕ) (port : Port),
      N.nodes[p]? = some nd ∧ nd.ins[i]? = some port ∧ port.chan = c := by
  have hmem := h.read.mem_iff.mpr (List.mem_range.mpr hc)
  have hreads := (List.mem_append.mp hmem).resolve_right fun hin => hlast (List.mem_singleton.mp hin)
  obtain ⟨cs, hcs, hin⟩ := List.mem_flatten.mp hreads
  obtain ⟨nd, hnd, rfl⟩ := List.mem_map.mp hcs
  obtain ⟨p, hp⟩ := List.mem_iff_getElem?.mp hnd
  obtain ⟨port, hport, rfl⟩ := List.mem_map.mp hin
  obtain ⟨i, hi⟩ := List.mem_iff_getElem?.mp hport
  exact ⟨p, nd, i, port, hp, hi, rfl⟩

theorem Wired.feeder_unique (h : Wired N) {p q c : ℕ} {nd nd' : Node V}
    (hp : N.nodes[p]? = some nd) (hc : c ∈ nd.outs) (hq : N.nodes[q]? = some nd')
    (hd : c ∈ nd'.outs) : p = q := by
  have hnodup := h.fed.nodup_iff.mpr List.nodup_range
  obtain ⟨i, hi⟩ := List.mem_iff_getElem?.mp hc
  obtain ⟨j, hj⟩ := List.mem_iff_getElem?.mp hd
  exact (position_unique hnodup (by rw [List.getElem?_map, hp]; rfl) hi
    (by rw [List.getElem?_map, hq]; rfl) hj).1

theorem Wired.reader_unique (h : Wired N) {p q i j : ℕ} {nd nd' : Node V} {port port' : Port}
    (hp : N.nodes[p]? = some nd) (hi : nd.ins[i]? = some port) (hq : N.nodes[q]? = some nd')
    (hj : nd'.ins[j]? = some port') (hsame : port'.chan = port.chan) : p = q ∧ i = j := by
  have hnodup := List.Nodup.of_append_left (h.read.nodup_iff.mpr List.nodup_range)
  refine position_unique (x := port.chan) hnodup (a := nd.reads) (b := nd'.reads)
    (by rw [List.getElem?_map, hp]; rfl) ?_ (by rw [List.getElem?_map, hq]; rfl) ?_
  · rw [Node.reads, List.getElem?_map, hi]
    rfl
  · rw [Node.reads, List.getElem?_map, hj, ← hsame]
    rfl

theorem Wired.last_unread (h : Wired N) (hnd : nd ∈ N.nodes) {c : ℕ} (hc : c ∈ nd.reads) :
    c ≠ N.last := by
  have hnodup := h.read.nodup_iff.mpr List.nodup_range
  have hmem : c ∈ (N.nodes.map Node.reads).flatten :=
    List.mem_flatten.mpr ⟨nd.reads, List.mem_map_of_mem hnd, hc⟩
  rintro rfl
  exact (List.nodup_append.mp hnodup).2.2 _ hmem _ List.mem_cons_self rfl

theorem Wired.last_lt (h : Wired N) : N.last < N.channels :=
  List.mem_range.mp (h.read.mem_iff.mp (List.mem_append_right _ List.mem_cons_self))

theorem Wired.out_lt (h : Wired N) (hnd : nd ∈ N.nodes) {c : ℕ} (hc : c ∈ nd.outs) :
    c < N.channels :=
  List.mem_range.mp (h.fed.mem_iff.mp (List.mem_flatten.mpr
    ⟨nd.outs, List.mem_map_of_mem hnd, hc⟩))

theorem Wired.outs_nodup (h : Wired N) (hnd : nd ∈ N.nodes) : nd.outs.Nodup :=
  (List.nodup_flatten.mp (h.fed.nodup_iff.mpr List.nodup_range)).1 _ (List.mem_map_of_mem hnd)

/-- A node reads none of the channels it feeds. -/
theorem Wired.not_own (h : Wired N) (hnd : nd ∈ N.nodes) {c : ℕ} (hc : c ∈ nd.reads) :
    c ∉ nd.outs := fun hout => (h.forward nd hnd c hc c hout).false

end wired

theorem mem_reads {i : ℕ} {port : Port} (h : nd.ins[i]? = some port) : port.chan ∈ nd.reads :=
  List.mem_map_of_mem (List.mem_of_getElem? h)

section arrivals

theorem Arrived.mono {j : ℕ} {l : List (ℕ × V)} (h : Arrived nd sent j l)
    (hsent : ∀ c ∈ nd.reads, sent c <+: sent' c) : Arrived nd sent' j l where
  distinct := h.distinct
  values := by
    intro m hm
    obtain ⟨port, hport, hv⟩ := h.values m hm
    refine ⟨port, hport, ?_⟩
    obtain ⟨t, ht⟩ := hsent port.chan (mem_reads hport)
    rw [← ht, List.getElem?_append_left (List.getElem?_eq_some_iff.mp hv).1, hv]

theorem Produced.mono {j : ℕ} {v : V} (h : Produced nd sent j v)
    (hsent : ∀ c ∈ nd.reads, sent c <+: sent' c) : Produced nd sent' j v := by
  obtain ⟨l, harrived, hall, hturn⟩ := h
  exact ⟨l, harrived.mono hsent, hall, hturn⟩

theorem prefix_push (sent : ℕ → List V) (c : ℕ) (v : V) (d : ℕ) : sent d <+: push sent c v d := by
  by_cases hd : d = c
  · subst hd
    exact push_self sent d v ▸ List.prefix_append _ _
  · exact push_of_ne sent v hd ▸ List.prefix_refl _

theorem Arrived.fair {j : ℕ} {l : List (ℕ × V)} (h : Arrived nd sent j l)
    (hstamps : ∀ m ∈ l, stamp m.2 = j + 1) : Fair stamp nd.ins.length j l where
  distinct := h.distinct
  bounds := by
    intro m hm
    obtain ⟨port, hport, -⟩ := h.values m hm
    exact (List.getElem?_eq_some_iff.mp hport).1
  stamps := hstamps

theorem Fair.nil (n j : ℕ) : Fair stamp n j [] :=
  ⟨List.nodup_nil, fun _ hm => absurd hm List.not_mem_nil, fun _ hm => absurd hm List.not_mem_nil⟩

end arrivals

section stages
variable {P : Proc V}

/-- Messages on other channels do not concern a node. -/
theorem Stage.frame (h : Stage stamp nd sent P) (hins : ∀ c ∈ nd.reads, sent' c = sent c)
    (houts : ∀ c ∈ nd.outs, sent' c = sent c) : Stage stamp nd sent' P := by
  have hprefix : ∀ c ∈ nd.reads, sent c <+: sent' c := fun c hc => (hins c hc) ▸ List.prefix_refl _
  cases h with
  | idle ins outs apart mine =>
    refine .idle (fun c hc => by rw [hins c hc, ins c hc])
      (fun c hc => by rw [houts c hc, outs c hc]) apart fun m hm => ?_
    obtain ⟨hout, hstamp, hproduced⟩ := mine m hm
    exact ⟨hout, hstamp, hproduced.mono hprefix⟩
  | busy arrived stamps ins outs =>
    refine .busy (arrived.mono hprefix) stamps (fun i port hport => ?_)
      fun c hc => by rw [houts c hc, outs c hc]
    rw [hins _ (mem_reads hport), ins i port hport]

theorem Told.frame (h : Told stamp nd sent) (hins : ∀ c ∈ nd.reads, sent c <+: sent' c)
    (houts : ∀ c ∈ nd.outs, sent' c = sent c) : Told stamp nd sent' := by
  intro c hc j v hv
  rw [houts c hc] at hv
  exact ⟨(h c hc j v hv).1, (h c hc j v hv).2.mono hins⟩

theorem Stage.sent_le (h : Stage stamp nd sent P) {c : ℕ} (hc : c ∈ nd.outs) :
    (sent c).length ≤ P.round := by
  cases h with
  | idle ins outs apart mine => exact (outs c hc).symm ▸ Nat.le_add_right _ _
  | busy arrived stamps ins outs => exact (outs c hc).le.trans (Nat.le_succ _)

/-- Nothing is sent in a round before everything is received. -/
theorem Stage.sent_le_read (h : Stage stamp nd sent P) {c d : ℕ} (hc : c ∈ nd.reads)
    (hd : d ∈ nd.outs) : (sent d).length ≤ (sent c).length := by
  cases h with
  | idle ins outs apart mine =>
    rw [ins c hc, ← outs d hd]
    exact Nat.le_add_right _ _
  | busy arrived stamps ins outs =>
    obtain ⟨port, hport, rfl⟩ := List.mem_map.mp hc
    obtain ⟨i, hi⟩ := List.mem_iff_getElem?.mp hport
    rw [outs d hd, ins i port hi]
    split <;> omega

theorem Stage.read_le (h : Stage stamp nd sent P) {c : ℕ} (hc : c ∈ nd.reads) :
    (sent c).length ≤ P.round := by
  cases h with
  | idle ins outs apart mine => exact (ins c hc).le
  | busy arrived stamps ins outs =>
    obtain ⟨port, hport, rfl⟩ := List.mem_map.mp hc
    obtain ⟨i, hi⟩ := List.mem_iff_getElem?.mp hport
    rw [ins i port hi]
    change _ ≤ _ + 1
    split <;> omega

/-- A node whose channels have all carried the last round has done with it. -/
theorem Stage.done (h : Stage stamp nd sent P) {K : ℕ} (hne : nd.outs ≠ [])
    (hK : P.round ≤ K) (hout : ∀ c ∈ nd.outs, K ≤ (sent c).length) : P.round = K ∧ P.Done := by
  obtain ⟨c, hc⟩ := List.exists_mem_of_ne_nil _ hne
  cases h with
  | @idle round puts ins outs apart mine =>
    have hround := outs c hc
    have hle := hout c hc
    simp only at hK ⊢
    refine ⟨by omega, rfl, ?_⟩
    by_contra hputs
    obtain ⟨m, hm⟩ := List.exists_mem_of_ne_nil _ hputs
    have hmem : m.1 ∈ puts.map Prod.fst := List.mem_map_of_mem hm
    have hpos := List.count_pos_iff.mpr hmem
    have hsum := outs m.1 (mine m hm).1
    have hle' := hout m.1 (mine m hm).1
    omega
  | busy arrived stamps ins outs =>
    have hle := hout c hc
    rw [outs c hc] at hle
    simp only at hK
    omega

theorem mem_of_lookup {l : List (ℕ × V)} {c : ℕ} {v : V} (h : l.lookup c = some v) :
    (c, v) ∈ l := by
  obtain ⟨before, after, rfl, -⟩ := List.lookup_eq_some_iff.mp h
  exact List.mem_append_right _ List.mem_cons_self

/-- What a message that waits says about its sender. -/
theorem Stage.waits (h : Stage stamp nd sent P) {c : ℕ} {v : V}
    (hput : P.puts.lookup c = some v) :
    c ∈ nd.outs ∧ (sent c).length + 1 = P.round ∧ stamp v = P.round ∧
      Produced nd sent (P.round - 1) v := by
  cases h with
  | busy arrived stamps ins outs => cases hput
  | @idle round puts ins outs apart mine =>
    have hmem := mem_of_lookup hput
    obtain ⟨hout, hstamp, hproduced⟩ := mine _ hmem
    have hone : (puts.map Prod.fst).count c = 1 :=
      List.count_eq_one_of_mem apart (List.mem_map_of_mem (f := Prod.fst) hmem)
    have hlen := outs c hout
    exact ⟨hout, by simp only; omega, hstamp, hproduced⟩

/-- What is left when the message has gone. -/
theorem Stage.send (h : Stage stamp nd sent P) {c : ℕ} {v : V} (hput : P.puts.lookup c = some v)
    (hread : c ∉ nd.reads) : Stage stamp nd (push sent c v) (P.drop c) := by
  cases h with
  | busy arrived stamps ins outs => cases hput
  | @idle round puts ins outs apart mine =>
    have hmem := mem_of_lookup hput
    have hone : (puts.map Prod.fst).count c = 1 :=
      List.count_eq_one_of_mem apart (List.mem_map_of_mem (f := Prod.fst) hmem)
    have hrest : (puts.eraseP fun m => m.1 == c).map Prod.fst = (puts.map Prod.fst).erase c := by
      rw [List.erase_eq_eraseP', List.eraseP_map]
      rfl
    refine .idle ?_ ?_ ?_ ?_
    · intro d hd
      have hne : d ≠ c := fun heq => hread (heq ▸ hd)
      rw [push_of_ne sent v hne, ins d hd]
    · intro d hd
      rw [hrest, List.count_erase]
      by_cases hdc : d = c
      · subst hdc
        have hlen := outs d hd
        rw [push_self, List.length_append, hone]
        simp only [List.length_singleton, beq_self_eq_true, if_true]
        omega
      · rw [push_of_ne sent v hdc, if_neg (by simpa using fun heq => hdc heq.symm), Nat.sub_zero,
          outs d hd]
    · rw [hrest]
      exact apart.erase c
    · intro m hm
      obtain ⟨hm1, hm2, hm3⟩ := mine m (List.mem_of_mem_eraseP hm)
      exact ⟨hm1, hm2, hm3.mono fun d _ => prefix_push sent c v d⟩

theorem Told.send (h : Told stamp nd sent) {c j : ℕ} {v : V} (hlen : (sent c).length = j)
    (hstamp : stamp v = j + 1) (hproduced : Produced nd sent j v) :
    Told stamp nd (push sent c v) := by
  intro d hd i w hw
  have hold := fun hw => h d hd i w hw
  by_cases hdc : d = c
  · subst hdc
    rw [push_self, List.getElem?_append] at hw
    split at hw
    case isTrue => exact ⟨(hold hw).1, (hold hw).2.mono fun e _ => prefix_push ..⟩
    case isFalse hge =>
      obtain ⟨hlt, hv⟩ := List.getElem?_eq_some_iff.mp hw
      rw [List.length_singleton] at hlt
      obtain rfl : i = j := by omega
      rw [List.getElem_singleton] at hv
      subst hv
      exact ⟨hstamp, hproduced.mono fun e _ => prefix_push ..⟩
  · rw [push_of_ne sent v hdc] at hw
    exact ⟨(hold hw).1, (hold hw).2.mono fun e _ => prefix_push ..⟩

/-- A node that has nothing left to send receives the message of the round it is in, or of
the round that begins with it. -/
theorem Stage.receive (h : Stage stamp nd sent P) {i : ℕ} {port : Port} {v : V}
    (hport : nd.ins[i]? = some port) (hown : port.chan ∉ nd.outs)
    (honly : ∀ j port', nd.ins[j]? = some port' → port'.chan = port.chan → j = i)
    (hputs : P.puts = []) (hstamp : stamp v = (P.receive i v).round)
    (hlen : (sent port.chan).length + 1 = (P.receive i v).round) :
    Stage stamp nd (push sent port.chan v) (P.receive i v) := by
  have hpush : ∀ c ∈ nd.outs, push sent port.chan v c = sent c := fun c hc =>
    push_of_ne sent v fun heq => hown (heq ▸ hc)
  have hother : ∀ j port', nd.ins[j]? = some port' → j ≠ i →
      push sent port.chan v port'.chan = sent port'.chan := fun j port' hj hne =>
    push_of_ne sent v fun heq => hne (honly j port' hj heq)
  have hnew : (push sent port.chan v port.chan)[(sent port.chan).length]? = some v := by
    rw [push_self, List.getElem?_append_right (le_refl _), Nat.sub_self]
    rfl
  cases h with
  | @idle round puts ins outs apart mine =>
    simp only at hputs
    subst hputs
    have hin := ins _ (mem_reads hport)
    refine .busy ⟨List.nodup_singleton i, ?_⟩ ?_ ?_ ?_
    · intro m hm
      rw [List.mem_singleton.mp hm, ← hin]
      exact ⟨port, hport, hnew⟩
    · intro m hm
      rw [List.mem_singleton.mp hm]
      exact hstamp
    · intro j port' hj
      simp only [List.map_cons, List.map_nil, List.mem_singleton]
      by_cases hji : j = i
      · subst hji
        obtain rfl := Option.some.inj (hport.symm.trans hj)
        rw [push_self, List.length_append, hin, if_pos rfl, List.length_singleton]
      · rw [hother j port' hj hji, if_neg hji]
        exact ins _ (mem_reads hj)
    · intro c hc
      rw [hpush c hc]
      simpa using outs c hc
  | @busy round l arrived stamps ins outs =>
    have hin := ins i port hport
    have hround : (sent port.chan).length = round := Nat.succ.inj hlen
    have hfresh : i ∉ l.map Prod.fst := by
      intro hmem
      rw [if_pos hmem] at hin
      omega
    have hmap : (l ++ [(i, v)]).map Prod.fst = l.map Prod.fst ++ [i] := by
      rw [List.map_append, List.map_cons, List.map_nil]
    refine .busy ⟨?_, ?_⟩ ?_ ?_ ?_
    · rw [hmap]
      exact List.nodup_append.mpr ⟨arrived.distinct, List.nodup_singleton i,
        fun a ha b hb heq => hfresh (List.mem_singleton.mp hb ▸ heq ▸ ha)⟩
    · intro m hm
      rcases List.mem_append.mp hm with hold | hlast
      · exact (arrived.mono fun c _ => prefix_push sent port.chan v c).values m hold
      · rw [List.mem_singleton.mp hlast, ← hround]
        exact ⟨port, hport, hnew⟩
    · intro m hm
      rcases List.mem_append.mp hm with hold | hlast
      · exact stamps m hold
      · rw [List.mem_singleton.mp hlast]
        exact hstamp
    · intro j port' hj
      rw [hmap]
      by_cases hji : j = i
      · subst hji
        obtain rfl := Option.some.inj (hport.symm.trans hj)
        rw [push_self, List.length_append, hround, if_pos (by simp), List.length_singleton]
      · have hiff : j ∈ l.map Prod.fst ++ [i] ↔ j ∈ l.map Prod.fst := by
          rw [List.mem_append, List.mem_singleton]
          exact or_iff_left hji
        rw [hother j port' hj hji, ins j port' hj]
        exact (if_congr hiff rfl rfl).symm
    · intro c hc
      rw [hpush c hc, outs c hc]

end stages

/-- When the last channel has carried a round, so has every other, and all nodes have done
with it. -/
theorem drained (hw : Wired N) {procs : ℕ → Proc V} {K : ℕ}
    (hstages : ∀ p nd, N.nodes[p]? = some nd → Stage stamp nd sent (procs p))
    (hround : ∀ p < N.nodes.length, (procs p).round ≤ K) (hlast : K ≤ (sent N.last).length) :
    (∀ c < N.channels, (sent c).length = K) ∧
      ∀ p < N.nodes.length, (procs p).round = K ∧ (procs p).Done := by
  have hlt : ∀ {p : ℕ} {nd : Node V}, N.nodes[p]? = some nd → p < N.nodes.length := fun h =>
    (List.getElem?_eq_some_iff.mp h).1
  -- from the last channel backwards, over the channels that a reader feeds
  have hge : ∀ n c, N.channels - c = n → c < N.channels → K ≤ (sent c).length := by
    intro n
    induction n using Nat.strong_induction_on with
    | _ n ih =>
      intro c hn hc
      by_cases hcl : c = N.last
      · exact hcl ▸ hlast
      · obtain ⟨p, nd, i, port, hp, hi, rfl⟩ := hw.reader hc hcl
        have hnd := List.mem_of_getElem? hp
        obtain ⟨d, hd⟩ := List.exists_mem_of_ne_nil _ (hw.speaks nd hnd)
        have hcd := hw.forward nd hnd _ (mem_reads hi) d hd
        have hdlt := hw.out_lt hnd hd
        exact (ih _ (by omega) d rfl hdlt).trans ((hstages p nd hp).sent_le_read (mem_reads hi) hd)
  refine ⟨fun c hc => ?_, fun p hp => ?_⟩
  · obtain ⟨p, nd, hp, hout⟩ := hw.feeder hc
    exact le_antisymm (((hstages p nd hp).sent_le hout).trans (hround p (hlt hp))) (hge _ c rfl hc)
  · have hget := List.getElem?_eq_getElem hp
    have hnd := List.mem_of_getElem? hget
    exact (hstages p _ hget).done (hw.speaks _ hnd) (hround p hp)
      fun c hc => hge _ c rfl (hw.out_lt hnd hc)

end LockStep
