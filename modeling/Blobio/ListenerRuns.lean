import Blobio.EventRuns
import Blobio.ListenerCounters
import Blobio.WordCounters

/-! The loop of the listening process that accepts, forks and reaps, with the heartbeat and
the samples it takes of its counters. -/
namespace Blobio.Listener
open EventRuns WordCounters RequestChild

/-- Where the loop stands between the events of this file. -/
inductive Phase
  | accepting
  /-- in heartbeat, behind the sum of the no's -/
  | beating (no_count : BitVec 64)
  /-- in gyr_rrd, behind the sample of the round robin database -/
  | sampled
  /-- in gyr_rrd, behind the summary -/
  | summed (green_count yellow_count red_count : BitVec 64)
  /-- behind a panic -/
  | left
  deriving DecidableEq

/-- A sample as it is written, with what has been counted since the one before. -/
structure Sample where
  delta : Counter → BitVec 64
  counted : List Counter

/-- The listening process, and from `running` on what has happened to it. -/
structure Master where
  phase : Phase := .accepting
  counters : Counter → BitVec 64 := fun _ => 0
  prev_accept_count : BitVec 64 := 0
  accept_count_prev : BitVec 32 := 0
  exit_count_prev : BitVec 32 := 0
  /-- the statics of gyr_rrd that are as wide as their counters -/
  count_prev : Counter → BitVec 64 := fun _ => 0
  green_count_prev : BitVec 64 := 0
  yellow_count_prev : BitVec 64 := 0
  red_count_prev : BitVec 64 := 0
  running : ℕ := 0
  reaped : ℕ := 0
  /-- what has been counted up to the last sample, and since -/
  counted : List Counter := []
  since : List Counter := []
  samples : List Sample := []
  /-- the differences that heartbeat and gyr_rrd have computed -/
  differences : List (BitVec 64 × BitVec 64) := []

/-- The counters of a sample, in the order of rrd_format. -/
def rrd_counters : List Counter :=
  [.accept_count, .exit_count,
    .success_count, .error_count, .timeout_count, .signal_count, .fault_count,
    .verb_count .eat, .verb_no_count .eat,
    .verb_count .get, .verb_no_count .get,
    .verb_count .put, .verb_no_count .put, .verb_no2_count .put,
    .verb_count .give, .verb_no_count .give, .verb_no2_count .give, .verb_no3_count .give,
    .verb_count .take, .verb_no_count .take, .verb_no2_count .take, .verb_no3_count .take,
    .verb_count .wrap, .verb_no_count .wrap,
    .verb_count .roll, .verb_no_count .roll]

/-- The no's that heartbeat adds up. -/
def heartbeat_nos : List Counter :=
  [.verb_no_count .eat, .verb_no_count .get, .verb_no_count .put, .verb_no2_count .put,
    .verb_no_count .give, .verb_no2_count .give, .verb_no3_count .give,
    .verb_no_count .take, .verb_no2_count .take, .verb_no3_count .take,
    .verb_no_count .wrap, .verb_no_count .roll]

namespace Master

def count (s : Master) (cs : List Counter) : Master :=
  { s with counters := bump_all s.counters cs, since := s.since ++ cs }

/-- The value that a counter is sampled against; two of them are kept in an int. -/
def prev (s : Master) : Counter → BitVec 64
  | .accept_count => s.accept_count_prev.signExtend 64
  | .exit_count => s.exit_count_prev.signExtend 64
  | c => s.count_prev c

def computed (s : Master) (ds : List (BitVec 64 × BitVec 64)) : Master :=
  { s with differences := s.differences ++ ds }

/-- `fork_request` takes a fork that fails for one that has been done. -/
def fork_accept (s : Master) (forked : Bool) : Master :=
  let s := s.count [.accept_count]
  { s with running := if forked then s.running + 1 else s.running }

def reap (s : Master) (e : Exit) : Master :=
  let r := reap_request e
  let s := s.count r.bumped
  { s with
    running := s.running - 1
    reaped := s.reaped + 1
    phase := if r.panicked then .left else s.phase }

def heartbeat_sum (s : Master) : Master :=
  { s with phase := .beating (heartbeat_nos.map s.counters).sum }

def heartbeat (s : Master) (no_count : BitVec 64) : Master :=
  let s := s.computed [(s.counters .success_count, no_count),
    (s.counters .accept_count, s.prev_accept_count)]
  { s with phase := .accepting, prev_accept_count := s.counters .accept_count }

/-- The sample that gyr_rrd writes. -/
def sample (s : Master) : Master :=
  let s := s.computed (rrd_counters.map fun c => (s.counters c, s.prev c))
  { s with
    phase := .sampled
    samples := s.samples ++ [⟨fun c => s.counters c - s.prev c, s.since⟩]
    counted := s.counted ++ s.since
    since := [] }

def sum_up (s : Master) : Master :=
  let n := s.counters
  let nos := n .no2_count + n .no3_count
  let green_count := n .success_count - nos + n (.verb_no_count .eat)
  let yellow_count := nos + n .error_count + n .timeout_count +
    n (.verb_no_count .wrap) + n (.verb_no_count .roll)
  let red_count := n .signal_count + n .fault_count
  let s := s.computed [(n .success_count, nos), (green_count, s.green_count_prev),
    (yellow_count, s.yellow_count_prev), (red_count, s.red_count_prev)]
  { s with phase := .summed green_count yellow_count red_count }

def save (s : Master) (green_count yellow_count red_count : BitVec 64) : Master :=
  { s with
    phase := .accepting
    accept_count_prev := (s.counters .accept_count).setWidth 32
    exit_count_prev := (s.counters .exit_count).setWidth 32
    count_prev := s.counters
    green_count_prev := green_count
    yellow_count_prev := yellow_count
    red_count_prev := red_count }

end Master

/-- What the loop does next; a child that has exited is reaped in the loop or by the
handler of its signal, wherever the loop stands between two events. The sum of a heartbeat, a
sample, its summary and its being saved are single events: the handler could run between two
of the counters that one of them reads or writes, and is not followed there. -/
inductive Event
  | accept (forked : Bool)
  | reap (e : Exit)
  | heartbeat_sum
  | heartbeat
  | sample
  | sum_up
  | save

def step (s : Master) : Event → Option Master
  | .accept forked => if s.phase = .accepting then some (s.fork_accept forked) else none
  | .reap e => if s.phase ≠ .left ∧ 0 < s.running then some (s.reap e) else none
  | .heartbeat_sum => if s.phase = .accepting then some s.heartbeat_sum else none
  | .heartbeat =>
    match s.phase with
    | .beating no_count => some (s.heartbeat no_count)
    | _ => none
  | .sample => if s.phase = .accepting then some s.sample else none
  | .sum_up => if s.phase = .sampled then some s.sum_up else none
  | .save =>
    match s.phase with
    | .summed green_count yellow_count red_count => some (s.save green_count yellow_count red_count)
    | _ => none

/-- What each event does, and where. -/
inductive Stepped (s : Master) : Event → Master → Prop
  | accept {forked : Bool} (hphase : s.phase = .accepting) :
    Stepped s (.accept forked) (s.fork_accept forked)
  | reap {e : Exit} (hphase : s.phase ≠ .left) (hrunning : 0 < s.running) :
    Stepped s (.reap e) (s.reap e)
  | heartbeat_sum (hphase : s.phase = .accepting) : Stepped s .heartbeat_sum s.heartbeat_sum
  | heartbeat {no_count : BitVec 64} (hphase : s.phase = .beating no_count) :
    Stepped s .heartbeat (s.heartbeat no_count)
  | sample (hphase : s.phase = .accepting) : Stepped s .sample s.sample
  | sum_up (hphase : s.phase = .sampled) : Stepped s .sum_up s.sum_up
  | save {g y r : BitVec 64} (hphase : s.phase = .summed g y r) : Stepped s .save (s.save g y r)

theorem stepped {s s' : Master} {e : Event} (h : step s e = some s') : Stepped s e s' := by
  have hif : ∀ {p : Prop} [Decidable p] {t : Master}, (if p then some t else none) = some s' → p ∧ t = s' := by
    intro p _ t hp
    split_ifs at hp with hp'
    exact ⟨hp', Option.some.inj hp⟩
  cases e with
  | accept forked =>
    obtain ⟨hphase, rfl⟩ := hif h
    exact .accept hphase
  | reap e =>
    obtain ⟨⟨hphase, hrunning⟩, rfl⟩ := hif h
    exact .reap hphase hrunning
  | heartbeat_sum =>
    obtain ⟨hphase, rfl⟩ := hif h
    exact .heartbeat_sum hphase
  | heartbeat =>
    rw [step] at h
    split at h
    · obtain rfl := Option.some.inj h
      exact .heartbeat ‹_›
    · cases h
  | sample =>
    obtain ⟨hphase, rfl⟩ := hif h
    exact .sample hphase
  | sum_up =>
    obtain ⟨hphase, rfl⟩ := hif h
    exact .sum_up hphase
  | save =>
    rw [step] at h
    split at h
    · obtain rfl := Option.some.inj h
      exact .save ‹_›
    · cases h

/-! ### The books -/

/-- The requests of a list that count as green, yellow and red. -/
def green (cs : List Counter) : ℕ :=
  cs.count .ok_count + cs.count .no_count + cs.count (.verb_no_count .eat)

def yellow (cs : List Counter) : ℕ :=
  cs.count .no2_count + cs.count .no3_count + cs.count .error_count + cs.count .timeout_count +
    cs.count (.verb_no_count .wrap) + cs.count (.verb_no_count .roll)

def red (cs : List Counter) : ℕ :=
  cs.count .signal_count + cs.count .fault_count

/-- The sums that what has been counted keeps to. -/
structure Books (cs : List Counter) : Prop where
  classes : cs.count .exit_count = cs.count .success_count + cs.count .error_count +
    cs.count .timeout_count + cs.count .signal_count + cs.count .fault_count
  chats : cs.count .success_count = cs.count .ok_count + cs.count .no_count + cs.count .no2_count +
    cs.count .no3_count
  nos : (heartbeat_nos.map fun c => cs.count c).sum ≤
    cs.count .no_count + cs.count .no2_count + cs.count .no3_count
  first_nos : cs.count (.verb_no_count .eat) + cs.count (.verb_no_count .wrap) +
    cs.count (.verb_no_count .roll) ≤ cs.count .no_count

theorem Books.append {cs ks : List Counter} (h : Books cs) (h' : Books ks) : Books (cs ++ ks) := by
  have hnos := h.nos
  have hnos' := h'.nos
  have hclasses := h.classes
  have hclasses' := h'.classes
  have hchats := h.chats
  have hchats' := h'.chats
  have hfirst := h.first_nos
  have hfirst' := h'.first_nos
  simp only [heartbeat_nos, List.map_cons, List.map_nil, List.sum_cons, List.sum_nil] at hnos hnos'
  constructor
  · simp only [List.count_append]
    omega
  · simp only [List.count_append]
    omega
  · simp only [heartbeat_nos, List.map_cons, List.map_nil, List.sum_cons, List.sum_nil, List.count_append]
    omega
  · simp only [List.count_append]
    omega

theorem books_accept : Books [.accept_count] := by
  constructor <;> decide

/-- What one exit counts: itself once, and each other counter at most once. -/
structure BooksOne (cs : List Counter) : Prop where
  books : Books cs
  exit : cs.count .exit_count = 1
  accept : cs.count .accept_count = 0
  nodup : cs.Nodup

instance (cs : List Counter) : Decidable (BooksOne cs) :=
  decidable_of_iff ((cs.count .exit_count = cs.count .success_count + cs.count .error_count +
      cs.count .timeout_count + cs.count .signal_count + cs.count .fault_count ∧
    cs.count .success_count = cs.count .ok_count + cs.count .no_count + cs.count .no2_count +
      cs.count .no3_count ∧
    (heartbeat_nos.map fun c => cs.count c).sum ≤
      cs.count .no_count + cs.count .no2_count + cs.count .no3_count ∧
    cs.count (.verb_no_count .eat) + cs.count (.verb_no_count .wrap) +
      cs.count (.verb_no_count .roll) ≤ cs.count .no_count) ∧
    cs.count .exit_count = 1 ∧ cs.count .accept_count = 0 ∧ cs.Nodup)
  ⟨fun ⟨⟨a, b, c, d⟩, e, f, g⟩ => ⟨⟨a, b, c, d⟩, e, f, g⟩,
    fun ⟨⟨a, b, c, d⟩, e, f, g⟩ => ⟨⟨a, b, c, d⟩, e, f, g⟩⟩

theorem booksOne_reap (e : Exit) : BooksOne (reap_request e).bumped := by
  cases e with
  | signaled sig => exact (by decide : BooksOne [.exit_count, .signal_count])
  | exited s8 =>
    have hall : ∀ n : Fin 256, BooksOne (reap_request (.exited (.ofFin n))).bumped := by
      decide +kernel
    exact hall s8.toFin

/-! ### What the loop keeps -/

theorem count_le_append (cs ks : List Counter) (c : Counter) : cs.count c ≤ (cs ++ ks).count c := by
  rw [List.count_append]
  exact Nat.le_add_right _ _

theorem green_le_append (cs ks : List Counter) : green cs ≤ green (cs ++ ks) := by
  simp only [green, List.count_append]
  omega

theorem yellow_le_append (cs ks : List Counter) : yellow cs ≤ yellow (cs ++ ks) := by
  simp only [yellow, List.count_append]
  omega

theorem red_le_append (cs ks : List Counter) : red cs ≤ red (cs ++ ks) := by
  simp only [red, List.count_append]
  omega

/-- Every value that the loop has kept is one that its counter has passed. -/
structure Past (s : Master) (cs : List Counter) : Prop where
  prev : ∀ c ∈ rrd_counters, (s.prev c).toNat ≤ cs.count c
  accept : s.prev_accept_count.toNat ≤ cs.count .accept_count
  green : s.green_count_prev.toNat ≤ green cs
  yellow : s.yellow_count_prev.toNat ≤ yellow cs
  red : s.red_count_prev.toNat ≤ red cs
  phase : match s.phase with
    | .beating no_count => no_count.toNat ≤ cs.count .success_count
    | .summed g y r => g.toNat ≤ Listener.green cs ∧ y.toNat ≤ Listener.yellow cs ∧ r.toNat ≤ Listener.red cs
    | _ => True
  differences : ∀ d ∈ s.differences, d.2 ≤ d.1

theorem Past.append {s : Master} {cs : List Counter} (h : Past s cs) (ks : List Counter) :
    Past s (cs ++ ks) where
  prev c hc := (h.prev c hc).trans (count_le_append cs ks c)
  accept := h.accept.trans (count_le_append cs ks _)
  green := h.green.trans (green_le_append cs ks)
  yellow := h.yellow.trans (yellow_le_append cs ks)
  red := h.red.trans (red_le_append cs ks)
  phase := by
    have hphase := h.phase
    split at hphase
    · exact hphase.trans (count_le_append cs ks _)
    · exact ⟨hphase.1.trans (green_le_append cs ks), hphase.2.1.trans (yellow_le_append cs ks),
        hphase.2.2.trans (red_le_append cs ks)⟩
    · trivial
  differences := h.differences

def Master.tallied (s : Master) : List Counter :=
  s.counted ++ s.since

/-- The state of a loop in which every fork has worked. -/
structure Sound (s : Master) : Prop where
  counters : s.counters = tally 64 s.tallied
  books : Books s.tallied
  accepted : s.tallied.count .accept_count = s.reaped + s.running
  exits : s.tallied.count .exit_count = s.reaped
  small : ∀ c ≠ .accept_count, s.tallied.count c ≤ s.reaped
  full : s.tallied.count .accept_count < 2 ^ 63
  past : Past s s.tallied

/-- The steps that keep the books: no fork fails, there are fewer than 2^63 connections, and
where the sample is saved an int keeps the sign of what it is given. -/
def Keeping (s : Master) : Event → Prop
  | .accept forked => forked = true ∧ (s.counters .accept_count).toNat + 1 < 2 ^ 63
  | .save => (s.counters .accept_count).toNat % 2 ^ 32 < 2 ^ 31 ∧
      (s.counters .exit_count).toNat % 2 ^ 32 < 2 ^ 31
  | _ => True

section kept
variable {s : Master}

theorem Sound.toNat (h : Sound s) (c : Counter) : (s.counters c).toNat = s.tallied.count c := by
  have hfull := h.full
  rw [h.counters]
  by_cases hc : c = .accept_count
  · rw [hc]
    exact toNat_tally (by omega)
  · have hsmall := h.small c hc
    have haccepted := h.accepted
    exact toNat_tally (by omega)

theorem tallied_count (s : Master) (cs : List Counter) : (s.count cs).tallied = s.tallied ++ cs :=
  (List.append_assoc _ _ _).symm

theorem counters_count {cs : List Counter} (h : s.counters = tally 64 s.tallied) :
    (s.count cs).counters = tally 64 (s.count cs).tallied := by
  rw [tallied_count, ← bump_all_tally, ← h]
  rfl

theorem sound_fork_accept (h : Sound s) (hk : Keeping s (.accept true)) : Sound (s.fork_accept true) where
  counters := counters_count h.counters
  books := by
    change Books (s.count [.accept_count]).tallied
    rw [tallied_count]
    exact h.books.append books_accept
  accepted := by
    change (s.count [.accept_count]).tallied.count .accept_count = s.reaped + (s.running + 1)
    rw [tallied_count, List.count_append, h.accepted]
    rfl
  exits := by
    change (s.count [.accept_count]).tallied.count .exit_count = s.reaped
    rw [tallied_count, List.count_append, h.exits]
    rfl
  small := by
    intro c hc
    change (s.count [.accept_count]).tallied.count c ≤ s.reaped
    rw [tallied_count, List.count_append, List.count_eq_zero_of_not_mem fun hmem => hc (List.mem_singleton.mp hmem)]
    exact h.small c hc
  full := by
    change (s.count [.accept_count]).tallied.count .accept_count < 2 ^ 63
    rw [tallied_count, List.count_append, ← h.toNat]
    exact hk.2
  past := by
    have hpast := h.past.append [.accept_count]
    rw [← tallied_count] at hpast
    exact ⟨hpast.prev, hpast.accept, hpast.green, hpast.yellow, hpast.red, hpast.phase, hpast.differences⟩

theorem sound_reap (h : Sound s) (e : Exit) (hrunning : 0 < s.running) : Sound (s.reap e) := by
  have hone := booksOne_reap e
  have htallied : (s.reap e).tallied = s.tallied ++ (reap_request e).bumped := tallied_count s _
  have hpast := h.past.append (reap_request e).bumped
  constructor
  · exact counters_count h.counters
  · rw [htallied]
    exact h.books.append hone.books
  · rw [htallied, List.count_append, h.accepted, hone.accept]
    change s.reaped + s.running + 0 = s.reaped + 1 + (s.running - 1)
    omega
  · rw [htallied, List.count_append, h.exits, hone.exit]
    rfl
  · intro c hc
    rw [htallied, List.count_append]
    exact Nat.add_le_add (h.small c hc) (List.nodup_iff_count_le_one.mp hone.nodup c)
  · rw [htallied, List.count_append, hone.accept]
    exact h.full
  · rw [htallied]
    refine ⟨hpast.prev, hpast.accept, hpast.green, hpast.yellow, hpast.red, ?_, hpast.differences⟩
    have hphase := hpast.phase
    change match if (reap_request e).panicked then Phase.left else s.phase with
      | .beating no_count => no_count.toNat ≤ (s.tallied ++ (reap_request e).bumped).count .success_count
      | .summed g y r => g.toNat ≤ Listener.green (s.tallied ++ (reap_request e).bumped) ∧
          y.toNat ≤ Listener.yellow (s.tallied ++ (reap_request e).bumped) ∧
            r.toNat ≤ Listener.red (s.tallied ++ (reap_request e).bumped)
      | _ => True
    split_ifs
    · trivial
    · exact hphase

/-- What the loop does between two events that count. -/
theorem Sound.of_past {s' : Master} (h : Sound s) (hcounters : s'.counters = s.counters)
    (htallied : s'.tallied = s.tallied) (hreaped : s'.reaped = s.reaped)
    (hrunning : s'.running = s.running) (hpast : Past s' s.tallied) : Sound s' := by
  constructor
  · rw [hcounters, htallied]
    exact h.counters
  · rw [htallied]
    exact h.books
  · rw [htallied, hreaped, hrunning]
    exact h.accepted
  · rw [htallied, hreaped]
    exact h.exits
  · rw [htallied, hreaped]
    exact h.small
  · rw [htallied]
    exact h.full
  · rw [htallied]
    exact hpast

theorem Sound.nos_le (h : Sound s) :
    ((heartbeat_nos.map s.counters).sum).toNat ≤ s.tallied.count .success_count := by
  have hnos := h.books.nos
  have hchats := h.books.chats
  rw [h.counters, toNat_sum_tally]
  have hmod := Nat.mod_le (heartbeat_nos.map fun c => s.tallied.count c).sum (2 ^ 64)
  omega

theorem sound_heartbeat_sum (h : Sound s) : Sound s.heartbeat_sum :=
  h.of_past rfl rfl rfl rfl
    ⟨h.past.prev, h.past.accept, h.past.green, h.past.yellow, h.past.red, h.nos_le, h.past.differences⟩

theorem Past.computed {cs : List Counter} {ds : List (BitVec 64 × BitVec 64)} (h : Past s cs)
    (hds : ∀ d ∈ ds, d.2 ≤ d.1) : ∀ d ∈ (s.computed ds).differences, d.2 ≤ d.1 := by
  intro d hd
  rcases List.mem_append.mp hd with hd | hd
  · exact h.differences d hd
  · exact hds d hd

theorem sound_heartbeat (h : Sound s) {no_count : BitVec 64} (hphase : s.phase = .beating no_count) :
    Sound (s.heartbeat no_count) := by
  have hno := h.past.phase
  rw [hphase] at hno
  refine h.of_past rfl rfl rfl rfl
    ⟨h.past.prev, ?_, h.past.green, h.past.yellow, h.past.red, trivial, h.past.computed ?_⟩
  · exact (h.toNat .accept_count).le
  · intro d hd
    rw [List.mem_pair] at hd
    rcases hd with rfl | rfl
    · rw [BitVec.le_def, h.toNat]
      exact hno
    · rw [BitVec.le_def, h.toNat]
      exact h.past.accept

theorem sound_sample (h : Sound s) : Sound s.sample := by
  refine h.of_past rfl ?_ rfl rfl
    ⟨h.past.prev, h.past.accept, h.past.green, h.past.yellow, h.past.red, trivial, h.past.computed ?_⟩
  · exact List.append_nil _
  · intro d hd
    obtain ⟨c, hc, rfl⟩ := List.mem_map.mp hd
    rw [BitVec.le_def, h.toNat]
    exact h.past.prev c hc

theorem Sound.word (h : Sound s) (c : Counter) : s.counters c = .ofNat 64 (s.tallied.count c) := by
  rw [h.counters]
  rfl

theorem Sound.exits_lt (h : Sound s) : s.reaped < 2 ^ 63 := by
  have hfull := h.full
  have haccepted := h.accepted
  omega

theorem Sound.toNat_nos (h : Sound s) :
    (s.counters .no2_count + s.counters .no3_count).toNat =
      s.tallied.count .no2_count + s.tallied.count .no3_count := by
  have hchats := h.books.chats
  have hsmall := h.small .success_count nofun
  have hlt := h.exits_lt
  rw [h.word, h.word, ← BitVec.ofNat_add, BitVec.toNat_ofNat]
  apply Nat.mod_eq_of_lt
  omega

theorem Sound.toNat_green (h : Sound s) :
    (s.counters .success_count - (s.counters .no2_count + s.counters .no3_count) +
      s.counters (.verb_no_count .eat)).toNat = green s.tallied := by
  have hchats := h.books.chats
  have hfirst := h.books.first_nos
  have hsmall := h.small .success_count nofun
  have hlt := h.exits_lt
  have hsplit : s.tallied.count .success_count = s.tallied.count .ok_count + s.tallied.count .no_count +
      (s.tallied.count .no2_count + s.tallied.count .no3_count) := by
    omega
  rw [h.word, h.word, h.word, h.word, hsplit, ← BitVec.ofNat_add, BitVec.ofNat_add,
    BitVec.add_sub_cancel, ← BitVec.ofNat_add, BitVec.toNat_ofNat, ← green]
  apply Nat.mod_eq_of_lt
  rw [green]
  omega

theorem Sound.toNat_yellow (h : Sound s) :
    (s.counters .no2_count + s.counters .no3_count + s.counters .error_count +
      s.counters .timeout_count + s.counters (.verb_no_count .wrap) +
        s.counters (.verb_no_count .roll)).toNat = yellow s.tallied := by
  have hchats := h.books.chats
  have hclasses := h.books.classes
  have hfirst := h.books.first_nos
  have hexits := h.exits
  have hlt := h.exits_lt
  simp only [h.word, ← BitVec.ofNat_add]
  rw [BitVec.toNat_ofNat, ← yellow]
  apply Nat.mod_eq_of_lt
  rw [yellow]
  omega

theorem Sound.toNat_red (h : Sound s) :
    (s.counters .signal_count + s.counters .fault_count).toNat = red s.tallied := by
  have hclasses := h.books.classes
  have hexits := h.exits
  have hlt := h.exits_lt
  simp only [h.word, ← BitVec.ofNat_add]
  rw [BitVec.toNat_ofNat, ← red]
  apply Nat.mod_eq_of_lt
  rw [red]
  omega

theorem sound_sum_up (h : Sound s) : Sound s.sum_up := by
  refine h.of_past rfl rfl rfl rfl
    ⟨h.past.prev, h.past.accept, h.past.green, h.past.yellow, h.past.red, ?_, h.past.computed ?_⟩
  · exact ⟨h.toNat_green.le, h.toNat_yellow.le, h.toNat_red.le⟩
  · intro d hd
    simp only [List.mem_cons, List.not_mem_nil, or_false] at hd
    rcases hd with rfl | rfl | rfl | rfl
    · have hchats := h.books.chats
      rw [BitVec.le_def, h.toNat, h.toNat_nos]
      omega
    · rw [BitVec.le_def, h.toNat_green]
      exact h.past.green
    · rw [BitVec.le_def, h.toNat_yellow]
      exact h.past.yellow
    · rw [BitVec.le_def, h.toNat_red]
      exact h.past.red

/-- The int that a counter is kept in, as it is read again. -/
theorem Sound.toNat_int_le (h : Sound s) {c : Counter} (hc : (s.counters c).toNat % 2 ^ 32 < 2 ^ 31) :
    (((s.counters c).setWidth 32).signExtend 64).toNat ≤ s.tallied.count c := by
  rw [toNat_signExtend_setWidth _ (by decide) (by omega), h.toNat]
  exact Nat.mod_le _ _

theorem sound_save (h : Sound s) {g y r : BitVec 64} (hphase : s.phase = .summed g y r)
    (hk : Keeping s .save) : Sound (s.save g y r) := by
  have hsums := h.past.phase
  rw [hphase] at hsums
  refine h.of_past rfl rfl rfl rfl
    ⟨?_, h.past.accept, hsums.1, hsums.2.1, hsums.2.2, trivial, h.past.differences⟩
  intro c hc
  cases c with
  | accept_count => exact h.toNat_int_le hk.1
  | exit_count => exact h.toNat_int_le hk.2
  | _ => exact (h.toNat _).le

theorem sound_step {e : Event} {s' : Master} (h : Sound s) (hk : Keeping s e)
    (hstep : step s e = some s') : Sound s' := by
  cases stepped hstep with
  | @accept forked hphase =>
    have hforked : forked = true := hk.1
    subst hforked
    exact sound_fork_accept h hk
  | reap hphase hrunning => exact sound_reap h _ hrunning
  | heartbeat_sum hphase => exact sound_heartbeat_sum h
  | heartbeat hphase => exact sound_heartbeat h hphase
  | sample hphase => exact sound_sample h
  | sum_up hphase => exact sound_sum_up h
  | save hphase => exact sound_save h hphase hk

theorem sound_start : Sound {} := by
  refine ⟨rfl, ⟨rfl, rfl, Nat.zero_le _, Nat.zero_le _⟩, rfl, rfl, fun _ _ => le_rfl, by decide, ?_⟩
  refine ⟨?_, le_rfl, le_rfl, le_rfl, le_rfl, trivial, nofun⟩
  decide

end kept

/-- The counters add up, and none of their differences goes below zero. -/
structure Balanced (s : Master) : Prop where
  accepted : (s.counters .accept_count).toNat = s.reaped + s.running
  reaped : s.reaped = (s.counters .success_count).toNat + (s.counters .error_count).toNat +
    (s.counters .timeout_count).toNat + (s.counters .signal_count).toNat + (s.counters .fault_count).toNat
  success : (s.counters .success_count).toNat = (s.counters .ok_count).toNat +
    (s.counters .no_count).toNat + (s.counters .no2_count).toNat + (s.counters .no3_count).toNat
  differences : ∀ d ∈ s.differences, d.2 ≤ d.1

/-- In every run that keeps the books the counters balance. -/
theorem counters_balanced {events : List Event} {s : Master} (hrun : exec step {} events = some s)
    (hk : Along step Keeping {} events) : Balanced s := by
  have h : Sound s := invariant_along (fun _ _ _ => sound_step) sound_start hk hrun
  constructor
  · rw [h.toNat]
    exact h.accepted
  · simp only [h.toNat]
    rw [← h.exits]
    exact h.books.classes
  · simp only [h.toNat]
    exact h.books.chats
  · exact h.past.differences

def one_get : List Event :=
  [.accept true, .reap (.exited 0x04), .heartbeat_sum, .heartbeat]

theorem one_get_keeping : Along step Keeping {} one_get := by
  refine ⟨⟨rfl, by decide⟩, fun s hs => ⟨trivial, fun s hs => ⟨trivial, fun s hs => ⟨trivial, fun _ _ => trivial⟩⟩⟩⟩

/-- A get that is accepted, forked and reaped, with a heartbeat behind it. -/
theorem one_get_balanced : ∃ s, exec step {} one_get = some s ∧ Balanced s :=
  ⟨_, rfl, counters_balanced rfl one_get_keeping⟩

/-- A connection whose fork fails is counted and never reaped. -/
theorem failed_fork_unbalanced : ¬ ∀ events s, exec step {} events = some s → Balanced s := by
  intro h
  have hbalanced := h [.accept false] _ rfl
  cases hbalanced.accepted

/-! ### The samples -/

/-- The steps that keep the samples: no child is reaped between a sample and its being
saved, there are fewer than 2^64 counts between two samples, and the saved ints are small. -/
def Sampling (s : Master) : Event → Prop
  | .reap _ => s.phase ≠ .sampled ∧ ∀ g y r, s.phase ≠ .summed g y r
  | .sample => s.since.length < 2 ^ 64
  | .save => (s.counters .accept_count).toNat < 2 ^ 31 ∧ (s.counters .exit_count).toNat < 2 ^ 31
  | _ => True

/-- Each delta written is what has been counted since the sample before, and together they
are what has been counted by the last sample. -/
structure Sampled (s : Master) : Prop where
  deltas : ∀ x ∈ s.samples, ∀ c ∈ rrd_counters, (x.delta c).toNat = x.counted.count c
  sums : ∀ c ∈ rrd_counters, (s.samples.map fun x => (x.delta c).toNat).sum = s.counted.count c

/-- What is kept of the last sample, by where the loop stands. -/
def Saved (s : Master) : Prop :=
  match s.phase with
  | .accepting | .beating _ => ∀ c, s.prev c = tally 64 s.counted c
  | .sampled | .summed _ _ _ => s.since = []
  | .left => True

structure Fresh (s : Master) : Prop where
  counters : s.counters = tally 64 s.tallied
  saved : Saved s
  sampled : Sampled s

section samples
variable {s : Master}

theorem fresh_start : Fresh {} where
  counters := rfl
  saved := by
    intro c
    cases c <;> rfl
  sampled := ⟨nofun, fun _ _ => rfl⟩

theorem fresh_sample (h : Fresh s) (hphase : s.phase = .accepting) (hk : Sampling s .sample) :
    Fresh s.sample := by
  have hsaved := h.saved
  rw [Saved, hphase] at hsaved
  have hdelta : ∀ c, (s.counters c - s.prev c).toNat = s.since.count c := by
    intro c
    rw [h.counters, hsaved c]
    exact toNat_tally_sub (lt_of_le_of_lt List.count_le_length hk)
  refine ⟨?_, rfl, ?_, ?_⟩
  · change s.counters = tally 64 (s.counted ++ s.since ++ [])
    rw [List.append_nil]
    exact h.counters
  · intro x hx c hc
    rcases List.mem_append.mp hx with hx | hx
    · exact h.sampled.deltas x hx c hc
    · rw [List.mem_singleton.mp hx]
      exact hdelta c
  · intro c hc
    change ((s.samples ++ [_]).map _).sum = (s.counted ++ s.since).count c
    rw [List.map_append, List.sum_append, h.sampled.sums c hc, List.count_append]
    exact congrArg _ (hdelta c)

theorem fresh_save (h : Fresh s) {g y r : BitVec 64} (hphase : s.phase = .summed g y r)
    (hk : Sampling s .save) : Fresh (s.save g y r) := by
  have hsince := h.saved
  rw [Saved, hphase] at hsince
  have hcounters : s.counters = tally 64 s.counted := by
    rw [h.counters, Master.tallied, show s.since = [] from hsince, List.append_nil]
  have haccepts := hk.1
  have hexits := hk.2
  refine ⟨h.counters, ?_, ⟨h.sampled.deltas, h.sampled.sums⟩⟩
  intro c
  change _ = tally 64 s.counted c
  rw [← hcounters]
  cases c with
  | accept_count => exact signExtend_setWidth_of_lt (by decide) (by omega)
  | exit_count => exact signExtend_setWidth_of_lt (by decide) (by omega)
  | _ => rfl

theorem fresh_reap (h : Fresh s) (e : Exit) (hk : Sampling s (.reap e)) :
    Fresh (s.reap e) := by
  refine ⟨counters_count h.counters, ?_, ⟨h.sampled.deltas, h.sampled.sums⟩⟩
  have hsaved := h.saved
  rw [Saved] at hsaved ⊢
  cases hpanicked : (reap_request e).panicked with
  | true =>
    rw [show (s.reap e).phase = .left from if_pos hpanicked]
    trivial
  | false =>
    rw [show (s.reap e).phase = s.phase from if_neg (by rw [hpanicked]; exact Bool.false_ne_true)]
    cases hp : s.phase with
    | accepting =>
      rw [hp] at hsaved
      exact hsaved
    | beating no_count =>
      rw [hp] at hsaved
      exact hsaved
    | sampled => exact absurd hp hk.1
    | summed g y r => exact absurd hp (hk.2 g y r)
    | left => trivial

theorem fresh_step {e : Event} {s' : Master} (h : Fresh s) (hk : Sampling s e)
    (hstep : step s e = some s') : Fresh s' := by
  have hsaved := h.saved
  have hsampled := h.sampled
  cases stepped hstep with
  | @accept forked hphase =>
    rw [Saved, hphase] at hsaved
    refine ⟨counters_count h.counters, ?_, ⟨hsampled.deltas, hsampled.sums⟩⟩
    rw [Saved, show (s.fork_accept forked).phase = .accepting from hphase]
    exact hsaved
  | reap hphase hrunning => exact fresh_reap h _ hk
  | heartbeat_sum hphase =>
    rw [Saved, hphase] at hsaved
    exact ⟨h.counters, hsaved, ⟨hsampled.deltas, hsampled.sums⟩⟩
  | heartbeat hphase =>
    rw [Saved, hphase] at hsaved
    exact ⟨h.counters, hsaved, ⟨hsampled.deltas, hsampled.sums⟩⟩
  | sample hphase => exact fresh_sample h hphase hk
  | sum_up hphase =>
    rw [Saved, hphase] at hsaved
    exact ⟨h.counters, hsaved, ⟨hsampled.deltas, hsampled.sums⟩⟩
  | save hphase => exact fresh_save h hphase hk

end samples

/-- In every run that keeps the samples they are right. -/
theorem samples_right {events : List Event} {s : Master} (hrun : exec step {} events = some s)
    (hk : Along step Sampling {} events) : Sampled s := by
  have h : Fresh s := invariant_along (fun _ _ _ => fresh_step) fresh_start hk hrun
  exact h.sampled

def two_samples : List Event :=
  [.accept true, .sample, .sum_up, .save, .reap (.exited 0x04), .sample]

theorem two_samples_sampling : Along step Sampling {} two_samples := by
  refine ⟨trivial, fun _ h => ?_⟩
  cases h
  refine ⟨show 1 < 2 ^ 64 by decide, fun _ h => ?_⟩
  cases h
  refine ⟨trivial, fun _ h => ?_⟩
  cases h
  refine ⟨⟨by decide, by decide⟩, fun _ h => ?_⟩
  cases h
  refine ⟨⟨nofun, nofun⟩, fun _ h => ?_⟩
  cases h
  exact ⟨show 4 < 2 ^ 64 by decide, fun _ _ => trivial⟩

/-- A get with a sample before and a sample behind its exit. -/
theorem two_samples_right : ∃ s, exec step {} two_samples = some s ∧ Sampled s :=
  ⟨_, rfl, samples_right rfl two_samples_sampling⟩

/-- A child that is reaped while a sample is being written is in no sample at all. -/
theorem reaped_unsampled : ¬ ∀ events s, exec step {} events = some s → Sampled s := by
  intro h
  have hsampled := h [.accept true, .sample, .reap (.exited 0x04), .sum_up, .save, .sample] _ rfl
  have hsum := hsampled.sums .exit_count (by decide)
  revert hsum
  decide

end Blobio.Listener
