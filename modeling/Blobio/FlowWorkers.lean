import Blobio.EventRuns
import Mathlib.Data.List.Nodup
import Mathlib.Data.List.Range
import Mathlib.Data.UInt

/-! The start of the flow workers by flowd's server, their numbers, and the samples that the
server counts for each of them. -/
namespace Blobio.FlowWorkers
open EventRuns

/-- A flow worker that has been started, with the sequence number of the blob request
record it is working on. -/
structure Worker where
  id : UInt16
  seq : Option ℕ := none
  exited : Bool := false
  deriving DecidableEq

/-- The server goroutine with its workers. `seq_q` counts the numbers that have been taken
from the channel of that name, which delivers 1, 2, 3 and so on. -/
structure Server where
  i : UInt16 := 1
  seq_q : ℕ := 0
  workers : List Worker := []
  /-- worker_id of the samples on their way to the server -/
  flow_sample_ch : List ℤ := []
  active_count : UInt16
  worker_stats : List ℕ
  panicked : Bool := false
  deriving DecidableEq

def boot (flow_worker_count : UInt16) : Server where
  active_count := flow_worker_count
  worker_stats := List.replicate flow_worker_count.toNat 0

inductive Event
  /-- the server starts the next worker -/
  | start
  /-- a worker takes a line from brr_chan, and a number for its flow -/
  | take (w : ℕ)
  /-- a worker has reduced its flow and sends its sample -/
  | report (w : ℕ)
  /-- a worker finds brr_chan closed -/
  | leave (w : ℕ)
  /-- the server receives a sample -/
  | collect
  deriving DecidableEq

namespace Server

def replace (s : Server) (w : ℕ) (k : Worker) : Server :=
  { s with workers := s.workers.set w k }

def sends (s : Server) (sam : ℤ) : Server :=
  { s with flow_sample_ch := s.flow_sample_ch ++ [sam] }

/-- The body of the server's select for a sample. -/
def sample (s : Server) (sam : ℤ) : Server :=
  if sam < 0 then { s with active_count := s.active_count - 1 }
  else if 0 ≤ sam - 1 ∧ sam - 1 < s.worker_stats.length then
    { s with worker_stats := s.worker_stats.modify (sam - 1).toNat (· + 1) }
  else { s with panicked := true }

end Server

def step (flow_worker_count : UInt16) (s : Server) (e : Event) : Option Server :=
  if s.panicked then none else
  match e with
  | .start =>
    if s.i ≤ flow_worker_count then
      some { s with
        i := s.i + 1
        seq_q := s.seq_q + 1
        workers := s.workers ++ [{ id := UInt16.ofNat (s.seq_q + 1) }] }
    else none
  | .take w => s.workers[w]?.bind fun k =>
      if k.seq = none ∧ k.exited = false then
        some { s.replace w { k with seq := some (s.seq_q + 1) } with seq_q := s.seq_q + 1 }
      else none
  | .report w => s.workers[w]?.bind fun k =>
      if k.seq.isSome then some ((s.replace w { k with seq := none }).sends k.id.toNat) else none
  | .leave w => s.workers[w]?.bind fun k =>
      if k.seq = none ∧ k.exited = false then
        some ((s.replace w { k with exited := true }).sends (-k.id.toNat))
      else none
  | .collect =>
    if flow_worker_count < s.i ∧ 0 < s.active_count then
      match s.flow_sample_ch with
      | [] => none
      | sam :: sams => some ({ s with flow_sample_ch := sams }.sample sam)
    else none

/-- Each worker has a number of its own among 1, ..., flow_worker_count, and the server has
found a count for each sample. -/
structure Dense (flow_worker_count : UInt16) (s : Server) : Prop where
  distinct : (s.workers.map Worker.id).Nodup
  in_range : ∀ k ∈ s.workers, 1 ≤ k.id ∧ k.id ≤ flow_worker_count
  counted : s.panicked = false

/-- No worker takes a number for a flow while the server is still starting workers, and the
loop that starts them ends: its counter is as wide as its bound. -/
def Orderly (flow_worker_count : UInt16) (s : Server) : Event → Prop
  | .start => flow_worker_count ≠ 65535
  | .take _ => flow_worker_count < s.i
  | _ => True

section replace
variable (s : Server) (w : ℕ) (k : Worker) (sam : ℤ)

@[simp] theorem replace_workers : (s.replace w k).workers = s.workers.set w k := rfl
@[simp] theorem replace_i : (s.replace w k).i = s.i := rfl
@[simp] theorem replace_samples : (s.replace w k).flow_sample_ch = s.flow_sample_ch := rfl
@[simp] theorem sends_samples : (s.sends sam).flow_sample_ch = s.flow_sample_ch ++ [sam] := rfl
@[simp] theorem sends_workers : (s.sends sam).workers = s.workers := rfl

/-- Setting a worker whose number stays leaves the list of numbers as it is. -/
theorem replace_ids {s : Server} {w : ℕ} {k k' : Worker} (hk : s.workers[w]? = some k)
    (hid : k'.id = k.id) : (s.replace w k').workers.map Worker.id = s.workers.map Worker.id := by
  rw [replace_workers, List.map_set, hid]
  refine List.ext_getElem? fun j => ?_
  rw [List.getElem?_set]
  split
  case isTrue h =>
    subst h
    obtain ⟨hlt, hget⟩ := List.getElem?_eq_some_iff.mp hk
    simp [hlt, hget]
  case isFalse => rfl

end replace

/-- What one step does, as far as the numbers of the workers are concerned. -/
inductive Moved (flow_worker_count : UInt16) (s s' : Server) : Event → Prop
  | start (hi : s.i ≤ flow_worker_count)
      (heq : s' = { s with
        i := s.i + 1
        seq_q := s.seq_q + 1
        workers := s.workers ++ [{ id := UInt16.ofNat (s.seq_q + 1) }] }) : Moved _ s s' .start
  | take {w : ℕ} {k : Worker} (hk : s.workers[w]? = some k)
      (heq : s' = { s.replace w { k with seq := some (s.seq_q + 1) } with seq_q := s.seq_q + 1 }) :
      Moved _ s s' (.take w)
  | report {w : ℕ} {k : Worker} (hk : s.workers[w]? = some k)
      (heq : s' = (s.replace w { k with seq := none }).sends k.id.toNat) : Moved _ s s' (.report w)
  | leave {w : ℕ} {k : Worker} (hk : s.workers[w]? = some k)
      (heq : s' = (s.replace w { k with exited := true }).sends (-k.id.toNat)) :
      Moved _ s s' (.leave w)
  | collect {sam : ℤ} {sams : List ℤ} (hch : s.flow_sample_ch = sam :: sams)
      (heq : s' = { s with flow_sample_ch := sams }.sample sam) : Moved _ s s' .collect

variable {flow_worker_count : UInt16} {s s' : Server} {e : Event}

theorem step_moved (h : step flow_worker_count s e = some s') : Moved flow_worker_count s s' e := by
  have hp : s.panicked = false := by
    by_contra hp
    simp [step, hp] at h
  unfold step at h
  rw [if_neg (by rw [hp]; exact Bool.false_ne_true)] at h
  cases e with
  | start =>
    obtain ⟨hi, heq⟩ := Option.ite_none_right_eq_some.mp h
    exact .start hi (Option.some.inj heq).symm
  | take w =>
    obtain ⟨k, hk, hs⟩ := Option.bind_eq_some_iff.mp h
    exact .take hk (Option.some.inj (Option.ite_none_right_eq_some.mp hs).2).symm
  | report w =>
    obtain ⟨k, hk, hs⟩ := Option.bind_eq_some_iff.mp h
    exact .report hk (Option.some.inj (Option.ite_none_right_eq_some.mp hs).2).symm
  | leave w =>
    obtain ⟨k, hk, hs⟩ := Option.bind_eq_some_iff.mp h
    exact .leave hk (Option.some.inj (Option.ite_none_right_eq_some.mp hs).2).symm
  | collect =>
    have hs := (Option.ite_none_right_eq_some.mp h).2
    cases hch : s.flow_sample_ch with
    | nil => simp [hch] at hs
    | cons sam sams =>
      rw [hch] at hs
      exact .collect hch (Option.some.inj hs).symm

/-- The first `n` numbers of seq_q, as workers hold them. -/
def numbers (n : ℕ) : List UInt16 := (List.range' 1 n).map UInt16.ofNat

theorem numbers_succ (n : ℕ) : numbers (n + 1) = numbers n ++ [UInt16.ofNat (n + 1)] := by
  rw [numbers, List.range'_concat, List.map_append, Nat.add_comm n 1, Nat.one_mul]
  rfl

theorem mem_numbers {n : ℕ} (hn : n < 2 ^ 16) {id : UInt16} (h : id ∈ numbers n) :
    1 ≤ id.toNat ∧ id.toNat ≤ n := by
  obtain ⟨m, hm, rfl⟩ := List.mem_map.mp h
  rw [List.mem_range'_1] at hm
  have hsize : UInt16.size = 2 ^ 16 := rfl
  rw [UInt16.toNat_ofNat_of_lt' (by omega)]
  omega

theorem numbers_nodup {n : ℕ} (hn : n < 2 ^ 16) : (numbers n).Nodup := by
  refine List.Nodup.map_on (fun a ha b hb hab => ?_) List.nodup_range'
  rw [List.mem_range'_1] at ha hb
  have hsize : UInt16.size = 2 ^ 16 := rfl
  have hto := congrArg UInt16.toNat hab
  rwa [UInt16.toNat_ofNat_of_lt' (by omega), UInt16.toNat_ofNat_of_lt' (by omega)] at hto

/-- What an orderly run keeps: the numbers given out are the first of seq_q, and until the
last worker is started nobody else has taken one. -/
structure Standing (flow_worker_count : UInt16) (s : Server) : Prop where
  ids : s.workers.map Worker.id = numbers (s.i.toNat - 1)
  begun : 1 ≤ s.i.toNat
  bounded : s.i.toNat ≤ flow_worker_count.toNat + 1
  taken : s.i ≤ flow_worker_count → s.seq_q = s.i.toNat - 1
  samples : ∀ sam ∈ s.flow_sample_ch, ∃ id ∈ s.workers.map Worker.id,
    sam = id.toNat ∨ sam = -id.toNat
  stats : s.worker_stats.length = flow_worker_count.toNat
  counted : s.panicked = false

theorem count_lt (s : Server) : s.i.toNat - 1 < 2 ^ 16 := by
  have hlt := s.i.toNat_lt
  omega

theorem Standing.dense (h : Standing flow_worker_count s) : Dense flow_worker_count s where
  distinct := by
    rw [h.ids]
    exact numbers_nodup (count_lt s)
  in_range := by
    intro k hk
    have hmem := List.mem_map_of_mem (f := Worker.id) hk
    rw [h.ids] at hmem
    obtain ⟨hpos, hle⟩ := mem_numbers (count_lt s) hmem
    have hbound := h.bounded
    exact ⟨UInt16.le_iff_toNat_le.mpr hpos, UInt16.le_iff_toNat_le.mpr (by omega)⟩
  counted := h.counted

theorem boot_standing (flow_worker_count : UInt16) :
    Standing flow_worker_count (boot flow_worker_count) where
  ids := rfl
  begun := le_refl 1
  bounded := Nat.le_add_left 1 _
  taken := fun _ => rfl
  samples := by simp [boot]
  stats := List.length_replicate
  counted := rfl

/-- A worker's own steps change neither the numbers nor the loop of the server. -/
theorem Standing.of_worker (h : Standing flow_worker_count s)
    (hids : s'.workers.map Worker.id = s.workers.map Worker.id) (hi : s'.i = s.i)
    (htaken : s'.i ≤ flow_worker_count → s'.seq_q = s.seq_q)
    (hsamples : ∀ sam ∈ s'.flow_sample_ch, sam ∈ s.flow_sample_ch ∨
      ∃ id ∈ s.workers.map Worker.id, sam = id.toNat ∨ sam = -id.toNat)
    (hstats : s'.worker_stats.length = s.worker_stats.length)
    (hcounted : s'.panicked = false) : Standing flow_worker_count s' where
  ids := by rw [hids, hi, h.ids]
  begun := hi ▸ h.begun
  bounded := hi ▸ h.bounded
  taken := fun hle => by rw [htaken hle, hi, h.taken (hi ▸ hle)]
  samples := by
    intro sam hsam
    rw [hids]
    exact (hsamples sam hsam).elim (h.samples sam) id
  stats := hstats.trans h.stats
  counted := hcounted

theorem mem_ids {w : ℕ} {k : Worker} (hk : s.workers[w]? = some k) :
    k.id ∈ s.workers.map Worker.id :=
  List.mem_map_of_mem (List.mem_of_getElem? hk)

/-- The server finds the count of every sample it receives. -/
theorem Standing.sampled (h : Standing flow_worker_count s) {sam : ℤ} {sams : List ℤ}
    (hch : s.flow_sample_ch = sam :: sams) :
    Standing flow_worker_count ({ s with flow_sample_ch := sams }.sample sam) := by
  have hrest : ∀ x ∈ sams, x ∈ s.flow_sample_ch := fun x hx => by simp [hch, hx]
  obtain ⟨id, hid, hsam⟩ := h.samples sam (by simp [hch])
  rw [h.ids] at hid
  obtain ⟨hpos, hle⟩ := mem_numbers (count_lt s) hid
  have hbound := h.bounded
  have hlen := h.stats
  unfold Server.sample
  split
  case isTrue =>
    exact h.of_worker rfl rfl (fun _ => rfl) (fun x hx => Or.inl (hrest x hx)) rfl h.counted
  case isFalse hneg =>
    have hin : 0 ≤ sam - 1 ∧ sam - 1 < (s.worker_stats.length : ℤ) := by omega
    rw [if_pos hin]
    exact h.of_worker rfl rfl (fun _ => rfl) (fun x hx => Or.inl (hrest x hx))
      (List.length_modify ..) h.counted

theorem Standing.started (h : Standing flow_worker_count s) (hi : s.i ≤ flow_worker_count)
    (hwide : flow_worker_count ≠ 65535) :
    Standing flow_worker_count { s with
      i := s.i + 1
      seq_q := s.seq_q + 1
      workers := s.workers ++ [{ id := UInt16.ofNat (s.seq_q + 1) }] } := by
  have hle := UInt16.le_iff_toNat_le.mp hi
  have hlt : flow_worker_count.toNat < 65535 := by
    have hsize := flow_worker_count.toNat_lt
    have hne : flow_worker_count.toNat ≠ 65535 := fun heq => hwide (UInt16.toNat_inj.mp heq)
    omega
  have hbegun := h.begun
  have hsucc : (s.i + 1).toNat = s.i.toNat + 1 := by
    rw [UInt16.toNat_add]
    exact Nat.mod_eq_of_lt (by simp; omega)
  have hcount : s.i.toNat = s.i.toNat - 1 + 1 := by omega
  refine ⟨?_, by simp [hsucc], by simp [hsucc]; omega, ?_, ?_, h.stats, h.counted⟩
  · simp only [List.map_append, List.map_cons, List.map_nil]
    rw [h.ids, h.taken hi, hsucc, Nat.add_sub_cancel]
    conv_rhs => rw [hcount, numbers_succ]
  · intro _
    simp only [h.taken hi, hsucc]
    omega
  · intro sam hsam
    obtain ⟨id, hid, hsign⟩ := h.samples sam hsam
    exact ⟨id, by simp only [List.map_append, List.mem_append]; exact Or.inl hid, hsign⟩

theorem Standing.step (h : Standing flow_worker_count s) (horderly : Orderly flow_worker_count s e)
    (hstep : step flow_worker_count s e = some s') : Standing flow_worker_count s' := by
  cases step_moved hstep with
  | start hi heq =>
    subst heq
    exact h.started hi horderly
  | @take w k hk heq =>
    subst heq
    refine h.of_worker (replace_ids hk rfl) rfl (fun hle => ?_) (fun _ => Or.inl) rfl h.counted
    -- the loop that starts the workers has ended
    exact absurd hle (UInt16.not_le.mpr horderly)
  | @report w k hk heq =>
    subst heq
    refine h.of_worker (replace_ids hk rfl) rfl (fun _ => rfl) (fun sam hsam => ?_) rfl h.counted
    rcases List.mem_append.mp hsam with hold | hnew
    · exact Or.inl hold
    · exact Or.inr ⟨k.id, mem_ids hk, Or.inl (List.mem_singleton.mp hnew)⟩
  | @leave w k hk heq =>
    subst heq
    refine h.of_worker (replace_ids hk rfl) rfl (fun _ => rfl) (fun sam hsam => ?_) rfl h.counted
    rcases List.mem_append.mp hsam with hold | hnew
    · exact Or.inl hold
    · exact Or.inr ⟨k.id, mem_ids hk, Or.inr (List.mem_singleton.mp hnew)⟩
  | collect hch heq =>
    subst heq
    exact h.sampled hch

/-- In every run in which the workers are all started before the first of them takes a
number for a flow, their numbers are distinct and in the range of worker_stats. -/
theorem orderly_start_dense (flow_worker_count : UInt16) (es : List Event) (s : Server)
    (horderly : Along (step flow_worker_count) (Orderly flow_worker_count)
      (boot flow_worker_count) es)
    (hrun : exec (step flow_worker_count) (boot flow_worker_count) es = some s) :
    Dense flow_worker_count s :=
  (invariant_along (fun _ _ _ => Standing.step) (boot_standing _) horderly hrun).dense

/-- Two workers, each with a record, whose samples the server counts. -/
theorem two_workers_dense :
    (exec (step 2) (boot 2)
      [.start, .start, .take 1, .take 0, .report 1, .report 0, .collect, .collect]).elim False
      (Dense 2) := by
  have hrun : ∃ s, exec (step 2) (boot 2)
      [.start, .start, .take 1, .take 0, .report 1, .report 0, .collect, .collect] = some s :=
    Option.isSome_iff_exists.mp (by decide)
  obtain ⟨s, hs⟩ := hrun
  rw [hs]
  refine orderly_start_dense 2 _ s ?_ hs
  simp [Along, Orderly]
  decide

/-- The first of two workers takes its record before the second is started. -/
theorem start_not_always_dense :
    ¬ ∀ (flow_worker_count : UInt16) (es : List Event) (s : Server),
      exec (step flow_worker_count) (boot flow_worker_count) es = some s →
      Dense flow_worker_count s := by
  intro h
  have hrun : (exec (step 2) (boot 2)
      [.start, .take 0, .start, .take 1, .report 1, .collect]).isSome = true := by decide
  obtain ⟨s, hs⟩ := Option.isSome_iff_exists.mp hrun
  have hpanic : (exec (step 2) (boot 2)
      [.start, .take 0, .start, .take 1, .report 1, .collect]).elim false Server.panicked = true := by
    decide
  rw [hs] at hpanic
  exact Bool.false_ne_true ((h 2 _ s hs).counted.symm.trans hpanic)

end Blobio.FlowWorkers
