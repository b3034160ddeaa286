import Blobio.AtomicThreads
import Blobio.HexDigests
import Mathlib.Data.List.Count
import Mathlib.Logic.Function.Basic

/-! The blobs that some but not all databases have: goroutines count in one map of bytes the
databases of each blob, and take out the blobs whose count comes to the number of databases. -/
namespace Blobio.Jaccard
open EventRuns AtomicThreads

/-- The table `blobio.service` of a configured database. -/
structure Service where
  blobs : List Text
  blobs_nodup : blobs.Nodup

/-- What `select_service` does under the mutex, and its message when the rows are at their end. -/
inductive Action
  | row (blob : Text)
  | done
  deriving DecidableEq

structure Answer where
  an_exists : Text → Option UInt8 := fun _ => none
  dones : ℕ := 0

/-- The section of `select_service` that a blob's row goes through, with n databases. -/
def count_row (n : ℕ) (an_exists : Text → Option UInt8) (blob : Text) : Text → Option UInt8 :=
  let count := (an_exists blob).getD 0 + 1
  Function.update an_exists blob (if count = UInt8.ofNat n then none else some count)

def act (n : ℕ) (an : Answer) : Action → Option Answer
  | .row blob => some { an with an_exists := count_row n an.an_exists blob }
  | .done => some { an with dones := an.dones + 1 }

def select_service (db : Service) : List Action := db.blobs.map .row ++ [.done]

def start (dbs : List Service) : State Answer Action := ⟨{}, dbs.map select_service⟩

/-- The udigs that `jaccard` lists when it has heard from all databases. -/
def missing_udigs (dbs : List Service) (an : Answer) : Option (Set Text) :=
  if an.dones = dbs.length then some {b | (an.an_exists b).isSome} else none

/-! ### The count of a blob -/

/-- A blob's entry is taken out each time its count comes to this. -/
def cycle (n : ℕ) : ℕ := if n % 256 = 0 then 256 else n % 256

/-- The entry of a blob that m rows have had. -/
def tally (n m : ℕ) : Option UInt8 :=
  if m % cycle n = 0 then none else some (UInt8.ofNat (m % cycle n))

theorem cycle_bounds (n : ℕ) : 0 < cycle n ∧ cycle n ≤ 256 ∧ cycle n % 256 = n % 256 := by
  unfold cycle
  split_ifs <;> omega

theorem cycle_of_le {n : ℕ} (h : n ≤ 256) (hpos : 0 < n) : cycle n = n := by
  unfold cycle
  split_ifs <;> omega

theorem tally_isSome {n m : ℕ} : (tally n m).isSome ↔ ¬ cycle n ∣ m := by
  rw [tally, Nat.dvd_iff_mod_eq_zero]
  split_ifs with h <;> simp [h]

theorem tally_getD (n m : ℕ) : (tally n m).getD 0 = UInt8.ofNat (m % cycle n) := by
  unfold tally
  split_ifs with h
  · rw [h]
    rfl
  · rfl

theorem tally_succ (n m : ℕ) :
    (if (tally n m).getD 0 + 1 = UInt8.ofNat n then none else some ((tally n m).getD 0 + 1)) =
      tally n (m + 1) := by
  obtain ⟨hpos, hle, hmod⟩ := cycle_bounds n
  have hlt := Nat.mod_lt m hpos
  have hcount : (tally n m).getD 0 + 1 = UInt8.ofNat (m % cycle n + 1) := by
    rw [tally_getD, UInt8.ofNat_add]
    rfl
  have hlast : UInt8.ofNat (m % cycle n + 1) = UInt8.ofNat n ↔ m % cycle n + 1 = cycle n := by
    rw [← UInt8.toNat_inj, UInt8.toNat_ofNat', UInt8.toNat_ofNat']
    omega
  have hsucc : (m + 1) % cycle n = if m % cycle n + 1 = cycle n then 0 else m % cycle n + 1 := by
    rw [← Nat.mod_add_mod]
    split_ifs with hend
    · rw [hend, Nat.mod_self]
    · exact Nat.mod_eq_of_lt (by omega)
  rw [hcount, tally, hsucc]
  by_cases hend : m % cycle n + 1 = cycle n
  · rw [if_pos (hlast.mpr hend), if_pos hend, if_pos rfl]
  · rw [if_neg (mt hlast.mp hend), if_neg hend, if_neg (Nat.succ_ne_zero _)]

/-! ### Runs -/

/-- Every entry is that of the rows so far. -/
theorem exec_tally {n : ℕ} {done : List Action} {an an' : Answer} (hrun : exec (act n) an done = some an')
    (seen : Text → ℕ) (h : ∀ b, an.an_exists b = tally n (seen b)) (b : Text) :
    an'.an_exists b = tally n (seen b + done.count (.row b)) := by
  induction done generalizing an seen with
  | nil =>
    obtain rfl : an = an' := by simpa using hrun
    exact h b
  | cons a done ih =>
    obtain ⟨m, hstep, hrest⟩ := exec_cons.mp hrun
    cases a with
    | done =>
      obtain rfl := Option.some.inj hstep
      simpa using ih hrest seen h
    | row blob =>
      obtain rfl := Option.some.inj hstep
      have hseen := ih hrest (fun c => seen c + if c = blob then 1 else 0) fun c => by
        by_cases hc : c = blob
        · subst hc
          simp [count_row, h, tally_succ]
        · simp [count_row, h, hc]
      rw [hseen]
      by_cases hb : b = blob
      · rw [hb, if_pos rfl, List.count_cons_self, Nat.add_assoc, Nat.add_comm 1]
      · rw [if_neg hb, Nat.add_zero, List.count_cons_of_ne fun heq => hb (Action.row.inj heq).symm]

theorem exec_dones {n : ℕ} {done : List Action} {an an' : Answer} (hrun : exec (act n) an done = some an') :
    an'.dones = an.dones + done.count .done := by
  induction done generalizing an with
  | nil =>
    obtain rfl : an = an' := by simpa using hrun
    rfl
  | cons a done ih =>
    obtain ⟨m, hstep, hrest⟩ := exec_cons.mp hrun
    cases a with
    | done =>
      obtain rfl := Option.some.inj hstep
      rw [ih hrest, List.count_cons_self]
      simp [Nat.add_comm, Nat.add_left_comm]
    | row blob =>
      obtain rfl := Option.some.inj hstep
      rw [ih hrest, List.count_cons_of_ne (by simp)]

/-- How many databases have the blob. -/
def holders (dbs : List Service) (b : Text) : ℕ := dbs.countP fun db => b ∈ db.blobs

theorem count_done (dbs : List Service) : (dbs.map select_service).flatten.count .done = dbs.length := by
  induction dbs with
  | nil => rfl
  | cons db dbs ih =>
    have hrows : (db.blobs.map Action.row).count .done = 0 :=
      List.count_eq_zero.mpr (by simp)
    rw [List.map_cons, List.flatten_cons, List.count_append, ih, select_service, List.count_append, hrows,
      List.length_cons]
    exact Nat.add_comm 1 _

theorem count_row_of (dbs : List Service) (b : Text) :
    (dbs.map select_service).flatten.count (.row b) = holders dbs b := by
  induction dbs with
  | nil => rfl
  | cons db dbs ih =>
    have hrows : (db.blobs.map Action.row).count (.row b) = if b ∈ db.blobs then 1 else 0 := by
      rw [List.count_map_of_injective _ _ fun _ _ h => Action.row.inj h]
      exact db.blobs_nodup.count
    rw [List.map_cons, List.flatten_cons, List.count_append, ih, select_service, List.count_append, hrows,
      holders, holders, List.countP_cons, Nat.add_comm]
    simp

/-- All goroutines have sent their message just when they have no row left. -/
theorem finished_of_dones {dbs : List Service} {is : List ℕ} {s : State Answer Action}
    (hrun : exec (AtomicThreads.step (act dbs.length)) (start dbs) is = some s)
      (hdones : s.shared.dones = dbs.length) :
    Finished s := by
  obtain ⟨done, hdone, -, hperm⟩ := serialized (P := fun _ _ => True) hrun
    (along_of_forall (fun _ _ _ _ _ _ => trivial) _)
  have hlast : ∀ as ∈ (start dbs).left, as = [] ∨ as.getLast? = some .done := by
    intro as has
    obtain ⟨db, -, rfl⟩ := List.mem_map.mp has
    exact .inr (by simp [select_service])
  refine finished_of_last hlast hrun hperm ?_
  have hcount := exec_dones hdone
  rw [show (start dbs).left.flatten.count .done = dbs.length from count_done dbs]
  simp only [start] at hcount
  omega

/-- Every run so far can be brought to the end of all goroutines. -/
theorem exists_dones {dbs : List Service} {is : List ℕ} {s : State Answer Action}
    (hrun : exec (AtomicThreads.step (act dbs.length)) (start dbs) is = some s) :
    ∃ js s', exec (AtomicThreads.step (act dbs.length)) (start dbs) (is ++ js) = some s' ∧
      s'.shared.dones = dbs.length := by
  have htotal : ∀ an a, (act dbs.length an a).isSome := by
    intro an a
    cases a <;> rfl
  obtain ⟨js, s', hjs, hfinished⟩ := exists_finished htotal s
  have hall := exec_append.mpr ⟨s, hrun, hjs⟩
  obtain ⟨done, hdone, hperm⟩ := serialized_finished hall hfinished
  refine ⟨js, s', hall, ?_⟩
  rw [exec_dones hdone, hperm.count_eq, show
    (start dbs).left.flatten.count .done = dbs.length from count_done dbs]
  exact Nat.zero_add _

theorem exists_iff_holders {dbs : List Service} {is : List ℕ} {s : State Answer Action}
    (hrun : exec (AtomicThreads.step (act dbs.length)) (start dbs) is = some s)
      (hdones : s.shared.dones = dbs.length)
    (b : Text) : (s.shared.an_exists b).isSome ↔ ¬ cycle dbs.length ∣ holders dbs b := by
  obtain ⟨done, hdone, hperm⟩ := serialized_finished hrun (finished_of_dones hrun hdones)
  rw [exec_tally hdone (fun _ => 0) fun c => by simp [start, tally], Nat.zero_add,
    hperm.count_eq, tally_isSome]
  exact not_congr (by rw [← count_row_of]; rfl)

theorem holders_pos {dbs : List Service} {b : Text} : 0 < holders dbs b ↔ ∃ db ∈ dbs, b ∈ db.blobs := by
  simp [holders, List.countP_pos_iff]

theorem holders_eq_length {dbs : List Service} {b : Text} :
    holders dbs b = dbs.length ↔ ∀ db ∈ dbs, b ∈ db.blobs := by
  simp [holders, List.countP_eq_length]

/-- The missing udigs are the blobs that one database has and another has not, when the count
that takes a blob out, the number of databases as a byte, divides for each blob the number of
databases with it just if these are all databases. -/
theorem missing_udigs_iff (dbs : List Service) {is : List ℕ} {s : State Answer Action}
    (hrun : exec (AtomicThreads.step (act dbs.length)) (start dbs) is = some s)
      (hdones : s.shared.dones = dbs.length) :
    missing_udigs dbs s.shared =
        some {b | (∃ db ∈ dbs, b ∈ db.blobs) ∧ ¬ ∀ db ∈ dbs, b ∈ db.blobs} ↔
      ∀ b, (∃ db ∈ dbs, b ∈ db.blobs) → (cycle dbs.length ∣ holders dbs b ↔ holders dbs b = dbs.length) :=
        by
  rw [missing_udigs, if_pos hdones, Option.some.injEq, Set.ext_iff]
  refine forall_congr' fun b => ?_
  change ((s.shared.an_exists b).isSome ↔
    (∃ db ∈ dbs, b ∈ db.blobs) ∧ ¬ ∀ db ∈ dbs, b ∈ db.blobs) ↔ _
  rw [exists_iff_holders hrun hdones, ← holders_pos, ← holders_eq_length]
  rcases Nat.eq_zero_or_pos (holders dbs b) with hzero | hpos
  · simp [hzero]
  · simp [hpos, not_iff_not]

/-- With no more than 256 databases there is no such blob. -/
theorem cycle_dvd_holders {dbs : List Service} (h : dbs.length ≤ 256) {b : Text}
    (hb : ∃ db ∈ dbs, b ∈ db.blobs) : cycle dbs.length ∣ holders dbs b ↔ holders dbs b = dbs.length := by
  have hpos := holders_pos.mpr hb
  have hle : holders dbs b ≤ dbs.length := List.countP_le_length
  rw [cycle_of_le h (by omega)]
  constructor
  · exact fun hdvd => Nat.le_antisymm hle (Nat.le_of_dvd hpos hdvd)
  · exact fun heq => heq ▸ dvd_rfl

def two_databases : List Service := [⟨["a".toList, "b".toList], by decide⟩, ⟨["b".toList], by decide⟩]

theorem two_databases_missing : ∃ s, exec (AtomicThreads.step (act 2)) (start two_databases) [1, 0, 0, 1,
    0] = some s ∧
    missing_udigs two_databases s.shared =
      some {b | (∃ db ∈ two_databases, b ∈ db.blobs) ∧ ¬ ∀ db ∈ two_databases, b ∈ db.blobs} := by
  have hrun : (exec (AtomicThreads.step (act 2)) (start two_databases) [1, 0, 0, 1, 0]).map
    (·.shared.dones) = some 2 := by
    decide +kernel
  obtain ⟨s, hs, hdones⟩ := Option.map_eq_some_iff.mp hrun
  exact ⟨s, hs, (missing_udigs_iff two_databases hs hdones).mpr fun _ => cycle_dvd_holders (by decide)⟩

/-- One of 257 databases has a blob. -/
def lone_blob : List Service := ⟨["a".toList], by decide⟩ :: List.replicate 256 ⟨[], by decide⟩

/-- The blob's first row takes it out again. -/
theorem lone_blob_not_missing : ¬ ∀ (dbs : List Service) (is : List ℕ) (s : State Answer Action),
    exec (AtomicThreads.step (act dbs.length)) (start dbs) is = some s → s.shared.dones = dbs.length →
      missing_udigs dbs s.shared =
        some {b | (∃ db ∈ dbs, b ∈ db.blobs) ∧ ¬ ∀ db ∈ dbs, b ∈ db.blobs} := by
  intro h
  have hlen : lone_blob.length = 257 := by
    rw [lone_blob, List.length_cons, List.length_replicate]
  have hrun : ((exec (AtomicThreads.step (act 257)) (start lone_blob) (0 :: List.range 257)).map fun s =>
      (s.shared.dones, s.shared.an_exists "a".toList)) = some (257, none) := by
    decide +kernel
  obtain ⟨s, hs, hend⟩ := Option.map_eq_some_iff.mp hrun
  have hdones : s.shared.dones = lone_blob.length := (congrArg Prod.fst hend).trans hlen.symm
  have hmissing := h lone_blob _ s (by rw [hlen]; exact hs) hdones
  rw [missing_udigs, if_pos hdones, Option.some.injEq] at hmissing
  have hmem : "a".toList ∈ {b | (s.shared.an_exists b).isSome} := by
    rw [hmissing]
    refine ⟨⟨_, List.mem_cons_self, List.mem_singleton.mpr rfl⟩, fun hall => ?_⟩
    have hempty := hall ⟨[], by decide⟩ (List.mem_cons_of_mem _ (List.mem_replicate.mpr ⟨by decide, rfl⟩))
    cases hempty
  have hnone : s.shared.an_exists "a".toList = none := congrArg Prod.snd hend
  have hsome : (s.shared.an_exists "a".toList).isSome := hmem
  rw [hnone] at hsome
  cases hsome

end Blobio.Jaccard
