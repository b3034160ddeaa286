import Blobio.BrrRecords

/-! The wall durations in the records of a client and of the server. -/
namespace Blobio.RequestChild

/-- What a client writes: a duration that is negative is reset as a whole. -/
def brr_service_duration (start_time end_time : Timespec) : ℕ × ℕ :=
  let (sec, nsec) := elapsed start_time end_time
  let (sec, nsec) := if sec < 0 then (0, 0) else (sec, nsec)
  (sec.toNat, if nsec < 0 then 0 else nsec.toNat)

def Timespec.nanoseconds (t : Timespec) : ℤ :=
  t.tv_sec * 1000000000 + t.tv_nsec

variable {start_time end_time : Timespec}

theorem elapsed_eq (start_time end_time : Timespec) :
    (elapsed start_time end_time).1 * 1000000000 + (elapsed start_time end_time).2 =
        end_time.nanoseconds - start_time.nanoseconds ∧
      0 ≤ (elapsed start_time end_time).2 ∧ (elapsed start_time end_time).2 < 1000000000 := by
  have hstart := start_time.tv_nsec_lt
  have hend := end_time.tv_nsec_lt
  unfold elapsed Timespec.nanoseconds
  split <;> simp only <;> omega

/-- Both clamps leave a duration alone that is not negative. -/
theorem durations_of_le (h : start_time.nanoseconds ≤ end_time.nanoseconds) :
    let borrowed := elapsed start_time end_time
    wall_duration start_time end_time = (borrowed.1.toNat, borrowed.2.toNat) ∧
      brr_service_duration start_time end_time = (borrowed.1.toNat, borrowed.2.toNat) := by
  obtain ⟨hsum, hnsec, hlt⟩ := elapsed_eq start_time end_time
  have hsec : ¬ (elapsed start_time end_time).1 < 0 := by omega
  have hnsec' : ¬ (elapsed start_time end_time).2 < 0 := by omega
  simp only [wall_duration, brr_service_duration, hsec, hnsec', if_false, and_self]

/-- Only the server keeps the nanoseconds of a negative duration. -/
theorem durations_of_lt (h : end_time.nanoseconds < start_time.nanoseconds) :
    wall_duration start_time end_time = (0, (elapsed start_time end_time).2.toNat) ∧
      brr_service_duration start_time end_time = (0, 0) := by
  obtain ⟨hsum, hnsec, hlt⟩ := elapsed_eq start_time end_time
  have hsec : (elapsed start_time end_time).1 < 0 := by omega
  have hnsec' : ¬ (elapsed start_time end_time).2 < 0 := by omega
  simp [wall_duration, brr_service_duration, hsec, hnsec']

theorem elapsed_nsec_eq_zero :
    (elapsed start_time end_time).2 = 0 ↔ start_time.tv_nsec = end_time.tv_nsec := by
  have hstart := start_time.tv_nsec_lt
  have hend := end_time.tv_nsec_lt
  unfold elapsed
  split <;> constructor <;> intro h <;> simp only at h ⊢ <;> omega

/-- Server and client write the same duration, and it is that between the two times or 0. -/
def DurationRight (start_time end_time : Timespec) : Prop :=
  let wall := wall_duration start_time end_time
  wall = brr_service_duration start_time end_time ∧
    (wall.1 * 1000000000 + wall.2 : ℤ) = max 0 (end_time.nanoseconds - start_time.nanoseconds) ∧
      wall.2 < 1000000000

theorem duration_right_iff (start_time end_time : Timespec) : DurationRight start_time end_time ↔
    start_time.nanoseconds ≤ end_time.nanoseconds ∨ start_time.tv_nsec = end_time.tv_nsec := by
  obtain ⟨hsum, hnsec, hlt⟩ := elapsed_eq start_time end_time
  rcases le_or_gt start_time.nanoseconds end_time.nanoseconds with hle | hgt
  · obtain ⟨hserver, hclient⟩ := durations_of_le hle
    have hright : DurationRight start_time end_time := by
      simp only [DurationRight, hserver, hclient, true_and]
      omega
    exact iff_of_true hright (Or.inl hle)
  · obtain ⟨hserver, hclient⟩ := durations_of_lt hgt
    rw [← elapsed_nsec_eq_zero]
    simp only [DurationRight, hserver, hclient, Prod.mk.injEq, true_and]
    constructor
    · intro ⟨hzero, _⟩
      exact Or.inr (by omega)
    · intro h
      have hzero : (elapsed start_time end_time).2 = 0 := h.resolve_left (by omega)
      simp only [hzero]
      omega

/-- The clock is set back by half a second. -/
theorem set_back_right : ¬ ∀ start_time end_time : Timespec, DurationRight start_time end_time := by
  intro h
  have hback := (h ⟨10, 0, no_nsec_lt⟩ ⟨9, 500000000, by decide⟩).1
  revert hback
  decide

end Blobio.RequestChild
