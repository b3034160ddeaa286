import Mathlib.Data.BitVec
import Mathlib.Data.List.Count

/-! Machine words that count what happens, and what their differences say. -/
namespace WordCounters

variable {κ : Type} [DecidableEq κ] {w : ℕ}

def bump (counters : κ → BitVec w) (c : κ) : κ → BitVec w :=
  Function.update counters c (counters c + 1)

def bump_all (counters : κ → BitVec w) (cs : List κ) : κ → BitVec w :=
  cs.foldl bump counters

/-- The words after everything in a list has been counted. -/
def tally (w : ℕ) (cs : List κ) : κ → BitVec w :=
  fun c => .ofNat w (cs.count c)

theorem bump_tally (cs : List κ) (k : κ) : bump (tally w cs) k = tally w (cs ++ [k]) := by
  funext c
  by_cases h : c = k
  · subst h
    simp [bump, tally, List.count_append, BitVec.ofNat_add]
  · simp [bump, tally, List.count_append, Function.update_of_ne h, Ne.symm h]

theorem bump_all_tally (cs ks : List κ) : bump_all (tally w cs) ks = tally w (cs ++ ks) := by
  induction ks generalizing cs with
  | nil => simp [bump_all]
  | cons k ks ih =>
    have hcons := ih (cs ++ [k])
    rw [← bump_tally] at hcons
    simpa [bump_all] using hcons

theorem toNat_tally {cs : List κ} {c : κ} (h : cs.count c < 2 ^ w) : (tally w cs c).toNat = cs.count c := by
  rw [tally, BitVec.toNat_ofNat, Nat.mod_eq_of_lt h]

theorem sum_tally (cs ks : List κ) :
    (ks.map (tally w cs)).sum = .ofNat w (ks.map fun c => cs.count c).sum := by
  induction ks with
  | nil => rfl
  | cons k ks ih =>
    rw [List.map_cons, List.sum_cons, ih, List.map_cons, List.sum_cons, BitVec.ofNat_add]
    rfl

theorem toNat_sum_tally (cs ks : List κ) :
    (ks.map (tally w cs)).sum.toNat = (ks.map fun c => cs.count c).sum % 2 ^ w := by
  rw [sum_tally, BitVec.toNat_ofNat]

/-- The difference of a counter to an earlier value is what has been counted in between. -/
theorem toNat_tally_sub {cs ks : List κ} {c : κ} (h : ks.count c < 2 ^ w) :
    (tally w (cs ++ ks) c - tally w cs c).toNat = ks.count c := by
  have hsum : tally w (cs ++ ks) c = tally w cs c + tally w ks c := by
    simp [tally, List.count_append, BitVec.ofNat_add]
  rw [hsum, BitVec.add_comm, BitVec.add_sub_cancel, toNat_tally h]

/-- A word that goes through a narrower signed one comes back as its low bits, while these
leave the sign alone. -/
theorem toNat_signExtend_setWidth {n : ℕ} (v : BitVec w) (hn : n ≤ w)
    (h : 2 * (v.toNat % 2 ^ n) < 2 ^ n) : ((v.setWidth n).signExtend w).toNat = v.toNat % 2 ^ n := by
  have hmsb : (v.setWidth n).msb = false := by
    rw [BitVec.msb_eq_false_iff_two_mul_lt, BitVec.toNat_setWidth]
    exact h
  have hle : 2 ^ n ≤ 2 ^ w := Nat.pow_le_pow_right Nat.two_pos hn
  rw [BitVec.toNat_signExtend, hmsb, BitVec.toNat_setWidth, BitVec.toNat_setWidth]
  rw [if_neg Bool.false_ne_true, Nat.add_zero]
  apply Nat.mod_eq_of_lt
  omega

theorem signExtend_setWidth_of_lt {n : ℕ} {v : BitVec w} (hn : n ≤ w) (h : 2 * v.toNat < 2 ^ n) :
    (v.setWidth n).signExtend w = v := by
  have hmod : v.toNat % 2 ^ n = v.toNat := Nat.mod_eq_of_lt (by omega)
  apply BitVec.eq_of_toNat_eq
  rw [toNat_signExtend_setWidth v hn (by omega), hmod]

end WordCounters
