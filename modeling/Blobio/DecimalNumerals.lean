import Mathlib.Algebra.Order.Ring.Nat

/-! Zero-padded decimal numerals, as `%0wu` writes them. -/
namespace DecimalNumerals

/-- The numeral at its full length when the width does not hold it. -/
def padded (w n : ℕ) : List Char :=
  List.replicate (w - (Nat.toDigits 10 n).length) '0' ++ Nat.toDigits 10 n

/-- A decimal numeral with its sign, as `%d` writes it. -/
def signed : ℤ → List Char
  | .ofNat n => Nat.toDigits 10 n
  | .negSucc n => '-' :: Nat.toDigits 10 (n + 1)

theorem isDigit_of_mem_decimal {n : ℕ} {c : Char} (h : c ∈ Nat.toDigits 10 n) : c.isDigit :=
  Nat.isDigit_of_mem_toDigits (by decide) (by decide) h

theorem isDigit_of_mem_padded {w n : ℕ} {c : Char} (h : c ∈ padded w n) : c.isDigit := by
  rcases List.mem_append.mp h with h | h
  · rw [List.eq_of_mem_replicate h]
    rfl
  · exact isDigit_of_mem_decimal h

@[simp] theorem ofDigitChars_padded (w n : ℕ) : Nat.ofDigitChars 10 (padded w n) 0 = n := by
  simp [padded, Nat.ofDigitChars_append]

theorem padded_injective {w n m : ℕ} (h : padded w n = padded w m) : n = m := by
  simpa using congrArg (Nat.ofDigitChars 10 · 0) h

theorem length_padded {w n : ℕ} (hw : 0 < w) (hn : n < 10 ^ w) : (padded w n).length = w := by
  have h := (Nat.length_toDigits_le_iff (by decide) hw).mpr hn
  rw [padded, List.length_append, List.length_replicate]
  omega

theorem decimal_injective {n m : ℕ} (h : Nat.toDigits 10 n = Nat.toDigits 10 m) : n = m := by
  simpa using congrArg (Nat.ofDigitChars 10 · 0) h

/-- A digit is no letter. -/
theorem not_isAlpha_of_isDigit {c : Char} (h : c.isDigit) : ¬ c.isAlpha := by
  intro halpha
  have hle : c.val ≤ '9'.val := of_decide_eq_true ((Bool.and_eq_true ..).mp h).2
  have hge : 'A'.val ≤ c.val := by
    rcases (Bool.or_eq_true c.isUpper c.isLower).mp halpha with hupper | hlower
    · exact (of_decide_eq_true hupper).1
    · have ha : 'a'.val ≤ c.val := of_decide_eq_true ((Bool.and_eq_true ..).mp hlower).1
      exact UInt32.le_trans (by decide) ha
  exact absurd (UInt32.le_trans hge hle) (by decide)

/-- A numeral with a sign is that of one number. -/
theorem sign_injective {f : ℕ → List Char} {g : ℤ → List Char} (hf : Function.Injective f)
    (hdigits : ∀ n, '-' ∉ f n) (hpos : ∀ n : ℕ, g (.ofNat n) = f n)
    (hneg : ∀ n : ℕ, g (.negSucc n) = '-' :: f (n + 1)) : Function.Injective g := by
  intro i j h
  cases i with
  | ofNat n =>
    cases j with
    | ofNat m =>
      rw [hpos, hpos] at h
      rw [hf h]
    | negSucc m =>
      rw [hpos, hneg] at h
      exact absurd (h ▸ List.mem_cons_self) (hdigits n)
  | negSucc n =>
    cases j with
    | ofNat m =>
      rw [hpos, hneg] at h
      exact absurd (h ▸ List.mem_cons_self) (hdigits m)
    | negSucc m =>
      rw [hneg, hneg] at h
      rw [Nat.succ_injective (hf (List.tail_eq_of_cons_eq h))]

theorem signed_injective : Function.Injective signed :=
  sign_injective (fun _ _ h => decimal_injective h)
    (fun _ hmem => absurd (isDigit_of_mem_decimal hmem) (by decide)) (fun _ => rfl) fun _ => rfl

/-- A numeral after a separator is the last part of its text. -/
theorem decimal_suffix_injective {xs ys : List Char} {n m : ℕ}
    (h : xs ++ '-' :: Nat.toDigits 10 n = ys ++ '-' :: Nat.toDigits 10 m) : xs = ys ∧ n = m := by
  have hlast : ∀ (zs : List Char) (k : ℕ),
      ((zs ++ '-' :: Nat.toDigits 10 k).reverse.takeWhile Char.isDigit).reverse =
        Nat.toDigits 10 k := by
    intro zs k
    have hall : ∀ c ∈ (Nat.toDigits 10 k).reverse, c.isDigit :=
      fun c hc => isDigit_of_mem_decimal (List.mem_reverse.mp hc)
    rw [List.reverse_append, List.reverse_cons, List.append_assoc,
      List.takeWhile_append_of_pos hall]
    simp [show ('-').isDigit = false from rfl]
  have hnm : n = m := decimal_injective (by rw [← hlast xs n, ← hlast ys m, h])
  subst hnm
  exact ⟨List.append_cancel_right h, rfl⟩

example : padded 5 42 = "00042".toList := by decide

end DecimalNumerals
