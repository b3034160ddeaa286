import Mathlib.Data.List.DropRight
import Mathlib.Tactic.Linarith
import Mathlib.Tactic.Ring
import Blobio.DecimalNumerals
import Blobio.HexDigests

/-! The text of an interval, as the schema's `interval_terse_english` puts it together. -/
namespace Blobio.TerseIntervals
open DecimalNumerals

/-- Months, days and microseconds. -/
structure Interval where
  month : ℤ
  day : ℤ
  time : ℤ

inductive TimeUnit
  | yr | mon | day | hr | min | sec
  deriving DecidableEq

/-- `round(a / b)` of the type numeric, half away from zero. -/
def round (a b : ℤ) : ℤ :=
  if 0 ≤ a then (2 * a + b) / (2 * b) else -((2 * -a + b) / (2 * b))

/-- The microseconds of `extract(epoch from duration)`: a year has 365.25 days, a month 30. -/
def epoch (d : Interval) : ℤ :=
  (d.month.tdiv 12 * 31557600 + d.month.tmod 12 * 2592000 + d.day * 86400) * 1000000 + d.time

/-- `round(extract(epoch from duration))` -/
def seconds (d : Interval) : ℤ :=
  round (epoch d) 1000000

namespace TimeUnit

/-- `'1 year'::interval` and so on -/
def interval : TimeUnit → Interval
  | yr => ⟨12, 0, 0⟩
  | mon => ⟨1, 0, 0⟩
  | day => ⟨0, 1, 0⟩
  | hr => ⟨0, 0, 3600 * 1000000⟩
  | min => ⟨0, 0, 60 * 1000000⟩
  | sec => ⟨0, 0, 1000000⟩

def sec_per (u : TimeUnit) : ℤ := seconds u.interval

def name : TimeUnit → Text
  | yr => "yr".toList
  | mon => "mon".toList
  | day => "day".toList
  | hr => "hr".toList
  | min => "min".toList
  | sec => "sec".toList

def all : List TimeUnit := [yr, mon, day, hr, min, sec]

end TimeUnit

/-- The number and the unit of one block, or nothing where they keep their first values. -/
abbrev Part := Option (ℤ × TimeUnit)

/-- The units of the blocks, before the seconds. -/
def units : List TimeUnit := [.yr, .mon, .day, .hr, .min]

/-- The blocks for the units in turn, and the one for the seconds that are left. -/
def blocks : List TimeUnit → ℤ → List Part
  | [], elapsed => [if 0 < elapsed then some (round elapsed 1, .sec) else none]
  | u :: us, elapsed =>
    if u.sec_per ≤ elapsed then
      let n := round elapsed u.sec_per
      some (n, u) :: blocks us (elapsed - n * u.sec_per)
    else none :: blocks us elapsed

def part_text : Part → Text
  | some (n, u) => signed n ++ (u.name ++ [' '])
  | none => signed 0 ++ [' ']

/-- What is behind the longest match of `' *0 *'` here. -/
def zero_match (t : Text) : Option Text :=
  match t.dropWhile (· = ' ') with
  | '0' :: rest => some (rest.dropWhile (· = ' '))
  | _ => none

theorem zero_match_length {t rest : Text} (h : zero_match t = some rest) : rest.length < t.length := by
  have hskip := (List.dropWhile_suffix (· = ' ') (l := t)).length_le
  unfold zero_match at h
  split at h
  · rename_i rest' heq
    obtain rfl := Option.some.inj h
    have hrest := (List.dropWhile_suffix (· = ' ') (l := rest')).length_le
    rw [heq, List.length_cons] at hskip
    omega
  · cases h

/-- `regexp_replace(english, ' *0 *', '', 'g')` -/
def remove_zeros : Text → Text
  | [] => []
  | c :: cs =>
    match _h : zero_match (c :: cs) with
    | some rest => remove_zeros rest
    | none => c :: remove_zeros cs
termination_by t => t.length
decreasing_by
  · exact zero_match_length _h
  · exact Nat.lt_succ_self _

/-- `regexp_replace(english, '^( *0)+', '')` -/
def strip_front (t : Text) : Text :=
  match _h : t.dropWhile (· = ' ') with
  | '0' :: rest => strip_front rest
  | _ => t
termination_by t.length
decreasing_by
  have hskip := (List.dropWhile_suffix (· = ' ') (l := t)).length_le
  rw [_h] at hskip
  exact hskip

/-- `regexp_replace(english, '( *0 *)+$', '')` -/
def strip_back (t : Text) : Text :=
  if '0' ∈ t.rtakeWhile (fun c => c = ' ' ∨ c = '0') then t.rdropWhile (fun c => c = ' ' ∨ c = '0') else t

def interval_terse_english (duration : Interval) : Text :=
  let english := (blocks units (seconds duration)).flatMap part_text
  let english := strip_back (strip_front (remove_zeros english))
  if english = [] then "0sec".toList else english

/-! ### Reading it back -/

/-- The number-unit pairs of a text, if it consists of such. -/
def read_pairs (t : Text) : Option (List (ℕ × TimeUnit)) :=
  match _h : t.dropWhile (· = ' ') with
  | [] => some []
  | c :: cs =>
    if c.isDigit then
      let behind := cs.dropWhile Char.isDigit
      (TimeUnit.all.find? fun u => u.name = behind.takeWhile Char.isAlpha).bind fun u =>
        (read_pairs (behind.dropWhile Char.isAlpha)).map
          ((Nat.ofDigitChars 10 (c :: cs.takeWhile Char.isDigit) 0, u) :: ·)
    else none
termination_by t.length
decreasing_by
  have hskip := (List.dropWhile_suffix (· = ' ') (l := t)).length_le
  have hdigits := (List.dropWhile_suffix Char.isDigit (l := cs)).length_le
  have hword := (List.dropWhile_suffix Char.isAlpha (l := cs.dropWhile Char.isDigit)).length_le
  rw [_h, List.length_cons] at hskip
  omega

/-- The text adds up to the interval in whole seconds, and its units come once, the largest first. -/
def TerseRight (d : Interval) : Prop :=
  ∃ pairs, read_pairs (interval_terse_english d) = some pairs ∧
    (pairs.map fun p => (p.1 : ℤ) * p.2.sec_per).sum = seconds d ∧
    pairs.Pairwise fun p q => q.2.sec_per < p.2.sec_per

/-- A number without a zero in it, unless it is zero. -/
def Zeroless (n : ℕ) : Prop :=
  n = 0 ∨ '0' ∉ Nat.toDigits 10 n

/-- Counted out in some units and seconds, no number has a zero in it, and what is left behind a unit
that occurs is less than half of it. -/
def Plain : List ℕ → ℕ → Prop
  | [], n => Zeroless n
  | u :: us, n => Zeroless (n / u) ∧ (u ≤ n → 2 * (n % u) < u) ∧ Plain us (n % u)

/-! ### Numbers without their zeros -/

/-- What is left of a number. -/
def dropped (n : ℕ) : ℕ :=
  Nat.ofDigitChars 10 ((Nat.toDigits 10 n).filter (· ≠ '0')) 0

theorem toDigits_ten {n : ℕ} (h : 10 ≤ n) :
    Nat.toDigits 10 n = Nat.toDigits 10 (n / 10) ++ [Nat.digitChar (n % 10)] := by
  rw [Nat.toDigits_of_base_le (by decide) h]

theorem dropped_of_not_mem {n : ℕ} (h : '0' ∉ Nat.toDigits 10 n) : dropped n = n := by
  have hfilter : (Nat.toDigits 10 n).filter (· ≠ '0') = Nat.toDigits 10 n := by
    rw [List.filter_eq_self]
    intro c hc
    rw [decide_eq_true_eq]
    rintro rfl
    exact h hc
  rw [dropped, hfilter, Nat.ofDigitChars_ten_toDigits]

theorem dropped_step {n : ℕ} (h : 10 ≤ n) :
    dropped n = if n % 10 = 0 then dropped (n / 10) else 10 * dropped (n / 10) + n % 10 := by
  have hzero : (n % 10).digitChar = '0' ↔ n % 10 = 0 := Nat.digitChar_eq_zero
  rw [dropped, toDigits_ten h, List.filter_append]
  split_ifs with hmod
  · rw [List.filter_cons_of_neg (by simpa using hzero.mpr hmod), List.filter_nil, List.append_nil, dropped]
  · rw [List.filter_cons_of_pos (by simpa [hzero] using hmod), List.filter_nil, Nat.ofDigitChars_append,
      Nat.ofDigitChars_cons_digitChar_of_lt_ten (Nat.mod_lt n (by decide)), Nat.ofDigitChars_nil, dropped]

/-- A zero that is dropped costs at least nine. -/
theorem dropped_le (n : ℕ) (h : 0 < n) :
    0 < dropped n ∧ dropped n ≤ n ∧ ('0' ∈ Nat.toDigits 10 n → dropped n + 9 ≤ n) := by
  induction n using Nat.strong_induction_on with
  | _ n ih =>
    by_cases hten : 10 ≤ n
    · obtain ⟨hpos, hle, hmem⟩ := ih (n / 10) (by omega) (by omega)
      have hzero : (n % 10).digitChar = '0' ↔ n % 10 = 0 := Nat.digitChar_eq_zero
      rw [dropped_step hten]
      split_ifs with hmod
      · omega
      · refine ⟨by omega, by omega, fun h0 => ?_⟩
        rw [toDigits_ten hten, List.mem_append, List.mem_singleton, eq_comm, hzero, or_iff_left hmod] at h0
        have := hmem h0
        omega
    · have hdigits : '0' ∉ Nat.toDigits 10 n := by
        rw [Nat.toDigits_of_lt_base (by omega), List.mem_singleton, eq_comm, Nat.digitChar_eq_zero]
        omega
      rw [dropped_of_not_mem hdigits]
      exact ⟨h, le_refl n, fun h0 => absurd h0 hdigits⟩

/-! ### The text without its zeros -/

theorem remove_zeros_match {c : Char} {cs rest : Text} (h : zero_match (c :: cs) = some rest) :
    remove_zeros (c :: cs) = remove_zeros rest := by
  rw [remove_zeros]
  split
  · rename_i rest' h'
    rw [h] at h'
    rw [Option.some.inj h']
  · rename_i h'
    rw [h] at h'
    cases h'

theorem remove_zeros_keep {c : Char} {cs : Text} (h : zero_match (c :: cs) = none) :
    remove_zeros (c :: cs) = c :: remove_zeros cs := by
  rw [remove_zeros]
  split
  · rename_i rest' h'
    rw [h] at h'
    cases h'
  · rfl

@[simp] theorem remove_zeros_nil : remove_zeros [] = [] := by
  rw [remove_zeros]

theorem zero_match_zero (rest : Text) : zero_match ('0' :: rest) = some (rest.dropWhile (· = ' ')) := by
  simp [zero_match]

theorem zero_match_other {c : Char} {cs : Text} (hspace : c ≠ ' ') (hzero : c ≠ '0') : zero_match
    (c :: cs) = none := by
  simp [zero_match, hspace, hzero]

theorem zero_match_space (t : Text) : zero_match (' ' :: t) = zero_match t := by
  simp [zero_match]

/-- No text that goes on here starts with a space. -/
theorem dropWhile_of_head {t : Text} (h : t.head? ≠ some ' ') : t.dropWhile (· = ' ') = t := by
  cases t with
  | nil => rfl
  | cons c cs => exact List.dropWhile_cons_of_neg (by simpa using h)

theorem remove_zeros_zero {t : Text} (h : t.head? ≠ some ' ') : remove_zeros ('0' :: t) = remove_zeros t :=
    by
  rw [remove_zeros_match (zero_match_zero t), dropWhile_of_head h]

theorem remove_zeros_zero_space {t : Text} (h : t.head? ≠ some ' ') :
    remove_zeros ('0' :: ' ' :: t) = remove_zeros t := by
  rw [remove_zeros_match (zero_match_zero _), List.dropWhile_cons_of_pos (by simp), dropWhile_of_head h]

/-- A space in front of a zero goes with it. -/
theorem remove_zeros_space {t : Text} (h : t.head? ≠ some ' ') :
    remove_zeros (' ' :: t) = remove_zeros t ∨ remove_zeros (' ' :: t) = ' ' :: remove_zeros t := by
  cases t with
  | nil => exact .inr (remove_zeros_keep rfl)
  | cons c cs =>
    have hspace := zero_match_space (c :: cs)
    cases hmatch : zero_match (c :: cs) with
    | none => exact .inr (remove_zeros_keep (hspace.trans hmatch))
    | some rest => exact .inl ((remove_zeros_match (hspace.trans hmatch)).trans
      (remove_zeros_match hmatch).symm)

/-- The zeros of a word go, the rest stays. -/
theorem remove_zeros_digits {w t : Text} (hw : ' ' ∉ w) (h : t.head? ≠ some ' ') :
    remove_zeros (w ++ t) = w.filter (· ≠ '0') ++ remove_zeros t := by
  induction w with
  | nil => rfl
  | cons c w ih =>
    obtain ⟨hc, hw⟩ := not_or.mp fun hmem => hw (List.mem_cons.mpr hmem)
    have hhead : (w ++ t).head? ≠ some ' ' := by
      cases w with
      | nil => exact h
      | cons c' w =>
        intro heq
        obtain rfl : c' = ' ' := Option.some.inj heq
        exact hw List.mem_cons_self
    by_cases hzero : c = '0'
    · rw [hzero, List.cons_append, remove_zeros_zero hhead, ih hw, List.filter_cons_of_neg (by simp)]
    · rw [List.cons_append, remove_zeros_keep (zero_match_other (Ne.symm hc) hzero), ih hw,
        List.filter_cons_of_pos (by simpa using hzero), List.cons_append]

theorem remove_zeros_name (u : TimeUnit) (t : Text) : remove_zeros
    (u.name ++ t) = u.name ++ remove_zeros t := by
  have hname : ∀ w : Text, ' ' ∉ w → '0' ∉ w → remove_zeros (w ++ t) = w ++ remove_zeros t := by
    intro w hspace hzero
    induction w with
    | nil => rfl
    | cons c w ih =>
      rw [List.mem_cons, not_or] at hspace hzero
      rw [List.cons_append, remove_zeros_keep (zero_match_other (Ne.symm hspace.1) (Ne.symm hzero.1)),
        ih hspace.2 hzero.2, List.cons_append]
  cases u <;> exact hname _ (by decide) (by decide)

theorem not_mem_remove_zeros (t : Text) : '0' ∉ remove_zeros t := by
  fun_induction remove_zeros t with
  | case1 => exact List.not_mem_nil
  | case2 c cs rest h ih => exact ih
  | case3 c cs h ih =>
    rw [List.mem_cons, not_or]
    refine ⟨?_, ih⟩
    rintro rfl
    rw [zero_match_zero] at h
    cases h

/-- Nothing is left for the other two replacements. -/
theorem strip_of_not_mem {t : Text} (h : '0' ∉ t) : strip_back (strip_front t) = t := by
  have hfront : strip_front t = t := by
    rw [strip_front]
    split
    · rename_i rest heq
      have hmem : '0' ∈ t.dropWhile (· = ' ') := heq ▸ List.mem_cons_self
      exact absurd ((List.dropWhile_suffix _).subset hmem) h
    · rfl
  rw [hfront, strip_back, if_neg fun hmem => h ((List.rtakeWhile_suffix _ t).subset hmem)]

/-! ### Reading the text back -/

theorem read_pairs_space (t : Text) : read_pairs (' ' :: t) = read_pairs t := by
  have hskip : (' ' :: t).dropWhile (· = ' ') = t.dropWhile (· = ' ') := List.dropWhile_cons_of_pos
    (by simp)
  rw [read_pairs, read_pairs, hskip]

@[simp] theorem read_pairs_nil : read_pairs [] = some [] := by
  rw [read_pairs]
  rfl

theorem isAlpha_of_mem_name (u : TimeUnit) : ∀ c ∈ u.name, c.isAlpha := by
  cases u <;> decide

/-- A word ends where the text goes on with something else. -/
theorem takeWhile_word {p : Char → Bool} {w t : Text} (hw : ∀ c ∈ w, p c) (ht : ∀ c ∈ t.head?, ¬ p c) :
    (w ++ t).takeWhile p = w ∧ (w ++ t).dropWhile p = t := by
  rw [List.takeWhile_append_of_pos hw, List.dropWhile_append_of_pos hw]
  cases t with
  | nil => exact ⟨List.append_nil w, rfl⟩
  | cons c t =>
    have hc : ¬ p c := ht c rfl
    rw [List.takeWhile_cons_of_neg hc, List.dropWhile_cons_of_neg hc, List.append_nil]
    exact ⟨rfl, rfl⟩

theorem find_name (u : TimeUnit) : (TimeUnit.all.find? fun v => v.name = u.name) = some u := by
  cases u <;> decide

/-- A number and a unit, behind which no word goes on. -/
theorem read_pairs_pair {w t : Text} (u : TimeUnit) (hne : w ≠ []) (hw : ∀ c ∈ w, c.isDigit)
    (ht : ∀ c ∈ t.head?, ¬ c.isAlpha) :
    read_pairs (w ++ (u.name ++ t)) = (read_pairs t).map ((Nat.ofDigitChars 10 w 0, u) :: ·) := by
  obtain ⟨c, ds, rfl⟩ := List.exists_cons_of_ne_nil hne
  rw [List.forall_mem_cons] at hw
  have hspace : c ≠ ' ' := by
    rintro rfl
    exact absurd hw.1 (by decide)
  have hname : ∀ d ∈ (u.name ++ t).head?, ¬ d.isDigit := by
    cases u <;> simp [TimeUnit.name]
  obtain ⟨htake, hdrop⟩ := takeWhile_word hw.2 hname
  obtain ⟨hword, hrest⟩ := takeWhile_word (isAlpha_of_mem_name u) ht
  have hskip : (c :: ds ++ (u.name ++ t)).dropWhile (· = ' ') = c :: (ds ++ (u.name ++ t)) :=
    List.dropWhile_cons_of_neg (by simpa using hspace)
  rw [read_pairs]
  split
  · rename_i heq
    rw [hskip] at heq
    cases heq
  · rename_i c' cs heq
    rw [hskip] at heq
    obtain ⟨rfl, rfl⟩ := List.cons.inj heq
    rw [if_pos hw.1]
    simp only [htake, hdrop, hword, hrest, find_name, Option.bind_some]

/-! ### The parts of the text -/

def Part.Counted (p : Part) : Prop :=
  ∀ q ∈ p, 0 < q.1

/-- The pair that is read for a part. -/
def Part.pair (p : Part) : Option (ℕ × TimeUnit) :=
  p.map fun q => (dropped q.1.toNat, q.2)

variable {p : Part} {ps : List Part}

theorem signed_of_pos {n : ℤ} (h : 0 < n) : signed n = Nat.toDigits 10 n.toNat := by
  obtain ⟨k, rfl⟩ := Int.eq_ofNat_of_zero_le h.le
  rfl

theorem isDigit_of_mem_signed {n : ℤ} (h : 0 < n) : ∀ c ∈ signed n, c.isDigit := by
  rw [signed_of_pos h]
  exact fun c => isDigit_of_mem_decimal

/-- The digits that are left of a number. -/
theorem digits_left {n : ℤ} (h : 0 < n) : (signed n).filter (· ≠ '0') ≠ [] := by
  have hpos := (dropped_le n.toNat (by omega)).1
  rw [signed_of_pos h]
  intro hnil
  rw [dropped, hnil, Nat.ofDigitChars_nil] at hpos
  exact absurd hpos (lt_irrefl 0)

theorem head_digits {w : Text} (hw : ∀ c ∈ w, c.isDigit) (hne : w ≠ []) (t : Text) :
    ∀ c ∈ (w ++ t).head?, c.isDigit := by
  obtain ⟨c, w, rfl⟩ := List.exists_cons_of_ne_nil hne
  rintro c' hc'
  obtain rfl : c = c' := Option.some.inj hc'
  exact hw c List.mem_cons_self

theorem not_space_of_digit {t : Text} (h : ∀ c ∈ t.head?, c.isDigit) : t.head? ≠ some ' ' :=
  fun hhead => absurd (h ' ' hhead) (by decide)

/-- Every part starts with a digit. -/
theorem head_parts (hps : ∀ p ∈ ps, p.Counted) : ∀ c ∈ (ps.flatMap part_text).head?, c.isDigit := by
  cases ps with
  | nil => simp
  | cons p ps =>
    rw [List.flatMap_cons]
    cases p with
    | none => exact head_digits (w := ['0']) (by decide) (by decide) _
    | some q =>
      have hq : 0 < q.1 := hps _ List.mem_cons_self q rfl
      have hne : signed q.1 ≠ [] := fun hnil => digits_left hq (by rw [hnil]; rfl)
      rw [part_text, List.append_assoc]
      exact head_digits (isDigit_of_mem_signed hq) hne _

theorem remove_zeros_none {t : Text} (h : t.head? ≠ some ' ') :
    remove_zeros (part_text none ++ t) = remove_zeros t :=
  remove_zeros_zero_space h

theorem remove_zeros_some {n : ℤ} (h : 0 < n) (u : TimeUnit) (t : Text) :
    remove_zeros (part_text (some (n, u)) ++ t) =
      (signed n).filter (· ≠ '0') ++ (u.name ++ remove_zeros (' ' :: t)) := by
  have hspace : ' ' ∉ signed n := fun hmem => absurd (isDigit_of_mem_signed h ' ' hmem) (by decide)
  have hname : (u.name ++ ' ' :: t).head? ≠ some ' ' := by
    cases u <;> simp [TimeUnit.name]
  have htext : part_text (some (n, u)) ++ t = signed n ++ (u.name ++ ' ' :: t) := by
    simp [part_text]
  rw [htext, remove_zeros_digits hspace hname, remove_zeros_name]

/-- What is left of the parts starts with a digit. -/
theorem head_remove_zeros (hps : ∀ p ∈ ps, p.Counted) :
    ∀ c ∈ (remove_zeros (ps.flatMap part_text)).head?, c.isDigit := by
  induction ps with
  | nil => simp
  | cons p ps ih =>
    rw [List.forall_mem_cons] at hps
    rw [List.flatMap_cons]
    cases p with
    | none =>
      rw [remove_zeros_none (not_space_of_digit (head_parts hps.2))]
      exact ih hps.2
    | some q =>
      have hq : 0 < q.1 := hps.1 q rfl
      rw [remove_zeros_some hq]
      exact head_digits (fun c hc => isDigit_of_mem_signed hq c (List.mem_of_mem_filter hc))
        (digits_left hq) _

theorem read_parts (hps : ∀ p ∈ ps, p.Counted) :
    read_pairs (remove_zeros (ps.flatMap part_text)) = some (ps.filterMap Part.pair) := by
  induction ps with
  | nil => simp
  | cons p ps ih =>
    rw [List.forall_mem_cons] at hps
    have hhead := head_parts hps.2
    rw [List.flatMap_cons]
    cases p with
    | none =>
      rw [remove_zeros_none (not_space_of_digit hhead), ih hps.2]
      rfl
    | some q =>
      obtain ⟨n, u⟩ := q
      have hn : 0 < n := hps.1 _ rfl
      have hleft := head_remove_zeros hps.2
      have hrest : (∀ c ∈ (remove_zeros (' ' :: ps.flatMap part_text)).head?, ¬ c.isAlpha) ∧
          read_pairs (remove_zeros (' ' :: ps.flatMap part_text)) = some (ps.filterMap Part.pair) := by
        rcases remove_zeros_space (not_space_of_digit hhead) with heq | heq
        · rw [heq]
          exact ⟨fun c hc => not_isAlpha_of_isDigit (hleft c hc), ih hps.2⟩
        · rw [heq, read_pairs_space]
          refine ⟨fun c hc => ?_, ih hps.2⟩
          obtain rfl : ' ' = c := Option.some.inj hc
          decide
      rw [remove_zeros_some hn, read_pairs_pair u (digits_left hn)
        (fun c hc => isDigit_of_mem_signed hn c (List.mem_of_mem_filter hc)) hrest.1, hrest.2,
          signed_of_pos hn]
      rfl

/-! ### What the numbers add up to -/

namespace TimeUnit

def size (u : TimeUnit) : ℕ := u.sec_per.toNat

theorem size_pos (u : TimeUnit) : 0 < u.size := by
  cases u <;> decide

theorem sec_per_eq (u : TimeUnit) : u.sec_per = u.size := by
  cases u <;> decide

end TimeUnit

theorem round_eq {a b : ℕ} (hb : 0 < b) : round a b = ((if 2 *
    (a % b) < b then a / b else a / b + 1 : ℕ) : ℤ) := by
  have hmod := Nat.mod_lt a hb
  have hdiv := Nat.div_add_mod a b
  rw [round, if_pos (Int.natCast_nonneg a)]
  norm_cast
  split_ifs with hlow
  · refine Nat.div_eq_of_lt_le ?_ ?_
    · calc a / b * (2 * b) = 2 * (b * (a / b)) := by ring
        _ ≤ 2 * a + b := by omega
    · calc 2 * a + b < 2 * (b * (a / b)) + 2 * b := by omega
        _ = (a / b + 1) * (2 * b) := by ring
  · refine Nat.div_eq_of_lt_le ?_ ?_
    · calc (a / b + 1) * (2 * b) = 2 * (b * (a / b)) + 2 * b := by ring
        _ ≤ 2 * a + b := by omega
    · calc 2 * a + b < 2 * (b * (a / b)) + 4 * b := by omega
        _ = (a / b + 1 + 1) * (2 * b) := by ring

theorem round_one (n : ℕ) : round n 1 = n := by
  have h := round_eq (a := n) Nat.one_pos
  simpa [Nat.mod_one] using h

/-- The seconds of the pairs that are read. -/
def total (ps : List Part) : ℕ :=
  ((ps.filterMap Part.pair).map fun q => q.1 * q.2.size).sum

theorem total_none (ps : List Part) : total (none :: ps) = total ps := rfl

theorem total_some (n : ℕ) (u : TimeUnit) (ps : List Part) :
    total (some ((n : ℤ), u) :: ps) = dropped n * u.size + total ps := by
  change (((dropped n, u) :: ps.filterMap Part.pair).map fun q => q.1 * q.2.size).sum = _
  rw [List.map_cons, List.sum_cons, total]

theorem total_of_nonpos {e : ℤ} (us : List TimeUnit) (h : e ≤ 0) : total (blocks us e) = 0 := by
  induction us with
  | nil => rw [blocks, if_neg (not_lt.mpr h)]; rfl
  | cons u us ih =>
    have hpos := u.size_pos
    have hsize := u.sec_per_eq
    rw [blocks, if_neg (by omega), total_none, ih]

theorem total_seconds {n : ℕ} (h : 0 < n) : total (blocks [] n) = dropped n := by
  have hsec : TimeUnit.size .sec = 1 := by decide
  rw [blocks, if_pos (by exact_mod_cast h), round_one, total_some, hsec, Nat.mul_one]
  rfl

/-- A unit that is not rounded up leaves the remainder to the others. -/
theorem total_down {n : ℕ} {u : TimeUnit} {us : List TimeUnit} (h : u.size ≤ n) (hlow : 2 *
    (n % u.size) < u.size) :
    total (blocks (u :: us) n) = dropped (n / u.size) * u.size + total (blocks us
      ((n % u.size : ℕ) : ℤ)) := by
  have hrest : (n : ℤ) - ((n / u.size : ℕ) : ℤ) * u.size = ((n % u.size : ℕ) : ℤ) := by
    have hdiv : ((n / u.size : ℕ) : ℤ) * u.size + ((n % u.size : ℕ) : ℤ) = n := by
      exact_mod_cast Nat.div_add_mod' n u.size
    linarith
  rw [blocks, u.sec_per_eq, if_pos (by exact_mod_cast h)]
  dsimp only
  rw [round_eq u.size_pos, if_pos hlow, total_some, hrest]

/-- One that is rounded up leaves nothing. -/
theorem total_up {n : ℕ} {u : TimeUnit} {us : List TimeUnit} (h : u.size ≤ n) (hlow : ¬ 2 *
    (n % u.size) < u.size) :
    total (blocks (u :: us) n) = dropped (n / u.size + 1) * u.size := by
  have hrest : (n : ℤ) - ((n / u.size + 1 : ℕ) : ℤ) * u.size ≤ 0 := by
    have hlt : (n : ℤ) < ((n / u.size : ℕ) : ℤ) * u.size + u.size := by
      exact_mod_cast Nat.lt_div_mul_add u.size_pos
    rw [Nat.cast_add, Nat.cast_one, add_mul, one_mul]
    linarith
  rw [blocks, u.sec_per_eq, if_pos (by exact_mod_cast h)]
  dsimp only
  rw [round_eq u.size_pos, if_neg hlow, total_some, total_of_nonpos us hrest, Nat.add_zero]

theorem total_skip {n : ℕ} {u : TimeUnit} {us : List TimeUnit} (h : n < u.size) :
    total (blocks (u :: us) n) = total (blocks us n) := by
  rw [blocks, u.sec_per_eq, if_neg (by exact_mod_cast not_le.mpr h), total_none]

theorem total_le (us : List TimeUnit) (n : ℕ) : total (blocks us n) ≤ 2 * n := by
  induction us generalizing n with
  | nil =>
    rcases Nat.eq_zero_or_pos n with rfl | hpos
    · exact (total_of_nonpos [] le_rfl).le
    · have hle := (dropped_le n hpos).2.1
      rw [total_seconds hpos]
      omega
  | cons u us ih =>
    by_cases h : u.size ≤ n
    · have hdiv := Nat.div_add_mod' n u.size
      by_cases hlow : 2 * (n % u.size) < u.size
      · have hk := (dropped_le (n / u.size) (Nat.div_pos h u.size_pos)).2.1
        have hmul := Nat.mul_le_mul_right u.size hk
        have hrest := ih (n % u.size)
        rw [total_down h hlow]
        omega
      · have hk := (dropped_le (n / u.size + 1) (Nat.succ_pos _)).2.1
        have hmul := Nat.mul_le_mul_right u.size hk
        rw [Nat.add_mul, Nat.one_mul] at hmul
        rw [total_up h hlow]
        omega
    · rw [total_skip (Nat.lt_of_not_le h)]
      exact ih n

theorem dropped_eq_iff {n : ℕ} : dropped n = n ↔ Zeroless n := by
  rcases Nat.eq_zero_or_pos n with rfl | hpos
  · exact iff_of_true (by decide) (.inl rfl)
  · constructor
    · intro h
      refine .inr fun hmem => ?_
      have := (dropped_le n hpos).2.2 hmem
      omega
    · rintro (rfl | hno)
      · exact absurd hpos (lt_irrefl 0)
      · exact dropped_of_not_mem hno

/-- A number that loses a zero loses nine at least. -/
theorem dropped_of_not_zeroless {n : ℕ} (h : ¬ Zeroless n) : dropped n + 9 ≤ n := by
  obtain ⟨hne, hmem⟩ := not_or.mp h
  exact (dropped_le n (Nat.pos_of_ne_zero hne)).2.2 (not_not.mp hmem)

/-- Neither what is lost nor what is gained by rounding is made up for by the other. -/
theorem total_eq_iff (us : List TimeUnit) (n : ℕ) : total (blocks us n) = n ↔ Plain
    (us.map TimeUnit.size) n := by
  induction us generalizing n with
  | nil =>
    rw [List.map_nil, Plain, ← dropped_eq_iff]
    rcases Nat.eq_zero_or_pos n with rfl | hpos
    · exact iff_of_true (total_of_nonpos [] le_rfl) (by decide)
    · rw [total_seconds hpos]
  | cons u us ih =>
    rw [List.map_cons, Plain]
    by_cases h : u.size ≤ n
    · have hdiv := Nat.div_add_mod' n u.size
      have hmod := Nat.mod_lt n u.size_pos
      by_cases hlow : 2 * (n % u.size) < u.size
      · rw [total_down h hlow]
        by_cases hz : Zeroless (n / u.size)
        · rw [dropped_eq_iff.mpr hz, and_iff_right hz, and_iff_right fun _ => hlow, ← ih]
          omega
        · have hmul := Nat.mul_le_mul_right u.size (dropped_of_not_zeroless hz)
          have hrest := total_le us (n % u.size)
          rw [Nat.add_mul] at hmul
          refine iff_of_false (by omega) fun hplain => hz hplain.1
      · refine iff_of_false ?_ fun hplain => hlow (hplain.2.1 h)
        rw [total_up h hlow]
        by_cases hz : Zeroless (n / u.size + 1)
        · rw [dropped_eq_iff.mpr hz, Nat.add_mul, Nat.one_mul]
          omega
        · have hmul := Nat.mul_le_mul_right u.size (dropped_of_not_zeroless hz)
          rw [Nat.add_mul, Nat.add_mul] at hmul
          omega
    · have hlt := Nat.lt_of_not_le h
      rw [total_skip hlt, Nat.div_eq_of_lt hlt, Nat.mod_eq_of_lt hlt, ih]
      exact ⟨fun hplain => ⟨.inl rfl, fun hle => absurd hle h, hplain⟩, fun hplain => hplain.2.2⟩

/-! ### The text of an interval -/

theorem counted_blocks (us : List TimeUnit) (e : ℤ) : ∀ p ∈ blocks us e, p.Counted := by
  have hround : ∀ (u : TimeUnit) (e : ℤ), u.sec_per ≤ e → 0 < round e u.sec_per := by
    intro u e he
    have hpos := u.size_pos
    rw [u.sec_per_eq] at he ⊢
    obtain ⟨n, rfl⟩ := Int.eq_ofNat_of_zero_le (by omega : 0 ≤ e)
    have hdiv : 0 < n / u.size := Nat.div_pos (by exact_mod_cast he) hpos
    rw [round_eq hpos]
    split_ifs <;> omega
  induction us generalizing e with
  | nil =>
    rw [blocks]
    split_ifs with he
    · rintro p hp q hq
      rw [List.mem_singleton] at hp
      obtain rfl := Option.some.inj (hp.symm.trans hq)
      exact hround .sec e he
    · rintro p hp q hq
      rw [List.mem_singleton.mp hp] at hq
      cases hq
  | cons u us ih =>
    rw [blocks]
    split_ifs with he
    · refine List.forall_mem_cons.mpr ⟨fun q hq => ?_, ih _⟩
      obtain rfl := Option.some.inj hq
      exact hround u e he
    · refine List.forall_mem_cons.mpr ⟨fun q hq => ?_, ih _⟩
      cases hq

/-- The units that are named are some of those that were tried, in their order. -/
theorem named_sublist (us : List TimeUnit) (e : ℤ) :
    (((blocks us e).filterMap Part.pair).map Prod.snd).Sublist (us ++ [.sec]) := by
  induction us generalizing e with
  | nil =>
    rw [blocks]
    split_ifs
    · exact List.Sublist.refl _
    · exact List.nil_sublist _
  | cons u us ih =>
    rw [blocks]
    split_ifs
    · exact (ih _).cons_cons u
    · exact (ih _).cons u

theorem decreasing_blocks (e : ℤ) :
    ((blocks units e).filterMap Part.pair).Pairwise fun p q => q.2.sec_per < p.2.sec_per := by
  have hunits : (units ++ [TimeUnit.sec]).Pairwise fun u v : TimeUnit => v.sec_per < u.sec_per := by decide
  exact List.pairwise_map.mp (hunits.sublist (named_sublist units e))

theorem read_zero : read_pairs "0sec".toList = some [(0, TimeUnit.sec)] := by decide +kernel

/-- The pairs that are read are those of the blocks, or none. -/
theorem read_interval (d : Interval) :
    ∃ pairs, read_pairs (interval_terse_english d) = some pairs ∧
      (pairs.map fun p => (p.1 : ℤ) * p.2.sec_per).sum = total (blocks units (seconds d)) ∧
      pairs.Pairwise fun p q => q.2.sec_per < p.2.sec_per := by
  have hread := read_parts (counted_blocks units (seconds d))
  have hstrip := strip_of_not_mem (not_mem_remove_zeros ((blocks units (seconds d)).flatMap part_text))
  have htext : interval_terse_english d =
      if remove_zeros ((blocks units (seconds d)).flatMap part_text) = [] then "0sec".toList
      else remove_zeros ((blocks units (seconds d)).flatMap part_text) := by
    unfold interval_terse_english
    dsimp only
    rw [hstrip]
  have hsum : ∀ pairs : List (ℕ × TimeUnit), (pairs.map fun p => (p.1 : ℤ) * p.2.sec_per).sum =
      ((pairs.map fun p => p.1 * p.2.size).sum : ℕ) := by
    intro pairs
    induction pairs with
    | nil => rfl
    | cons p pairs ih =>
      rw [List.map_cons, List.sum_cons, ih, List.map_cons, List.sum_cons, p.2.sec_per_eq]
      norm_cast
  rw [htext]
  split_ifs with hnil
  · rw [hnil, read_pairs_nil] at hread
    refine ⟨[(0, .sec)], read_zero, ?_, List.pairwise_singleton _ _⟩
    rw [hsum, total, ← Option.some.inj hread]
    rfl
  · exact ⟨_, hread, hsum _, decreasing_blocks _⟩

/-- Exactly then the text adds up. -/
theorem terse_right_iff (d : Interval) :
    TerseRight d ↔ 0 ≤ seconds d ∧ Plain [31557600, 2592000, 86400, 3600, 60] (seconds d).toNat := by
  have hsizes : units.map TimeUnit.size = [31557600, 2592000, 86400, 3600, 60] := by decide
  obtain ⟨pairs, hread, hsum, hdecr⟩ := read_interval d
  have hright : TerseRight d ↔ (total (blocks units (seconds d)) : ℤ) = seconds d := by
    constructor
    · rintro ⟨pairs', hread', hsum', -⟩
      rw [hread] at hread'
      rw [← hsum, Option.some.inj hread', hsum']
    · exact fun heq => ⟨pairs, hread, hsum.trans heq, hdecr⟩
  rw [hright, ← hsizes]
  rcases lt_or_ge (seconds d) 0 with hneg | hpos
  · refine iff_of_false ?_ fun h => ?_
    · omega
    · omega
  · obtain ⟨n, hn⟩ := Int.eq_ofNat_of_zero_le hpos
    rw [and_iff_right hpos, hn, Int.toNat_natCast, ← total_eq_iff]
    exact_mod_cast Iff.rfl

/-- Of ten seconds one is left. -/
theorem ten_seconds : interval_terse_english ⟨0, 0, 10 * 1000000⟩ = "1sec ".toList ∧
    ¬ TerseRight ⟨0, 0, 10 * 1000000⟩ := by
  have htext : interval_terse_english ⟨0, 0, 10 * 1000000⟩ = "1sec ".toList := by decide +kernel
  refine ⟨htext, ?_⟩
  rintro ⟨pairs, hread, hsum, -⟩
  have hone : read_pairs "1sec ".toList = some [(1, TimeUnit.sec)] := by decide +kernel
  rw [htext, hone] at hread
  obtain rfl := Option.some.inj hread
  revert hsum
  decide

end Blobio.TerseIntervals
