import Blobio.CivilDates

/-! What Go's `time` and `strconv` make of a text, as their documentation has it. A byte
of a string is the character of its code. -/
namespace GoTexts
open CivilDates

/-- The number that some digits write. -/
def decimal (f : List Char) : ℕ :=
  Nat.ofDigitChars 10 f 0

theorem digit_le {c : Char} (hc : c.isDigit) : c.toNat - '0'.toNat ≤ 9 := by
  simp only [Char.isDigit, Bool.and_eq_true, decide_eq_true_eq, UInt32.le_iff_toNat_le] at hc
  have hnine : '9'.val.toNat = 57 := rfl
  have hzero : '0'.toNat = 48 := rfl
  simp only [Char.toNat] at *
  omega

theorem decimal_cons (c : Char) (f : List Char) :
    decimal (c :: f) = 10 ^ f.length * (c.toNat - '0'.toNat) + decimal f := by
  rw [decimal, Nat.ofDigitChars_cons, Nat.ofDigitChars_eq_ofDigitChars_zero, Nat.mul_zero, Nat.zero_add]
  rfl

theorem decimal_lt {f : List Char} (hf : ∀ c ∈ f, c.isDigit) : decimal f < 10 ^ f.length := by
  induction f with
  | nil => decide
  | cons c f ih =>
    rw [List.forall_mem_cons] at hf
    have hc := Nat.mul_le_mul_left (10 ^ f.length) (digit_le hf.1)
    have hlt := ih hf.2
    rw [decimal_cons, List.length_cons, Nat.pow_succ]
    omega

/-- A number of at most 64 bits in base 10; there is no sign and no underscore in it. -/
def parse_uint (s : List Char) : Option ℕ :=
  if s ≠ [] ∧ s.all Char.isDigit ∧ decimal s < 2 ^ 64 then some (decimal s) else none

theorem parse_uint_isSome {s : List Char} :
    (parse_uint s).isSome ↔ s ≠ [] ∧ (∀ c ∈ s, c.isDigit) ∧ decimal s < 2 ^ 64 := by
  simp only [parse_uint, Option.isSome_ite, List.all_eq_true]

/-! ### Durations -/

/-- The units with their nanoseconds; the micro sign and the Greek letter are two bytes. -/
def unit_map : List (List Char × ℕ) :=
  [("ns".toList, 1), ("us".toList, 1000), (['\xc2', '\xb5', 's'], 1000), (['\xce', '\xbc', 's'], 1000),
    ("ms".toList, 1000000), ("s".toList, 1000000000), ("m".toList, 60000000000),
    ("h".toList, 3600000000000)]

/-- A decimal number that may have a fraction, and its unit; the nanoseconds are truncated. -/
def duration_term (s : List Char) : Option (ℕ × List Char) :=
  let whole := s.takeWhile Char.isDigit
  let s := s.dropWhile Char.isDigit
  let fraction := if s.head? = some '.' then s.tail.takeWhile Char.isDigit else []
  let s := if s.head? = some '.' then s.tail.dropWhile Char.isDigit else s
  if whole = [] ∧ fraction = [] then none
  else
    (unit_map.lookup (s.takeWhile fun c => c ≠ '.' && !c.isDigit)).map fun unit =>
      (decimal whole * unit + decimal fraction * unit / 10 ^ fraction.length,
        s.dropWhile fun c => c ≠ '.' && !c.isDigit)

/-- The sum of the terms of a text, each of which has a character at least. -/
def duration_terms : ℕ → List Char → Option ℕ
  | _, [] => some 0
  | 0, _ :: _ => none
  | n + 1, c :: s => do
    let (d, rest) ← duration_term (c :: s)
    let ds ← duration_terms n rest
    some (d + ds)

/-- A possibly signed sequence of terms that fits into a signed word of 64 bits. -/
def parse_duration (s : List Char) : Option ℤ :=
  let neg := s.head? = some '-'
  let s := if s.head? = some '-' ∨ s.head? = some '+' then s.tail else s
  if s = ['0'] then some 0
  else if s = [] then none
  else (duration_terms s.length s).bind fun d =>
    if neg then if d ≤ 2 ^ 63 then some (-d) else none
    else if d < 2 ^ 63 then some d else none

section digits
variable {f r : List Char}

theorem takeWhile_digits (hf : ∀ c ∈ f, c.isDigit) (hr : r.head?.any Char.isDigit = false) :
    (f ++ r).takeWhile Char.isDigit = f := by
  rw [List.takeWhile_append_of_pos hf]
  cases r with
  | nil => simp
  | cons c r =>
    have hc : c.isDigit = false := by simpa using hr
    simp [hc]

theorem dropWhile_digits (hf : ∀ c ∈ f, c.isDigit) (hr : r.head?.any Char.isDigit = false) :
    (f ++ r).dropWhile Char.isDigit = r := by
  rw [List.dropWhile_append_of_pos hf]
  cases r with
  | nil => simp
  | cons c r =>
    have hc : c.isDigit = false := by simpa using hr
    simp [hc]

end digits

section seconds
variable {sec ns s : List Char}

theorem duration_term_seconds (hsec : ∀ c ∈ sec, c.isDigit) (hns : ∀ c ∈ ns, c.isDigit) (hne : sec ≠ []) :
    duration_term (sec ++ '.' :: (ns ++ ['s'])) =
      some (decimal sec * 1000000000 + decimal ns * 1000000000 / 10 ^ ns.length, []) := by
  have hdot : ('.' :: (ns ++ ['s'])).head?.any Char.isDigit = false := rfl
  have hs : ['s'].head?.any Char.isDigit = false := rfl
  simp only [duration_term, takeWhile_digits hsec hdot, dropWhile_digits hsec hdot, List.head?_cons,
    if_pos, List.tail_cons, takeWhile_digits hns hs, dropWhile_digits hns hs]
  rw [if_neg fun h => hne h.1]
  rfl

theorem duration_terms_single {c : Char} {s : List Char} {d : ℕ}
    (h : duration_term (c :: s) = some (d, [])) (n : ℕ) : duration_terms (n + 1) (c :: s) = some d := by
  have hnil : duration_terms n [] = some 0 := by
    cases n <;> rfl
  simp [duration_terms, h, hnil]

/-- Seconds with a fraction are a duration as long as it fits. -/
theorem parse_duration_seconds (hsec : ∀ c ∈ sec, c.isDigit) (hns : ∀ c ∈ ns, c.isDigit)
    (hne : sec ≠ []) :
    (parse_duration (sec ++ '.' :: (ns ++ ['s']))).isSome ↔
      decimal sec * 1000000000 + decimal ns * 1000000000 / 10 ^ ns.length < 2 ^ 63 := by
  obtain ⟨c, cs, rfl⟩ := List.exists_cons_of_ne_nil hne
  have hc : c.isDigit := hsec c List.mem_cons_self
  have hminus : c ≠ '-' := by
    rintro rfl
    cases hc
  have hplus : c ≠ '+' := by
    rintro rfl
    cases hc
  have hterms : ∀ n, duration_terms (n + 1) (c :: (cs ++ '.' :: (ns ++ ['s']))) = some
      (decimal (c :: cs) * 1000000000 + decimal ns * 1000000000 / 10 ^ ns.length) :=
    duration_terms_single (duration_term_seconds hsec hns hne)
  generalize decimal (c :: cs) * 1000000000 + decimal ns * 1000000000 / 10 ^ ns.length = d at hterms ⊢
  have hparse : parse_duration (c :: (cs ++ '.' :: (ns ++ ['s']))) =
      if d < 2 ^ 63 then some (d : ℤ) else none := by
    simp only [parse_duration, List.head?_cons, Option.some.injEq, hminus, hplus, or_self, if_false]
    rw [if_neg (by simp), if_neg (by simp), List.length_cons, hterms, Option.bind_some]
  rw [List.cons_append, hparse]
  split
  · exact iff_of_true rfl ‹_›
  · exact iff_of_false Bool.false_ne_true ‹_›

/-- Behind a number there has to be a unit. -/
theorem parse_duration_broken (hsec : ∀ c ∈ sec, c.isDigit) (hne : sec ≠ []) (hns : ∀ c ∈ ns, c.isDigit)
    (hs : s.head?.any Char.isDigit = false)
    (hunit : unit_map.lookup (s.takeWhile fun c => c ≠ '.' && !c.isDigit) = none) :
    parse_duration (sec ++ '.' :: (ns ++ s)) = none := by
  obtain ⟨c, cs, rfl⟩ := List.exists_cons_of_ne_nil hne
  have hc : c.isDigit := hsec c List.mem_cons_self
  have hminus : c ≠ '-' := by
    rintro rfl
    cases hc
  have hplus : c ≠ '+' := by
    rintro rfl
    cases hc
  have hdot : ('.' :: (ns ++ s)).head?.any Char.isDigit = false := rfl
  have hterm : duration_term (c :: cs ++ '.' :: (ns ++ s)) = none := by
    simp only [duration_term, takeWhile_digits hsec hdot, dropWhile_digits hsec hdot, List.head?_cons,
      if_pos, List.tail_cons, takeWhile_digits hns hs, dropWhile_digits hns hs, hunit]
    rw [if_neg fun h => hne h.1]
    rfl
  have hterms : ∀ n, duration_terms (n + 1) (c :: (cs ++ '.' :: (ns ++ s))) = none := by
    intro n
    rw [List.cons_append] at hterm
    rw [duration_terms, hterm]
    rfl
  simp only [List.cons_append, parse_duration, List.head?_cons, Option.some.injEq, hminus, hplus, or_self,
    if_false]
  rw [if_neg (by simp), if_neg (by simp), List.length_cons, hterms, Option.bind_none]

end seconds

/-! ### Times of the layout `2006-01-02T15:04:05.999999999Z07:00` -/

/-- A character of the layout that stands for itself. -/
def skip (c : Char) : List Char → Option (List Char)
  | [] => none
  | d :: s => if d = c then some s else none

/-- One digit or two, or two only. -/
def getnum (fixed : Bool) : List Char → Option (ℕ × List Char)
  | [] => none
  | [c] => if c.isDigit && !fixed then some (decimal [c], []) else none
  | c :: d :: s =>
    if !c.isDigit then none
    else if d.isDigit then some (decimal [c, d], s)
    else if fixed then none
    else some (decimal [c], d :: s)

def long_year (value : List Char) : Option (ℕ × List Char) :=
  if (value.take 4).length = 4 ∧ (value.take 4).all Char.isDigit then
    some (decimal (value.take 4), value.drop 4)
  else none

/-- A fraction of any length, behind a period or a comma, or none. -/
def skip_fraction (value : List Char) : List Char :=
  if (value.head? = some '.' ∨ value.head? = some ',') ∧ value.tail.head?.any Char.isDigit then
    value.tail.dropWhile Char.isDigit
  else value

/-- The zone, with which the text ends. -/
def time_zone (zone_ok : ℕ → ℕ → Bool) : List Char → Bool
  | ['Z'] => true
  | [sign, h, h', c, m, m'] =>
    (sign = '+' || sign = '-') && c = ':' && [h, h', m, m'].all Char.isDigit &&
      zone_ok (decimal [h, h']) (decimal [m, m'])
  | _ => false

/-- Whether the text is a time. Which offsets a zone may have is not documented, and left to
`zone_ok`. -/
def time_parse (zone_ok : ℕ → ℕ → Bool) (value : List Char) : Bool :=
  (do
    let (year, value) ← long_year value
    let value ← skip '-' value
    let (month, value) ← getnum true value
    let value ← skip '-' value
    let (day, value) ← getnum true value
    let value ← skip 'T' value
    let (hour, value) ← getnum false value
    let value ← skip ':' value
    let (min, value) ← getnum true value
    let value ← skip ':' value
    let (sec, value) ← getnum true value
    some (1 ≤ month && month ≤ 12 && 1 ≤ day && day ≤ days_in month year && hour < 24 && min < 60 &&
      sec < 60 && time_zone zone_ok (skip_fraction value))).getD false

theorem getnum_pair {c d : Char} (hc : c.isDigit) (hd : d.isDigit) (fixed : Bool) (s : List Char) :
    getnum fixed (c :: d :: s) = some (decimal [c, d], s) := by
  simp [getnum, hc, hd]

theorem long_year_digits {a b c d : Char} (h : ∀ x ∈ [a, b, c, d], x.isDigit) (s : List Char) :
    long_year (a :: b :: c :: d :: s) = some (decimal [a, b, c, d], s) := by
  rw [long_year, if_pos]
  · rfl
  · exact ⟨rfl, List.all_eq_true.mpr h⟩

theorem skip_fraction_digits {f r : List Char} (hf : ∀ c ∈ f, c.isDigit) (hne : f ≠ [])
    (hr : r.head?.any Char.isDigit = false) : skip_fraction ('.' :: (f ++ r)) = r := by
  obtain ⟨c, cs, rfl⟩ := List.exists_cons_of_ne_nil hne
  have hc : c.isDigit := hf c List.mem_cons_self
  rw [skip_fraction, if_pos, List.tail_cons, dropWhile_digits hf hr]
  simp [hc]

/-- A fraction with a character in it that is neither a digit nor the start of a zone. -/
theorem time_zone_broken (zone_ok : ℕ → ℕ → Bool) {f s : List Char} {c : Char} (hf : ∀ c ∈ f, c.isDigit)
    (hc : c.isDigit = false) (hzone : c ≠ 'Z' ∧ c ≠ '+' ∧ c ≠ '-') :
    time_zone zone_ok (skip_fraction ('.' :: (f ++ c :: s))) = false := by
  have hfalse : ∀ {d : Char} {s : List Char}, d ≠ 'Z' ∧ d ≠ '+' ∧ d ≠ '-' → time_zone zone_ok
    (d :: s) = false := by
    rintro d s ⟨hZ, hplus, hminus⟩
    unfold time_zone
    split
    · rename_i h
      cases h
      exact absurd rfl hZ
    · rename_i h
      cases h
      simp [hplus, hminus]
    · rfl
  have hhead : (c :: s).head?.any Char.isDigit = false := hc
  cases f with
  | nil =>
    rw [List.nil_append, skip_fraction, if_neg]
    · exact hfalse (by decide)
    · simp [hc]
  | cons d f =>
    rw [skip_fraction_digits hf (List.cons_ne_nil d f) hhead]
    exact hfalse hzone

/-- The time of a text whose numbers have their full width. -/
theorem time_parse_digits (zone_ok : ℕ → ℕ → Bool) {y₁ y₂ y₃ y₄ m₁ m₂ d₁ d₂ h₁ h₂ n₁ n₂ e₁ e₂ : Char}
    (h : ∀ x ∈ [y₁, y₂, y₃, y₄, m₁, m₂, d₁, d₂, h₁, h₂, n₁, n₂, e₁, e₂], x.isDigit) (value : List Char) :
    time_parse zone_ok (y₁ :: y₂ :: y₃ :: y₄ :: '-' :: m₁ :: m₂ :: '-' :: d₁ :: d₂ :: 'T' :: h₁ :: h₂ ::
        ':' :: n₁ :: n₂ :: ':' :: e₁ :: e₂ :: value) =
      (1 ≤ decimal [m₁, m₂] && decimal [m₁, m₂] ≤ 12 && 1 ≤ decimal [d₁, d₂] &&
        decimal [d₁, d₂] ≤ days_in (decimal [m₁, m₂]) (decimal [y₁, y₂, y₃, y₄]) && decimal [h₁, h₂] < 24 &&
        decimal [n₁, n₂] < 60 && decimal [e₁, e₂] < 60 && time_zone zone_ok (skip_fraction value)) := by
  simp only [List.forall_mem_cons] at h
  obtain ⟨hy₁, hy₂, hy₃, hy₄, hm₁, hm₂, hd₁, hd₂, hh₁, hh₂, hn₁, hn₂, he₁, he₂, -⟩ := h
  have hyear : ∀ s, long_year (y₁ :: y₂ :: y₃ :: y₄ :: s) = some (decimal [y₁, y₂, y₃, y₄], s) :=
    long_year_digits (by simp [*])
  simp only [time_parse, hyear, skip, getnum_pair hm₁ hm₂, getnum_pair hd₁ hd₂, getnum_pair hh₁ hh₂,
    getnum_pair hn₁ hn₂, getnum_pair he₁ he₂, Option.bind_eq_bind, Option.bind_some, if_true,
      Option.getD_some]

end GoTexts
