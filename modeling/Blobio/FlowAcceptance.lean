import Blobio.FlowRecords
import Blobio.TerminatedLines

/-! Which of the lines that `bio-frisk-brr` accepts the workers of `flowd` take. -/
namespace Blobio

open GoTexts CivilDates

/-- `strings.TrimRight` -/
def trim_right (cut : Char) (s : Text) : Text :=
  (s.reverse.dropWhile (· = cut)).reverse

/-- The record that a flow worker makes of a line; of an error it makes a panic. -/
def flow_brr (go : GoLibrary) (line : Text) : Except Text Brr :=
  parse go (trim_right '\n' line)

theorem trim_right_line {l : Text} (hl : '\n' ∉ l) : trim_right '\n' (l ++ ['\n']) = l := by
  have hhead : l.reverse.dropWhile (· = '\n') = l.reverse := by
    cases h : l.reverse with
    | nil => rfl
    | cons c r =>
      have hc : c ≠ '\n' := by
        rintro rfl
        exact hl (List.mem_reverse.mp (h ▸ List.mem_cons_self))
      simp [hc]
  rw [trim_right, List.reverse_append, List.reverse_singleton, List.singleton_append,
    List.dropWhile_cons_of_pos (by decide), hhead, List.reverse_reverse]

/-! ### Start times -/

/-- The number of some places of a text. -/
def number_at (t : Text) (i w : ℕ) : ℕ :=
  decimal ((t.drop i).take w)

/-- The numbers of a time stamp are those of a time of the calendar, and of an offset that
a zone may have. -/
structure CalendarTime (zone_ok : ℕ → ℕ → Bool) (t : Text) : Prop where
  month : 1 ≤ number_at t 5 2 ∧ number_at t 5 2 ≤ 12
  day : 1 ≤ number_at t 8 2 ∧ number_at t 8 2 ≤ days_in (number_at t 5 2) (number_at t 0 4)
  hour : number_at t 11 2 < 24
  zone : zone_ok (number_at t (t.length - 5) 2) (number_at t (t.length - 2) 2)

theorem number_at_end (x f : Text) (w : ℕ) :
    number_at (x ++ f) ((x ++ f).length - f.length) w = decimal (f.take w) := by
  rw [number_at, List.length_append, Nat.add_sub_cancel, List.drop_left]

theorem decimal_lt_sixty {c d : Char} (hc : between '0' '5' c) (hd : d.isDigit) : decimal [c, d] < 60 := by
  simp only [between, Bool.and_eq_true, decide_eq_true_eq, Char.le_def, UInt32.le_iff_toNat_le] at hc
  have hd' := digit_le hd
  have hfive : '5'.val.toNat = 53 := rfl
  have hzero : '0'.toNat = 48 := rfl
  rw [decimal_cons, decimal_cons]
  simp only [Char.toNat, decimal, List.length_cons, List.length_nil, Nat.ofDigitChars_nil] at *
  omega

theorem isDigit_of_between {lo hi c : Char} (hlo : '0' ≤ lo) (hhi : hi ≤ '9') (hc : between lo hi c) :
    c.isDigit := by
  simp only [between, Bool.and_eq_true, decide_eq_true_eq] at hc
  have hdigit : isdigit c := by
    rw [isdigit, between, Bool.and_eq_true, decide_eq_true_eq, decide_eq_true_eq]
    exact ⟨Char.le_trans hlo hc.1, Char.le_trans hc.2 hhi⟩
  exact hdigit

/-- The characters of a date: its numbers, of which those of the minute and the second are
below sixty. -/
theorem Fits.date {date : Text} (h : Fits date_shape date) :
    ∃ y₁ y₂ y₃ y₄ m₁ m₂ d₁ d₂ h₁ h₂ n₁ n₂ e₁ e₂ : Char,
      date = y₁ :: y₂ :: y₃ :: y₄ :: '-' :: m₁ :: m₂ :: '-' :: d₁ :: d₂ :: 'T' :: h₁ :: h₂ :: ':' :: n₁ ::
        n₂ :: ':' :: e₁ :: e₂ :: ['.'] ∧
      (∀ x ∈ [y₁, y₂, y₃, y₄, m₁, m₂, d₁, d₂, h₁, h₂, n₁, n₂, e₁, e₂], x.isDigit) ∧
        decimal [n₁, n₂] < 60 ∧ decimal [e₁, e₂] < 60 := by
  simp only [Fits, date_shape, List.forall₂_cons_left_iff, List.forall₂_nil_left_iff,
    decide_eq_true_eq] at h
  obtain ⟨y₁, _, hy₁, ⟨y₂, _, hy₂, ⟨y₃, _, hy₃, ⟨y₄, _, hy₄, ⟨_, _, rfl, ⟨m₁, _, hm₁, ⟨m₂, _, hm₂, ⟨_, _,
    rfl, ⟨d₁, _, hd₁, ⟨d₂, _, hd₂, ⟨_, _, rfl, ⟨h₁, _, hh₁, ⟨h₂, _, hh₂, ⟨_, _, rfl, ⟨n₁, _, hn₁, ⟨n₂,
    _, hn₂, ⟨_, _, rfl, ⟨e₁, _, he₁, ⟨e₂, _, he₂, ⟨_, _, rfl, rfl, rfl⟩, rfl⟩, rfl⟩, rfl⟩, rfl⟩, rfl⟩,
    rfl⟩, rfl⟩, rfl⟩, rfl⟩, rfl⟩, rfl⟩, rfl⟩, rfl⟩, rfl⟩, rfl⟩, rfl⟩, rfl⟩, rfl⟩, rfl⟩ := h
  refine ⟨y₁, y₂, y₃, y₄, m₁, m₂, d₁, d₂, h₁, h₂, n₁, n₂, e₁, e₂, rfl, ?_, decimal_lt_sixty hn₁ hn₂,
    decimal_lt_sixty he₁ he₂⟩
  intro x hx
  simp only [List.mem_cons, List.not_mem_nil, or_false] at hx
  rcases hx with rfl | rfl | rfl | rfl | rfl | rfl | rfl | rfl | rfl | rfl | rfl | rfl | rfl | rfl
  · exact isDigit_of_between (by decide) (by decide) hy₁
  · exact hy₂
  · exact hy₃
  · exact hy₄
  · exact isDigit_of_between (by decide) (by decide) hm₁
  · exact hm₂
  · exact isDigit_of_between (by decide) (by decide) hd₁
  · exact hd₂
  · exact isDigit_of_between (by decide) (by decide) hh₁
  · exact hh₂
  · exact isDigit_of_between (by decide) (by decide) hn₁
  · exact hn₂
  · exact isDigit_of_between (by decide) (by decide) he₁
  · exact he₂

theorem Fits.zone {zone : Text} (h : Fits zone_shape zone) :
    ∃ sign z₁ z₂ z₃ z₄ : Char, zone = [sign, z₁, z₂, ':', z₃, z₄] ∧ (sign = '+' ∨ sign = '-') ∧
      ∀ x ∈ [z₁, z₂, z₃, z₄], x.isDigit := by
  simp only [Fits, zone_shape, List.forall₂_cons_left_iff, List.forall₂_nil_left_iff, Bool.or_eq_true,
    decide_eq_true_eq] at h
  obtain ⟨sign, _, hsign, ⟨z₁, _, hz₁, ⟨z₂, _, hz₂, ⟨_, _, rfl, ⟨z₃, _, hz₃, ⟨z₄, _, hz₄, rfl, rfl⟩,
    rfl⟩, rfl⟩, rfl⟩, rfl⟩, rfl⟩ := h
  refine ⟨sign, z₁, z₂, z₃, z₄, rfl, hsign, ?_⟩
  intro x hx
  simp only [List.mem_cons, List.not_mem_nil, or_false] at hx
  rcases hx with rfl | rfl | rfl | rfl
  exacts [hz₁, hz₂, hz₃, hz₄]

theorem time_parse_iff {zone_ok : ℕ → ℕ → Bool} {t : Text} (ht : StartTime t) :
    time_parse zone_ok t ↔ CalendarTime zone_ok t := by
  obtain ⟨date, fraction, zone, rfl, hd, hf, hz⟩ := ht.parts
  obtain ⟨sign, z₁, z₂, z₃, z₄, rfl, hsign, hzone⟩ := hz.zone
  have hzh := number_at_end (date ++ fraction ++ [sign]) [z₁, z₂, ':', z₃, z₄] 2
  have hzm := number_at_end (date ++ fraction ++ [sign, z₁, z₂, ':']) [z₃, z₄] 2
  simp only [List.append_assoc, List.cons_append, List.nil_append, List.take_succ_cons,
    List.take_zero] at hzh hzm
  obtain ⟨y₁, y₂, y₃, y₄, m₁, m₂, d₁, d₂, h₁, h₂, n₁, n₂, e₁, e₂, rfl, hdigits, hmin, hsec⟩ := hd.date
  have hfraction : skip_fraction ('.' :: (fraction ++ [sign, z₁, z₂, ':', z₃, z₄])) =
      [sign, z₁, z₂, ':', z₃, z₄] := by
    apply skip_fraction_digits
    · exact fun c hc => mem_digits.mp (hf.subset c hc)
    · exact List.ne_nil_of_length_pos hf.lower
    · rcases hsign with rfl | rfl <;> rfl
  have hoffset : time_zone zone_ok [sign, z₁, z₂, ':', z₃, z₄] =
      zone_ok (decimal [z₁, z₂]) (decimal [z₃, z₄]) := by
    rw [time_zone, List.all_eq_true.mpr hzone]
    rcases hsign with rfl | rfl <;> rfl
  have hparse := time_parse_digits zone_ok hdigits ('.' :: (fraction ++ [sign, z₁, z₂, ':', z₃, z₄]))
  rw [hfraction, hoffset, decide_eq_true hmin, decide_eq_true hsec, Bool.and_true, Bool.and_true] at hparse
  simp only [List.cons_append, List.nil_append] at hzh hzm hparse ⊢
  rw [hparse]
  simp only [Bool.and_eq_true, decide_eq_true_eq]
  constructor
  · rintro ⟨⟨⟨⟨⟨hm, hm'⟩, hday⟩, hday'⟩, hhour⟩, hzone⟩
    refine ⟨⟨hm, hm'⟩, ⟨hday, hday'⟩, hhour, ?_⟩
    exact hzh.symm ▸ hzm.symm ▸ hzone
  · rintro ⟨⟨hm, hm'⟩, ⟨hday, hday'⟩, hhour, hzone⟩
    refine ⟨⟨⟨⟨⟨hm, hm'⟩, hday⟩, hday'⟩, hhour⟩, ?_⟩
    exact hzh ▸ hzm ▸ hzone

/-! ### Lines -/

/-- What is between the tilde of a tag and the detail, where the scanner has read one more. -/
def doubled (f : Text) (limit : ℕ) (end_fld : Char) : Text :=
  if f.length + 1 = limit then [end_fld] else []

theorem ending_eq (f : Text) (limit : ℕ) (end_fld : Char) :
    BrrFields.ending end_fld limit f = end_fld :: doubled f limit end_fld := by
  unfold BrrFields.ending doubled
  split <;> rfl

theorem ending_eq_append (f : Text) (limit : ℕ) (end_fld : Char) :
    BrrFields.ending end_fld limit f = doubled f limit end_fld ++ [end_fld] := by
  unfold BrrFields.ending doubled
  split <;> rfl

section lines
variable {b : BrrFields}

theorem doubled_not_mem {f : Text} {limit : ℕ} {c end_fld : Char}
    (hc : c ≠ end_fld) : c ∉ doubled f limit end_fld := by
  unfold doubled
  split <;> simp [hc]

theorem doubled_of_ne {f : Text} {limit : ℕ} {end_fld : Char}
    (h : f.length + 1 ≠ limit) : doubled f limit end_fld = [] :=
  if_neg h

/-- The fields of a line, as long as no tab in it is doubled. -/
theorem splitOn_scanned (hb : b.Matches) (hdetail : b.detail.length ≠ 127)
    (hcount : b.byte_count.length ≠ 19) :
    b.scanned.splitOn '\t' = [b.start_time, b.tag ++ '~' :: (doubled b.tag 8 '~' ++ b.detail), b.verb.text,
      b.udig,
      b.chat_history, b.byte_count, b.sec ++ '.' :: (doubled b.sec 10 '.' ++ b.nsec)] := by
  obtain ⟨htime, htag, hdet, hverb, hudig, hchat, hbytes, hsec, hnsec⟩ := hb.not_mem (c := '\t') List.mem_cons_self
  have htransport : '\t' ∉ b.tag ++ '~' :: (doubled b.tag 8 '~' ++ b.detail) := by
    simp [htag, hdet, doubled_not_mem]
  have hduration : '\t' ∉ b.sec ++ '.' :: (doubled b.sec 10 '.' ++ b.nsec) := by
    simp [hsec, hnsec, doubled_not_mem]
  have hline : b.scanned = b.start_time ++ '\t' :: ((b.tag ++ '~' ::
    (doubled b.tag 8 '~' ++ b.detail)) ++ '\t' ::
      (b.verb.text ++ '\t' :: (b.udig ++ '\t' :: (b.chat_history ++ '\t' :: (b.byte_count ++ '\t' ::
        (b.sec ++ '.' :: (doubled b.sec 10 '.' ++ b.nsec))))))) := by
    have hwide : doubled b.detail 128 '\t' = [] := doubled_of_ne (by omega)
    have hlong : doubled b.byte_count 20 '\t' = [] := doubled_of_ne (by omega)
    simp [BrrFields.scanned, ending_eq, hwide, hlong]
  rw [hline, List.splitOn_append_cons_self_of_not_mem htime,
    List.splitOn_append_cons_self_of_not_mem htransport,
    List.splitOn_append_cons_self_of_not_mem hverb, List.splitOn_append_cons_self_of_not_mem hudig,
    List.splitOn_append_cons_self_of_not_mem hchat, List.splitOn_append_cons_self_of_not_mem hbytes,
    List.splitOn_eq_singleton hduration]

theorem count_doubled (f : Text) (limit : ℕ) : (doubled f limit '\t').count '\t' = 0 ↔
    f.length + 1 ≠ limit := by
  unfold doubled
  split <;> simp [*]

theorem count_scanned (hb : b.Matches) :
    b.scanned.count '\t' = 6 ↔ b.detail.length ≠ 127 ∧ b.byte_count.length ≠ 19 := by
  obtain ⟨htime, htag, hdet, hverb, hudig, hchat, hbytes, hsec, hnsec⟩ := hb.not_mem (c := '\t') List.mem_cons_self
  have htilde : '\t' ∉ doubled b.tag 8 '~' := doubled_not_mem (by decide)
  have hpoint : '\t' ∉ doubled b.sec 10 '.' := doubled_not_mem (by decide)
  have hcount : b.scanned.count '\t' =
      6 + (doubled b.detail 128 '\t').count '\t' + (doubled b.byte_count 20 '\t').count '\t' := by
    simp only [BrrFields.scanned, ending_eq, List.count_append, List.count_cons,
      List.count_eq_zero_of_not_mem htime,
      List.count_eq_zero_of_not_mem htag, List.count_eq_zero_of_not_mem hdet,
        List.count_eq_zero_of_not_mem hverb,
      List.count_eq_zero_of_not_mem hudig, List.count_eq_zero_of_not_mem hchat,
        List.count_eq_zero_of_not_mem hbytes,
      List.count_eq_zero_of_not_mem hsec, List.count_eq_zero_of_not_mem hnsec,
      List.count_eq_zero_of_not_mem htilde, List.count_eq_zero_of_not_mem hpoint, beq_self_eq_true, if_true,
      show ('~' == '\t') = false from rfl, show ('.' == '\t') = false from rfl, Bool.false_eq_true,
        if_false]
    omega
  have hdetail := count_doubled b.detail 128
  have hbyte := count_doubled b.byte_count 20
  omega

/-- The fields of a line as the array that `parse` copies them to. -/
def BrrFields.split (b : BrrFields) : Brr where
  start_time := b.start_time
  transport := b.tag ++ '~' :: (doubled b.tag 8 '~' ++ b.detail)
  verb := b.verb.text
  udig := b.udig
  chat_history := b.chat_history
  blob_size := b.byte_count
  wall_duration := b.sec ++ '.' :: (doubled b.sec 10 '.' ++ b.nsec)

/-- The fields of a line that the workers take: a time of the calendar, no detail that is
too long behind a doubled tilde, a udig, and no doubled point. -/
structure Brr.Flows (zone_ok : ℕ → ℕ → Bool) (a : Brr) : Prop where
  start_time : CalendarTime zone_ok a.start_time
  detail : (a.transport.dropWhile (· ≠ '~')).tail.length ≤ 128
  udig : a.udig ≠ []
  point : a.wall_duration.count '.' = 1

theorem transport_scanned_iff (hb : b.Matches) :
    transport_re b.split.transport ↔ (b.split.transport.dropWhile (· ≠ '~')).tail.length ≤ 128 := by
  have htilde : '~' ∉ b.tag := fun h => absurd (hb.tag.subset _ h) (by decide)
  have hgraph : ∀ c ∈ doubled b.tag 8 '~' ++ b.detail, c ∈ graph_set := by
    intro c hc
    rcases List.mem_append.mp hc with hc | hc
    · unfold doubled at hc
      split at hc
      · rw [List.mem_singleton.mp hc]
        decide
      · cases hc
    · exact hb.detail.subset c hc
  have hlower : 1 ≤ (doubled b.tag 8 '~' ++ b.detail).length := by
    have := hb.detail.lower
    rw [List.length_append]
    omega
  rw [BrrFields.split, dropWhile_ne htilde, List.tail_cons, transport_re_iff]
  constructor
  · rintro ⟨tag, detail, heq, htag, hdetail⟩
    have htilde' : '~' ∉ tag := fun h => absurd (htag.subset _ h) (by decide)
    rw [(split_first htilde htilde' heq).2]
    exact hdetail.upper
  · exact fun h => ⟨b.tag, _, rfl, hb.tag, hgraph, hlower, h⟩

theorem udig_scanned_iff (hb : b.Matches) : parse_udig b.udig = .ok () ↔ b.udig ≠ [] := by
  rcases hb.udig with h | ⟨algorithm, digest, h, htag, hdigest⟩
  · rw [h]
    exact iff_of_false (by rintro ⟨⟩) (not_not.mpr rfl)
  · refine iff_of_true (parse_udig_iff.mpr (.inl ⟨algorithm, digest, h, htag, hdigest.subset, ?_,
    hdigest.upper⟩)) ?_
    · exact (by decide : 1 ≤ 32).trans hdigest.lower
    · simp [h]

theorem Chars.decimals {f : Text} {lower upper : ℕ} (hf : Chars digits lower upper f)
    (hlower : 0 < lower) : Decimals f :=
  ⟨List.ne_nil_of_length_pos (hlower.trans_le hf.lower), fun c hc => mem_digits.mp (hf.subset c hc)⟩

theorem duration_scanned_iff (hb : b.Matches) :
    (parse_duration (b.split.wall_duration ++ ['s'])).isSome ↔ b.split.wall_duration.count '.' = 1 := by
  have hsec := hb.sec.decimals Nat.one_pos
  have hnsec := hb.nsec.decimals Nat.one_pos
  have hpoint : '.' ∉ b.sec := hb.sec.not_mem (by decide)
  have hpoint' : '.' ∉ b.nsec := hb.nsec.not_mem (by decide)
  have hcount : b.split.wall_duration.count '.' = 1 + (doubled b.sec 10 '.').count '.' := by
    simp [BrrFields.split, List.count_eq_zero_of_not_mem hpoint, List.count_eq_zero_of_not_mem hpoint',
      Nat.add_comm]
  rw [hcount, BrrFields.split]
  by_cases hlen : b.sec.length + 1 = 10
  · rw [show doubled b.sec 10 '.' = ['.'] from if_pos hlen]
    refine iff_of_false ?_ (by decide)
    have hempty : ∀ c ∈ ([] : Text), c.isDigit := List.forall_mem_nil _
    have hnone := parse_duration_broken (s := '.' :: (b.nsec ++ ['s'])) hsec.2 hsec.1 hempty rfl rfl
    simpa using hnone
  · rw [doubled_of_ne hlen]
    refine iff_of_true ?_ rfl
    have hlt := decimal_lt hnsec.2
    have hle := hb.sec_le
    have hdiv : decimal b.nsec * 1000000000 / 10 ^ b.nsec.length < 1000000000 :=
      Nat.div_lt_of_lt_mul (Nat.mul_lt_mul_of_pos_right hlt (by decide))
    have h := (parse_duration_seconds hsec.2 hnsec.2 hsec.1).mpr (by rw [decimal]; omega)
    simpa using h

theorem verb_text_mem {verb : Verb} (h : verb ≠ .cat) : verb.text ∈ brr_verbs := by
  cases verb with
  | cat => exact absurd rfl h
  | _ => decide

theorem taken_scanned_iff {go : GoLibrary} (hb : b.Matches) : b.split.Taken go ↔
    b.split.Flows go.zone_ok := by
  have hverb : b.split.verb ∈ brr_verbs := verb_text_mem hb.verb
  have hchat : b.chat_history ∈ brr_chats := by
    have hsubset : ∀ ch ∈ ["no", "ok", "ok,ok", "ok,no", "ok,ok,ok", "ok,ok,no"].map String.toList,
      ch ∈ brr_chats := by
      decide
    exact hsubset _ (chat_ok_mem hb.chat_history)
  have hsize : (parse_uint b.byte_count).isSome := by
    have hcount := hb.byte_count.decimals Nat.one_pos
    exact parse_size_iff.mpr (.inl ⟨hcount, Nat.lt_of_le_of_lt hb.byte_count_le (by decide)⟩)
  constructor
  · intro h
    exact ⟨(time_parse_iff hb.start_time).mp h.start_time, (transport_scanned_iff hb).mp h.transport,
      (udig_scanned_iff hb).mp h.udig, (duration_scanned_iff hb).mp h.wall_duration⟩
  · intro h
    exact ⟨(time_parse_iff hb.start_time).mpr h.start_time, (transport_scanned_iff hb).mpr h.detail, hverb,
      (udig_scanned_iff hb).mpr h.udig, hchat, hsize, (duration_scanned_iff hb).mpr h.point⟩

theorem parse_scanned_iff {go : GoLibrary} (hb : b.Matches) : (∃ a, parse go b.scanned = .ok a) ↔
    ∃ a : Brr, b.scanned.splitOn '\t' = a.fields ∧ a.Flows go.zone_ok := by
  simp only [parse_eq_ok]
  by_cases hcount : b.scanned.count '\t' = 6
  · obtain ⟨hdetail, hbytes⟩ := (count_scanned hb).mp hcount
    have hsplit : b.scanned.splitOn '\t' = b.split.fields := splitOn_scanned hb hdetail hbytes
    constructor
    · rintro ⟨a, ha, h⟩
      cases Brr.fields_injective (hsplit.symm.trans ha)
      exact ⟨b.split, hsplit, (taken_scanned_iff hb).mp h⟩
    · rintro ⟨a, ha, h⟩
      cases Brr.fields_injective (hsplit.symm.trans ha)
      exact ⟨b.split, hsplit, (taken_scanned_iff hb).mpr h⟩
  · have hseven : ∀ a : Brr, b.scanned.splitOn '\t' ≠ a.fields := by
      intro a ha
      have hlength := congrArg List.length ha
      rw [TerminatedLines.length_splitOn] at hlength
      exact hcount (Nat.succ.inj hlength)
    exact iff_of_false (fun ⟨a, ha, _⟩ => hseven a ha) fun ⟨a, ha, _⟩ => hseven a ha

end lines

/-! ### Nulls in a line -/

section nulls
variable {frisk_udig : Text → Bool} {l r rest : Text}

theorem scan_start_run (hl : '\n' ∉ l) (h : scan_rfc399nano (l ++ '\n' :: r) = some rest) :
    ∃ date fraction zone l₁, Fits date_shape date ∧ (∀ c ∈ fraction, c ∈ '\x00' :: digits) ∧
      Fits zone_shape zone ∧
      l = date ++ fraction ++ zone ++ '\t' :: l₁ ∧ rest = l₁ ++ '\n' :: r := by
  simp only [scan_rfc399nano_eq, Option.bind_eq_some_iff] at h
  obtain ⟨p, ⟨q, ⟨o, ho, hq⟩, hp⟩, hrest⟩ := h
  obtain ⟨date, hd, heq⟩ := scan_shape_eq_some.mp ho
  obtain ⟨l₁, rfl, rfl⟩ := split_line (hd.not_mem (by decide)) heq
  rw [List.mem_append, not_or] at hl
  obtain ⟨fraction, l₂, hf, -, -, rfl, rfl⟩ := (in_range_run (by decide) hl.2).mp hq
  obtain ⟨zone, hz, heq⟩ := scan_shape_eq_some.mp hp
  obtain ⟨l₃, rfl, rfl⟩ := split_line (hz.not_mem (by decide)) heq
  obtain ⟨tab, ht, heq⟩ := scan_shape_eq_some.mp hrest
  obtain ⟨l₄, rfl, rfl⟩ := split_line (ht.not_mem (by decide)) heq
  obtain ⟨c, hc, rfl⟩ := Fits.singleton.mp ht
  rw [decide_eq_true_eq] at hc
  subst hc
  exact ⟨date, fraction, zone, l₄, hd, hf, hz, by simp, rfl⟩

theorem scan_wall_run (hl : '\n' ∉ l) (h : scan_wall_duration (l ++ '\n' :: r) = some rest) :
    ∃ sec nsec, Chars digits 1 10 sec ∧ (∀ c ∈ nsec, c ∈ '\x00' :: digits) ∧
      l = sec ++ BrrFields.ending '.' 10 sec ++ nsec := by
  simp only [scan_wall_duration, Option.bind_eq_bind, Option.bind_eq_some_iff,
    scan_set_eq_some fieldSet_digits_dot (show 0 < 0 + 10 by omega)] at h
  obtain ⟨q, ⟨sec, hsec, hlen, hpos, heq⟩, h⟩ := h
  have hnl : '\n' ∉ sec ++ BrrFields.ending '.' 10 sec := by
    rw [List.mem_append, not_or]
    exact ⟨fun h => absurd (hsec _ h) (by decide), ending_newline (by decide)⟩
  obtain ⟨l', rfl, rfl⟩ := split_line hnl heq
  rw [List.mem_append, not_or] at hl
  split at h
  · cases h
  · obtain ⟨p, hp, hend⟩ := Option.bind_eq_some_iff.mp h
    obtain ⟨nsec, l'', hn, -, -, rfl, rfl⟩ := (in_range_run (by decide) hl.2).mp hp
    obtain ⟨c, hc, heq⟩ := scan_char_eq_some.mp hend
    rw [decide_eq_true_eq] at hc
    cases l'' with
    | nil => exact ⟨sec, nsec, ⟨hsec, by omega, hlen⟩, hn, by simp⟩
    | cons d l'' =>
      obtain ⟨rfl, -⟩ := List.cons.inj heq
      exact absurd (List.mem_append_right nsec (hc ▸ List.mem_cons_self)) hl.2

/-- Of the nulls of a line that is accepted some are in its fraction, the others behind its
last point. -/
theorem scan_line_run (hudig : ChecksUdigs frisk_udig) (hl : '\n' ∉ l)
    (h : scan_line frisk_udig (l ++ '\n' :: r) = .ok ()) :
    ∃ date fraction zone mid sec nsec, Fits date_shape date ∧ (∀ c ∈ fraction, c ∈ '\x00' :: digits) ∧
      Fits zone_shape zone ∧ '\x00' ∉ mid ∧ Chars digits 1 10 sec ∧ (∀ c ∈ nsec, c ∈ '\x00' :: digits) ∧
        l = date ++ fraction ++ zone ++ '\t' :: (mid ++ '\t' ::
          (sec ++ '.' :: (doubled sec 10 '.' ++ nsec))) := by
  unfold scan_line at h
  split at h
  · cases h
  rename_i verb no_udig is_no p hfields
  split at h
  · cases h
  split at h
  · rename_i hrest
    simp only [scan_fields, Option.bind_eq_bind, Option.bind_eq_some_iff, Prod.exists, Option.some.injEq,
      Prod.mk.injEq, scan_transport_eq_some, scan_verb_eq_some, scan_udig_eq_some hudig,
      scan_chat_history_eq_some] at hfields
    obtain ⟨p₁, h₁, p₂, ⟨tag, detail, htag, hdetail, rfl⟩, v, p₃, ⟨-, rfl⟩, b, p₄, ⟨u, hu, -, rfl⟩, d, p₅,
      ⟨ch, hch, -, rfl⟩, rfl, rfl, rfl, rfl⟩ := hfields
    obtain ⟨q, hq⟩ := Option.isSome_iff_exists.mp hrest
    obtain ⟨p₆, hp₆, hwall⟩ := Option.bind_eq_some_iff.mp hq
    obtain ⟨n, hn, -, rfl⟩ := scan_byte_count_eq_some.mp hp₆
    obtain ⟨date, fraction, zone, l₁, hd, hf, hz, rfl, heq⟩ := scan_start_run hl h₁
    obtain ⟨mid, hmid⟩ : ∃ mid, tag ++ BrrFields.ending '~' 8 tag ++
      (detail ++ BrrFields.ending '\t' 128 detail ++
        (v.text ++ '\t' :: (u ++ '\t' :: (ch ++ '\t' :: (n ++ doubled n 20 '\t'))))) = mid := ⟨_, rfl⟩
    have hclean : ∀ c ∈ ['\n', '\x00'], c ∉ mid := by
      intro c hc
      have hsets : c ∉ lower_alnum ∧ c ∉ graph_set ∧ c ∉ digits ∧ c ∉ "nok,".toList ∧ c ≠ '~' ∧ c ≠ '\t' :=
        by
        revert c
        decide +kernel
      obtain ⟨halnum, hgraph, hdigits, hchat, htilde, htab⟩ := hsets
      have htag' : c ∉ tag := fun h => halnum (htag.subset _ h)
      have hverb : c ∉ v.text := fun h => halnum (verb_text_subset v c h)
      have hu' : c ∉ u := by
        rcases hu with rfl | hu
        · exact List.not_mem_nil
        · exact fun h => hgraph (hu.chars.2.2 _ h)
      have hch' : c ∉ ch := fun h => hchat ((chat_ok_chars hch).2.1 _ h)
      simp [← hmid, ending_eq, htag', hdetail.not_mem hgraph, hverb, hu', hch', hn.not_mem hdigits, htilde,
        htab,
        doubled_not_mem]
    have hsplit : l₁ ++ '\n' :: r = (mid ++ ['\t']) ++ p₆ := by
      rw [← heq, ← hmid, ending_eq_append n]
      simp
    obtain ⟨l₂, rfl, rfl⟩ := split_line (by simp [hclean]) hsplit
    obtain ⟨sec, nsec, hsec, hnsec, rfl⟩ := scan_wall_run (fun h => hl (by simp [h])) hwall
    exact ⟨date, fraction, zone, mid, sec, nsec, hd, hf, hz, hclean _ (by decide), hsec, hnsec,
      by simp [ending_eq]⟩
  · cases h

theorem eq_null_cons {f : Text} (hf : ∀ c ∈ f, c ∈ '\x00' :: digits) (h : '\x00' ∈ f) :
    ∃ g g', f = g ++ '\x00' :: g' ∧ ∀ c ∈ g, c.isDigit := by
  obtain ⟨g, g', rfl, hg⟩ := List.eq_append_cons_of_mem h
  refine ⟨g, g', rfl, fun c hc => ?_⟩
  rcases List.mem_cons.mp (hf c (List.mem_append_left _ hc)) with rfl | hdigit
  · exact absurd hc hg
  · exact mem_digits.mp hdigit

theorem time_parse_null {zone_ok : ℕ → ℕ → Bool} {date fraction zone : Text} (hd : Fits date_shape date)
    (hf : ∀ c ∈ fraction, c ∈ '\x00' :: digits) (h : '\x00' ∈ fraction) :
    ¬ time_parse zone_ok (date ++ fraction ++ zone) := by
  obtain ⟨y₁, y₂, y₃, y₄, m₁, m₂, d₁, d₂, h₁, h₂, n₁, n₂, e₁, e₂, rfl, hdigits, -, -⟩ := hd.date
  obtain ⟨g, g', rfl, hg⟩ := eq_null_cons hf h
  have hbroken := time_zone_broken zone_ok (s := g' ++ zone) hg (c := '\x00') rfl (by decide)
  have hparse := time_parse_digits zone_ok hdigits ('.' :: (g ++ '\x00' :: (g' ++ zone)))
  rw [hbroken, Bool.and_false] at hparse
  simp [hparse]

theorem parse_duration_null {sec nsec : Text} (hsec : Chars digits 1 10 sec)
    (hn : ∀ c ∈ nsec, c ∈ '\x00' :: digits) (h : '\x00' ∈ nsec) :
    parse_duration (sec ++ '.' :: (doubled sec 10 '.' ++ nsec) ++ ['s']) = none := by
  have hdigits := hsec.decimals Nat.one_pos
  obtain ⟨g, g', rfl, hg⟩ := eq_null_cons hn h
  by_cases hlen : sec.length + 1 = 10
  · rw [show doubled sec 10 '.' = ['.'] from if_pos hlen]
    have hempty : ∀ c ∈ ([] : Text), c.isDigit := List.forall_mem_nil _
    have hnone := parse_duration_broken (s := '.' :: (g ++ '\x00' :: g' ++ ['s'])) hdigits.2 hdigits.1 hempty rfl rfl
    simpa using hnone
  · rw [doubled_of_ne hlen]
    have hnone := parse_duration_broken (s := '\x00' :: (g' ++ ['s'])) hdigits.2 hdigits.1 hg rfl rfl
    simpa using hnone

/-- A line with a null that is accepted is no record for the workers. -/
theorem null_not_parsed {go : GoLibrary} (hudig : ChecksUdigs frisk_udig) (hl : '\n' ∉ l)
    (h : scan_line frisk_udig (l ++ '\n' :: r) = .ok ()) (hnull : '\x00' ∈ l)
      (a : Brr) : parse go l ≠ .ok a := by
  rw [Ne, parse_eq_ok]
  rintro ⟨hsplit, ha⟩
  obtain ⟨date, fraction, zone, mid, sec, nsec, hd, hf, hz, hmid, hsec, hn, rfl⟩ := scan_line_run hudig hl h
  have htime : '\t' ∉ date ++ fraction ++ zone := by
    simp only [List.mem_append, not_or]
    exact ⟨⟨hd.not_mem (by decide), fun h => absurd (hf _ h) (by decide)⟩, hz.not_mem (by decide)⟩
  have hduration : '\t' ∉ sec ++ '.' :: (doubled sec 10 '.' ++ nsec) := by
    have hsec' : '\t' ∉ sec := hsec.not_mem (by decide)
    have hn' : '\t' ∉ nsec := fun h => absurd (hn _ h) (by decide)
    simp [hsec', hn', doubled_not_mem]
  rw [List.splitOn_append_cons_self_of_not_mem htime, List.splitOn_append_cons_self,
    List.splitOn_eq_singleton hduration] at hsplit
  have hfirst : date ++ fraction ++ zone = a.start_time := (List.cons.inj hsplit).1
  have hlast : sec ++ '.' :: (doubled sec 10 '.' ++ nsec) = a.wall_duration := by
    have hgetLast := congrArg List.getLast? hsplit
    rw [← List.cons_append, List.getLast?_append] at hgetLast
    exact Option.some.inj hgetLast
  have hcases : '\x00' ∈ fraction ∨ '\x00' ∈ nsec := by
    have hdate : '\x00' ∉ date := hd.not_mem (by decide)
    have hzone : '\x00' ∉ zone := hz.not_mem (by decide)
    have hsec' : '\x00' ∉ sec := hsec.not_mem (by decide)
    simpa [hdate, hzone, hsec', hmid, doubled_not_mem] using hnull
  rcases hcases with hnull | hnull
  · exact time_parse_null hd hf hnull (hfirst ▸ ha.start_time)
  · have hsome := ha.wall_duration
    rw [← hlast, parse_duration_null hsec hn hnull] at hsome
    cases hsome

end nulls

/-! ### The lines that the workers take -/

section lines
variable {frisk_udig : Text → Bool}

/-- Of a line that `bio-frisk-brr` accepts, from whatever buffer, a worker makes the record
of its fields just when these flow and it has no null. -/
theorem frisked_parsed_iff (hudig : ChecksUdigs frisk_udig) (go : GoLibrary) {l : Text} (hl : '\n' ∉ l)
    {buffer : Text} (h : scan_line frisk_udig (fgets buffer (l ++ ['\n'])) = .ok ()) :
    (∃ a : Brr, flow_brr go (l ++ ['\n']) = .ok a ∧ a.fields = l.splitOn '\t') ↔
      '\x00' ∉ l ∧ ∃ a : Brr, l.splitOn '\t' = a.fields ∧ a.Flows go.zone_ok := by
  have hfields : (∃ a : Brr, flow_brr go (l ++ ['\n']) = .ok a ∧ a.fields = l.splitOn '\t') ↔
      ∃ a, parse go l = .ok a := by
    rw [flow_brr, trim_right_line hl]
    exact ⟨fun ⟨a, ha, _⟩ => ⟨a, ha⟩, fun ⟨a, ha⟩ => ⟨a, ha, (parse_eq_ok.mp ha).1.symm⟩⟩
  rw [fgets, List.append_assoc, List.singleton_append] at h
  rw [hfields]
  by_cases hnull : '\x00' ∈ l
  · exact iff_of_false (fun ⟨a, ha⟩ => null_not_parsed hudig hl h hnull a ha) fun h => h.1 hnull
  · obtain ⟨b, hb, rfl⟩ := (scan_line_eq_ok hudig ⟨hl, hnull⟩).mp h
    rw [parse_scanned_iff hb, and_iff_right hnull]

end lines

def get_brr : Brr where
  start_time := "2024-02-29T23:59:59.000000001+00:00".toList
  transport := "tcp4~127.0.0.1:50000;127.0.0.1:1797".toList
  verb := "get".toList
  udig := "sha:da39a3ee5e6b4b0d3255bfef95601890afd80709".toList
  chat_history := "ok".toList
  blob_size := "0".toList
  wall_duration := "0.000123456".toList

theorem get_line_parsed :
    ∃ a : Brr, flow_brr go_library (get_line ++ ['\n']) = .ok a ∧ a.fields = get_line.splitOn '\t' := by
  have hscan : scan_line udig_ok (fgets (List.replicate line_size '\x00') (get_line ++ ['\n'])) = .ok () := by
    unfold get_line
    rw [String.toList_ofList]
    decide +kernel
  have hflows : get_brr.Flows go_library.zone_ok := by
    constructor
    case start_time => constructor <;> decide +kernel
    all_goals decide +kernel
  exact (frisked_parsed_iff udig_ok_checks go_library (by decide +kernel) hscan).mpr
    ⟨by decide +kernel, get_brr, by decide +kernel, hflows⟩

/-- The record of a wrap that failed: it has no udig. -/
def failed_wrap : Text :=
  "2024-02-29T23:59:59.000000001+00:00\ttcp4~127.0.0.1:50000;127.0.0.1:1797\twrap\t\tno\t0\t0.000123456".toList

/-- A log of that record is accepted, and a worker panics on it. -/
theorem failed_wrap_panics : (frisk_main udig_ok (failed_wrap ++ ['\n'])).status = 0 ∧
    flow_brr go_library (failed_wrap ++ ['\n']) = .error "udig: 0 length".toList := by
  unfold failed_wrap
  rw [String.toList_ofList]
  constructor <;> decide +kernel

end Blobio
