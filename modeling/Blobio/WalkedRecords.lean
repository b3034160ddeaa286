import Blobio.BrrRecords
import Blobio.FlowRecords
import Blobio.TerminatedLines
import Blobio.WrapScans

/-! Which records the walk of `walk-wrap-set` does not die of: of those that `bio-frisk-brr` is made for, and of
those that the service writes. -/
namespace Blobio

section grammar
variable {r : BrrFields}

/-- What the pattern of a row takes out of a record. -/
def BrrFields.row (r : BrrFields) : Walk.Brr :=
  ⟨r.start_time, r.tag ++ '~' :: r.detail, r.verb, r.udig, r.chat_history, r.byte_count⟩

/-- What the pattern asks for beyond the grammar: years up to 2999, months and days of a calendar, a udig, sizes of
19 digits and nanoseconds of nine. -/
structure BrrFields.Walked (r : BrrFields) : Prop where
  year : r.start_time.head? = some '2'
  month : Walk.month_re (r.start_time.getD 5 ' ') (r.start_time.getD 6 ' ')
  day : Walk.day_re (r.start_time.getD 8 ' ') (r.start_time.getD 9 ' ')
  udig : r.udig ≠ []
  byte_count : r.byte_count.length ≤ 19
  nsec : r.nsec.length = 9

instance (r : BrrFields) : Decidable r.Walked :=
  decidable_of_iff (r.start_time.head? = some '2' ∧ Walk.month_re (r.start_time.getD 5 ' ') (r.start_time.getD 6 ' ') ∧
      Walk.day_re (r.start_time.getD 8 ' ') (r.start_time.getD 9 ' ') ∧ r.udig ≠ [] ∧ r.byte_count.length ≤ 19 ∧
        r.nsec.length = 9)
    ⟨fun ⟨h, h', h'', hu, hb, hn⟩ => ⟨h, h', h'', hu, hb, hn⟩, fun ⟨h, h', h'', hu, hb, hn⟩ => ⟨h, h', h'', hu, hb, hn⟩⟩

namespace Walk

theorem start_time_re_iff (h : StartTime r.start_time) : start_time_re r.start_time ↔
    r.start_time.head? = some '2' ∧ month_re (r.start_time.getD 5 ' ') (r.start_time.getD 6 ' ') ∧
      day_re (r.start_time.getD 8 ' ') (r.start_time.getD 9 ' ') := by
  obtain ⟨date, fraction, zone, heq, hdate, hfraction, hzone⟩ := h.parts
  have hlen : date.length = 20 := hdate.length_eq.symm
  obtain ⟨c, rest, hcons, hsign⟩ : ∃ c rest, zone = c :: rest ∧ isdigit c = false := by
    cases zone with
    | nil => cases hzone
    | cons c rest =>
      obtain ⟨hsign, -⟩ := List.forall₂_cons.mp hzone
      refine ⟨c, rest, rfl, ?_⟩
      rcases (Bool.or_eq_true _ _).mp hsign with hc | hc <;> rw [of_decide_eq_true hc] <;> decide
  have hdigits : ∀ c ∈ fraction, isdigit c = true := fun c hc => mem_digits.mp (hfraction.subset c hc)
  have htake : r.start_time.take 20 = date := by
    rw [heq, List.append_assoc, ← hlen, List.take_left]
  have hdrop : r.start_time.drop 20 = fraction ++ zone := by
    rw [heq, List.append_assoc, ← hlen, List.drop_left]
  have hfront : (fraction ++ zone).takeWhile isdigit = fraction := by
    rw [List.takeWhile_append_of_pos hdigits, hcons, List.takeWhile_cons, hsign]
    simp
  have hback : (fraction ++ zone).dropWhile isdigit = zone := by
    rw [List.dropWhile_append_of_pos hdigits, hcons, List.dropWhile_cons, hsign]
    rfl
  have hget : ∀ i < 20, date.getD i ' ' = r.start_time.getD i ' ' := by
    intro i hi
    rw [← htake]
    simp [hi]
  have hhead : date.head? = r.start_time.head? := by
    rw [← htake, List.head?_take, if_neg (by decide)]
  rw [start_time_re, htake, hdrop, hfront, hback, hhead, hget 5 (by decide), hget 6 (by decide), hget 8 (by decide),
    hget 9 (by decide)]
  simp [hdate, hfraction, hzone, and_assoc]

theorem transport_re_of_matches (h : r.Matches) : transport_re (r.tag ++ '~' :: r.detail) :=
  Blobio.transport_re_iff.mpr ⟨r.tag, r.detail, rfl, h.tag, h.detail⟩

theorem find_verb {verb : Verb} (h : verb ≠ .cat) : verbs.find? (·.text = verb.text) = some verb := by
  cases verb with
  | cat => exact absurd rfl h
  | _ => decide

theorem wall_duration_re_iff (h : r.Matches) : wall_duration_re (r.sec ++ '.' :: r.nsec) ↔ r.nsec.length = 9 := by
  have hdigits : ∀ c ∈ r.sec, isdigit c = true := fun c hc => mem_digits.mp (h.sec.subset c hc)
  have hpoint : isdigit '.' = false := by decide
  have htake : (r.sec ++ '.' :: r.nsec).takeWhile isdigit = r.sec := by
    rw [List.takeWhile_append_of_pos hdigits, List.takeWhile_cons, hpoint]
    simp
  have hdrop : (r.sec ++ '.' :: r.nsec).dropWhile isdigit = '.' :: r.nsec := by
    rw [List.dropWhile_append_of_pos hdigits, List.dropWhile_cons, hpoint]
    rfl
  rw [wall_duration_re, htake, hdrop]
  simp only [Bool.and_eq_true, decide_eq_true_eq, List.head?_cons, List.tail_cons]
  constructor
  · intro hchars
    exact Nat.le_antisymm (of_decide_eq_true hchars.2).upper (of_decide_eq_true hchars.2).lower
  · intro hlen
    exact ⟨⟨h.sec, trivial⟩, decide_eq_true ⟨h.nsec.subset, hlen.ge, hlen.le⟩⟩

theorem udig_ok_iff (h : r.Matches) : udig_ok r.udig ↔ r.udig ≠ [] := by
  rcases h.udig with hnil | hudig
  · rw [hnil]
    decide
  · refine iff_of_true ((udig_ok_checks r.udig ?_).mpr hudig) ?_
    · exact (h.not_mem (by decide : '\x00' ∈ ['\t', '\n', '\x00'])).2.2.2.2.1
    · obtain ⟨algorithm, digest, heq, -⟩ := hudig
      simp [heq]

theorem chat_mem (h : r.Matches) : r.chat_history ∈ chat_histories := by
  have hsubset : ∀ ch ∈ ["no", "ok", "ok,ok", "ok,no", "ok,ok,ok", "ok,ok,no"].map String.toList,
      ch ∈ chat_histories := by
    decide
  exact hsubset _ (chat_ok_mem h.chat_history)

/-- The walk takes a record just when the record has what its pattern asks for. -/
theorem brr_re_line (h : r.Matches) :
    brr_re (r.line ++ ['\n']) = if r.Walked then some r.row else none := by
  obtain ⟨htime, htag, hdet, hverb, hudig, hchat, hbytes, hsec, hnsec⟩ := h.not_mem (c := '\t') List.mem_cons_self
  have htransport : '\t' ∉ r.tag ++ '~' :: r.detail := by
    simp [htag, hdet]
  have hduration : '\t' ∉ r.sec ++ '.' :: r.nsec := by
    simp [hsec, hnsec]
  have hline : r.line = r.start_time ++ '\t' :: ((r.tag ++ '~' :: r.detail) ++ '\t' :: (r.verb.text ++ '\t' ::
      (r.udig ++ '\t' :: (r.chat_history ++ '\t' :: (r.byte_count ++ '\t' :: (r.sec ++ '.' :: r.nsec)))))) := by
    simp [BrrFields.line]
  have hsplit : r.line.splitOn '\t' = [r.start_time, r.tag ++ '~' :: r.detail, r.verb.text, r.udig, r.chat_history,
      r.byte_count, r.sec ++ '.' :: r.nsec] := by
    rw [hline, List.splitOn_append_cons_self_of_not_mem htime, List.splitOn_append_cons_self_of_not_mem htransport,
      List.splitOn_append_cons_self_of_not_mem hverb, List.splitOn_append_cons_self_of_not_mem hudig,
      List.splitOn_append_cons_self_of_not_mem hchat, List.splitOn_append_cons_self_of_not_mem hbytes,
      List.splitOn_eq_singleton hduration]
  have hsize : Chars digits 1 19 r.byte_count ↔ r.byte_count.length ≤ 19 :=
    ⟨fun hc => hc.upper, fun hle => ⟨h.byte_count.subset, h.byte_count.lower, hle⟩⟩
  rw [brr_re, if_neg (by simp), List.dropLast_concat, hsplit]
  dsimp only
  rw [find_verb h.verb]
  dsimp only
  refine if_congr ?_ rfl rfl
  rw [start_time_re_iff h.start_time, udig_ok_iff h, hsize, wall_duration_re_iff h]
  constructor
  · rintro ⟨⟨hyear, hmonth, hday⟩, -, hudig, -, hsize, hnsec⟩
    exact ⟨hyear, hmonth, hday, hudig, hsize, hnsec⟩
  · rintro ⟨hyear, hmonth, hday, hudig, hsize, hnsec⟩
    exact ⟨⟨hyear, hmonth, hday⟩, transport_re_of_matches h, hudig, chat_mem h, hsize, hnsec⟩

/-- The log of records. -/
def log_of (rs : List BrrFields) : Text := TerminatedLines.terminated '\n' (rs.map BrrFields.line)

theorem lines_terminated {ls : List Text} (h : ∀ l ∈ ls, '\n' ∉ l) :
    lines (TerminatedLines.terminated '\n' ls) = ls.map (· ++ ['\n']) := by
  rw [lines, TerminatedLines.splitOn_terminated h, List.dropLast_concat, List.getLast?_concat]
  simp

theorem lines_log_of {rs : List BrrFields} (h : ∀ r ∈ rs, r.Matches) :
    lines (log_of rs) = rs.map fun r => r.line ++ ['\n'] := by
  rw [log_of, lines_terminated, List.map_map]
  · rfl
  · intro l hl
    obtain ⟨r, hr, rfl⟩ := List.mem_map.mp hl
    exact (h r hr).clean.1

theorem log_of_walked {rs : List BrrFields} (h : ∀ r ∈ rs, r.Matches) (hwalked : ∀ r ∈ rs, r.Walked) :
    (lines (log_of rs)).map brr_re = (rs.map BrrFields.row).map some := by
  rw [lines_log_of h, List.map_map, List.map_map]
  refine List.map_congr_left fun r hr => ?_
  change brr_re (r.line ++ ['\n']) = some r.row
  rw [brr_re_line (h r hr), if_pos (hwalked r hr)]

/-- A log that `bio-frisk-brr` is made for is matched row by row just when each record has what the pattern asks
for, and then the walk sees the records as they were written. -/
theorem frisked_log_walked_iff {rs : List BrrFields} (h : ∀ r ∈ rs, r.Matches) :
    (∀ bs, (lines (log_of rs)).map brr_re = bs.map some ↔ (∀ r ∈ rs, r.Walked) ∧ bs = rs.map BrrFields.row) := by
  intro bs
  constructor
  · intro hbs
    have hwalked : ∀ r ∈ rs, r.Walked := by
      intro r hr
      by_contra hnot
      have hnone : none ∈ (lines (log_of rs)).map brr_re := by
        rw [lines_log_of h, List.map_map]
        refine List.mem_map.mpr ⟨r, hr, ?_⟩
        change brr_re (r.line ++ ['\n']) = none
        rw [brr_re_line (h r hr), if_neg hnot]
      rw [hbs] at hnone
      obtain ⟨b, -, hb⟩ := List.mem_map.mp hnone
      cases hb
    refine ⟨hwalked, ?_⟩
    rw [log_of_walked h hwalked] at hbs
    exact (List.map_injective_iff.mpr (Option.some_injective _) hbs).symm
  · rintro ⟨hwalked, rfl⟩
    exact log_of_walked h hwalked

theorem get_line_walked : ∃ r : BrrFields, ∀ bs,
    (lines (log_of [r])).map brr_re = bs.map some ↔ (∀ r' ∈ [r], r'.Walked) ∧ bs = [r].map BrrFields.row := by
  obtain ⟨r, hr, -⟩ := get_line_isRecord
  exact ⟨r, frisked_log_walked_iff fun r' hr' => List.mem_singleton.mp hr' ▸ hr⟩

end Walk
end grammar

/-! ### The records of the service -/

namespace RequestChild
open DecimalNumerals

/-- Years of the third millennium start with a two. -/
theorem head_year {y : ℤ} (h : 2000 ≤ y ∧ y ≤ 2999) : (padded_int 4 y).head? = some '2' := by
  obtain ⟨n, rfl⟩ := Int.eq_ofNat_of_zero_le (show 0 ≤ y by omega)
  have hthousands : n / 10 / 10 / 10 = 2 := by omega
  have hdigits : Nat.toDigits 10 n = '2' :: (Nat.toDigits 10 (n / 10 / 10 % 10) ++ Nat.toDigits 10 (n / 10 % 10) ++
      Nat.toDigits 10 (n % 10)) := by
    rw [toDigits_split (by omega), @toDigits_split (n / 10) (by omega), @toDigits_split (n / 10 / 10) (by omega),
      hthousands]
    rfl
  change (padded 4 n).head? = some '2'
  have hlen : (Nat.toDigits 10 n).length = 4 :=
    Nat.le_antisymm ((Nat.length_toDigits_le_iff (by decide) (by decide)).mpr (by omega)) (by
      by_contra hlt
      have hle := (Nat.length_toDigits_le_iff (by decide) (show 0 < 3 by decide)).mp
        (show (Nat.toDigits 10 n).length ≤ 3 by omega)
      omega)
  rw [padded, hlen, hdigits]
  rfl

/-- Where the month and the day stand in a date. -/
theorem getD_date {year month day rest : Text} (hyear : year.length = 4) (hmonth : month.length = 2)
    (hday : day.length = 2) {f : Text} (hf : f = year ++ '-' :: (month ++ '-' :: (day ++ rest))) :
    (f.getD 5 ' ' = month.getD 0 ' ' ∧ f.getD 6 ' ' = month.getD 1 ' ') ∧
      f.getD 8 ' ' = day.getD 0 ' ' ∧ f.getD 9 ' ' = day.getD 1 ' ' := by
  obtain ⟨m, m', rfl⟩ := List.length_eq_two.mp hmonth
  obtain ⟨d, d', rfl⟩ := List.length_eq_two.mp hday
  subst hf
  match year, hyear with
  | [_, _, _, _], _ => exact ⟨⟨rfl, rfl⟩, rfl, rfl⟩

theorem walked_of_regular {x : Recorded} (h : x.Regular) (hyear : x.year ≤ 2999) : x.fields.Walked := by
  obtain ⟨t, htm, -⟩ := start_tm_eq x.log x.start_time x.end_time
  have hfields : x.fields.start_time = start_text (gmtime t) x.start_time.tv_nsec := by
    rw [Recorded.fields, Recorded.tm, htm]
  have hlower := h.year
  rw [Recorded.year, Recorded.tm, htm] at hyear hlower
  obtain ⟨hmon, hday, -⟩ := @gmtime_ranges t
  have hmonths : ∀ n : Fin 13, Walk.month_re ((padded 2 n).getD 0 ' ') ((padded 2 n).getD 1 ' ') := by decide +kernel
  have hdays : ∀ n : Fin 32, Walk.day_re ((padded 2 n).getD 0 ' ') ((padded 2 n).getD 1 ' ') := by decide +kernel
  obtain ⟨⟨h5, h6⟩, h8, h9⟩ := @getD_date (padded_int 4 ((gmtime t).tm_year + 1900))
    (padded 2 ((gmtime t).tm_mon + 1)) (padded 2 (gmtime t).tm_mday) _
    (fits_year hlower).length_eq.symm (length_padded (by decide) (by omega)) (length_padded (by decide) (by omega))
    (start_text (gmtime t) x.start_time.tv_nsec) rfl
  refine ⟨?_, ?_, ?_, ?_, ?_, ?_⟩
  · have hhead : (padded_int 4 ((gmtime t).tm_year + 1900)).head? = some '2' :=
      head_year ⟨hlower.1, hyear⟩
    rw [hfields, start_text, List.head?_append, hhead]
    rfl
  · rw [hfields, h5, h6]
    exact hmonths ⟨_, Nat.lt_succ_of_le hmon⟩
  · rw [hfields, h8, h9]
    exact hdays ⟨_, Nat.lt_succ_of_le hday⟩
  · intro hnil
    have hlen := x.udig_syntax.chars.1
    rw [show udig_text x.data.requested = [] from hnil] at hlen
    cases hlen
  · exact (chars_toDigits (by decide) (h.size.trans (by decide : 10 ^ 18 < 10 ^ 19))).upper
  · exact length_padded (by decide) x.nsec_lt

/-- The walk sees the requests of the service as the service has recorded them, in the order of its log. -/
theorem server_log_walked (records : List Recorded) (h : ∀ x ∈ records, x.Regular ∧ x.year ≤ 2999) :
    (Walk.lines (records.flatMap Recorded.message)).map Walk.brr_re =
      (records.map fun x => x.fields.row).map some := by
  have hlog : records.flatMap Recorded.message = Walk.log_of (records.map Recorded.fields) := by
    rw [Walk.log_of, TerminatedLines.terminated, List.map_map, List.flatMap_map]
    exact List.flatMap_congr fun x hx => Recorded.message_eq (h x hx).1
  have hmatches : ∀ r ∈ records.map Recorded.fields, r.Matches := by
    intro r hr
    obtain ⟨x, hx, rfl⟩ := List.mem_map.mp hr
    exact Recorded.fields_matches (h x hx).1
  have hwalked : ∀ r ∈ records.map Recorded.fields, r.Walked := by
    intro r hr
    obtain ⟨x, hx, rfl⟩ := List.mem_map.mp hr
    exact walked_of_regular (h x hx).1 (h x hx).2
  rw [hlog, Walk.log_of_walked hmatches hwalked]
  simp only [List.map_map]
  rfl

theorem get_log_walked : (Walk.lines ([get_empty_at 1700000000].flatMap Recorded.message)).map Walk.brr_re =
    ([get_empty_at 1700000000].map fun x => x.fields.row).map some := by
  refine server_log_walked _ fun x hx => ?_
  obtain rfl := List.mem_singleton.mp hx
  exact ⟨⟨by decide, by decide +kernel, by decide, by decide, by decide, .inl (by decide +kernel)⟩, by decide +kernel⟩

end RequestChild

end Blobio
