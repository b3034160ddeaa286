import Blobio.MessagePipes
import Blobio.WrapRecords

/-! The length of a record. The logger tells a record from the request of a freeze by its
length alone, and the length goes before the message in one byte. -/
namespace Blobio.RequestChild
open DecimalNumerals LengthFrames MessagePipes

/-- `time_t` is a signed integer of 64 bits. -/
def Timespec.Representable (t : Timespec) : Prop :=
  -2 ^ 63 ≤ t.tv_sec ∧ t.tv_sec < 2 ^ 63

instance (t : Timespec) : Decidable t.Representable :=
  inferInstanceAs (Decidable (_ ∧ _))

/-! ### The length of a field -/

section numerals
variable {w n k : ℕ}

theorem width_le_length_padded (w n : ℕ) : w ≤ (padded w n).length := by
  rw [padded, List.length_append, List.length_replicate]
  omega

theorem length_padded_le (hk : 0 < k) (hn : n < 10 ^ k) (hw : w ≤ k) : (padded w n).length ≤ k := by
  have hdigits := (Nat.length_toDigits_le_iff (b := 10) (by decide) hk).mpr hn
  rw [padded, List.length_append, List.length_replicate]
  omega

theorem width_le_length_padded_int (i : ℤ) : 4 ≤ (padded_int 4 i).length := by
  cases i with
  | ofNat n => exact width_le_length_padded 4 n
  | negSucc n => exact Nat.succ_le_succ (width_le_length_padded 3 (n + 1))

theorem length_padded_int_le {i : ℤ} (h : i.natAbs < 10 ^ 12) : (padded_int 4 i).length ≤ 13 := by
  cases i with
  | ofNat n =>
    have hlen : (padded 4 n).length ≤ 12 := length_padded_le (by decide) h (by decide)
    exact hlen.trans (by decide)
  | negSucc n =>
    have hlen : (padded 3 (n + 1)).length ≤ 12 := length_padded_le (by decide) h (by decide)
    exact Nat.succ_le_succ hlen

end numerals

/-- A year of twelve digits is as far as the seconds of a clock go, in any zone. -/
theorem year_natAbs_lt {t : ℤ} (hlower : -2 ^ 64 ≤ t) (hupper : t < 2 ^ 64) :
    ((gmtime t).tm_year + 1900).natAbs < 10 ^ 12 := by
  have hcycle := (CivilDates.year_of_lt (t / 86400 - 10957)).1
  simp only [gmtime, CivilDates.date_of_days]
  omega

theorem length_start_text (t : ℤ) {tv_nsec : ℕ} (h : tv_nsec < 1000000000) :
    (start_text (gmtime t) tv_nsec).length = (padded_int 4 ((gmtime t).tm_year + 1900)).length + 31 := by
  obtain ⟨hmon, hday, hhour, hmin, hsec⟩ := @gmtime_ranges t
  have hnsec : (padded 9 tv_nsec).length = 9 := length_padded (by decide) h
  have htwo : ∀ n ≤ 59, (padded 2 n).length = 2 :=
    fun n hn => length_padded (by decide) (Nat.lt_of_le_of_lt hn (by decide))
  have hzone : "+00:00".toList.length = 6 := by decide
  simp only [start_text, List.length_append, List.length_cons, hnsec, hzone, htwo _ (hmon.trans
    (by decide)),
    htwo _ (hday.trans (by decide)), htwo _ (hhour.trans (by decide)), htwo _ hmin, htwo _ hsec]

namespace Recorded
variable {x : Recorded}

/-- What `brr_send` has in its buffer. -/
def record (x : Recorded) : Bytes :=
  (brr_text x.log x.start_time x.end_time (transport x.bind_address x.remote_address) x.data).map Char.toUInt8

theorem brr_text_eq (x : Recorded) : brr_text x.log x.start_time x.end_time
    (transport x.bind_address x.remote_address) x.data = x.fields.line ++ ['\n'] := by
  rw [transport_eq]
  simp [brr_text, BrrFields.line, fields, blob_size, seconds, tm]

theorem length_udig_le (x : Recorded) : x.fields.udig.length ≤ 46 := by
  obtain ⟨dg, hdg⟩ := x.left.digest
  have hname : x.data.requested.algorithm.name.length ≤ 5 := by
    cases x.data.requested.algorithm <;> decide
  have hlen := dg.length_chars
  rw [fields, udig_text, hdg, List.length_append, List.length_append]
  split <;> simp only [List.length_singleton, List.length_nil] <;> omega

theorem length_chat_history_le (x : Recorded) : x.fields.chat_history.length ≤ 8 := by
  obtain ⟨rs, hrs, -, heq⟩ := x.left.chat
  have hchats : ∀ verb, ∀ rs ∈ reached verb, (joined rs).length ≤ 8 := by
    intro verb
    cases verb <;> decide
  rw [fields, heq]
  exact hchats _ rs hrs

theorem seconds_lt (hstart : x.start_time.Representable) (hend : x.end_time.Representable) :
    x.seconds < 2 ^ 64 := by
  obtain ⟨hstart, -⟩ := hstart
  obtain ⟨-, hend⟩ := hend
  have hlt : (elapsed x.start_time x.end_time).1 < 2 ^ 64 := by
    unfold elapsed
    split <;> dsimp only <;> omega
  unfold seconds wall_duration
  dsimp only
  split <;> omega

theorem length_start_time (x : Recorded) :
    x.fields.start_time.length = (padded_int 4 x.year).length + 31 := by
  obtain ⟨t, htm, -⟩ := start_tm_eq x.log x.start_time x.end_time
  change (start_text x.tm x.start_time.tv_nsec).length = (padded_int 4 (x.tm.tm_year + 1900)).length + 31
  rw [tm, htm]
  exact length_start_text t x.start_time.tv_nsec_lt

theorem year_lt (hstart : x.start_time.Representable) : x.year.natAbs < 10 ^ 12 := by
  obtain ⟨t, htm, ht⟩ := start_tm_eq x.log x.start_time x.end_time
  obtain ⟨hlower, hupper⟩ := hstart
  have hlog := x.log.heartbeat_range
  have hzone := x.log.gmtoff_range
  have hrange : -2 ^ 64 ≤ t ∧ t < 2 ^ 64 := by
    omega
  rw [year, tm, htm]
  exact year_natAbs_lt hrange.1 hrange.2

theorem record_length (x : Recorded) : x.record.length =
    x.fields.start_time.length + x.fields.detail.length + x.fields.verb.text.length +
      x.fields.udig.length + x.fields.chat_history.length + x.fields.byte_count.length +
      x.fields.sec.length + x.fields.nsec.length + 13 := by
  have htag : x.fields.tag.length = 4 := rfl
  rw [record, brr_text_eq]
  simp only [BrrFields.line, List.length_map, List.length_append, List.length_cons, List.length_nil]
  omega

theorem lt_record_length (x : Recorded) : 25 < x.record.length := by
  have hyear := width_le_length_padded_int x.year
  have htime := x.length_start_time
  rw [record_length]
  omega

theorem record_length_le (hstart : x.start_time.Representable) (hend : x.end_time.Representable) :
    x.record.length ≤ 255 := by
  have hyear := length_padded_int_le (year_lt hstart)
  have htime := x.length_start_time
  have hdetail : x.fields.detail.length ≤ 43 := (chars_detail x.bind_address x.remote_address).upper
  have hverb : x.fields.verb.text.length ≤ 4 := by
    cases x.fields.verb <;> decide
  have hudig := x.length_udig_le
  have hchat := x.length_chat_history_le
  have hsize : x.fields.byte_count.length ≤ 20 := by
    refine (Nat.length_toDigits_le_iff (by decide) (by decide)).mpr ?_
    have hlt : x.blob_size < 2 ^ 64 := Nat.mod_lt _ (by decide)
    exact hlt.trans (by decide)
  have hsec : x.fields.sec.length ≤ 20 := by
    refine (Nat.length_toDigits_le_iff (by decide) (by decide)).mpr ?_
    exact (seconds_lt hstart hend).trans (by decide)
  have hnsec : x.fields.nsec.length = 9 := length_padded (by decide) x.nsec_lt
  rw [record_length]
  omega

/-- Neither the buffer nor the byte of the length cuts the record. -/
theorem payload_eq (hstart : x.start_time.Representable) (hend : x.end_time.Representable) :
    x.payload = x.record := by
  have hlen := record_length_le hstart hend
  rw [record, List.length_map] at hlen
  rw [payload, message, brr_message, List.take_of_length_le (hlen.trans (by decide)),
    Nat.mod_eq_of_lt (Nat.lt_succ_of_le hlen), List.take_length]
  rfl

end Recorded

theorem wrap_request_length {pid : ℕ} (hpid : pid < 10 ^ 10) : (wrap_request pid).length = 25 := by
  have hpadded : (padded 10 pid).length = 10 := length_padded (by decide) hpid
  change (("run/wrap-".toList ++ padded 10 pid ++ ".fifo".toList).map Char.toUInt8 ++ [0]).length = 25
  simp [hpadded]

/-- The message of a record has all of the record. It is longer than the request of a freeze,
and the logger adds it to the log. -/
theorem record_logged (x : Recorded) (hstart : x.start_time.Representable)
    (hend : x.end_time.Representable) :
    (∀ pid < 2 ^ 32, (wrap_request pid).length < x.record.length) ∧ x.record.length ≤ 255 ∧
      x.payload = x.record ∧ io_msg_write x.record = some (frame x.record) ∧
      ∀ s : Logger, brr_logger s x.record = some { s with
        tree := s.tree.modify log_path (· ++ [x.record])
        received := s.received ++ [x.record] } := by
  have hlower := x.lt_record_length
  have hupper := Recorded.record_length_le hstart hend
  refine ⟨?_, hupper, Recorded.payload_eq hstart hend, ?_, ?_⟩
  · intro pid hpid
    rw [wrap_request_length (hpid.trans (by decide))]
    exact hlower
  · exact io_msg_write_of_fits ⟨Nat.lt_of_le_of_lt (Nat.zero_le _) hlower, hupper⟩
  · intro s
    have hne : x.record ≠ [] := by
      intro hnil
      rw [hnil] at hlower
      cases hlower
    rw [brr_logger, if_neg (not_or.mpr ⟨hne, Nat.not_lt.mpr hupper⟩), if_neg (Nat.ne_of_gt hlower)]

theorem record_of_get_logged : (get_empty_at 1700000000).record.length ≤ 255 :=
  (record_logged (get_empty_at 1700000000) (by decide) (by decide)).2.1

end Blobio.RequestChild
