import Blobio.CivilDates
import Blobio.DecimalNumerals
import Blobio.LogAcceptance
import Blobio.RequestOutcomes

/-! The line that a request process sends to the logger, and when `bio-frisk-brr` accepts
the log of such lines. -/
namespace Blobio.RequestChild
open CivilDates DecimalNumerals

/-! ### The line of a record -/

/-- What `clock_gettime` gives. -/
structure Timespec where
  tv_sec : ℤ
  tv_nsec : ℕ
  tv_nsec_lt : tv_nsec < 1000000000

theorem no_nsec_lt : 0 < 1000000000 := by
  decide

structure Tm where
  tm_year : ℤ
  tm_mon : ℕ
  tm_mday : ℕ
  tm_hour : ℕ
  tm_min : ℕ
  tm_sec : ℕ

/-- The first of January 2000 is 10957 days behind the epoch. -/
def gmtime (t : ℤ) : Tm :=
  let date := date_of_days (t / 86400 - 10957)
  let second := (t % 86400).toNat
  ⟨date.year - 1900, date.month - 1, date.day, second / 3600, second % 3600 / 60, second % 60⟩

/-- The last line that the process has put in the log of the server: the clock, and how far the
host's zone is ahead of UTC then. -/
structure LogClock where
  recent_log_heartbeat : ℤ
  gmtoff : ℤ
  heartbeat_range : -2 ^ 63 ≤ recent_log_heartbeat ∧ recent_log_heartbeat < 2 ^ 63
  gmtoff_range : -2 ^ 31 ≤ gmtoff ∧ gmtoff < 2 ^ 31

def localtime (log : LogClock) : Tm :=
  gmtime (log.recent_log_heartbeat + log.gmtoff)

/-- `%0wd` -/
def padded_int (w : ℕ) : ℤ → Text
  | .ofNat n => padded w n
  | .negSucc n => '-' :: padded (w - 1) (n + 1)

/-- An address and a port, in the byte order of the host. -/
structure SockAddr where
  addr : BitVec 32
  port : BitVec 16

def net_32addr2text (addr : BitVec 32) : Text :=
  let byte (i : ℕ) : Text := Nat.toDigits 10 (addr.toNat / 256 ^ i % 256)
  byte 3 ++ '.' :: (byte 2 ++ '.' :: (byte 1 ++ '.' :: byte 0))

def SockAddr.text (a : SockAddr) : Text :=
  net_32addr2text a.addr ++ ':' :: Nat.toDigits 10 a.port.toNat

/-- The transport of a request, in its buffer of 129 characters less one. -/
def transport (bind_address remote_address : SockAddr) : Text :=
  ("tcp4~".toList ++ bind_address.text ++ ';' :: remote_address.text).take 127

/-- Seconds and nanoseconds from the start to the end, one second borrowed for the latter. -/
def elapsed (start_time end_time : Timespec) : ℤ × ℤ :=
  if (end_time.tv_nsec : ℤ) - start_time.tv_nsec < 0 then
    (end_time.tv_sec - start_time.tv_sec - 1, 1000000000 + end_time.tv_nsec - start_time.tv_nsec)
  else (end_time.tv_sec - start_time.tv_sec, end_time.tv_nsec - start_time.tv_nsec)

/-- A negative duration is reset to 0. -/
def wall_duration (start_time end_time : Timespec) : ℕ × ℕ :=
  let (sec, nsec) := elapsed start_time end_time
  (if sec < 0 then 0 else sec.toNat, if nsec < 0 then 0 else nsec.toNat)

def BRR_SIZE : ℕ := 419

def udig_text (r : Requested) : Text :=
  r.algorithm.name ++ (if r.algorithm.name ≠ [] ∧ r.digest ≠ [] then [':'] else []) ++ r.digest

def start_text (t : Tm) (tv_nsec : ℕ) : Text :=
  padded_int 4 (t.tm_year + 1900) ++ '-' :: (padded 2 (t.tm_mon + 1) ++ '-' :: (padded 2 t.tm_mday ++
    'T' :: (padded 2 t.tm_hour ++ ':' :: (padded 2 t.tm_min ++ ':' :: (padded 2 t.tm_sec ++
      '.' :: (padded 9 tv_nsec ++ "+00:00".toList))))))

/-- What is in the static structure that `gmtime` shares with `localtime` when the record is
printed: of a duration that is negative `error2` and `warn2` have written to the log since. -/
def start_tm (log : LogClock) (start_time end_time : Timespec) : Tm :=
  if (elapsed start_time end_time).1 < 0 then localtime log else gmtime start_time.tv_sec

/-- What `brr_format` makes of a record. -/
def brr_text (log : LogClock) (start_time end_time : Timespec) (transport : Text) (d : BrrData) : Text :=
  let wall := wall_duration start_time end_time
  start_text (start_tm log start_time end_time) start_time.tv_nsec ++ '\t' :: (transport ++
    '\t' :: (d.requested.verb.text ++ '\t' :: (udig_text d.requested ++
      '\t' :: (d.chat_history ++ '\t' :: (Nat.toDigits 10 (d.blob_size % 2 ^ 64) ++ '\t' ::
        (Nat.toDigits 10 wall.1 ++ '.' :: (padded 9 wall.2 ++ ['\n'])))))))

/-- The message of a record: cut to its buffer, and then to the byte that counts it. -/
def brr_message (log : LogClock) (start_time end_time : Timespec) (transport : Text) (d : BrrData) : Text :=
  let brr := (brr_text log start_time end_time transport d).take (BRR_SIZE + 1)
  brr.take (brr.length % 256)

/-! ### The fields of a record -/

section fields
variable {n : ℕ}

theorem chars_toDigits {upper : ℕ} (hpos : 0 < upper) (h : n < 10 ^ upper) :
    Chars digits 1 upper (Nat.toDigits 10 n) where
  subset _ hc := mem_digits.mpr (isDigit_of_mem_decimal hc)
  lower := Nat.length_toDigits_pos
  upper := (Nat.length_toDigits_le_iff (by decide) hpos).mpr h

theorem chars_padded {w : ℕ} (hpos : 0 < w) (h : n < 10 ^ w) : Chars digits w w (padded w n) where
  subset _ hc := mem_digits.mpr (isDigit_of_mem_padded hc)
  lower := (length_padded hpos h).ge
  upper := (length_padded hpos h).le

/-- Two digits, of which the first is at most that of the limit. -/
theorem fits_padded (hi : Char) (limit : ℕ)
    (hcheck : ∀ n : Fin (limit + 1), Fits [between '0' hi, isdigit] (padded 2 n)) (h : n ≤ limit) :
    Fits [between '0' hi, isdigit] (padded 2 n) :=
  hcheck ⟨n, Nat.lt_succ_of_le h⟩

theorem fits_append {s s' : List (Char → Bool)} {f f' : Text} (h : Fits s f) (h' : Fits s' f') :
    Fits (s ++ s') (f ++ f') :=
  List.rel_append h h'

theorem toDigits_split (h : 10 ≤ n) :
    Nat.toDigits 10 n = Nat.toDigits 10 (n / 10) ++ Nat.toDigits 10 (n % 10) := by
  rw [Nat.toDigits_append_toDigits (by decide) (by omega) (by omega), Nat.div_add_mod]

/-- Years of four digits up to 5999 are written without a zero in front. -/
theorem fits_year {y : ℤ} (h : 2000 ≤ y ∧ y ≤ 5999) :
    Fits [between '2' '5', isdigit, isdigit, isdigit] (padded_int 4 y) := by
  have hdigit : ∀ k : ℕ, Fits [isdigit] (Nat.toDigits 10 (k % 10)) := by
    intro k
    have hcheck : ∀ i : Fin 10, Fits [isdigit] (Nat.toDigits 10 i) := by decide
    exact hcheck ⟨k % 10, by omega⟩
  have hfirst : ∀ i : Fin 4, Fits [between '2' '5'] (Nat.toDigits 10 (2 + i)) := by decide
  obtain ⟨n, rfl⟩ := Int.eq_ofNat_of_zero_le (show 0 ≤ y by omega)
  have hfits : Fits [between '2' '5', isdigit, isdigit, isdigit] (Nat.toDigits 10 n) := by
    rw [toDigits_split (by omega), toDigits_split (n := n / 10) (by omega),
      toDigits_split (n := n / 10 / 10) (by omega)]
    have hthousands := hfirst ⟨n / 10 / 10 / 10 - 2, by omega⟩
    rw [show 2 + (n / 10 / 10 / 10 - 2) = n / 10 / 10 / 10 by omega] at hthousands
    exact fits_append (fits_append (fits_append hthousands (hdigit _)) (hdigit _)) (hdigit _)
  have hpadded : padded_int 4 (n : ℤ) = Nat.toDigits 10 n := by
    change padded 4 n = Nat.toDigits 10 n
    rw [padded, ← hfits.length_eq]
    rfl
  rwa [hpadded]

theorem fits_char {c : Char} {s : List (Char → Bool)} {f : Text} (h : Fits s f) :
    Fits ((· = c) :: s) (c :: f) :=
  .cons (decide_eq_true rfl) h

end fields

/-- The numbers of a moment that `gmtime` breaks down. -/
theorem gmtime_ranges {t : ℤ} :
    (gmtime t).tm_mon + 1 ≤ 12 ∧ (gmtime t).tm_mday ≤ 31 ∧ (gmtime t).tm_hour ≤ 23 ∧
      (gmtime t).tm_min ≤ 59 ∧
      (gmtime t).tm_sec ≤ 59 := by
  obtain ⟨hlower, hupper, hday⟩ := month_of_lt (t / 86400 - 10957)
  have hle := days_in_le (month_of (t / 86400 - 10957)).1 (year_of (t / 86400 - 10957)).1
  simp only [gmtime, date_of_days]
  omega

/-- Whatever moment is printed, it is one that `gmtime` has broken down. -/
theorem start_tm_eq (log : LogClock) (start_time end_time : Timespec) :
    ∃ t, start_tm log start_time end_time = gmtime t ∧
      (t = start_time.tv_sec ∨ t = log.recent_log_heartbeat + log.gmtoff) := by
  unfold start_tm localtime
  split
  · exact ⟨_, rfl, .inr rfl⟩
  · exact ⟨_, rfl, .inl rfl⟩

theorem startTime_text {t : ℤ} {tv_nsec : ℕ} (hnsec : tv_nsec < 1000000000)
    (h : 2000 ≤ (gmtime t).tm_year + 1900 ∧ (gmtime t).tm_year + 1900 ≤ 5999) :
    StartTime (start_text (gmtime t) tv_nsec) := by
  obtain ⟨hmon, hday, hhour, hmin, hsec⟩ := @gmtime_ranges t
  have hdate : Fits date_shape (padded_int 4 ((gmtime t).tm_year + 1900) ++
      '-' :: (padded 2 ((gmtime t).tm_mon + 1) ++ '-' :: (padded 2 (gmtime t).tm_mday ++
        'T' :: (padded 2 (gmtime t).tm_hour ++ ':' :: (padded 2 (gmtime t).tm_min ++
          ':' :: (padded 2 (gmtime t).tm_sec ++ ['.'])))))) := by
    refine fits_append (fits_year h) (fits_char ?_)
    refine fits_append (fits_padded '1' 12 (by decide +kernel) hmon) (fits_char ?_)
    refine fits_append (fits_padded '3' 31 (by decide +kernel) hday) (fits_char ?_)
    refine fits_append (fits_padded '2' 23 (by decide +kernel) hhour) (fits_char ?_)
    refine fits_append (fits_padded '5' 59 (by decide +kernel) hmin) (fits_char ?_)
    exact fits_append (fits_padded '5' 59 (by decide +kernel) hsec) (fits_char .nil)
  refine ⟨_, padded 9 tv_nsec, "+00:00".toList, ?_, hdate, ?_, by decide⟩
  · simp [start_text]
  · have hpadded := chars_padded (w := 9) (by decide) hnsec
    exact ⟨hpadded.subset, (by decide : 1 ≤ 9).trans hpadded.lower, hpadded.upper⟩

section transports
variable (bind_address remote_address : SockAddr)

theorem chars_append {set f f' : Text} {lower upper lower' upper' : ℕ} (h : Chars set lower upper f)
    (h' : Chars set lower' upper' f') : Chars set (lower + lower') (upper + upper') (f ++ f') where
  subset c hc := (List.mem_append.mp hc).elim (h.subset c) (h'.subset c)
  lower := List.length_append ▸ Nat.add_le_add h.lower h'.lower
  upper := List.length_append ▸ Nat.add_le_add h.upper h'.upper

theorem chars_cons {set f : Text} {c : Char} {lower upper : ℕ} (hc : c ∈ set)
    (h : Chars set lower upper f) :
    Chars set (lower + 1) (upper + 1) (c :: f) where
  subset := List.forall_mem_cons.mpr ⟨hc, h.subset⟩
  lower := Nat.succ_le_succ h.lower
  upper := Nat.succ_le_succ h.upper

theorem Chars.graph {f : Text} {lower upper : ℕ}
    (h : Chars digits lower upper f) : Chars graph_set lower upper f where
  subset c hc := (by decide : ∀ c ∈ digits, c ∈ graph_set) c (h.subset c hc)
  lower := h.lower
  upper := h.upper

/-- Four numbers of a byte and one of two, with what separates them. -/
theorem chars_text (a : SockAddr) : Chars graph_set 9 21 a.text := by
  have hbyte : ∀ i, Chars graph_set 1 3 (Nat.toDigits 10 (a.addr.toNat / 256 ^ i % 256)) :=
    fun i => Chars.graph (chars_toDigits (by decide) (by omega))
  have hport : Chars graph_set 1 5 (Nat.toDigits 10 a.port.toNat) :=
    Chars.graph (chars_toDigits (by decide) (by have := a.port.isLt; omega))
  have hdot : '.' ∈ graph_set := by decide
  have hcolon : ':' ∈ graph_set := by decide
  exact chars_append (chars_append (hbyte 3) (chars_cons hdot (chars_append (hbyte 2)
    (chars_cons hdot (chars_append (hbyte 1) (chars_cons hdot (hbyte 0))))))) (chars_cons hcolon hport)

def detail : Text :=
  bind_address.text ++ ';' :: remote_address.text

theorem chars_detail : Chars graph_set 19 43 (detail bind_address remote_address) :=
  chars_append (chars_text bind_address) (chars_cons (by decide) (chars_text remote_address))

theorem transport_eq : transport bind_address remote_address =
    "tcp4".toList ++ '~' :: detail bind_address remote_address := by
  have hlen := (chars_detail bind_address remote_address).upper
  rw [detail, List.length_append, List.length_cons] at hlen
  rw [transport, List.take_of_length_le]
  · rfl
  · simp
    omega

end transports

/-! ### The records of a request -/

/-- A record that a request process has left behind, with the moments of its start and end
and the addresses of its connection. -/
structure Recorded where
  config : Config
  turns : List Turn
  child : Child
  data : BrrData
  left : Left config turns child data
  start_time : Timespec
  end_time : Timespec
  log : LogClock
  bind_address : SockAddr
  remote_address : SockAddr

namespace Recorded
variable (x : Recorded)

def message : Text :=
  brr_message x.log x.start_time x.end_time (transport x.bind_address x.remote_address) x.data

/-- The moment that is printed. -/
def tm : Tm :=
  start_tm x.log x.start_time x.end_time

def year : ℤ :=
  x.tm.tm_year + 1900

def seconds : ℕ :=
  (wall_duration x.start_time x.end_time).1

def blob_size : ℕ :=
  x.data.blob_size % 2 ^ 64

def fields : BrrFields where
  start_time := start_text x.tm x.start_time.tv_nsec
  tag := "tcp4".toList
  detail := detail x.bind_address x.remote_address
  verb := x.data.requested.verb
  udig := udig_text x.data.requested
  chat_history := x.data.chat_history
  byte_count := Nat.toDigits 10 x.blob_size
  sec := Nat.toDigits 10 x.seconds
  nsec := padded 9 (wall_duration x.start_time x.end_time).2

/-- A record that the checker is made for, in none of the fields that it misreads. -/
structure Regular : Prop where
  verb : x.data.requested.verb ≠ .cat
  year : 2000 ≤ x.year ∧ x.year ≤ 5999
  replied : x.data.requested.verb ∈ [Verb.put, .give, .take] → x.data.chat_history ≠ "ok".toList
  rolled : x.data.requested.verb = .roll → x.data.chat_history ≠ "no".toList
  size : x.blob_size < 10 ^ 18
  wall : x.seconds < 10 ^ 8 ∨ 10 ^ 9 ≤ x.seconds ∧ x.seconds ≤ 2147483647

end Recorded

section left
variable {config : Config} {turns : List Turn} {s : Child} {d : BrrData}

/-- A request that is no wrap is about a digest. -/
theorem dispatch_digest {installed : Installed} {verb algorithm digest : Text} {r : Requested}
    (h : dispatch installed verb algorithm digest = .callback r) (hv : r.verb ≠ .wrap) :
    ∃ dg : Digest, r.digest = dg.chars := by
  unfold dispatch at h
  split at h
  · rename_i hwrap
    split at h
    · cases h
    · obtain ⟨hverb, -⟩ := dispatch_module_eq_callback.mp h
      exact absurd (text_eq_wrap.mp (hverb ▸ hwrap)) hv
  · split at h
    · cases h
    · rename_i hne
      rw [not_or] at hne
      obtain ⟨-, rfl, -, -, hdigest⟩ := dispatch_module_eq_callback.mp h
      obtain ⟨hlen, hhex⟩ := (is_digest_ne_zero r.algorithm r.digest).mp (hdigest hne.2)
      exact ⟨⟨r.digest, hlen, hhex⟩, rfl⟩

theorem Left.digest (h : Left config turns s d) : ∃ dg : Digest, d.requested.digest = dg.chars := by
  obtain ⟨r, t, ⟨verb, algorithm, digest, hr⟩, ht, hchat, -, rfl⟩ := h.closed
  by_cases hv : r.verb = .wrap
  · obtain ⟨dg, hdg⟩ := (ht.wrapped hv).resolve_left hchat
    exact ⟨dg, by rw [hdg]⟩
  · have heq : t.requested = r := ht.requested.resolve_right fun h => hv h.1
    exact heq ▸ dispatch_digest hr hv

theorem Left.chat (h : Left config turns s d) :
    ∃ rs ∈ reached d.requested.verb, rs ≠ [] ∧ d.chat_history = joined rs := by
  obtain ⟨r, t, -, ht, hchat, -, rfl⟩ := h.closed
  exact ⟨t.chat, ht.verb ▸ ht.reached, hchat, rfl⟩

end left

namespace Recorded
variable {x : Recorded}

theorem udig_syntax (x : Recorded) : UdigSyntax (udig_text x.data.requested) := by
  obtain ⟨dg, hdg⟩ := x.left.digest
  have hne : dg.chars ≠ [] := by
    intro hnil
    have hlen := dg.length_chars
    rw [hnil] at hlen
    cases hlen
  have hhex : ∀ c ∈ nib2hex, c ∈ graph_set := by decide
  have hname : x.data.requested.algorithm.name ≠ [] ∧ Tag x.data.requested.algorithm.name := by
    cases x.data.requested.algorithm
    · exact ⟨by decide, 'b', "c160".toList, by decide⟩
    · exact ⟨by decide, 'b', "tc20".toList, by decide⟩
    · exact ⟨by decide, 's', "ha".toList, by decide⟩
  refine ⟨x.data.requested.algorithm.name, dg.chars, ?_, hname.2, fun c hc => hhex c (dg.hex_chars c hc),
    ?_, ?_⟩
  · rw [udig_text, hdg, if_pos ⟨hname.1, hne⟩]
    simp
  · rw [dg.length_chars]
    decide
  · rw [dg.length_chars]
    decide

/-- Of the chats that a verb comes to the checker takes all but a lone ok of a put, a give
or a take. -/
theorem chat_ok_of_regular (h : x.Regular) : chat_ok x.data.requested.verb x.data.chat_history := by
  obtain ⟨rs, hrs, hne, heq⟩ := x.left.chat
  have hreplied := h.replied
  have hcat := h.verb
  rw [heq] at hreplied ⊢
  revert hrs hne hreplied hcat
  generalize x.data.requested.verb = v
  clear heq
  revert rs
  cases v <;> decide +kernel

theorem wrapped_of_regular (h : x.Regular) : x.data.requested.verb = .wrap ∨ x.data.requested.verb = .roll →
    x.data.chat_history.getLast? ≠ some 'o' := by
  obtain ⟨rs, hrs, hne, heq⟩ := x.left.chat
  have hrolled := h.rolled
  rw [heq] at hrolled ⊢
  revert hrs hne hrolled
  generalize x.data.requested.verb = v
  clear heq
  revert rs
  cases v <;> decide +kernel

theorem nsec_lt (x : Recorded) : (wall_duration x.start_time x.end_time).2 < 1000000000 := by
  have hstart := x.start_time.tv_nsec_lt
  have hend := x.end_time.tv_nsec_lt
  have hlt : (elapsed x.start_time x.end_time).2 < 1000000000 := by
    unfold elapsed
    split <;> dsimp only <;> omega
  unfold wall_duration
  dsimp only
  split <;> omega

theorem seconds_le (h : x.Regular) : x.seconds ≤ 2147483647 := by
  have hwall := h.wall
  omega

theorem fields_matches (h : x.Regular) : x.fields.Matches where
  start_time := by
    obtain ⟨t, htm, -⟩ := start_tm_eq x.log x.start_time x.end_time
    have hyear : 2000 ≤ (start_tm x.log x.start_time x.end_time).tm_year + 1900 ∧
        (start_tm x.log x.start_time x.end_time).tm_year + 1900 ≤ 5999 := h.year
    change StartTime (start_text (start_tm x.log x.start_time x.end_time) x.start_time.tv_nsec)
    rw [htm] at hyear ⊢
    exact startTime_text x.start_time.tv_nsec_lt hyear
  tag := ⟨'t', "cp4".toList, rfl, by decide⟩
  detail := by
    have hdetail := chars_detail x.bind_address x.remote_address
    exact ⟨hdetail.subset, (by decide : 1 ≤ 19).trans hdetail.lower, hdetail.upper.trans (by decide)⟩
  verb := h.verb
  udig := .inr x.udig_syntax
  chat_history := chat_ok_of_regular h
  wrapped hv := by
    have hne : x.fields.udig ≠ [] := by
      intro hnil
      have hlen := x.udig_syntax.chars.1
      rw [show udig_text x.data.requested = [] from hnil] at hlen
      cases hlen
    exact iff_of_false hne (wrapped_of_regular h hv)
  byte_count := chars_toDigits (by decide) (h.size.trans (by decide))
  byte_count_le := by
    rw [fields, Nat.ofDigitChars_ten_toDigits]
    exact (Nat.le_of_lt h.size).trans (by decide)
  sec := chars_toDigits (by decide) (Nat.lt_of_le_of_lt (seconds_le h) (by decide))
  sec_le := by
    rw [fields, Nat.ofDigitChars_ten_toDigits]
    exact seconds_le h
  nsec := by
    have hnsec := chars_padded (w := 9) (by decide) x.nsec_lt
    exact ⟨hnsec.subset, (by decide : 1 ≤ 9).trans hnsec.lower, hnsec.upper⟩

theorem fields_slips (h : x.Regular) : ¬ x.fields.Slips := by
  have hdetail := (chars_detail x.bind_address x.remote_address).upper
  have hsize := (chars_toDigits (by decide : 0 < 18) h.size).upper
  have hsec : (Nat.toDigits 10 x.seconds).length ≠ 9 := by
    intro hlen
    rcases h.wall with hlt | ⟨hle, -⟩
    · have hshort := (chars_toDigits (by decide : 0 < 8) hlt).upper
      omega
    · have hlong := (Nat.length_toDigits_le_iff (b := 10) (by decide) (by decide)).mp (Nat.le_of_eq hlen)
      omega
  rintro (htag | hdet | hcount | hwall)
  · cases htag
  · exact absurd (hdet.symm.le.trans hdetail) (by decide)
  · exact absurd (hcount.symm.le.trans hsize) (by decide)
  · exact hsec hwall

theorem line_length (h : x.Regular) : x.fields.line.length ≤ 254 := by
  have hm := fields_matches h
  have htime : x.fields.start_time.length ≤ 35 := by
    obtain ⟨date, fraction, zone, ht, hd, hf, hz⟩ := hm.start_time.parts
    have hdate : date.length = 20 := hd.length_eq.symm
    have hzone : zone.length = 6 := hz.length_eq.symm
    have hfraction := hf.upper
    rw [ht, List.length_append, List.length_append]
    omega
  have hdetail : x.fields.detail.length ≤ 43 := (chars_detail x.bind_address x.remote_address).upper
  have hverb : x.fields.verb.text.length ≤ 4 := by
    cases x.fields.verb <;> decide
  have hudig : x.fields.udig.length ≤ 46 := by
    obtain ⟨dg, hdg⟩ := x.left.digest
    have hname : x.data.requested.algorithm.name.length ≤ 5 := by
      cases x.data.requested.algorithm <;> decide
    have hlen := dg.length_chars
    rw [fields, udig_text, hdg, List.length_append, List.length_append]
    split <;> simp only [List.length_singleton, List.length_nil] <;> omega
  have hchat : x.fields.chat_history.length ≤ 8 := by
    have := (chat_ok_chars hm.chat_history).2.2
    omega
  have htag : x.fields.tag.length = 4 := rfl
  have hcount := hm.byte_count.upper
  have hsec := hm.sec.upper
  have hnsec := hm.nsec.upper
  simp only [BrrFields.line, List.length_append, List.length_cons]
  omega

/-- The message is the line of the fields: it fits its buffer and its count. -/
theorem message_eq (h : x.Regular) : x.message = x.fields.line ++ ['\n'] := by
  have htext : brr_text x.log x.start_time x.end_time (transport x.bind_address x.remote_address) x.data =
      x.fields.line ++ ['\n'] := by
    rw [transport_eq]
    simp [brr_text, BrrFields.line, fields, blob_size, seconds, tm]
  have hlen : (x.fields.line ++ ['\n']).length ≤ 255 := by
    have hline := line_length h
    rw [List.length_append, List.length_singleton]
    omega
  have htake : (x.fields.line ++ ['\n']).take (BRR_SIZE + 1) = x.fields.line ++ ['\n'] :=
    List.take_of_length_le (hlen.trans (by decide))
  rw [message, brr_message, htext, htake, Nat.mod_eq_of_lt (Nat.lt_succ_of_le hlen), List.take_length]

end Recorded

/-- The log of the records of any requests is accepted, as long as these are regular. -/
theorem log_of_records_accepted {frisk_udig : Text → Bool} (hudig : ChecksUdigs frisk_udig)
    (records : List Recorded) (hne : records ≠ []) (h : ∀ x ∈ records, x.Regular) :
    (frisk_main frisk_udig (records.flatMap Recorded.message)).status = 0 := by
  have hlines : records.flatMap Recorded.message =
      (records.map fun x => x.fields.line).flatMap (· ++ ['\n']) ++ [] := by
    rw [List.append_nil, List.flatMap_map]
    exact List.flatMap_congr fun x hx => Recorded.message_eq (h x hx)
  rw [hlines, frisk_main_iff hudig ?_ List.not_mem_nil (.inl rfl)]
  · refine ⟨rfl, by simpa using hne, ?_⟩
    intro l hl
    obtain ⟨x, hx, rfl⟩ := List.mem_map.mp hl
    have hm := Recorded.fields_matches (h x hx)
    exact ⟨hm.length_lt, x.fields, hm, (scanned_eq_line (Recorded.fields_slips (h x hx))).symm⟩
  · intro l hl
    obtain ⟨x, hx, rfl⟩ := List.mem_map.mp hl
    exact (Recorded.fields_matches (h x hx)).clean

/-- A process that has put no line in the log of the server, in a zone of UTC. -/
def quiet_log : LogClock := ⟨0, 0, by decide, by decide⟩

/-- A get of the empty blob over the loopback, which takes one second. -/
def get_empty_at (start : ℤ) : Recorded where
  config := every_verb
  turns := answers ("get sha:".toList ++ empty_sha ++ ['\n']) 6
  child := get_empty_exit
  data := ⟨get_empty, "ok".toList, 0⟩
  left := ⟨by decide +kernel, by decide⟩
  start_time := ⟨start, 0, no_nsec_lt⟩
  end_time := ⟨start + 1, 0, no_nsec_lt⟩
  log := quiet_log
  bind_address := ⟨0x7f000001#32, 1797#16⟩
  remote_address := ⟨0x7f000001#32, 60000#16⟩

theorem log_of_get_accepted :
    (frisk_main udig_ok ([get_empty_at 1700000000].flatMap Recorded.message)).status = 0 := by
  refine log_of_records_accepted udig_ok_checks _ (List.cons_ne_nil _ _) ?_
  intro x hx
  obtain rfl := List.mem_singleton.mp hx
  exact ⟨by decide, by decide +kernel, by decide, by decide, by decide, .inl (by decide +kernel)⟩

/-- A clock that has not been set starts in 1970, a year that the checker does not take. -/
theorem log_of_unset_clock_not_accepted : ¬ ∀ records : List Recorded, records ≠ [] →
    (frisk_main udig_ok (records.flatMap Recorded.message)).status = 0 := by
  intro h
  have haccepted := h [get_empty_at 0] (List.cons_ne_nil _ _)
  have hrejected : (frisk_main udig_ok ([get_empty_at 0].flatMap Recorded.message)).status = 1 := by
    decide +kernel
  rw [haccepted] at hrejected
  cases hrejected

end Blobio.RequestChild
