import Blobio.ReplyReads

/-! The client's driver for a server: its end point, host and port, and the reply of the server. -/
namespace Blobio.Bio4
open RequestChild

/-! ### The reply of the server -/

inductive ReplyError
  | read (err : Text)
  | end_of_stream
  | not_ok_or_no
  | missing_new_line
  deriving DecidableEq

/-- What ends the stream: the error of a read, or nothing more to read. -/
def ended : Option Text → ReplyError
  | some err => .read err
  | none => .end_of_stream

/-- Every read is put at the start of the buffer again. -/
def read_into (buf : Text) (nread : ℕ) (chunk : Text) : Text :=
  chunk.take (3 - nread) ++ buf.drop (chunk.take (3 - nread)).length

def ok_or_no (buf : Text) : Except ReplyError ℤ :=
  if buf[2]? ≠ some '\n' then .error .missing_new_line
  else if buf[0]? = some 'o' ∧ buf[1]? = some 'k' then .ok 0
  else if buf[0]? = some 'n' ∧ buf[1]? = some 'o' then .ok 1
  else .error .not_ok_or_no

/-- The loop of `read_ok_no` from a buffer on, over what its reads return. -/
def read_reply_into (err : Option Text) (buf : Text) (nread : ℕ) : List Text → Except ReplyError ℤ
  | [] => .error (ended err)
  | chunk :: chunks =>
    let nr := (chunk.take (3 - nread)).length
    if nread + nr < 3 then read_reply_into err (read_into buf nread chunk) (nread + nr) chunks
    else ok_or_no (read_into buf nread chunk)

/-- The buffer holds anything at first. -/
def read_ok_no (junk : Char × Char × Char) (err : Option Text) (d : Delivery) : Except ReplyError ℤ :=
  read_reply_into err [junk.1, junk.2.1, junk.2.2] 0 d.chunks

/-- The line of the reply is all that it says. -/
def documented_line (stream : Text) : Option ℤ :=
  if stream.take 3 = "ok\n".toList then some 0
  else if stream.take 3 = "no\n".toList then some 1
  else none

def ReplyRight (d : Delivery) : Prop :=
  ∀ junk err, (read_ok_no junk err d).toOption = documented_line d.stream

/-- What a reply in pieces leaves in the buffer, by its second and third byte and the sizes of the first two
reads: the third byte goes to the front, behind a second byte that was read with it, or before one that was
read with the first byte. -/
def left_in_buffer (stream : Text) (sizes : List ℕ) : Text :=
  match stream, sizes with
  | _ :: y :: z :: _, 2 :: _ => [z, y]
  | _ :: _ :: z :: _, 1 :: 1 :: _ => [z]
  | _ :: y :: z :: _, 1 :: _ => [y, z]
  | _, _ => []

/-- A reply in one piece, or one that is none and leaves no beginning of one. -/
def ReadWhole (d : Delivery) : Prop :=
  (∃ c cs, d.chunks = c :: cs ∧ 3 ≤ c.length) ∨
    documented_line d.stream = none ∧ ¬ left_in_buffer d.stream (d.chunks.map List.length) <+: "ok\n".toList ∧
      ¬ left_in_buffer d.stream (d.chunks.map List.length) <+: "no\n".toList

theorem ok_or_no_eq (a b c : Char) : (ok_or_no [a, b, c]).toOption = documented_line [a, b, c] := by
  by_cases hc : c = '\n'
  · subst hc
    by_cases hok : a = 'o' ∧ b = 'k'
    · obtain ⟨rfl, rfl⟩ := hok
      rfl
    · by_cases hno : a = 'n' ∧ b = 'o'
      · obtain ⟨rfl, rfl⟩ := hno
        rfl
      · simp [ok_or_no, documented_line, hok, hno, Except.toOption]
  · simp [ok_or_no, documented_line, hc, Except.toOption]

theorem documented_line_short {t : Text} (h : t.length < 3) : documented_line t = none := by
  have hne : ∀ line : Text, line.length = 3 → t.take 3 ≠ line := by
    rintro line hline rfl
    rw [List.length_take] at hline
    omega
  rw [documented_line, if_neg (hne _ rfl), if_neg (hne _ rfl)]

/-- Behind what has been read, the buffer may complete any reply or none. -/
theorem documented_line_any {l : Text} (hlen : l.length < 3) (line : Option ℤ) :
    (∀ a b c, documented_line (l ++ [a, b, c].drop l.length) = line) ↔
      line = none ∧ ¬ l <+: "ok\n".toList ∧ ¬ l <+: "no\n".toList := by
  have hbuf : ∀ a b c, (l ++ [a, b, c].drop l.length).take 3 = l ++ [a, b, c].drop l.length := by
    intro a b c
    apply List.take_of_length_le
    simp
    omega
  constructor
  · intro h
    have hnone : line = none := by
      rw [← h 'x' 'x' 'x']
      rcases l with - | ⟨p, - | ⟨q, - | ⟨r, l⟩⟩⟩
      · rfl
      · simp [documented_line]
      · simp [documented_line]
      · simp at hlen
        omega
    subst hnone
    refine ⟨rfl, fun hok => ?_, fun hno => ?_⟩
    · have hline := h 'o' 'k' '\n'
      rw [show l ++ ['o', 'k', '\n'].drop l.length = "ok\n".toList from
        List.prefix_iff_eq_append.mp hok] at hline
      cases hline
    · have hline := h 'n' 'o' '\n'
      rw [show l ++ ['n', 'o', '\n'].drop l.length = "no\n".toList from
        List.prefix_iff_eq_append.mp hno] at hline
      cases hline
  · rintro ⟨rfl, hok, hno⟩ a b c
    rw [documented_line, hbuf, if_neg fun h => hok ⟨_, h⟩, if_neg fun h => hno ⟨_, h⟩]

/-- What a reply in pieces comes to: its last character or two, in front of what the buffer held. -/
theorem reply_right_of_left {d : Delivery} {l : Text} (hlen : l.length < 3)
    (hrun : ∀ junk err, (read_ok_no junk err d).toOption =
      documented_line (l ++ [junk.1, junk.2.1, junk.2.2].drop l.length)) :
    ReplyRight d ↔ documented_line d.stream = none ∧ ¬ l <+: "ok\n".toList ∧ ¬ l <+: "no\n".toList := by
  rw [← documented_line_any hlen]
  constructor
  · intro h a b c
    exact (hrun (a, b, c) none).symm.trans (h (a, b, c) none)
  · intro h junk err
    exact (hrun junk err).trans (h junk.1 junk.2.1 junk.2.2)

theorem read_ok_no_right_iff (d : Delivery) : ReplyRight d ↔ d.stream.length < 3 ∨ ReadWhole d := by
  have hshort : (∀ junk err, (read_ok_no junk err d).toOption = none) → d.stream.length < 3 →
      (ReplyRight d ↔ d.stream.length < 3 ∨ ReadWhole d) := by
    intro hrun hlen
    refine iff_of_true (fun junk err => ?_) (Or.inl hlen)
    rw [hrun, documented_line_short hlen]
  have hpieces : ∀ l, l.length < 3 → (∀ junk err, (read_ok_no junk err d).toOption =
      documented_line (l ++ [junk.1, junk.2.1, junk.2.2].drop l.length)) →
      left_in_buffer d.stream (d.chunks.map List.length) = l → 3 ≤ d.stream.length → (∀ c cs, d.chunks = c :: cs → c.length < 3) →
      (ReplyRight d ↔ d.stream.length < 3 ∨ ReadWhole d) := by
    rintro l hlen hrun rfl hstream hfirst
    have hnot : ¬ ∃ c cs, d.chunks = c :: cs ∧ 3 ≤ c.length := by
      rintro ⟨c, cs, heq, hle⟩
      exact absurd (hfirst c cs heq) (Nat.not_lt_of_le hle)
    rw [reply_right_of_left hlen hrun, or_iff_right (Nat.not_lt_of_le hstream), ReadWhole, or_iff_right hnot]
  obtain ⟨chunks, hne⟩ := d
  rcases chunks with - | ⟨- | ⟨x, - | ⟨y, - | ⟨z, zs⟩⟩⟩, cs⟩
  · exact hshort (fun _ _ => rfl) (by simp [Delivery.stream])
  · exact absurd rfl (hne [] List.mem_cons_self)
  · rcases cs with - | ⟨- | ⟨y, - | ⟨z, zs⟩⟩, cs⟩
    · exact hshort (fun _ _ => rfl) (by simp [Delivery.stream])
    · exact absurd rfl (hne [] (by simp))
    · rcases cs with - | ⟨- | ⟨z, zs⟩, cs⟩
      · exact hshort (fun _ _ => rfl) (by simp [Delivery.stream])
      · exact absurd rfl (hne [] (by simp))
      · exact hpieces [z] (by simp) (fun _ _ => ok_or_no_eq z _ _) rfl
          (by simp [Delivery.stream]) (by simp)
    · exact hpieces [y, z] (by simp) (fun _ _ => ok_or_no_eq y z _) rfl
        (by simp [Delivery.stream]) (by simp)
  · rcases cs with - | ⟨- | ⟨z, zs⟩, cs⟩
    · exact hshort (fun _ _ => rfl) (by simp [Delivery.stream])
    · exact absurd rfl (hne [] (by simp))
    · exact hpieces [z, y] (by simp) (fun _ _ => ok_or_no_eq z y _) rfl
        (by simp [Delivery.stream]) (by simp)
  · refine iff_of_true (fun junk err => ?_) (Or.inr (Or.inl ⟨_, _, rfl, by simp⟩))
    exact ok_or_no_eq x y z

/-- The newline of a reply in two pieces goes where its first character was. -/
theorem split_reply_refused : ¬ ∀ d : Delivery, ReplyRight d := by
  intro h
  have hok := h ⟨["ok".toList, "\n".toList], by simp⟩ ('x', 'x', 'x') none
  revert hok
  decide

/-! ### The end point -/

def HOST_NAME_MAX : ℕ := 64

def isascii (c : Char) : Bool :=
  c.toNat < 128

inductive EndPointError
  | no_colon
  | non_ascii
  | non_alpha_numeric
  | port_before_query
  | long_port
  | no_port
  | port_zero
  | large_port
  deriving DecidableEq

/-- The host in front of the colon, and what stands behind it. -/
def scan_host : Text → Except EndPointError Text
  | [] => .error .no_colon
  | c :: ep =>
    if c = ':' then .ok ep
    else if ¬ isascii c then .error .non_ascii
    else if ¬ isalnum c ∧ c ≠ '.' ∧ c ≠ '-' then .error .non_alpha_numeric
    else scan_host ep

/-- The digits of the port are copied to a buffer of six characters. -/
def scan_port (buf : Text) : Text → Except EndPointError Text
  | [] => .ok buf
  | c :: ep =>
    if isdigit c then
      if 5 < buf.length then .error .long_port
      else scan_port (buf ++ [c]) ep
    else .ok buf

def atoi (digits : Text) : ℕ :=
  Nat.ofDigitChars 10 digits 0

/-- What stands behind the port is not looked at, and the null behind six digits is written past
the buffer. -/
def bio4_end_point_syntax (endp : Text) : Except EndPointError Unit :=
  match scan_host endp with
  | .error e => .error e
  | .ok ep =>
    if ep.head? = some '?' then .error .port_before_query
    else
      match scan_port [] ep with
      | .error e => .error e
      | .ok buf =>
        if buf = [] then .error .no_port
        else if atoi buf = 0 then .error .port_zero
        else if 65535 < atoi buf then .error .large_port
        else .ok ()

/-- The host and the port in their buffers of `HOST_NAME_MAX + 1` and six bytes, or a byte behind
one of these. -/
structure Opened where
  host : Text
  pbuf : Text
  overflow : Bool
  deriving DecidableEq

/-- `none` where there is no colon. -/
def bio4_open (ep : Text) : Option Opened :=
  if ':' ∉ ep then none
  else
    let host := ep.takeWhile (· ≠ ':')
    let pbuf := ep.drop (host.length + 1)
    some ⟨host, pbuf, HOST_NAME_MAX + 1 < host.length + 1 ∨ 6 < pbuf.length + 1⟩

/-- The form of an end point that is accepted. -/
structure Accepted (ep host digits rest : Text) : Prop where
  eq : ep = host ++ ':' :: (digits ++ rest)
  host_chars : ∀ c ∈ host, isalnum c ∨ c = '.' ∨ c = '-'
  digits_chars : ∀ c ∈ digits, isdigit c
  ends : ∀ c ∈ rest.head?, ¬ isdigit c
  length_digits : 1 ≤ digits.length ∧ digits.length ≤ 6
  port : 1 ≤ atoi digits ∧ atoi digits ≤ 65535

/-- What the driver accepts is a host, a colon and a port of up to five digits, and opening it
yields just these two. -/
def EndPointRight (ep : Text) : Prop :=
  bio4_end_point_syntax ep = .ok () → ∃ host port, ep = host ++ ':' :: port ∧ host ≠ [] ∧ ':' ∉ host ∧
    (1 ≤ port.length ∧ port.length ≤ 5) ∧ (∀ c ∈ port, isdigit c) ∧
      bio4_open ep = some ⟨host, port, false⟩

variable {ep host digits rest buf : Text}

theorem isascii_of_host {c : Char} (h : isalnum c ∨ c = '.' ∨ c = '-') : isascii c := by
  rcases h with h | rfl | rfl
  · have hle : ∀ a b : Char, a ≤ b ↔ a.toNat ≤ b.toNat := fun _ _ => Iff.rfl
    simp [isalnum, isalpha, islower, isdigit, between, hle] at h
    simp only [isascii, decide_eq_true_eq]
    omega
  · decide
  · decide

theorem colon_not_host : ¬ (isalnum ':' ∨ ':' = '.' ∨ ':' = '-') := by
  decide

theorem scan_host_eq_ok : scan_host ep = .ok rest ↔
    ∃ host, ep = host ++ ':' :: rest ∧ ∀ c ∈ host, isalnum c ∨ c = '.' ∨ c = '-' := by
  induction ep with
  | nil => simp [scan_host]
  | cons c ep ih =>
    by_cases hcolon : c = ':'
    · subst hcolon
      simp only [scan_host, if_true, Except.ok.injEq]
      constructor
      · rintro rfl
        exact ⟨[], rfl, by simp⟩
      · rintro ⟨- | ⟨d, host⟩, heq, hhost⟩
        · exact (List.cons.inj heq).2
        · obtain ⟨rfl, -⟩ := List.cons.inj heq
          exact absurd (hhost ':' List.mem_cons_self) colon_not_host
    · have hcons : (∃ host, c :: ep = host ++ ':' :: rest ∧ ∀ d ∈ host, isalnum d ∨ d = '.' ∨ d = '-') ↔
          (isalnum c ∨ c = '.' ∨ c = '-') ∧
            ∃ host, ep = host ++ ':' :: rest ∧ ∀ d ∈ host, isalnum d ∨ d = '.' ∨ d = '-' := by
        constructor
        · rintro ⟨- | ⟨d, host⟩, heq, hhost⟩
          · exact absurd (List.cons.inj heq).1 hcolon
          · obtain ⟨rfl, htail⟩ := List.cons.inj heq
            exact ⟨hhost c List.mem_cons_self, host, htail, fun d hd => hhost d (List.mem_cons_of_mem _ hd)⟩
        · rintro ⟨hc, host, rfl, hhost⟩
          exact ⟨c :: host, rfl, List.forall_mem_cons.mpr ⟨hc, hhost⟩⟩
      rw [hcons, ← ih]
      by_cases hc : isalnum c ∨ c = '.' ∨ c = '-'
      · have hbad : ¬ (¬ isalnum c ∧ c ≠ '.' ∧ c ≠ '-') := by tauto
        rw [scan_host, if_neg hcolon, if_neg (not_not.mpr (isascii_of_host hc)), if_neg hbad]
        exact (and_iff_right hc).symm
      · refine iff_of_false ?_ fun h => hc h.1
        have hbad : ¬ isalnum c ∧ c ≠ '.' ∧ c ≠ '-' := by tauto
        rw [scan_host, if_neg hcolon]
        split_ifs <;> simp

theorem scan_port_eq_ok (hbuf : buf.length ≤ 6) {out : Text} : scan_port buf ep = .ok out ↔
    ∃ digits rest, ep = digits ++ rest ∧ (∀ c ∈ digits, isdigit c) ∧ (∀ c ∈ rest.head?, ¬ isdigit c) ∧
      out = buf ++ digits ∧ out.length ≤ 6 := by
  induction ep generalizing buf with
  | nil =>
    simp only [scan_port, Except.ok.injEq]
    constructor
    · rintro rfl
      exact ⟨[], [], rfl, by simp, by simp, by simp, hbuf⟩
    · rintro ⟨digits, rest, heq, -, -, rfl, -⟩
      obtain ⟨rfl, rfl⟩ := List.append_eq_nil_iff.mp heq.symm
      simp
  | cons c ep ih =>
    by_cases hc : isdigit c
    · rw [scan_port, if_pos hc]
      by_cases hfull : 5 < buf.length
      · rw [if_pos hfull]
        refine iff_of_false (by simp) ?_
        rintro ⟨- | ⟨d, digits⟩, rest, heq, hdigits, hends, rfl, hlen⟩
        · obtain rfl : rest = c :: ep := heq.symm
          exact hends c rfl hc
        · simp only [List.length_append, List.length_cons] at hlen
          omega
      · rw [if_neg hfull, ih (by simp; omega)]
        constructor
        · rintro ⟨digits, rest, rfl, hdigits, hends, rfl, hlen⟩
          exact ⟨c :: digits, rest, rfl, List.forall_mem_cons.mpr ⟨hc, hdigits⟩, hends, by simp, hlen⟩
        · rintro ⟨- | ⟨d, digits⟩, rest, heq, hdigits, hends, rfl, hlen⟩
          · obtain rfl : rest = c :: ep := heq.symm
            exact absurd hc (hends c rfl)
          · obtain ⟨rfl, rfl⟩ := List.cons.inj heq
            exact ⟨digits, rest, rfl, fun d hd => hdigits d (List.mem_cons_of_mem _ hd), hends, by simp, hlen⟩
    · rw [scan_port, if_neg hc, Except.ok.injEq]
      constructor
      · rintro rfl
        exact ⟨[], c :: ep, rfl, by simp, by simpa using hc, by simp, hbuf⟩
      · rintro ⟨- | ⟨d, digits⟩, rest, heq, hdigits, -, rfl, -⟩
        · simp
        · obtain ⟨rfl, -⟩ := List.cons.inj heq
          exact absurd (hdigits c List.mem_cons_self) hc

theorem accepted_iff : bio4_end_point_syntax ep = .ok () ↔ ∃ host digits rest, Accepted ep host digits rest := by
  have hbind : bio4_end_point_syntax ep = .ok () ↔ ∃ after, scan_host ep = .ok after ∧ after.head? ≠ some '?' ∧
      ∃ buf, scan_port [] after = .ok buf ∧ buf ≠ [] ∧ atoi buf ≠ 0 ∧ ¬ 65535 < atoi buf := by
    unfold bio4_end_point_syntax
    cases scan_host ep with
    | error e => simp
    | ok after =>
      by_cases hq : after.head? = some '?'
      · simp [hq]
      · cases hport : scan_port [] after with
        | error e => simp [hq, hport]
        | ok buf =>
          by_cases hne : buf = []
          · simp [hq, hport, hne]
          · by_cases hzero : atoi buf = 0
            · simp [hq, hport, hne, hzero]
            · by_cases hbig : 65535 < atoi buf
              · simp [hq, hport, hne, hzero, hbig]
              · simpa [hq, hport, hne, hzero, hbig] using Nat.le_of_not_lt hbig
  rw [hbind]
  constructor
  · rintro ⟨after, hhost, hquery, buf, hport, hne, hzero, hbig⟩
    obtain ⟨host, rfl, hchars⟩ := scan_host_eq_ok.mp hhost
    obtain ⟨digits, rest, rfl, hdigits, hends, rfl, hlen⟩ := (scan_port_eq_ok (by simp)).mp hport
    exact ⟨host, buf, rest, rfl, hchars, hdigits, hends, ⟨List.length_pos_iff.mpr hne, hlen⟩, by omega⟩
  · rintro ⟨host, digits, rest, h⟩
    have hne : digits ≠ [] := List.length_pos_iff.mp h.length_digits.1
    refine ⟨digits ++ rest, scan_host_eq_ok.mpr ⟨host, h.eq, h.host_chars⟩, ?_, digits,
      (scan_port_eq_ok (by simp)).mpr ⟨digits, rest, rfl, h.digits_chars, h.ends, rfl, h.length_digits.2⟩, hne,
      by have := h.port; omega, by have := h.port; omega⟩
    obtain ⟨d, digits, rfl⟩ := List.exists_cons_of_ne_nil hne
    rintro heq
    obtain rfl := Option.some.inj heq
    exact absurd (h.digits_chars _ List.mem_cons_self) (by decide)

theorem Accepted.colon_not_mem (h : Accepted ep host digits rest) : ':' ∉ host :=
  fun hmem => colon_not_host (h.host_chars _ hmem)

/-- Opening an end point takes all that stands behind the colon for the port. -/
theorem Accepted.open (h : Accepted ep host digits rest) : bio4_open ep =
    some ⟨host, digits ++ rest, HOST_NAME_MAX < host.length ∨ 5 < (digits ++ rest).length⟩ := by
  have hin : ':' ∈ ep := by simp [h.eq]
  have htake : ep.takeWhile (· ≠ ':') = host := by
    rw [h.eq]
    exact takeWhile_ne h.colon_not_mem _
  have hdrop : ep.drop (host.length + 1) = digits ++ rest := by
    rw [h.eq, List.drop_append]
    simp
  simp only [bio4_open, hin, not_true_eq_false, if_false, htake, hdrop, Nat.succ_lt_succ_iff]

theorem end_point_right_iff (ep : Text) : EndPointRight ep ↔ ∀ host digits rest, Accepted ep host digits rest →
    (1 ≤ host.length ∧ host.length ≤ HOST_NAME_MAX) ∧ digits.length ≤ 5 ∧ rest = [] := by
  constructor
  · intro h host digits rest hacc
    obtain ⟨host', port, heq, hne, hcolon, hlen, hport, hopen⟩ := h (accepted_iff.mpr ⟨_, _, _, hacc⟩)
    rw [hacc.open] at hopen
    obtain ⟨rfl, rfl, hroom⟩ := Opened.mk.inj (Option.some.inj hopen)
    have hrest : rest = [] := by
      cases rest with
      | nil => rfl
      | cons c rest => exact absurd (hport c (by simp)) (hacc.ends c rfl)
    subst hrest
    rw [List.append_nil] at hroom hlen
    have hhost : ¬ (HOST_NAME_MAX < host.length ∨ 5 < digits.length) := of_decide_eq_false hroom
    exact ⟨⟨List.length_pos_iff.mpr hne, by omega⟩, hlen.2, rfl⟩
  · intro h hok
    obtain ⟨host, digits, rest, hacc⟩ := accepted_iff.mp hok
    obtain ⟨hhost, hdigits, rfl⟩ := h host digits rest hacc
    have hroom : ¬ (HOST_NAME_MAX < host.length ∨ 5 < (digits ++ []).length) := by
      rw [List.append_nil]
      omega
    refine ⟨host, digits, by rw [hacc.eq, List.append_nil], List.length_pos_iff.mp hhost.1,
      hacc.colon_not_mem, ⟨hacc.length_digits.1, hdigits⟩, hacc.digits_chars, ?_⟩
    rw [hacc.open, decide_eq_false hroom, List.append_nil]

/-- No host, and more behind the port. -/
theorem junk_accepted : ¬ ∀ ep, EndPointRight ep := by
  intro h
  obtain ⟨host, port, -, -, -, -, -, hopen⟩ := h ":1797/spool".toList rfl
  have hopened : bio4_open ":1797/spool".toList = some ⟨[], "1797/spool".toList, true⟩ := by decide
  rw [hopened] at hopen
  exact absurd (Opened.mk.inj (Option.some.inj hopen)).2.2 (by decide)

end Blobio.Bio4
