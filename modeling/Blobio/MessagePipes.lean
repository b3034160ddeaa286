import Blobio.EventRuns
import Blobio.HexDigests
import Blobio.LengthFrames

/-! The pipes over which the processes of the server send each other messages: any number
of writers, and one reader that puts the messages together again. -/
namespace Blobio.MessagePipes
open EventRuns LengthFrames

/-- `io_msg_write`: the bytes of its one `write`, where there is a payload at all. -/
def io_msg_write (payload : Bytes) : Option Bytes :=
  let count := UInt8.ofNat payload.length
  if count = 0 then none
  else some (count :: payload.take count.toNat)

/-- Where the reader stands in `io_msg_read`, or what that has returned to be done with. -/
inductive Reading
  | length
  /-- behind the length byte, with `ip->len` and the payload so far -/
  | payload (len : UInt8) (ip_len : ℤ) (payload : Bytes)
  | end_of_file
  | error
  /-- bytes have been read in front of the payload, over the reader's own file descriptor -/
  | astray

/-- A pipe with its reader, and from `written` on what has happened to it. -/
structure Pipe where
  unread : Bytes := []
  closed : Bool := false
  reading : Reading := .length
  returned : List Bytes := []
  written : List Bytes := []
  /-- what a writer that is cut off has left behind the messages -/
  torn : Bytes := []
  /-- a read has failed -/
  broke : Bool := false

/-- What happens to the pipe; `read` is a read that gets so many bytes, none at the end of
the file, and one that is interrupted is done again. -/
inductive Event
  | write (payload : Bytes)
  | tear (payload : Bytes) (n : ℕ)
  | close
  | read (n : ℕ)
  | interrupted
  | fail

namespace Pipe

/-- Can a read of so many bytes get `n` of them? -/
def yields (s : Pipe) (count n : ℕ) : Bool :=
  if n = 0 then s.unread = [] ∧ s.closed
  else n ≤ count ∧ n ≤ s.unread.length

/-- The length byte has been asked for. -/
def read_length (s : Pipe) : Pipe :=
  match s.unread with
  | [] => { s with reading := .end_of_file }
  | len :: unread =>
    if len = 0 then { s with unread := unread, reading := .error }
    else { s with unread := unread, reading := .payload len 0 [] }

/-- The rest of the payload has been asked for, and has come to `n` bytes. -/
def read_payload (s : Pipe) (len : UInt8) (ip_len : ℤ) (payload : Bytes) (n : ℕ) : Pipe :=
  let payload := payload.take ip_len.toNat ++ s.unread.take n
  let rest := { s with unread := s.unread.drop n }
  if n = 0 then { s with reading := .error }
  else if ip_len < 0 then { rest with reading := .astray }
  else if ip_len + n < len.toNat then { rest with reading := .payload len (ip_len + n) payload }
  else { rest with reading := .length, returned := s.returned ++ [payload] }

/-- A failed read is an error for the length byte, and goes a byte back in the payload,
where a return of less than -1 is looked for. -/
def read_failed (s : Pipe) : Option Pipe :=
  match s.reading with
  | .length => some { s with broke := true, reading := .error }
  | .payload len ip_len payload => some { s with broke := true, reading := .payload len (ip_len - 1) payload }
  | _ => none

end Pipe

def step (s : Pipe) : Event → Option Pipe
  | .write payload =>
    if s.closed = false ∧ Fits payload then
      (io_msg_write payload).map fun bytes =>
        { s with unread := s.unread ++ bytes, written := s.written ++ [payload] }
    else none
  | .tear payload n =>
    if s.closed = false ∧ Fits payload ∧ n ≤ payload.length then
      (io_msg_write payload).map fun bytes =>
        { s with unread := s.unread ++ bytes.take n, torn := bytes.take n, closed := true }
    else none
  | .close => some { s with closed := true }
  | .read n =>
    match s.reading with
    | .length => if s.yields 1 n then some s.read_length else none
    | .payload len ip_len payload =>
      if s.yields (len.toNat - ip_len).toNat n then some (s.read_payload len ip_len payload n) else none
    | _ => none
  | .interrupted => some s
  | .fail => s.read_failed

/-- What is to hold of the reader at every moment. -/
structure Framed (s : Pipe) : Prop where
  messages : s.returned <+: s.written
  end_of_file : s.reading = .end_of_file → s.returned = s.written ∧ s.torn = []
  broke : s.broke → s.reading = .error
  error : s.reading = .error → s.broke ∨ s.torn ≠ []

/-- No read fails inside a message. -/
def Reliable (s : Pipe) : Event → Prop
  | .fail => s.reading = .length
  | _ => True

/-- The bytes of the current message that have been read already. -/
def Pipe.seen (s : Pipe) : Bytes :=
  match s.reading with
  | .payload len _ payload => len :: payload
  | _ => []

/-- What the reader keeps while no read has failed inside a message: it is somewhere in the
frames that have been written. -/
structure Following (s : Pipe) : Prop where
  written : ∀ m ∈ s.written, Fits m
  torn : Torn s.torn
  closed : s.closed = false → s.torn = []
  stream : s.reading ≠ .error → ∃ rest, s.written = s.returned ++ rest ∧ s.seen ++ s.unread = frames rest ++ s.torn
  payload : ∀ len ip_len payload, s.reading = .payload len ip_len payload →
    ip_len = payload.length ∧ payload.length < len.toNat
  astray : s.reading ≠ .astray
  ended : s.reading = .end_of_file → s.closed = true
  framed : Framed s

section following
variable {s : Pipe}

theorem io_msg_write_of_fits {payload : Bytes} (h : Fits payload) :
    io_msg_write payload = some (frame payload) := by
  have hlength := toNat_length h
  have hne : UInt8.ofNat payload.length ≠ 0 := by
    intro hzero
    rw [hzero] at hlength
    have hpos := h.1
    rw [← hlength] at hpos
    cases hpos
  rw [io_msg_write, if_neg hne, hlength, List.take_length]
  rfl

theorem following_start : Following {} where
  written := nofun
  torn := torn_nil
  closed _ := rfl
  stream _ := ⟨[], rfl, rfl⟩
  payload := nofun
  astray := nofun
  ended := nofun
  framed := ⟨List.nil_prefix, nofun, nofun, nofun⟩

theorem Following.write (h : Following s) {payload : Bytes} (hpayload : Fits payload)
    (hclosed : s.closed = false) : Following
      { s with unread := s.unread ++ frame payload, written := s.written ++ [payload] } where
  written := by
    intro m hm
    rcases List.mem_append.mp hm with hm | hm
    · exact h.written m hm
    · rw [List.mem_singleton.mp hm]
      exact hpayload
  torn := h.torn
  closed := h.closed
  stream := by
    intro hreading
    obtain ⟨rest, hwritten, hstream⟩ := h.stream hreading
    refine ⟨rest ++ [payload], ?_, ?_⟩
    · rw [hwritten, List.append_assoc]
    · change s.seen ++ (s.unread ++ frame payload) = _
      rw [← List.append_assoc, hstream, h.closed hclosed, frames_append, frames_singleton]
      simp
  payload := h.payload
  astray := h.astray
  ended := h.ended
  framed := by
    have hframed := h.framed
    refine ⟨hframed.messages.trans (List.prefix_append _ _), ?_, hframed.broke, hframed.error⟩
    intro hend
    rw [h.ended hend] at hclosed
    cases hclosed

theorem Following.tear (h : Following s) {payload : Bytes} {n : ℕ} (hpayload : Fits payload)
    (hclosed : s.closed = false) (hn : n ≤ payload.length) : Following
      { s with unread := s.unread ++ (frame payload).take n, torn := (frame payload).take n, closed := true } where
  written := h.written
  torn := by
    refine ⟨payload, hpayload, List.take_prefix _ _, ?_⟩
    exact (List.length_take_le _ _).trans hn
  closed := nofun
  stream := by
    intro hreading
    obtain ⟨rest, hwritten, hstream⟩ := h.stream hreading
    refine ⟨rest, hwritten, ?_⟩
    change s.seen ++ (s.unread ++ (frame payload).take n) = _
    rw [← List.append_assoc, hstream, h.closed hclosed, List.append_nil]
  payload := h.payload
  astray := h.astray
  ended _ := rfl
  framed := by
    have hframed := h.framed
    refine ⟨hframed.messages, ?_, hframed.broke, ?_⟩
    · intro hend
      rw [h.ended hend] at hclosed
      cases hclosed
    · intro herror
      refine .inl ((hframed.error herror).resolve_right fun htorn => htorn (h.closed hclosed))

theorem Following.close (h : Following s) : Following { s with closed := true } where
  written := h.written
  torn := h.torn
  closed := nofun
  stream := h.stream
  payload := h.payload
  astray := h.astray
  ended _ := rfl
  framed := ⟨h.framed.messages, h.framed.end_of_file, h.framed.broke, h.framed.error⟩

theorem Following.unbroken (h : Following s) (hreading : s.reading ≠ .error) : ¬ s.broke :=
  fun hbroke => hreading (h.framed.broke hbroke)

theorem Following.read_length (h : Following s) (hreading : s.reading = .length)
    (hyields : s.unread = [] → s.closed = true) : Following s.read_length := by
  have hne : s.reading ≠ .error := by
    rw [hreading]
    nofun
  have hunbroken := h.unbroken hne
  obtain ⟨rest, hwritten, hstream⟩ := h.stream hne
  rw [Pipe.seen, hreading, List.nil_append] at hstream
  rw [Pipe.read_length]
  cases hunread : s.unread with
  | nil =>
    rw [hunread] at hstream
    obtain ⟨rfl, htorn⟩ := eq_nil_of_frames hstream
    refine ⟨h.written, h.torn, h.closed, fun _ => ⟨[], hwritten, hstream⟩, nofun, nofun, fun _ => hyields hunread, ?_⟩
    refine ⟨h.framed.messages, fun _ => ⟨?_, htorn⟩, fun hbroke => absurd hbroke hunbroken, nofun⟩
    rw [hwritten, List.append_nil]
  | cons len unread =>
    rw [hunread] at hstream
    have hrest : ∀ m ∈ rest, Fits m := by
      intro m hm
      refine h.written m ?_
      rw [hwritten]
      exact List.mem_append_right _ hm
    have hlen := length_ne_zero hrest h.torn hstream
    have hzero : len ≠ 0 := by
      rintro rfl
      exact hlen rfl
    dsimp only
    rw [if_neg hzero]
    refine ⟨h.written, h.torn, h.closed, fun _ => ⟨rest, hwritten, hstream⟩, ?_, nofun, nofun, ?_⟩
    · intro len' ip_len payload heq
      cases heq
      exact ⟨rfl, Nat.pos_of_ne_zero hlen⟩
    · exact ⟨h.framed.messages, nofun, fun hbroke => absurd hbroke hunbroken, nofun⟩

theorem Following.read_payload (h : Following s) {len : UInt8} {ip_len : ℤ} {payload : Bytes} {n : ℕ}
    (hreading : s.reading = .payload len ip_len payload)
    (hyields : s.yields (len.toNat - ip_len).toNat n) : Following (s.read_payload len ip_len payload n) := by
  have hne : s.reading ≠ .error := by
    rw [hreading]
    nofun
  have hunbroken := h.unbroken hne
  obtain ⟨rest, hwritten, hstream⟩ := h.stream hne
  obtain ⟨rfl, hshort⟩ := h.payload len ip_len payload hreading
  rw [Pipe.seen, hreading] at hstream
  have hrest : ∀ m ∈ rest, Fits m := by
    intro m hm
    refine h.written m ?_
    rw [hwritten]
    exact List.mem_append_right _ hm
  rw [Pipe.yields] at hyields
  by_cases hn : n = 0
  · -- the file ends inside the message
    simp only [hn, if_true, decide_eq_true_eq] at hyields
    rw [hyields.1, List.append_nil] at hstream
    obtain ⟨-, htorn⟩ := eq_nil_of_short hrest hstream hshort
    rw [Pipe.read_payload, if_pos hn]
    refine ⟨h.written, h.torn, h.closed, fun herror => absurd rfl herror, nofun, nofun, nofun, ?_⟩
    refine ⟨h.framed.messages, nofun, fun hbroke => absurd hbroke hunbroken, fun _ => .inr ?_⟩
    rw [htorn]
    nofun
  · simp only [hn, if_false, decide_eq_true_eq] at hyields
    have htake : (s.unread.take n).length = n := List.length_take_of_le hyields.2
    have hmore : len :: (payload ++ s.unread.take n ++ s.unread.drop n) = frames rest ++ s.torn := by
      rw [List.append_assoc, List.take_append_drop]
      exact hstream
    rw [Pipe.read_payload, if_neg hn, if_neg (Int.not_lt.mpr (Int.natCast_nonneg _)), Int.toNat_natCast,
      List.take_length]
    split_ifs with hless
    · refine ⟨h.written, h.torn, h.closed, fun _ => ⟨rest, hwritten, hmore⟩, ?_, nofun, nofun, ?_⟩
      · intro len' ip_len payload' heq
        cases heq
        rw [List.length_append, htake]
        omega
      · exact ⟨h.framed.messages, nofun, fun hbroke => absurd hbroke hunbroken, nofun⟩
    · have hfull : (payload ++ s.unread.take n).length = len.toNat := by
        rw [List.length_append, htake]
        omega
      obtain ⟨rest', rfl, hunread⟩ := eq_cons_of_full hrest h.torn hmore hfull
      have hreturned : s.written = s.returned ++ [payload ++ s.unread.take n] ++ rest' := by
        rw [hwritten, List.append_assoc]
        rfl
      refine ⟨h.written, h.torn, h.closed, fun _ => ⟨rest', hreturned, hunread⟩, nofun, nofun, nofun, ?_⟩
      exact ⟨⟨rest', hreturned.symm⟩, nofun, fun hbroke => absurd hbroke hunbroken, nofun⟩

theorem following_step {e : Event} {s' : Pipe} (h : Following s) (hr : Reliable s e)
    (hstep : step s e = some s') : Following s' := by
  cases e with
  | write payload =>
    simp only [step] at hstep
    split_ifs at hstep with hwrite
    rw [io_msg_write_of_fits hwrite.2] at hstep
    cases hstep
    exact h.write hwrite.2 hwrite.1
  | tear payload n =>
    simp only [step] at hstep
    split_ifs at hstep with hwrite
    rw [io_msg_write_of_fits hwrite.2.1] at hstep
    cases hstep
    exact h.tear hwrite.2.1 hwrite.1 hwrite.2.2
  | close =>
    cases hstep
    exact h.close
  | read n =>
    simp only [step] at hstep
    split at hstep
    · split_ifs at hstep with hyields
      cases hstep
      refine h.read_length ‹_› fun hunread => ?_
      rw [Pipe.yields, hunread] at hyields
      split_ifs at hyields with hn
      · simpa using hyields
      · simp [hn] at hyields
    · split_ifs at hstep with hyields
      cases hstep
      exact h.read_payload ‹_› hyields
    · cases hstep
  | interrupted =>
    cases hstep
    exact h
  | fail =>
    have hreading : s.reading = .length := hr
    simp only [step, Pipe.read_failed, hreading] at hstep
    cases hstep
    refine ⟨h.written, h.torn, h.closed, fun herror => absurd rfl herror, nofun, nofun, nofun, ?_⟩
    exact ⟨h.framed.messages, nofun, fun _ => rfl, fun _ => .inl rfl⟩

/-- A read that fails inside a message is not an error. -/
theorem unframed_of_unreliable {e : Event} {s' : Pipe} (hr : ¬ Reliable s e)
    (hstep : step s e = some s') : ¬ Framed s' := by
  cases e with
  | fail =>
    have hreading : s.reading ≠ .length := hr
    simp only [step, Pipe.read_failed] at hstep
    split at hstep
    · exact absurd ‹_› hreading
    · cases hstep
      exact fun hframed => nomatch hframed.broke rfl
    · cases hstep
  | write payload => exact absurd trivial hr
  | tear payload n => exact absurd trivial hr
  | close => exact absurd trivial hr
  | read n => exact absurd trivial hr
  | interrupted => exact absurd trivial hr

end following

/-- The reader returns the messages as they have been written, sees the end of the file just
behind them and calls every failure an error, in all states of a run in which no read fails
inside a message, and in no other. -/
theorem framed_iff_reliable {events : List Event} {s : Pipe} (hrun : exec step {} events = some s) :
    (∀ before s', before <+: events → exec step {} before = some s' → Framed s') ↔
      Along step Reliable {} events := by
  constructor
  · intro hframed
    by_contra hunreliable
    obtain ⟨before, e, after, m, rfl, -, hm, hr⟩ := exists_first_failure hunreliable
    obtain ⟨m', hm', hafter⟩ := exec_append.mp hrun
    rw [hm] at hm'
    obtain rfl := Option.some.inj hm'
    obtain ⟨m', hstep, -⟩ := exec_cons.mp hafter
    refine unframed_of_unreliable hr hstep (hframed (before ++ [e]) m' ?_ ?_)
    · exact ⟨after, by simp⟩
    · exact exec_concat.mpr ⟨m, hm, hstep⟩
  · rintro hreliable before s' ⟨after, rfl⟩ hbefore
    have halong := (along_append.mp hreliable).1
    have hfollowing : Following s' :=
      invariant_along (fun _ _ _ => following_step) following_start halong hbefore
    exact hfollowing.framed

/-- Two messages of two writers, the second of them read in pieces. -/
def two_messages : List Event :=
  [.write [1], .write [2, 3], .read 1, .read 1, .read 1, .read 1, .interrupted, .read 1, .close, .read 0]

theorem two_messages_framed : Along step Reliable {} two_messages ∧
    ∀ before s', before <+: two_messages → exec step {} before = some s' → Framed s' :=
  have hreliable : Along step Reliable {} two_messages := along_of_forall (by simp [two_messages, Reliable]) _
  ⟨hreliable, (framed_iff_reliable rfl).mpr hreliable⟩

/-- A read that fails between the bytes of a message has the reader return a message that
nobody has written. -/
theorem failed_read_misframed : ¬ ∀ events s, exec step {} events = some s → s.returned <+: s.written := by
  intro h
  have hframed := h [.write [1, 2], .read 1, .read 1, .fail, .read 1, .write [3], .read 1] _ rfl
  revert hframed
  decide

end Blobio.MessagePipes
