import Blobio.RequestChild

/-! What each part of a request process makes of its chat, its blob size and its exit status,
from any answers of the surroundings. -/
namespace Blobio.RequestChild
open TurnPrograms TurnPrograms.Program

/-! ### The history -/

def Happening.reply? : Happening → Option Reply
  | .sent r | .received r => some r
  | _ => none

def Happening.nbytes : Happening → ℕ
  | .moved n => n
  | _ => 0

def Happening.sent? : Happening → Option Reply
  | .sent r => some r
  | _ => none

/-- The replies of the server so far. -/
def said (happened : List Happening) : List Reply :=
  happened.filterMap Happening.sent?

/-- The replies sent and received so far. -/
def replies (happened : List Happening) : List Reply :=
  happened.filterMap Happening.reply?

/-- The bytes of the blob that the client and the server have moved between them. -/
def moved (happened : List Happening) : ℕ :=
  (happened.map Happening.nbytes).sum

/-- The class of exit that a request should come to when it ends with this. -/
def Happening.failure : Happening → Option (BitVec 8)
  | .lost _ true => some 2
  | .lost _ false | .hung_up _ | .bad_line | .bad_reply => some 1
  | .fault | .overflow => some 3
  | _ => none

/-- The class that the program gives to a failure: a reply of the client that times out is made
an error of the client. -/
def Happening.coded : Happening → Option (BitVec 8)
  | .lost .reply_read true => some 1
  | h => h.failure

/-- Behind a panic there is nothing more. -/
def Happening.last : Happening → Bool
  | .fault | .overflow | .no_chat | .unknown_algorithm => true
  | _ => false

/-- Where the class of the exit goes wrong. -/
def Happening.hazard : Happening → Bool
  | .unknown_algorithm | .in_wrap_set | .not_udig_set | .given_up | .no_chat | .set_back => true
  | .lost .reply_read true => true
  | _ => false

def last_failure (happened : List Happening) : Option Happening :=
  (happened.filter fun h => h.failure.isSome).getLast?

/-- The class that the last failure of a request should have, success without one. -/
def outcome (happened : List Happening) : BitVec 8 :=
  ((last_failure happened).bind Happening.failure).getD 0

/-- Neither a reply, nor bytes of the blob, nor a record, nor a panic. -/
def Happening.plain : Happening → Bool
  | .sent _ | .received _ | .moved _ | .brr _ | .fault | .overflow | .no_chat | .unknown_algorithm => false
  | _ => true

def Hazardous (happened : List Happening) : Prop :=
  ∃ h ∈ happened, h.hazard

/-- The comma-joined list of replies. -/
def joined (rs : List Reply) : Text :=
  [','].intercalate (rs.map Reply.text)

section history
variable {hs : List Happening} {h : Happening}

@[simp] theorem replies_concat : replies (hs ++ [h]) = replies hs ++ h.reply?.toList := by
  rw [replies, List.filterMap_append]
  cases hr : h.reply? <;> simp [replies, hr]

@[simp] theorem said_concat : said (hs ++ [h]) = said hs ++ h.sent?.toList := by
  rw [said, List.filterMap_append]
  cases hr : h.sent? <;> simp [said, hr]

@[simp] theorem moved_concat : moved (hs ++ [h]) = moved hs + h.nbytes := by
  simp [moved]

theorem last_failure_of_failure {c : BitVec 8} (hc : h.failure = some c) :
    last_failure (hs ++ [h]) = some h := by
  simp [last_failure, hc]

theorem last_failure_of_none (hc : h.failure = none) : last_failure (hs ++ [h]) = last_failure hs := by
  simp [last_failure, hc]

theorem Happening.failure_isSome_of_coded {c : BitVec 8} (hc : h.coded = some c) : h.failure.isSome := by
  unfold Happening.coded at hc
  split at hc
  · rfl
  · rw [hc]
    rfl

theorem Happening.coded_eq_failure (hh : h ≠ .lost .reply_read true) : h.coded = h.failure := by
  unfold Happening.coded
  split
  · exact absurd rfl hh
  · rfl

theorem Hazardous.concat (hh : Hazardous hs) : Hazardous (hs ++ [h]) := by
  obtain ⟨x, hx, hx'⟩ := hh
  exact ⟨x, List.mem_append_left _ hx, hx'⟩

/-- One more reply on a history of at most two. -/
theorem append_blurb_joined {rs : List Reply} (hrs : rs.length ≤ 2) (r : Reply) :
    append_blurb (joined rs) r.text = joined (rs ++ [r]) := by
  match rs, hrs with
  | [], _ => cases r <;> decide
  | [a], _ => cases a <;> cases r <;> decide
  | [a, b], _ => cases a <;> cases b <;> cases r <;> decide

theorem joined_length_le {rs : List Reply} (hrs : rs.length ≤ 3) : (joined rs).length ≤ 8 := by
  match rs, hrs with
  | [], _ => decide
  | [a], _ => cases a <;> decide
  | [a, b], _ => cases a <;> cases b <;> decide
  | [a, b, c], _ => cases a <;> cases b <;> cases c <;> decide

end history

/-! ### The exit status -/

def class_of (s : BitVec 8) : BitVec 8 :=
  s &&& 0x3

/-- The bits of the verb and of the chat. -/
def rest_of (s : BitVec 8) : BitVec 8 :=
  s &&& 0xFC

theorem mask_or (s m c k : BitVec 8) : (s &&& m ||| c) &&& k = s &&& (m &&& k) ||| c &&& k := by
  rw [BitVec.and_or_distrib_right, BitVec.and_assoc]

theorem class_set_class {c : BitVec 8} (hc : c &&& 0x3 = c) (s : BitVec 8) : class_of (set_class c s) = c := by
  rw [class_of, set_class, mask_or, hc, show 0xFC#8 &&& 0x3 = 0 from rfl]
  simp

theorem rest_set_class {c : BitVec 8} (hc : c &&& 0xFC = 0) (s : BitVec 8) :
    rest_of (set_class c s) = rest_of s := by
  rw [rest_of, set_class, mask_or, hc, show 0xFC#8 &&& 0xFC = 0xFC#8 from rfl]
  simp [rest_of]

theorem rest_error_status (s : BitVec 8) : rest_of (error_status s) = rest_of s := by
  unfold error_status
  split
  · exact rest_set_class rfl s
  · rfl

theorem class_error_status_of_zero {s : BitVec 8} (h : class_of s = 0) : class_of (error_status s) = 1 := by
  rw [error_status, if_pos (show s &&& 0x3 = 0 from h)]
  exact class_set_class rfl s

theorem error_status_of_ne {s : BitVec 8} (h : class_of s ≠ 0) : error_status s = s :=
  if_neg h

/-! ### Where a request stands -/

/-- Nothing has gone wrong so far. -/
def Clean (s : Child) : Prop :=
  class_of s.request_exit_status = 0 ∧ ∀ h ∈ s.happened, h.failure = none ∧ h.hazard = false

/-- Something has gone wrong, and the class is the one that the last failure has been given. -/
structure Marked (s : Child) : Prop where
  ne_zero : class_of s.request_exit_status ≠ 0
  right : ∀ h ∈ last_failure s.happened, h.coded = some (class_of s.request_exit_status)
  cause : ∃ h ∈ s.happened, h.failure.isSome ∨ h.hazard

/-- The chat is a matter of at most three replies. -/
structure Chatting (rs : List Reply) (s : Child) : Prop where
  count : rs.length ≤ 3
  chat : s.chat_history = joined rs
  replied : replies s.happened = rs
  overflow : .overflow ∉ s.happened

/-- What holds of a request at every moment. -/
def Moment (s : Child) : Prop :=
  (∃ rs, Chatting rs s) ∧ (Clean s ∨ Marked s)

/-- No panic has been met. -/
def Running (s : Child) : Prop :=
  ∀ h ∈ s.happened, h.last = false

/-- No record has been sent. -/
def Unrecorded (s : Child) : Prop :=
  ∀ r, .brr r ∉ s.happened

/-- A request as its specifications see it: what brr_send will have of it, the bytes that
came with its line, the bytes of the blob moved so far, the status without its class, and
whether all has gone well. -/
structure Standing where
  requested : Requested
  read_ahead : Text
  chat : List Reply := []
  said : List Reply := []
  size : ℕ
  moved : ℕ := 0
  bits : BitVec 8 := 0
  clean : Bool := true

structure Stands (t : Standing) (s : Child) : Prop where
  requested : s.requested = some t.requested
  scan_buf : s.scan_buf = t.read_ahead
  chatting : Chatting t.chat s
  said : said s.happened = t.said
  size : s.blob_size = t.size
  moved : moved s.happened = t.moved
  bits : rest_of s.request_exit_status = t.bits
  marks : if t.clean then Clean s else Marked s
  unrecorded : Unrecorded s
  running : Running s

/-- A request that has left before its record. -/
structure Gone (bits : BitVec 8) (s : Child) : Prop where
  chatting : ∃ rs, Chatting rs s
  bits : rest_of s.request_exit_status = bits
  fault : class_of s.request_exit_status = 3
  failed : last_failure s.happened = some .fault
  marked : Marked s
  unrecorded : Unrecorded s
  answered : .no_chat ∉ s.happened

namespace Standing
variable (t : Standing)

def spoilt : Standing :=
  { t with clean := false }

/-- A reply of the server. -/
def reply (x : Reply) : Standing :=
  { t with chat := t.chat ++ [x], said := t.said ++ [x] }

/-- A reply of the client. -/
def hear (x : Reply) : Standing :=
  { t with chat := t.chat ++ [x] }

def carry (nbytes : ℕ) : Standing :=
  { t with size := t.size + nbytes, moved := t.moved + nbytes }

/-- The bytes that came with the line turn out to be bytes of the blob. -/
def eat_ahead : Standing :=
  { t with moved := t.moved + t.read_ahead.length }

@[simp] theorem carry_zero : t.carry 0 = t :=
  rfl

theorem carry_carry (m n : ℕ) : (t.carry m).carry n = t.carry (m + n) := by
  simp only [carry, Nat.add_assoc]

end Standing

section updates
variable {t : Standing} {rs : List Reply} {s : Child} {why : Happening}

theorem Chatting.note (hs : Chatting rs s) (hr : why.reply? = none) (ho : why ≠ .overflow) :
    Chatting rs (note why s) where
  count := hs.count
  chat := hs.chat
  replied := by
    rw [RequestChild.note, replies_concat, hr, hs.replied]
    simp
  overflow := by
    simpa [RequestChild.note, Ne.symm ho] using hs.overflow

theorem Unrecorded.note (hs : Unrecorded s) (hb : ∀ b, why ≠ .brr b) : Unrecorded (note why s) := by
  intro b
  simpa [RequestChild.note, Ne.symm (hb b)] using hs b

theorem Happening.last_of_plain (hwhy : why.plain) : why.last = false := by
  cases why <;> first | rfl | cases hwhy

theorem Running.note (hs : Running s) (hl : why.last = false) : Running (note why s) := by
  intro h hh
  rcases List.mem_append.mp hh with hh | hh
  · exact hs h hh
  · rw [List.mem_singleton.mp hh]
    exact hl

theorem Clean.last_failure (h : Clean s) : last_failure s.happened = none := by
  rw [RequestChild.last_failure, List.getLast?_eq_none_iff, List.filter_eq_nil_iff]
  intro why hwhy
  simp [(h.2 why hwhy).1]

/-- What is no failure leaves the marks as they are. -/
theorem marks_note {clean : Bool} (hs : if clean then Clean s else Marked s)
    (hf : why.failure = none) (hh : why.hazard = false) :
    if clean then Clean (note why s) else Marked (note why s) := by
  cases clean
  · have hm : Marked s := hs
    refine ⟨hm.ne_zero, ?_, ?_⟩
    · rw [note, last_failure_of_none hf]
      exact hm.right
    · obtain ⟨x, hx, hx'⟩ := hm.cause
      exact ⟨x, List.mem_append_left _ hx, hx'⟩
  · have hc : Clean s := hs
    refine ⟨hc.1, ?_⟩
    intro x hx
    rcases List.mem_append.mp hx with hx | hx
    · exact hc.2 x hx
    · rw [List.mem_singleton.mp hx]
      exact ⟨hf, hh⟩

/-- The marks are a matter of the status and of what has happened. -/
theorem marks_of_eq {clean : Bool} {s' : Child} (hs : if clean then Clean s else Marked s)
    (hb : s'.request_exit_status = s.request_exit_status) (hh : s'.happened = s.happened) :
    if clean then Clean s' else Marked s' := by
  cases clean
  · have hm : Marked s := hs
    exact ⟨by rw [hb]; exact hm.ne_zero, by rw [hb, hh]; exact hm.right, by rw [hh]; exact hm.cause⟩
  · have hc : Clean s := hs
    exact ⟨by rw [hb]; exact hc.1, by rw [hh]; exact hc.2⟩

namespace Stands

theorem moment (h : Stands t s) : Moment s := by
  refine ⟨⟨t.chat, h.chatting⟩, ?_⟩
  have hmarks := h.marks
  cases hc : t.clean
  · rw [hc] at hmarks
    exact .inr hmarks
  · rw [hc] at hmarks
    exact .inl hmarks

theorem clean (h : Stands t s) (hclean : t.clean = true) : Clean s := by
  have hmarks := h.marks
  rwa [if_pos hclean] at hmarks

theorem chat_length (h : Stands t s) : s.chat_history.length ≤ 8 := by
  rw [h.chatting.chat]
  exact joined_length_le h.chatting.count

/-- A plain happening with any change of the class of the exit. -/
theorem mark {f : BitVec 8 → BitVec 8} (h : Stands t s) (hwhy : why.plain)
    (hrest : rest_of (f s.request_exit_status) = rest_of s.request_exit_status)
    (hmarks : Marked (note why (with_status f s))) : Stands t.spoilt (note why (with_status f s)) where
  requested := h.requested
  scan_buf := h.scan_buf
  chatting := by
    have hs : Chatting t.chat (with_status f s) :=
      ⟨h.chatting.count, h.chatting.chat, h.chatting.replied, h.chatting.overflow⟩
    refine hs.note ?_ ?_
    · cases why <;> first | rfl | cases hwhy
    · rintro rfl
      cases hwhy
  said := by
    have hr : why.sent? = none := by
      cases why <;> first | rfl | cases hwhy
    have hsaid := h.said
    simpa [note, with_status, hr, Standing.spoilt] using hsaid
  size := h.size
  moved := by
    have hn : why.nbytes = 0 := by
      cases why <;> first | rfl | cases hwhy
    have hmoved := h.moved
    simpa [note, with_status, hn, Standing.spoilt] using hmoved
  bits := hrest.trans h.bits
  marks := hmarks
  unrecorded := by
    have hs : Unrecorded (with_status f s) := h.unrecorded
    refine hs.note ?_
    rintro b rfl
    cases hwhy
  running := h.running.note (Happening.last_of_plain hwhy)

end Stands

theorem marked_of_failure {f : BitVec 8 → BitVec 8} {c : BitVec 8}
    (hwhy : why.coded = some c) (hc : c ≠ 0) (hf : class_of (f s.request_exit_status) = c) :
    Marked (note why (with_status f s)) where
  ne_zero := by
    rw [note, with_status, hf]
    exact hc
  right := by
    have hfailure := Happening.failure_isSome_of_coded hwhy
    obtain ⟨c', hc'⟩ := Option.isSome_iff_exists.mp hfailure
    rw [note, with_status, hf, last_failure_of_failure hc']
    rintro h ⟨⟩
    exact hwhy
  cause := ⟨why, by simp [note], .inl (Happening.failure_isSome_of_coded hwhy)⟩

theorem class_error_status_ne (b : BitVec 8) : class_of (error_status b) ≠ 0 := by
  by_cases h : class_of b = 0
  · rw [class_error_status_of_zero h]
    decide
  · rw [error_status_of_ne h]
    exact h

/-- A complaint marks a request that has no mark, and leaves that of one that has. -/
theorem marked_of_hazard {clean : Bool} (hs : if clean then Clean s else Marked s) (hwhy : why.hazard)
    (hf : why.failure = none) : Marked (note why (with_status error_status s)) where
  ne_zero := class_error_status_ne _
  right := by
    rw [note, last_failure_of_none hf]
    cases clean
    · have hm : Marked s := hs
      rw [with_status, error_status_of_ne hm.ne_zero]
      exact hm.right
    · have hc : Clean s := hs
      rw [with_status, hc.last_failure]
      exact fun _ => nofun
  cause := ⟨why, by simp [note], .inr hwhy⟩

end updates

/-! ### The primitives -/

section primitives
variable {t : Standing} {s : Child}

theorem wp_panic {α : Type} {Q : α → Child → Prop} (h : Stands t s) :
    wp (panic .fault) Q (Gone t.bits) Moment s := by
  refine wp_bind (wp_modify (wp_bind (wp_modify (wp_bind (wp_modify (wp_leave ?_))))))
  change Gone t.bits (note .fault (with_status (set_class 3 ∘ error_status) s))
  have hchatting : Chatting t.chat (with_status (set_class 3 ∘ error_status) s) :=
    ⟨h.chatting.count, h.chatting.chat, h.chatting.replied, h.chatting.overflow⟩
  refine ⟨⟨t.chat, hchatting.note rfl nofun⟩, ?_, class_set_class rfl _, last_failure_of_failure rfl, ?_, ?_, ?_⟩
  · exact (rest_set_class rfl _).trans ((rest_error_status _).trans h.bits)
  · exact marked_of_failure rfl (by decide) (class_set_class rfl _)
  · exact Unrecorded.note (s := with_status (set_class 3 ∘ error_status) s) h.unrecorded nofun
  · intro hmem
    rcases List.mem_append.mp hmem with hmem | hmem
    · cases h.running _ hmem
    · cases List.mem_singleton.mp hmem

theorem wp_store_op {Q : Unit → Child → Prop} (h : Stands t s) (hQ : Q () s) :
    wp store_op Q (Gone t.bits) Moment s := by
  refine wp_bind (wp_turn h.moment fun x => ?_)
  refine wp_ite (fun _ => wp_panic h) fun _ => ?_
  exact wp_pure hQ

theorem wp_open_blob {Q : Bool → Child → Prop} (h : Stands t s) (hQ : ∀ found, Q found s) :
    wp open_blob Q (Gone t.bits) Moment s := by
  refine wp_bind (wp_turn h.moment fun x => ?_)
  cases x.store with
  | failed => exact wp_panic h
  | absent => exact wp_pure (hQ _)
  | done => exact wp_pure (hQ _)
  | given_up => exact wp_pure (hQ _)

/-- `error` has no say in a request that is marked. -/
theorem wp_error_spoilt {Q : Unit → Child → Prop} (h : Stands t.spoilt s) (hQ : Q () s) :
    wp error Q (Gone t.bits) Moment s := by
  refine wp_modify ?_
  have hm : Marked s := h.marks
  rw [with_status, error_status_of_ne hm.ne_zero]
  exact hQ

/-- A failure that is logged as an error on a request without a mark. -/
theorem wp_note_error {α : Type} {Q : α → Child → Prop} {n : Prog α} (why : Happening)
    (h : Stands t s) (hclean : t.clean) (hwhy : why.plain) (hf : why.coded = some 1)
    (hn : ∀ s', Stands t.spoilt s' → wp n Q (Gone t.bits) Moment s') :
    wp (do modify (note why); error; n) Q (Gone t.bits) Moment s := by
  refine wp_bind (wp_modify (wp_bind (wp_modify (hn _ ?_))))
  refine h.mark (f := error_status) hwhy (rest_error_status _) ?_
  exact marked_of_failure hf (by decide) (class_error_status_of_zero (h.clean hclean).1)

/-- A hazard that is logged as an error. -/
theorem wp_note_hazard {α : Type} {Q : α → Child → Prop} {n : Prog α} (why : Happening)
    (h : Stands t s) (hwhy : why.plain) (hh : why.hazard) (hf : why.failure = none)
    (hn : ∀ s', Stands t.spoilt s' → wp n Q (Gone t.bits) Moment s') :
    wp (do modify (note why); error; n) Q (Gone t.bits) Moment s := by
  refine wp_bind (wp_modify (wp_bind (wp_modify (hn _ ?_))))
  refine h.mark (f := error_status) hwhy (rest_error_status _) ?_
  exact marked_of_hazard h.marks hh hf

/-- Where `lose` leaves a request. -/
def lost (transfer : Transfer) (timed_out : Bool) (s : Child) : Child :=
  note (.lost transfer timed_out) (with_status (set_class (if timed_out then 2 else 1) ∘ error_status) s)

theorem wp_lose {Q : Unit → Child → Prop} {transfer : Transfer} {timed_out : Bool}
    (hQ : Q () (lost transfer timed_out s)) : wp (lose transfer timed_out) Q (Gone t.bits) Moment s :=
  wp_bind (wp_modify (wp_bind (wp_modify (wp_modify hQ))))

/-- The class of a lost transfer, but for the reply of the client. -/
theorem Stands.lost {transfer : Transfer} (h : Stands t s) (htransfer : transfer ≠ .reply_read)
    (timed_out : Bool) : Stands t.spoilt (lost transfer timed_out s) := by
  refine h.mark (f := set_class (if timed_out then 2 else 1) ∘ error_status) rfl ?_ ?_
  · refine Eq.trans ?_ (rest_error_status _)
    cases timed_out <;> exact rest_set_class rfl _
  · have hcoded : (Happening.lost transfer timed_out).coded = some (if timed_out then 2 else 1) := by
      cases transfer <;> cases timed_out <;> first | rfl | exact absurd rfl htransfer
    refine marked_of_failure hcoded ?_ ?_
    · cases timed_out <;> decide
    · cases timed_out <;> exact class_set_class rfl _

theorem wp_req_read {Q : Option Text → Child → Prop} {transfer : Transfer} {buf_size : ℕ}
    (h : Stands t s) (hread : ∀ chunk, Q (some chunk) s)
    (hlost : ∀ timed_out, Q none (lost transfer timed_out s)) :
    wp (req_read transfer buf_size) Q (Gone t.bits) Moment s := by
  refine wp_bind (wp_turn h.moment fun x => ?_)
  cases x.read with
  | bytes chunk => exact wp_pure (hread _)
  | failed => exact wp_bind (wp_lose (wp_pure (hlost false)))
  | timed_out => exact wp_bind (wp_lose (wp_pure (hlost true)))

theorem wp_req_write {Q : Bool → Child → Prop} {transfer : Transfer} (h : Stands t s)
    (htransfer : transfer ≠ .reply_read) (hwritten : Q true s) (hlost : ∀ s', Stands t.spoilt s' → Q false s') :
    wp (req_write transfer) Q (Gone t.bits) Moment s := by
  refine wp_bind (wp_turn h.moment fun x => ?_)
  cases x.write with
  | all => exact wp_pure hwritten
  | failed => exact wp_bind (wp_lose (wp_pure (hlost _ (h.lost htransfer false))))
  | timed_out => exact wp_bind (wp_lose (wp_pure (hlost _ (h.lost htransfer true))))

theorem Stands.transferred (h : Stands t s) (n : ℕ) : Stands (t.carry n) (transferred n s) where
  requested := h.requested
  scan_buf := h.scan_buf
  chatting := Chatting.note ⟨h.chatting.count, h.chatting.chat, h.chatting.replied, h.chatting.overflow⟩
    rfl nofun
  said := by
    rw [Standing.carry, ← h.said]
    exact said_concat.trans (List.append_nil _)
  size := by
    rw [Standing.carry, ← h.size]
    rfl
  moved := by
    rw [Standing.carry, ← h.moved]
    exact moved_concat
  bits := h.bits
  marks := marks_of_eq (marks_note h.marks rfl rfl) rfl rfl
  unrecorded := Unrecorded.note h.unrecorded nofun
  running := Running.note h.running rfl

end primitives

/-! ### The chat -/

section chat
variable {t : Standing} {s : Child}

theorem Stands.append {why : Happening} {x : Reply} {ss : List Reply} (h : Stands t s)
    (hc : t.chat.length ≤ 2) (hr : why.reply? = some x) (hs : t.said ++ why.sent?.toList = ss)
    (hn : why.nbytes = 0) (hf : why.failure = none)
    (hh : why.hazard = false) (hl : why.last = false) (hb : ∀ b, why ≠ .brr b) :
    Stands { t with chat := t.chat ++ [x], said := ss }
      (note why { s with chat_history := append_blurb s.chat_history x.text }) where
  requested := h.requested
  scan_buf := h.scan_buf
  chatting := by
    refine ⟨?_, ?_, ?_, ?_⟩
    · rw [List.length_append]
      exact Nat.succ_le_succ hc
    · rw [note, h.chatting.chat, append_blurb_joined hc]
    · rw [note, replies_concat, hr, h.chatting.replied]
      rfl
    · have ho : why ≠ .overflow := by
        rintro rfl
        cases hl
      simpa [note, Ne.symm ho] using h.chatting.overflow
  said := by
    rw [note, said_concat, h.said]
    exact hs
  size := h.size
  moved := by
    rw [note, moved_concat, hn]
    exact h.moved
  bits := h.bits
  marks := marks_of_eq (marks_note h.marks hf hh) rfl rfl
  unrecorded := Unrecorded.note h.unrecorded hb
  running := Running.note h.running hl

theorem Stands.send {x : Reply} (h : Stands t s) (hc : t.chat.length ≤ 2) :
    Stands (t.reply x) (note (.sent x) { s with chat_history := append_blurb s.chat_history x.text }) :=
  h.append hc rfl rfl rfl rfl rfl rfl nofun

theorem Stands.receive {x : Reply} (h : Stands t s) (hc : t.chat.length ≤ 2) :
    Stands (t.hear x) (note (.received x) { s with chat_history := append_blurb s.chat_history x.text }) :=
  h.append hc rfl (List.append_nil _) rfl rfl rfl rfl nofun

theorem wp_add_chat_history {Q : Unit → Child → Prop} {why : Reply → Happening} {x : Reply} {t' : Standing}
    (h : Stands t s)
    (ht : Stands t' (note (why x) { s with chat_history := append_blurb s.chat_history x.text }))
    (hQ : ∀ s', Stands t' s' → Q () s') :
    wp (add_chat_history why x) Q (Gone t.bits) Moment s := by
  refine wp_bind (wp_get ?_)
  refine wp_ite (fun hfull => ?_) fun _ => wp_modify (hQ _ ht)
  have hlength := h.chat_length
  omega

theorem wp_write_reply {Q : Bool → Child → Prop} {x : Reply} (h : Stands t s)
    (hc : t.chat.length ≤ 2) (hsent : ∀ s', Stands (t.reply x) s' → Q true s')
    (hlost : ∀ s', Stands t.spoilt s' → Q false s') :
    wp (write_reply x) Q (Gone t.bits) Moment s := by
  refine wp_bind (wp_req_write h (by decide) ?_ ?_)
  · exact wp_bind (wp_add_chat_history h (h.send hc) fun s' hs => wp_pure (hsent s' hs))
  · exact fun s' hs => wp_bind (wp_error_spoilt hs (wp_pure (hlost s' hs)))

theorem wp_answer {Q : Unit → Child → Prop} {x : Reply} (h : Stands t s) (hc : t.chat.length ≤ 2)
    (hsent : ∀ s', Stands (t.reply x) s' → Q () s') (hlost : ∀ s', Stands t.spoilt s' → Q () s') :
    wp (answer x) Q (Gone t.bits) Moment s :=
  wp_bind (wp_write_reply h hc (fun s' hs => wp_pure (hsent s' hs)) fun s' hs => wp_pure (hlost s' hs))

theorem wp_reply_error {Q : Option Reply → Child → Prop} {why : Happening} (h : Stands t s)
    (hwhy : why.plain) (hf : why.coded = some 1) (hQ : ∀ s', Stands t.spoilt s' → Q none s') :
    wp (reply_error (some why)) Q (Gone t.bits) Moment s := by
  refine wp_bind (wp_modify (wp_bind (wp_modify (wp_bind (wp_modify (wp_pure (hQ _ ?_)))))))
  refine h.mark (f := set_class 1 ∘ error_status) hwhy ?_ ?_
  · exact (rest_set_class rfl _).trans (rest_error_status _)
  · exact marked_of_failure hf (by decide) (class_set_class rfl _)

/-- A lost reply becomes the client's error even where it timed out. -/
theorem wp_reply_error_lost {Q : Option Reply → Child → Prop} {timed_out : Bool} (h : Stands t s)
    (hQ : ∀ s', Stands t.spoilt s' → Q none s') :
    wp (reply_error none) Q (Gone t.bits) Moment (lost .reply_read timed_out s) := by
  refine wp_bind (wp_modify (wp_bind (wp_modify (wp_pure (hQ _ ?_)))))
  have hplain : (Happening.lost .reply_read timed_out).plain := rfl
  refine h.mark (f := set_class 1 ∘ error_status ∘ set_class (if timed_out then 2 else 1) ∘ error_status) hplain
    ?_ ?_
  · refine (rest_set_class rfl _).trans ((rest_error_status _).trans (Eq.trans ?_ (rest_error_status _)))
    cases timed_out <;> exact rest_set_class rfl _
  · refine marked_of_failure (c := 1) ?_ (by decide) (class_set_class rfl _)
    cases timed_out <;> rfl

theorem wp_read_reply {Q : Option Reply → Child → Prop} (h : Stands t s) (hc : t.chat.length ≤ 2)
    (hread : ∀ x s', Stands (t.hear x) s' → Q (some x) s')
    (hbad : ∀ s', Stands t.spoilt s' → Q none s') : wp read_reply Q (Gone t.bits) Moment s := by
  refine wp_loop (J := fun _ => Stands t) ?_ (fun _ _ hs => hs.moment) h
  intro reply s h
  refine wp_bind (wp_req_read h ?_ ?_)
  · intro chunk
    cases chunk with
    | nil => exact wp_bind (wp_reply_error h rfl rfl fun s' hs => wp_pure (hbad s' hs))
    | cons c cs =>
      refine wp_bind (wp_turn h.moment fun x => ?_)
      cases reply_bytes (reply ++ c :: cs) x.junk with
      | again => exact wp_pure h
      | bad => exact wp_bind (wp_reply_error h rfl rfl fun s' hs => wp_pure (hbad s' hs))
      | read =>
        refine wp_ite (fun _ => ?_) fun _ => wp_ite (fun _ => ?_) fun _ => ?_
        · exact wp_bind (wp_add_chat_history h (h.receive hc) fun s' hs => wp_pure (hread _ s' hs))
        · exact wp_bind (wp_add_chat_history h (h.receive hc) fun s' hs => wp_pure (hread _ s' hs))
        · exact wp_bind (wp_reply_error h rfl rfl fun s' hs => wp_pure (hbad s' hs))
  · intro timed_out
    exact wp_bind (wp_reply_error_lost h fun s' hs => wp_pure (hbad s' hs))

end chat

/-! ### The bytes of a blob -/

section bytes
variable {t : Standing} {s : Child} {r : Requested}

theorem wp_blob_read {Q : Option Text → Child → Prop} {buf_size : ℕ} (h : Stands t s)
    (hread : ∀ chunk s', Stands (t.carry chunk.length) s' → Q (some chunk) s')
    (hlost : ∀ s', Stands t.spoilt s' → Q none s') :
    wp (blob_read buf_size) Q (Gone t.bits) Moment s := by
  refine wp_bind (wp_req_read h (fun chunk => ?_) fun timed_out => wp_pure (hlost _ (h.lost (by decide) timed_out)))
  exact wp_bind (wp_modify (wp_pure (hread chunk _ (h.transferred _))))

theorem wp_blob_write {Q : Bool → Child → Prop} {n : ℕ} (h : Stands t s)
    (hwritten : ∀ s', Stands (t.carry n) s' → Q true s') (hlost : ∀ s', Stands t.spoilt s' → Q false s') :
    wp (blob_write n) Q (Gone t.bits) Moment s := by
  refine wp_bind (wp_req_write h (by decide) ?_ fun s' hs => ?_)
  · exact wp_bind (wp_modify (wp_pure (hwritten _ (h.transferred n))))
  · exact wp_pure (hlost s' hs)

/-- The blob goes out whole, or the request is spoilt. -/
theorem wp_get_bytes {Q : Bool → Child → Prop} {trust_fs : Bool} (h : Stands t s)
    (hsent : ∀ n s', Stands (t.carry n) s' → Q true s')
    (hlost : ∀ n s', Stands (t.carry n).spoilt s' → Q false s') :
    wp (get_bytes trust_fs r) Q (Gone t.bits) Moment s := by
  refine wp_bind (wp_loop (J := fun _ s => ∃ n, Stands (t.carry n) s) ?_ ?_ ⟨0, h⟩)
  · rintro _ s ⟨n, h⟩
    refine wp_bind (wp_turn h.moment fun x => ?_)
    refine wp_ite (fun _ => wp_panic (t := t.carry n) h) fun _ => wp_ite (fun _ => ?_) fun _ => ?_
    · refine wp_ite (fun _ => wp_pure ?_) fun _ => wp_panic (t := t.carry n) h
      exact wp_bind (wp_store_op (t := t.carry n) h (wp_pure (hsent n _ h)))
    · refine wp_bind (wp_blob_write (t := t.carry n) h (fun s' hs => ?_) fun s' hs => ?_)
      · rw [Standing.carry_carry] at hs
        exact wp_pure ⟨_, hs⟩
      · refine wp_pure ?_
        exact wp_bind (wp_store_op (t := (t.carry n).spoilt) hs (wp_pure (hlost n _ hs)))
  · rintro _ s ⟨n, h⟩
    exact h.moment

theorem wp_eat_chunk {Q : Bool → Child → Prop} (h : Stands t s) (hQ : ∀ seen, Q seen s) :
    wp eat_chunk Q (Gone t.bits) Moment s := by
  refine wp_bind (wp_turn h.moment fun x => ?_)
  exact wp_ite (fun _ => wp_panic h) fun _ => wp_pure (hQ _)

theorem wp_read_chunks {Q : Bool → Child → Prop} (h : Stands t s) (hclean : t.clean)
    (hread : ∀ n s', Stands (t.carry n) s' → Q true s')
    (hlost : ∀ n s', Stands (t.carry n).spoilt s' → Q false s') :
    wp read_chunks Q (Gone t.bits) Moment s := by
  refine wp_loop (J := fun _ s => ∃ n, Stands (t.carry n) s) ?_ ?_ ⟨0, h⟩
  · rintro room s ⟨n, h⟩
    refine wp_bind (wp_blob_read (t := t.carry n) h ?_ ?_)
    · intro chunk s' hs
      rw [Standing.carry_carry] at hs
      cases chunk with
      | nil =>
        refine wp_note_error (t := t.carry (n + 0)) (.hung_up .blob_read) hs hclean rfl rfl fun s' hs => ?_
        exact wp_pure (hlost _ s' hs)
      | cons c cs =>
        refine wp_bind (wp_eat_chunk (t := t.carry (n + (c :: cs).length)) hs fun seen => ?_)
        refine wp_ite (fun _ => wp_pure (hread _ s' hs)) fun _ => ?_
        exact wp_ite (fun _ => wp_pure ⟨_, hs⟩) fun _ => wp_pure ⟨_, hs⟩
    · intro s' hs
      exact wp_bind (wp_error_spoilt (t := t.carry n) hs (wp_pure (hlost n s' hs)))
  · rintro _ s ⟨n, h⟩
    exact h.moment

/-- The bytes that came with the line are bytes of the blob, and may be all of it. -/
theorem wp_eat_scan_buf {Q : Bool → Child → Prop} (h : Stands t s)
    (hQ : ∀ seen s', Stands t.eat_ahead s' → Q seen s') :
    wp eat_scan_buf Q (Gone t.bits) Moment s := by
  refine wp_bind (wp_get (wp_ite (fun hnil => wp_pure ?_) fun _ => wp_ite (fun _ => wp_panic h) fun _ => ?_))
  · rw [h.scan_buf] at hnil
    refine hQ false s ?_
    have heat : t.eat_ahead = t := by
      rw [Standing.eat_ahead, List.length_eq_zero_iff.mpr hnil]
      rfl
    rw [heat]
    exact h
  · have hs : Stands t.eat_ahead (note (.moved s.scan_buf.length) s) :=
      { requested := h.requested
        scan_buf := h.scan_buf
        chatting := h.chatting.note rfl nofun
        said := by
          rw [note, said_concat, h.said]
          exact List.append_nil _
        size := h.size
        moved := by
          rw [note, moved_concat, h.moved, h.scan_buf]
          rfl
        bits := h.bits
        marks := marks_note h.marks rfl rfl
        unrecorded := h.unrecorded.note nofun
        running := h.running.note rfl }
    exact wp_bind (wp_modify (wp_eat_chunk (t := t.eat_ahead) hs fun seen => hQ seen _ hs))

/-- A blob that is not empty comes from behind the line, and from nowhere else. -/
theorem wp_put_bytes {Q : Bool → Child → Prop} (h : Stands t s) (hclean : t.clean)
    (hempty : r.digest = r.algorithm.empty_ascii → Q true s)
    (hput : r.digest ≠ r.algorithm.empty_ascii → ∀ n s', Stands (t.eat_ahead.carry n) s' → Q true s')
    (hlost : ∀ n s', Stands (t.eat_ahead.carry n).spoilt s' → Q false s') :
    wp (put_bytes r) Q (Gone t.bits) Moment s := by
  refine wp_bind (wp_store_op h (wp_ite (fun hr => ?_) fun hr => ?_))
  · exact wp_bind (wp_store_op h (wp_pure (hempty hr)))
  · refine wp_bind (wp_eat_scan_buf h fun seen s' hs => ?_)
    cases seen with
    | true =>
      refine wp_bind (wp_pure ?_)
      exact wp_bind (wp_store_op (t := t.eat_ahead) hs (wp_pure (hput hr 0 s' hs)))
    | false =>
      refine wp_bind ?_
      refine wp_read_chunks (t := t.eat_ahead) hs hclean (fun n s' hs => ?_) fun n s' hs => ?_
      · exact wp_bind (wp_store_op (t := t.eat_ahead.carry n) hs (wp_pure (hput hr n s' hs)))
      · exact wp_bind (wp_store_op (t := (t.eat_ahead.carry n).spoilt) hs (wp_pure (hlost n s' hs)))

end bytes

end Blobio.RequestChild
