import Blobio.RequestEnds

/-! What the record and the exit status of a request process say about the request. -/
namespace Blobio.RequestChild
open TurnPrograms TurnPrograms.Program Standing

/-! ### The chat -/

/-- The child as bio4d calls a callback in it. -/
def dispatched (r : Requested) (scan_buf : Text) : Child where
  requested := some r
  scan_buf := scan_buf
  blob_size := scan_buf.length

/-- The chat history is the list of the replies, and fits its buffer with the null. -/
structure KeepsChat (s : Child) : Prop where
  chat : s.chat_history = joined (replies s.happened)
  count : (replies s.happened).length ≤ 3
  room : s.chat_history.length < sizeof_chat_history
  fits : .overflow ∉ s.happened

theorem Chatting.keeps {rs : List Reply} {s : Child} (h : Chatting rs s) : KeepsChat s where
  chat := by
    rw [h.replied]
    exact h.chat
  count := by
    rw [h.replied]
    exact h.count
  room := by
    have hlength := joined_length_le h.count
    rw [h.chat, sizeof_chat_history]
    omega
  fits := h.overflow

/-- Wherever the callback of a verb has come to, its chat history is right. -/
theorem chat_history_kept (trust_fs : Bool) (r : Requested) (scan_buf : Text) (turns : List Turn) :
    KeepsChat (callback trust_fs r (dispatched r scan_buf) turns).state := by
  have hkept : ∀ s, (∃ rs, Chatting rs s) → KeepsChat s := fun _ ⟨_, h⟩ => h.keeps
  refine state_of_wp (wp_mono (wp_callback (opened_stands r scan_buf)) ?_ ?_ ?_) turns
  · rintro _ s ⟨t, hs, -⟩
    exact hs.chatting.keeps
  · exact fun s h => hkept s h.chatting
  · exact fun s h => hkept s h.1

/-! ### The blob size -/

/-- The chat of a get, put, give or take that has moved its blob. -/
def success : Verb → Option (List Reply)
  | .get => some [.ok]
  | .put => some [.ok, .ok]
  | .give | .take => some [.ok, .ok, .ok]
  | _ => none

/-- A record of a transfer that has gone well. -/
def Succeeded (s : Child) (d : BrrData) : Prop :=
  class_of s.request_exit_status = 0 ∧ ∃ rs ∈ success d.requested.verb, d.chat_history = joined rs

def moves_no_blob (v : Verb) : Prop :=
  v ∈ [Verb.eat, .wrap, .roll]

instance (v : Verb) : Decidable (moves_no_blob v) :=
  inferInstanceAs (Decidable (v ∈ _))

/-- The blob size of a record, as the schema of the database has it. -/
def SizeRight (s : Child) (d : BrrData) : Prop :=
  d.blob_size = if moves_no_blob d.requested.verb then 0 else moved s.happened

/-- The replies of a chat history. -/
def heard (chat_history : Text) : List Reply :=
  chat_history.filterMap fun c => if c = 'k' then some .ok else if c = 'n' then some .no else none

theorem heard_joined (rs : List Reply) : heard (joined rs) = rs := by
  induction rs with
  | nil => rfl
  | cons a rs ih =>
    cases rs with
    | nil => cases a <;> rfl
    | cons b rs =>
      have hjoined : joined (a :: b :: rs) = a.text ++ ',' :: joined (b :: rs) := by
        simp [joined, List.intercalate]
      have hcomma : heard (',' :: joined (b :: rs)) = b :: rs := ih
      have hfirst : heard a.text = [a] := by
        cases a <;> rfl
      calc heard (joined (a :: b :: rs)) = heard a.text ++ heard (',' :: joined (b :: rs)) := by
            rw [hjoined, heard, List.filterMap_append]
            rfl
        _ = a :: b :: rs := by
            rw [hfirst, hcomma]
            rfl

theorem joined_injective : Function.Injective joined :=
  Function.LeftInverse.injective heard_joined

/-- A request process that has left with this record. -/
structure Left (config : Config) (turns : List Turn) (s : Child) (d : BrrData) : Prop where
  run : (request config {} turns).left? = some s
  record : .brr d ∈ s.happened

theorem Left.closed {config : Config} {turns : List Turn} {s : Child} {d : BrrData}
    (h : Left config turns s d) : ∃ r t,
      (∃ verb algorithm digest, dispatch config.installed verb algorithm digest = .callback r) ∧ Ended r t ∧
        t.chat ≠ [] ∧ Closed config t s ∧ d = ⟨t.requested, joined t.chat, t.size⟩ := by
  have hfinished := left_of_wp wp_request h.run
  cases hfinished with
  | closed hr ht hchat hs => exact ⟨_, _, ⟨_, _, _, hr⟩, ht, hchat, hs, ((hs.record d).mp h.record).2⟩
  | spoilt hm hb ho => exact absurd h.record (hb d)
  | misled hs hb => exact absurd h.record (hb d)

theorem Standing.Ended.verb {r : Requested} {t : Standing} (h : Ended r t) : t.requested.verb = r.verb := by
  rcases h.requested with heq | ⟨-, d, heq⟩
  · rw [heq]
  · rw [heq]

section sizes
variable {r : Requested} {t : Standing}

/-- A size that leaves the bytes behind the line out of the blob. -/
theorem Standing.Balanced.right_iff (h : t.Balanced) : t.size = t.moved ↔ t.read_ahead = [] := by
  have hsize : t.size = t.read_ahead.length + t.moved := h
  rw [← List.length_eq_zero_iff]
  omega

theorem Standing.Unmoved.zero_iff (h : t.Unmoved) : t.size = 0 ↔ t.read_ahead = [] := by
  rw [← List.length_eq_zero_iff, h.1]

/-- A put or a give that has gone well. -/
theorem right_iff_of_put (hv : r.verb = .put ∨ r.verb = .give) (h : t.Sized r)
    (hchat : [.ok, .ok] <+: t.chat) :
    t.size = t.moved ↔ t.read_ahead = [] ∨ r.digest ≠ r.algorithm.empty_ascii := by
  have hsize : if r.digest = r.algorithm.empty_ascii then t.Unmoved else t.size = t.moved := by
    rcases hv with hv | hv
    · rw [Sized, hv] at h
      exact h hchat
    · rw [Sized, hv] at h
      exact h hchat
  by_cases hempty : r.digest = r.algorithm.empty_ascii
  · rw [if_pos hempty] at hsize
    simp [hempty, ← hsize.zero_iff, hsize.2]
  · rw [if_neg hempty] at hsize
    simp [hempty, hsize]

end sizes

/-- The record of a transfer that has gone well, or of an eat, wrap or roll, has the size it
should have just when nothing came behind the request's line in the same read, or these
bytes were the first of the blob. -/
theorem blob_size_right_iff {config : Config} {turns : List Turn} {s : Child} {d : BrrData}
    (h : Left config turns s d) (hd : Succeeded s d ∨ moves_no_blob d.requested.verb) :
    SizeRight s d ↔ s.scan_buf = [] ∨ d.requested.verb ∈ [Verb.put, .give] ∧
      d.requested.digest ≠ d.requested.algorithm.empty_ascii := by
  obtain ⟨r, t, -, ht, -, hs, rfl⟩ := h.closed
  have hsized := ht.sized
  have hverb := ht.verb
  have hchat : Succeeded s ⟨t.requested, joined t.chat, t.size⟩ → t.chat ∈ success r.verb := by
    rintro ⟨-, rs, hrs, hjoined⟩
    rw [joined_injective hjoined, ← hverb]
    exact hrs
  have hput : r.verb = .put ∨ r.verb = .give → t.requested = r := by
    intro hv
    rcases ht.requested with heq | ⟨hwrap, -⟩
    · exact heq
    · rw [hwrap] at hv
      rcases hv with hv | hv <;> cases hv
  rw [SizeRight, hs.moved, hs.scan_buf]
  change (t.size = if moves_no_blob t.requested.verb then 0 else t.moved) ↔
    t.read_ahead = [] ∨ t.requested.verb ∈ [Verb.put, .give] ∧ _
  rw [hverb] at hd ⊢
  cases hv : r.verb with
  | cat =>
    rw [hv] at hd hchat
    rcases hd with hd | hd
    · cases hchat hd
    · cases (show ¬ moves_no_blob .cat by decide) hd
  | get =>
    rw [Sized, hv] at hsized
    simpa [moves_no_blob] using hsized.right_iff
  | take =>
    rw [Sized, hv] at hsized
    simpa [moves_no_blob] using hsized.right_iff
  | put =>
    rw [hv] at hd hchat
    have hok : [Reply.ok, .ok] = t.chat := Option.some.inj (hchat (hd.resolve_right (by decide)))
    have hright := right_iff_of_put (.inl hv) hsized (hok ▸ List.prefix_rfl)
    simpa [moves_no_blob, hput (.inl hv)] using hright
  | give =>
    rw [hv] at hd hchat
    have hok : [Reply.ok, .ok, .ok] = t.chat := Option.some.inj (hchat (hd.resolve_right (by decide)))
    have hright := right_iff_of_put (.inr hv) hsized (hok ▸ List.prefix_append [Reply.ok, .ok] [.ok])
    simpa [moves_no_blob, hput (.inr hv)] using hright
  | eat =>
    rw [Sized, hv] at hsized
    simpa [moves_no_blob] using hsized.zero_iff
  | wrap =>
    rw [Sized, hv] at hsized
    simpa [moves_no_blob] using hsized.zero_iff
  | roll =>
    rw [Sized, hv] at hsized
    simpa [moves_no_blob] using hsized.zero_iff

def every_verb : Config where
  installed := every_module
  trust_fs := false
  brr_mask := 0xff

/-- The answers to a request in one read that all goes well with. -/
def answers (line : Text) (n : ℕ) : List Turn :=
  { read := .bytes line } :: List.replicate n {}

def empty_sha : Text :=
  "da39a3ee5e6b4b0d3255bfef95601890afd80709".toList

def get_empty : Requested :=
  ⟨.get, .sha, empty_sha⟩

def get_empty_exit : Child where
  requested := some get_empty
  chat_history := "ok".toList
  request_exit_status := 0x04
  happened := [.sent .ok, .brr ⟨get_empty, "ok".toList, 0⟩]

def put_abc : Requested :=
  ⟨.put, .sha, "a9993e364706816aba3e25717850c26c9cd0d89d".toList⟩

/-- Two of the three bytes come with the line, the third is read after them. -/
def put_abc_turns : List Turn :=
  [{ read := .bytes ("put sha:".toList ++ put_abc.digest ++ "\nab".toList) }, {}, {}, {}, { accepted := false },
    { read := .bytes ['c'] }, {}, {}, {}, {}, {}, {}, {}]

def put_abc_exit : Child where
  requested := some put_abc
  chat_history := "ok,ok".toList
  request_exit_status := 0x08
  scan_buf := "ab".toList
  blob_size := 3
  happened := [.sent .ok, .moved 2, .moved 1, .sent .ok, .brr ⟨put_abc, "ok,ok".toList, 3⟩]

theorem put_abc_size_right : SizeRight put_abc_exit ⟨put_abc, "ok,ok".toList, 3⟩ :=
  (blob_size_right_iff (⟨by decide +kernel, by decide⟩ : Left every_verb put_abc_turns _ _)
    (.inl ⟨rfl, [.ok, .ok], rfl, rfl⟩)).mpr (.inr ⟨by decide, by decide⟩)

/-- An eat whose line comes with one more byte has that byte in its record. -/
theorem eat_size_wrong : ¬ ∀ s d,
    Left every_verb (answers ("eat sha:".toList ++ empty_sha ++ "\nx".toList) 8) s d →
      d.requested.verb = .eat → d.blob_size = 0 := by
  intro h
  have hleft : Left every_verb (answers ("eat sha:".toList ++ empty_sha ++ "\nx".toList) 8)
      { requested := some ⟨.eat, .sha, empty_sha⟩
        chat_history := "ok".toList
        request_exit_status := 0x14
        scan_buf := ['x']
        blob_size := 1
        happened := [.sent .ok, .brr ⟨⟨.eat, .sha, empty_sha⟩, "ok".toList, 1⟩] }
      ⟨⟨.eat, .sha, empty_sha⟩, "ok".toList, 1⟩ :=
    ⟨by decide +kernel, by decide⟩
  cases h _ _ hleft rfl

/-! ### The class of the exit -/

/-- A failure that the client has brought about. -/
def Happening.by_client : Happening → Bool
  | .lost _ false | .hung_up _ | .bad_line | .bad_reply => true
  | _ => false

/-- The protocol has run to its end without a failure, and the record of a verb that is
logged has been sent. -/
def Completed (config : Config) (s : Child) : Prop :=
  last_failure s.happened = none ∧ ∃ r, s.requested = some r ∧
    (∃ rs ∈ completed r.verb, s.chat_history = joined rs) ∧
      (brr_mask_is_set r.verb config.brr_mask → .brr ⟨r, s.chat_history, s.blob_size⟩ ∈ s.happened)

/-- The class says how the request has ended. -/
structure ClassRight (config : Config) (s : Child) : Prop where
  success : class_of s.request_exit_status = 0 ↔ Completed config s
  error : class_of s.request_exit_status = 1 ↔ ∃ why ∈ last_failure s.happened, why.by_client
  timeout : class_of s.request_exit_status = 2 ↔
    ∃ transfer, last_failure s.happened = some (.lost transfer true)
  fault : class_of s.request_exit_status = 3 ↔ last_failure s.happened = some .fault

theorem mem_of_last_failure {hs : List Happening} {why : Happening} (h : last_failure hs = some why) :
    why ∈ hs ∧ why.failure.isSome := by
  have hmem := List.mem_of_getLast? h
  rw [List.mem_filter] at hmem
  exact hmem

/-- What each class of failure is about. -/
theorem Happening.failure_cases {why : Happening} (h : why.failure.isSome) (ho : why ≠ .overflow) :
    why.failure = some 1 ∧ why.by_client ∧ (∀ transfer, why ≠ .lost transfer true) ∧ why ≠ .fault ∨
      why.failure = some 2 ∧ ¬ why.by_client ∧ (∃ transfer, why = .lost transfer true) ∧ why ≠ .fault ∨
        why.failure = some 3 ∧ ¬ why.by_client ∧ (∀ transfer, why ≠ .lost transfer true) ∧ why = .fault := by
  cases why with
  | lost transfer timed_out =>
    cases timed_out
    · exact .inl ⟨rfl, rfl, nofun, nofun⟩
    · exact .inr (.inl ⟨rfl, nofun, ⟨transfer, rfl⟩, nofun⟩)
  | hung_up transfer => exact .inl ⟨rfl, rfl, nofun, nofun⟩
  | bad_line => exact .inl ⟨rfl, rfl, nofun, nofun⟩
  | bad_reply => exact .inl ⟨rfl, rfl, nofun, nofun⟩
  | fault => exact .inr (.inr ⟨rfl, nofun, nofun, rfl⟩)
  | overflow => exact absurd rfl ho
  | _ => cases h

/-- Without a hazard a mark has a failure behind it. -/
theorem Marked.last_failure_ne {s : Child} (h : Marked s) (hazard : ¬ Hazardous s.happened) :
    last_failure s.happened ≠ none := by
  obtain ⟨why, hmem, hfailure | hh⟩ := h.cause
  · rw [last_failure, Ne, List.getLast?_eq_none_iff, List.filter_eq_nil_iff, not_forall]
    exact ⟨why, not_forall.mpr ⟨hmem, not_not.mpr hfailure⟩⟩
  · exact absurd ⟨why, hmem, hh⟩ hazard

theorem Marked.classRight {config : Config} {s : Child} (h : Marked s)
    (hazard : ¬ Hazardous s.happened) (ho : .overflow ∉ s.happened) : ClassRight config s := by
  have hnone := h.last_failure_ne hazard
  cases hlast : last_failure s.happened with
  | none => exact absurd hlast hnone
  | some why =>
    obtain ⟨hmem, hfailure⟩ := mem_of_last_failure hlast
    have hright := h.right why hlast
    have hsound : why ≠ .lost .reply_read true := by
      rintro rfl
      exact hazard ⟨_, hmem, rfl⟩
    rw [Happening.coded_eq_failure hsound] at hright
    have hwhy : why ≠ .overflow := by
      rintro rfl
      exact ho hmem
    have hincomplete : ¬ Completed config s := by
      rintro ⟨hnone, -⟩
      rw [hlast] at hnone
      cases hnone
    rcases Happening.failure_cases hfailure hwhy with ⟨hc, hcases⟩ | ⟨hc, hcases⟩ | ⟨hc, hcases⟩
    · have hclass : class_of s.request_exit_status = 1 := Option.some.inj (hright.symm.trans hc)
      constructor <;> simp [hclass, hincomplete, hlast, hcases]
    · have hclass : class_of s.request_exit_status = 2 := Option.some.inj (hright.symm.trans hc)
      constructor <;> simp [hclass, hincomplete, hlast, hcases]
    · have hclass : class_of s.request_exit_status = 3 := Option.some.inj (hright.symm.trans hc)
      constructor <;> simp [hclass, hincomplete, hlast, hcases, Happening.by_client]

theorem Clean.classRight {config : Config} {s : Child} (h : Clean s)
    (hcompleted : Completed config s) : ClassRight config s := by
  have hclass := h.1
  have hlast := hcompleted.1
  constructor <;> simp [hclass, hcompleted, hlast]

/-- Where no hazard is met, the class of the exit says how the request has ended; in
particular it is that of a fault just behind a failure of the server itself. -/
theorem exit_class_right {config : Config} {turns : List Turn} {s : Child}
    (hrun : (request config {} turns).left? = some s) (hazard : ¬ Hazardous s.happened) :
    ClassRight config s := by
  cases left_of_wp wp_request hrun with
  | spoilt hm hb ho => exact hm.classRight hazard ho
  | misled hs => exact absurd hs hazard
  | @closed _ _ _ r t _ hr ht hchat hs =>
    rcases hs.marks with ⟨hclean, hc⟩ | hm
    · refine hc.classRight ⟨hc.last_failure, t.requested, hs.requested, ⟨t.chat, ?_, hs.chat⟩, fun hmask => ?_⟩
      · rw [ht.verb]
        exact ht.completed hclean
      · refine (hs.record _).mpr ⟨hmask, ?_⟩
        rw [hs.chat, hs.size]
    · exact hm.classRight hazard fun ho => nomatch hs.running _ ho

/-- A get of the empty blob runs to its end. -/
theorem get_empty_class_right : ClassRight every_verb get_empty_exit :=
  exit_class_right
    (by decide +kernel :
      (request every_verb {} (answers ("get sha:".toList ++ empty_sha ++ ['\n']) 6)).left? = some get_empty_exit)
    (by rintro ⟨h, hmem, hh⟩; revert h; decide)

/-- A client that asks for an unknown algorithm brings about a fault, and nobody else does. -/
theorem unknown_algorithm_class_wrong :
    ¬ ∀ turns s, (request every_verb {} turns).left? = some s → ClassRight every_verb s := by
  intro h
  have hright := h (answers "get md5:d41d8cd98f00b204e9800998ecf8427e\n".toList 0)
    { request_exit_status := 3, happened := [.unknown_algorithm] } (by decide +kernel)
  cases hright.fault.mp rfl

end Blobio.RequestChild
