import Blobio.RequestChild

/-! The reply of a client to a take or a give, read from a stream that comes in whatever pieces. -/
namespace Blobio.RequestChild
open TurnPrograms TurnPrograms.Program

/-- A stream as the reads return it, up to its end or to a read that fails. -/
structure Delivery where
  chunks : List Text
  nonempty : ∀ c ∈ chunks, c ≠ []

def Delivery.stream (d : Delivery) : Text :=
  d.chunks.flatten

/-- A read ends behind just so many bytes. -/
def StopsAt : ℕ → List Text → Prop
  | 0, _ => True
  | _ + 1, [] => False
  | n + 1, c :: cs => c.length ≤ n + 1 ∧ StopsAt (n + 1 - c.length) cs

/-! ### The reply of the client -/

/-- One turn of the loop in `read_reply`. -/
def reply_step (reply : Text) : Prog (Text ⊕ Option Reply) := do
  let nread ← req_read .reply_read (4 - reply.length)
  match nread with
  | none => do
    let r ← reply_error none
    pure (.inr r)
  | some [] => do
    let r ← reply_error (some (.hung_up .reply_read))
    pure (.inr r)
  | some chunk => do
    let t ← turn
    match reply_bytes (reply ++ chunk) t.junk with
    | .again => pure (.inl (reply ++ chunk))
    | .bad => do
      let r ← reply_error (some .bad_reply)
      pure (.inr r)
    | .read =>
      if (reply ++ chunk).take 2 = "ok".toList then do
        add_chat_history .received .ok
        pure (.inr (some .ok))
      else if (reply ++ chunk).take 2 = "no".toList then do
        add_chat_history .received .no
        pure (.inr (some .no))
      else do
        let r ← reply_error (some .bad_reply)
        pure (.inr r)

/-- What the surroundings answer to a `read_reply`: the reads of a stream and then its end, and
before every decision what the bytes of the buffer hold that have not been read. -/
def reply_turns (junk : Char × Char) (ending : Received) : List Text → List Turn
  | [] => [{ read := ending }]
  | c :: cs => { read := .bytes c } :: { junk := junk } :: reply_turns junk ending cs

def Ends (ending : Received) : Prop :=
  ∀ c, ending = .bytes c → c = []

/-- The reply that the two characters in front stand for. -/
def pick (reply : Text) : Option Reply :=
  if reply.take 2 = "ok".toList then some .ok
  else if reply.take 2 = "no".toList then some .no
  else none

def decide_bytes (read : Text) (again : Option Reply) : ReplyBytes → Option Reply
  | .again => again
  | .bad => none
  | .read => pick read

/-- What the loop comes to. -/
def decide_reply (junk : Char × Char) : Text → List Text → Option Reply
  | _, [] => none
  | reply, c :: cs =>
    let read := reply ++ c.take (4 - reply.length)
    decide_bytes read (decide_reply junk read cs) (reply_bytes read junk)

def chat_with (r : Option Reply) (history : Text) : Text :=
  match r with
  | some r => append_blurb history r.text
  | none => history

section run
variable {junk : Char × Char} {ending : Received} {s : Child} {rest : List Turn} {reply c : Text}

theorem reply_step_end (reply : Text) (s : Child) (rest : List Turn) (h : Ends ending) : ∃ s', reply_step reply s ({ read := ending } :: rest) =
    .done (.inr none) s' rest ∧ s'.chat_history = s.chat_history := by
  cases ending with
  | bytes chunk =>
    obtain rfl := h chunk rfl
    have hread : req_read .reply_read (4 - reply.length) s ({ read := .bytes [] } :: rest) =
        .done (some []) s rest := by
      simp only [req_read, Bind.bind, Program.bind, turn, List.take_nil]
      rfl
    simp only [reply_step, Bind.bind, Program.bind, hread]
    exact ⟨_, rfl, rfl⟩
  | failed => exact ⟨_, rfl, rfl⟩
  | timed_out => exact ⟨_, rfl, rfl⟩

theorem add_chat_history_run (why : Reply → Happening) (r : Reply) (rest : List Turn) (hchat : s.chat_history.length ≠ 9) :
    ∃ s', add_chat_history why r s rest = .done () s' rest ∧
      s'.chat_history = append_blurb s.chat_history r.text := by
  refine ⟨note (why r) { s with chat_history := append_blurb s.chat_history r.text }, ?_, rfl⟩
  change (if s.chat_history.length = 9 then panic .overflow
    else modify fun s => note (why r) { s with chat_history := append_blurb s.chat_history r.text }) s rest = _
  rw [if_neg hchat]
  rfl

/-- The turn of the loop that reads a piece of the stream. -/
theorem reply_step_chunk (junk : Char × Char) (rest : List Turn) (hc : c ≠ []) (hroom : reply.length < 4) (hchat : s.chat_history.length ≠ 9) :
    let read := reply ++ c.take (4 - reply.length)
    ∃ s', reply_step reply s ({ read := .bytes c } :: { junk := junk } :: rest) =
        .done (match reply_bytes read junk with
          | .again => .inl read
          | .bad => .inr none
          | .read => .inr (pick read)) s' rest ∧
      s'.chat_history = match reply_bytes read junk with
        | .read => chat_with (pick read) s.chat_history
        | _ => s.chat_history := by
  intro read
  obtain ⟨a, chunk, hchunk⟩ : ∃ a chunk, c.take (4 - reply.length) = a :: chunk := by
    obtain ⟨a, as, rfl⟩ := List.exists_cons_of_ne_nil hc
    obtain ⟨n, hn⟩ : ∃ n, 4 - reply.length = n + 1 := ⟨4 - reply.length - 1, by omega⟩
    exact ⟨a, as.take n, by rw [hn, List.take_succ_cons]⟩
  have hread : req_read .reply_read (4 - reply.length) s ({ read := .bytes c } :: { junk := junk } :: rest) =
      .done (some (a :: chunk)) s ({ junk := junk } :: rest) := by
    simp only [req_read, Bind.bind, Program.bind, turn, hchunk]
    rfl
  simp only [reply_step, Bind.bind, Program.bind, hread, turn, read, hchunk]
  cases hbytes : reply_bytes (reply ++ a :: chunk) junk with
  | again => exact ⟨_, rfl, rfl⟩
  | bad => exact ⟨_, rfl, rfl⟩
  | read =>
    simp only [pick]
    by_cases hok : (reply ++ a :: chunk).take 2 = "ok".toList
    · obtain ⟨s', hrun, hs'⟩ := add_chat_history_run .received .ok rest hchat
      refine ⟨s', ?_, ?_⟩
      · simp only [if_pos hok, Program.bind, hrun]
        rfl
      · simp only [if_pos hok]
        exact hs'
    · by_cases hno : (reply ++ a :: chunk).take 2 = "no".toList
      · obtain ⟨s', hrun, hs'⟩ := add_chat_history_run .received .no rest hchat
        refine ⟨s', ?_, ?_⟩
        · simp only [if_neg hok, if_pos hno, Program.bind, hrun]
          rfl
        · simp only [if_neg hok, if_pos hno]
          exact hs'
      · simp only [if_neg hok, if_neg hno]
        exact ⟨_, rfl, rfl⟩

theorem length_of_again (h : reply_bytes reply junk = .again) : reply.length < 4 := by
  unfold reply_bytes at h
  split_ifs at h <;> omega

/-- A run over the pieces of a stream, with the fuel that its turns give. -/
theorem iterate_reply_step {chunks : List Text} (hne : ∀ c ∈ chunks, c ≠ []) (hends : Ends ending)
    (hroom : reply.length < 4) (hchat : s.chat_history.length ≠ 9) {n : ℕ} (hn : chunks.length < n) :
    ∃ s' rest, iterate reply_step n reply s (reply_turns junk ending chunks) =
        .done (decide_reply junk reply chunks) s' rest ∧
      s'.chat_history = chat_with (decide_reply junk reply chunks) s.chat_history := by
  induction chunks generalizing reply s n with
  | nil =>
    obtain ⟨n, rfl⟩ : ∃ m, n = m + 1 := ⟨n - 1, by omega⟩
    obtain ⟨s', hrun, hs'⟩ := reply_step_end reply s [] hends
    refine ⟨s', [], ?_, hs'⟩
    simp only [iterate, reply_turns, Program.bind, hrun]
    rfl
  | cons c chunks ih =>
    obtain ⟨n, rfl⟩ : ∃ m, n = m + 1 := ⟨n - 1, by omega⟩
    obtain ⟨s', hrun, hs'⟩ := reply_step_chunk junk (reply_turns junk ending chunks)
      (hne c List.mem_cons_self) hroom hchat
    simp only [iterate, reply_turns, Program.bind, hrun, decide_reply]
    cases hbytes : reply_bytes (reply ++ c.take (4 - reply.length)) junk with
    | again =>
      rw [hbytes] at hs'
      have hsame : s'.chat_history = s.chat_history := hs'
      obtain ⟨t, rest, hrest, ht⟩ := ih (fun a ha => hne a (List.mem_cons_of_mem _ ha))
        (length_of_again hbytes) (hsame ▸ hchat) (Nat.lt_of_succ_lt_succ hn)
      exact ⟨t, rest, hrest, by rw [ht, hsame]; rfl⟩
    | bad =>
      rw [hbytes] at hs'
      exact ⟨s', _, rfl, hs'⟩
    | read =>
      rw [hbytes] at hs'
      exact ⟨s', _, rfl, hs'⟩

end run

/-- However the stream comes and whatever else the buffer holds, this is the reply, and the chat
goes on with it. -/
def Answers (d : Delivery) (r : Option Reply) : Prop :=
  ∀ (junk : Char × Char) (ending : Received) (s : Child), Ends ending → s.chat_history.length ≠ 9 →
    ∃ s' rest, read_reply s (reply_turns junk ending d.chunks) = .done r s' rest ∧
      s'.chat_history = chat_with r s.chat_history

theorem length_reply_turns (junk : Char × Char) (ending : Received) (chunks : List Text) :
    (reply_turns junk ending chunks).length = 2 * chunks.length + 1 := by
  induction chunks with
  | nil => rfl
  | cons c chunks ih =>
    simp only [reply_turns, List.length_cons, ih]
    omega

theorem answers_iff (d : Delivery) (r : Option Reply) :
    Answers d r ↔ ∀ junk, decide_reply junk [] d.chunks = r := by
  have hrun : ∀ junk ending s, Ends ending → s.chat_history.length ≠ 9 → ∃ s' rest,
      read_reply s (reply_turns junk ending d.chunks) = .done (decide_reply junk [] d.chunks) s' rest ∧
        s'.chat_history = chat_with (decide_reply junk [] d.chunks) s.chat_history := by
    intro junk ending s hends hchat
    exact iterate_reply_step d.nonempty hends (by decide) hchat (by rw [length_reply_turns]; omega)
  constructor
  · intro h junk
    have hends : Ends (.bytes []) := fun c hc => (Received.bytes.inj hc).symm
    obtain ⟨s', rest, hdone, -⟩ := hrun junk (.bytes []) {} hends (by decide)
    obtain ⟨t, rest', hdone', -⟩ := h junk (.bytes []) {} hends (by decide)
    rw [hdone] at hdone'
    exact (Result.done.inj hdone').1
  · intro h junk ending s hends hchat
    rw [← h junk]
    exact hrun junk ending s hends hchat

/-- The reply that a stream is, all of it. -/
def documented_reply (stream : Text) : Option Reply :=
  if stream = "ok\n".toList ∨ stream = "ok\r\n".toList then some .ok
  else if stream = "no\n".toList ∨ stream = "no\r\n".toList then some .no
  else none

/-- Behind the two characters of a reply, what is read right: nothing may stop the reads there;
a newline ends the stream or is read with what follows; a carriage return ends the stream or has a
newline and more behind it. -/
def ReadRight (chunks : List Text) : Prop :=
  ¬ StopsAt 2 chunks ∧ ∀ x rest, chunks.flatten.drop 2 = x :: rest →
    (x = '\n' → rest = [] ∨ ¬ StopsAt 3 chunks) ∧
    (x = '\r' → rest = [] ∨ ∃ more, rest = '\n' :: more ∧ more ≠ [])

/-- What four characters come to. -/
def decide_four (a b x y : Char) : Option Reply :=
  if x ≠ '\r' ∨ y = '\n' then none else pick [a, b]

theorem pick_cons (a b : Char) (rest : Text) : pick (a :: b :: rest) = pick [a, b] := rfl

theorem decide_behind_cr {chunks : List Text} (hne : ∀ c ∈ chunks, c ≠ []) (junk : Char × Char) (a b : Char) :
    decide_reply junk [a, b, '\r'] chunks = match chunks.flatten with
      | [] => none
      | y :: _ => decide_four a b '\r' y := by
  cases chunks with
  | nil => rfl
  | cons c chunks =>
    obtain ⟨y, ys, rfl⟩ := List.exists_cons_of_ne_nil (hne c List.mem_cons_self)
    by_cases hy : y = '\n' <;> simp [decide_reply, decide_bytes, reply_bytes, decide_four, hy, pick]

variable {chunks : List Text} {junk : Char × Char} {again : Option Reply} {a b x y : Char}

/-- Two characters, behind which the program looks at what the buffer holds. -/
theorem decide_two : decide_bytes [a, b] again (reply_bytes [a, b] junk) =
    if junk.1 ≠ '\r' ∨ junk.2 = '\n' then none else pick [a, b] := by
  by_cases h : junk.1 ≠ '\r' ∨ junk.2 = '\n' <;> simp [reply_bytes, h, decide_bytes]

/-- Three characters, read without a stop behind the second. -/
theorem decide_three (hne : ∀ c ∈ chunks, c ≠ []) :
    decide_bytes [a, b, x] (decide_reply junk [a, b, x] chunks) (reply_bytes [a, b, x] junk) =
      if x = '\r' then match chunks.flatten with
        | [] => none
        | y :: _ => decide_four a b x y
      else if x = '\n' then pick [a, b] else none := by
  by_cases hcr : x = '\r'
  · subst hcr
    exact decide_behind_cr hne junk a b
  · by_cases hnl : x = '\n' <;> simp [reply_bytes, hcr, hnl, decide_bytes, pick]

theorem decide_many : decide_bytes [a, b, x, y] again (reply_bytes [a, b, x, y] junk) =
    decide_four a b x y := by
  by_cases h : x ≠ '\r' ∨ y = '\n' <;> simp [reply_bytes, decide_bytes, decide_four, h, pick_cons]

/-- Where the reads stop for the decision. -/
theorem decide_cases (hne : ∀ c ∈ chunks, c ≠ []) :
    (chunks.flatten.length < 2 ∧ ∀ junk, decide_reply junk [] chunks = none) ∨
    (StopsAt 2 chunks ∧ ∃ a b rest, chunks.flatten = a :: b :: rest ∧ ∀ junk, decide_reply junk [] chunks =
      if junk.1 ≠ '\r' ∨ junk.2 = '\n' then none else pick [a, b]) ∨
    (¬ StopsAt 2 chunks ∧ StopsAt 3 chunks ∧ ∃ a b x rest, chunks.flatten = a :: b :: x :: rest ∧
      ∀ junk, decide_reply junk [] chunks = if x = '\r' then match rest with
          | [] => none
          | y :: _ => decide_four a b x y
        else if x = '\n' then pick [a, b] else none) ∨
    (¬ StopsAt 2 chunks ∧ ¬ StopsAt 3 chunks ∧ ∃ a b x y rest, chunks.flatten = a :: b :: x :: y :: rest ∧
      ∀ junk, decide_reply junk [] chunks = decide_four a b x y) := by
  rcases chunks with - | ⟨- | ⟨a, - | ⟨b, - | ⟨x, - | ⟨y, ys⟩⟩⟩⟩, cs⟩
  · exact .inl ⟨by simp, fun _ => rfl⟩
  · exact absurd rfl (hne [] List.mem_cons_self)
  · rcases cs with - | ⟨- | ⟨b, - | ⟨x, - | ⟨y, ys⟩⟩⟩, cs⟩
    · exact .inl ⟨by simp, fun _ => rfl⟩
    · exact absurd rfl (hne [] (by simp))
    · exact .inr (.inl ⟨by simp [StopsAt], a, b, cs.flatten, rfl, fun _ => decide_two⟩)
    · exact .inr (.inr (.inl ⟨by simp [StopsAt], by simp [StopsAt], a, b, x, cs.flatten, rfl,
        fun _ => decide_three fun c hc => hne c (by simp [hc])⟩))
    · exact .inr (.inr (.inr ⟨by simp [StopsAt], by simp [StopsAt], a, b, x, y, ys ++ cs.flatten, rfl,
        fun _ => decide_many⟩))
  · exact .inr (.inl ⟨by simp [StopsAt], a, b, cs.flatten, rfl, fun _ => decide_two⟩)
  · exact .inr (.inr (.inl ⟨by simp [StopsAt], by simp [StopsAt], a, b, x, cs.flatten, rfl,
      fun _ => decide_three fun c hc => hne c (by simp [hc])⟩))
  · exact .inr (.inr (.inr ⟨by simp [StopsAt], by simp [StopsAt], a, b, x, y, ys ++ cs.flatten, rfl,
      fun _ => decide_many⟩))

theorem pick_of_short {t : Text} (h : t.length < 2) : pick t = none := by
  rcases t with - | ⟨a, - | ⟨b, t⟩⟩
  · rfl
  · simp [pick]
  · exact absurd h (by simp)

theorem pick_eq_some {r : Reply} : pick [a, b] = some r ↔ [a, b] = r.text := by
  unfold pick
  cases r with
  | ok =>
    split_ifs with hok hno
    · exact iff_of_true rfl hok
    · exact iff_of_false (by simp) hok
    · exact iff_of_false (by simp) hok
  | no =>
    split_ifs with hok hno
    · exact iff_of_false (by simp) (fun hno => by cases hok.symm.trans hno)
    · exact iff_of_true rfl hno
    · exact iff_of_false (by simp) hno

theorem documented_of_pick {t : Text} (h : pick t = none) : documented_reply t = none := by
  unfold documented_reply
  split_ifs with hok hno
  · rcases hok with rfl | rfl <;> cases h
  · rcases hno with rfl | rfl <;> cases h
  · rfl

/-- Behind the characters of a reply, only the two endings are one. -/
theorem documented_eq {r : Reply} (hpick : pick [a, b] = some r) (rest : Text) :
    documented_reply (a :: b :: rest) = if rest = ['\n'] ∨ rest = ['\r', '\n'] then some r else none := by
  have htext := pick_eq_some.mp hpick
  cases r with
  | ok =>
    obtain ⟨rfl, rfl⟩ : a = 'o' ∧ b = 'k' := by simpa [Reply.text] using htext
    simp [documented_reply]
  | no =>
    obtain ⟨rfl, rfl⟩ : a = 'n' ∧ b = 'o' := by simpa [Reply.text] using htext
    simp [documented_reply]

theorem readRight_iff {rest : Text} (hstop : ¬ StopsAt 2 chunks) (hflat : chunks.flatten = a :: b :: x :: rest) :
    ReadRight chunks ↔ (x = '\n' → rest = [] ∨ ¬ StopsAt 3 chunks) ∧
      (x = '\r' → rest = [] ∨ ∃ more, rest = '\n' :: more ∧ more ≠ []) := by
  rw [ReadRight, hflat, and_iff_right hstop]
  constructor
  · intro h
    exact h x rest rfl
  · intro h y more heq
    obtain ⟨rfl, rfl⟩ := List.cons.inj heq
    exact h

/-- Whatever the two characters are that no reply begins with. -/
theorem decide_of_pick_none (hne : ∀ c ∈ chunks, c ≠ []) (hpick : pick chunks.flatten = none) (junk : Char × Char) :
    decide_reply junk [] chunks = none := by
  rcases decide_cases hne with ⟨-, h⟩ | ⟨-, a, b, rest, hflat, h⟩ | ⟨-, -, a, b, x, rest, hflat, h⟩ |
    ⟨-, -, a, b, x, y, rest, hflat, h⟩
  · exact h junk
  all_goals
    rw [hflat, pick_cons] at hpick
    rw [h junk]
  · rw [hpick, ite_self]
  · simp only [hpick, decide_four, ite_self]
    split
    · split <;> rfl
    · rfl
  · rw [decide_four, hpick, ite_self]

theorem read_reply_right_iff (d : Delivery) : Answers d (documented_reply d.stream) ↔
    pick d.stream = none ∨ ReadRight d.chunks := by
  rw [answers_iff]
  by_cases hpick : pick d.stream = none
  · refine iff_of_true ?_ (Or.inl hpick)
    rw [documented_of_pick hpick]
    exact decide_of_pick_none d.nonempty hpick
  rw [or_iff_right hpick]
  obtain ⟨r, hr⟩ := Option.ne_none_iff_exists'.mp hpick
  unfold Delivery.stream at hr ⊢
  rcases decide_cases d.nonempty with ⟨hlen, -⟩ | ⟨hstop, a, b, rest, hflat, htwo⟩ |
    ⟨hstop, hstop', a, b, x, rest, hflat, hthree⟩ | ⟨hstop, hstop', a, b, x, y, rest, hflat, hfour⟩
  · rw [pick_of_short hlen] at hr
    cases hr
  all_goals
    rw [hflat, pick_cons] at hr
    rw [hflat, documented_eq hr]
  · refine iff_of_false (fun h => ?_) fun h => h.1 hstop
    have hbad := h ('\n', '\n')
    have hread := h ('\r', '\r')
    rw [htwo, if_pos (by decide)] at hbad
    rw [htwo, if_neg (by decide), hr, ← hbad] at hread
    cases hread
  · rw [readRight_iff hstop hflat]
    simp only [hthree]
    by_cases hcr : x = '\r'
    · subst hcr
      rcases rest with - | ⟨y, more⟩
      · simp
      · by_cases hnl : y = '\n' <;> simp [decide_four, hnl, hr]
    · by_cases hnl : x = '\n'
      · simp [hnl, hr, hstop']
      · simp [hcr, hnl]
  · rw [readRight_iff hstop hflat]
    simp only [hfour]
    by_cases hcr : x = '\r'
    · by_cases hnl : y = '\n' <;> simp [decide_four, hcr, hnl, hr]
    · simp [decide_four, hcr, hstop']

/-- A reply that ends as it may is not taken when it comes in one piece. -/
theorem crlf_refused : ¬ ∀ d : Delivery, Answers d (documented_reply d.stream) := by
  intro h
  have hok := (answers_iff _ _).mp (h ⟨["ok\r\n".toList], by simp⟩) ('x', 'x')
  revert hok
  decide

end Blobio.RequestChild
