import Blobio.GoTexts
import Blobio.LogAcceptance

/-! How `flowd` reads blob request records, and how far that is from the grammar on top of
`brr.go`. -/
namespace Blobio

open GoTexts

/-- The array of seven strings, its indices by their names. -/
structure Brr where
  start_time : Text
  transport : Text
  verb : Text
  udig : Text
  chat_history : Text
  blob_size : Text
  wall_duration : Text
  deriving DecidableEq

def Brr.fields (b : Brr) : List Text :=
  [b.start_time, b.transport, b.verb, b.udig, b.chat_history, b.blob_size, b.wall_duration]

/-- What the documentation of Go leaves open: the offsets of zones, and the texts of errors. -/
structure GoLibrary where
  zone_ok : ℕ → ℕ → Bool
  time_error : Text → Text
  number_error : Text → Text
  duration_error : Text → Text

/-- `^[a-z][a-z0-9]{0,7}~[[:graph:]]{1,128}$` -/
def transport_re (f : Text) : Bool :=
  '~' ∈ f && tag_ok (f.takeWhile (· ≠ '~')) && Chars graph_set 1 128 (f.dropWhile (· ≠ '~')).tail

def brr_verbs : List Text :=
  ["get", "put", "give", "take", "eat", "wrap", "roll"].map String.toList

def brr_chats : List Text :=
  ["ok", "no", "ok,ok", "ok,ok,ok", "ok,no", "ok,ok,no"].map String.toList

/-- A test whose failure returns the error. -/
def require (ok : Bool) (error : Text) : Except Text Unit :=
  if ok then .ok () else .error error

/-- The loop over the characters before the colon. -/
def parse_algorithm : ℕ → Text → Except Text Unit
  | _, [] => .ok ()
  | i, c :: cs => do
    require (c.toNat ≤ 127) "udig: algorithm: non ASCII".toList
    require (!between 'A' 'Z' c) ("udig: upper case not allowed in algorithm: ".toList ++ [c])
    if i = 0 then require (!c.isDigit) "udig: algorithm: first char is digit".toList
    else require (c.isAlpha || c.isDigit) ("udig: algorithm: char not lower|digit: ".toList ++ [c])
    parse_algorithm (i + 1) cs

/-- `unicode.IsGraphic` in ASCII, where the space is such a character. -/
def is_graphic (c : Char) : Bool :=
  between ' ' '~' c

/-- The loop over the characters behind the colon. -/
def parse_digest : Text → Except Text Unit
  | [] => .ok ()
  | c :: cs => do
    require (c.toNat ≤ 127) "udig: digest: non ASCII".toList
    require (is_graphic c) "udig: digest: non graphic".toList
    parse_digest cs

def parse_udig (udig : Text) : Except Text Unit := do
  require (udig.length ≠ 0) "udig: 0 length".toList
  require (udig.length ≤ 15 + 1 + 128) "udig: too many characters".toList
  match udig.idxOf? ':' with
  | none => .error "udig: no colon in algorithm".toList
  | some co =>
    require (co ≠ 0) "udig: colon is first character".toList
    require (co ≤ 8) "udig: colon > 8th character".toList
    parse_algorithm 0 (udig.take co)
    require (co + 1 ≤ udig.length) "udig: no digest after colon".toList
    parse_digest (udig.drop (co + 1))

/-- `brr.parse` -/
def parse (go : GoLibrary) (s : Text) : Except Text Brr :=
  match s.splitOn '\t' with
  | [start_time, transport, verb, udig, chat_history, blob_size, wall_duration] => do
    require (time_parse go.zone_ok start_time)
      ("unparsable start time: ".toList ++ go.time_error start_time)
    require (transport_re transport) ("unrecognized network flow: ".toList ++ transport)
    require (verb ∈ brr_verbs) ("unknown verb: ".toList ++ verb)
    parse_udig udig
    require (chat_history ∈ brr_chats) "chat history: unrecognized".toList
    require (parse_uint blob_size).isSome ("blob size: ".toList ++ go.number_error blob_size)
    require (parse_duration (wall_duration ++ ['s'])).isSome
      ("unparsable wall duration: ".toList ++ go.duration_error (wall_duration ++ ['s']))
    .ok ⟨start_time, transport, verb, udig, chat_history, blob_size, wall_duration⟩
  | b =>
    .error ("wrong number of brr fields: expected 7, got ".toList ++ Nat.toDigits 10 b.length ++
      ": ".toList ++ s)

/-! ### The udigs that are parsed -/

theorem require_eq_ok {ok : Bool} {error : Text} : require ok error = .ok () ↔ ok := by
  cases ok with
  | false => exact iff_of_false (by rintro ⟨⟩) (by simp)
  | true => exact iff_of_true rfl rfl

theorem unit_bind_eq_ok {α : Type} {m : Except Text Unit} {k : Except Text α} {a : α} :
    (m >>= fun _ => k) = .ok a ↔ m = .ok () ∧ k = .ok a := by
  cases m with
  | error e => exact iff_of_false (by rintro ⟨⟩) (by simp)
  | ok u => exact ⟨fun h => ⟨rfl, h⟩, fun h => h.2⟩

/-- Sets of characters of ASCII are known by a check of its codes. -/
theorem mem_iff_of_ascii {set : Text} {p : Char → Bool} (hset : ∀ c ∈ set, c.toNat < 128)
    (hp : ∀ c, p c → c.toNat < 128) (h : ∀ n : Fin 128, Char.ofNat n ∈ set ↔ p (Char.ofNat n)) (c : Char) :
    c ∈ set ↔ p c := by
  by_cases hc : c.toNat < 128
  · have hcode := h ⟨c.toNat, hc⟩
    rwa [Char.ofNat_toNat] at hcode
  · exact iff_of_false (fun h => hc (hset c h)) fun h => hc (hp c h)

theorem between_lt {lo hi c : Char} (hhi : hi.toNat < 128) (h : between lo hi c) : c.toNat < 128 := by
  simp only [between, Bool.and_eq_true, decide_eq_true_eq] at h
  exact lt_of_le_of_lt h.2 hhi

theorem mem_graph_set {c : Char} : c ∈ graph_set ↔ between '!' '~' c :=
  mem_iff_of_ascii (by decide +kernel) (fun _ => between_lt (by decide)) (by decide +kernel) c

theorem mem_lower_alnum {c : Char} : c ∈ lower_alnum ↔ c.toNat ≤ 127 ∧ (!between 'A' 'Z' c) ∧
    (c.isAlpha || c.isDigit) := by
  have h : c ∈ lower_alnum ↔ _ := mem_iff_of_ascii
    (p := fun c => c.toNat ≤ 127 && (!between 'A' 'Z' c && (c.isAlpha || c.isDigit))) (by decide +kernel)
    (fun c hc => Nat.lt_succ_of_le (of_decide_eq_true (Bool.and_eq_true_iff.mp hc).1)) (by decide +kernel) c
  simpa only [Bool.and_eq_true, decide_eq_true_eq] using h

theorem parse_algorithm_succ {cs : Text} (i : ℕ) :
    parse_algorithm (i + 1) cs = .ok () ↔ ∀ c ∈ cs, c ∈ lower_alnum := by
  induction cs generalizing i with
  | nil => exact iff_of_true rfl (List.forall_mem_nil _)
  | cons c cs ih =>
    rw [parse_algorithm, List.forall_mem_cons, ← ih (i + 1), mem_lower_alnum, if_neg (Nat.succ_ne_zero i)]
    simp only [unit_bind_eq_ok, require_eq_ok, decide_eq_true_eq, and_assoc]

theorem is_graphic_eq (c : Char) : c.toNat ≤ 127 ∧ is_graphic c ↔ c = ' ' ∨ c ∈ graph_set := by
  have h : c ∈ ' ' :: graph_set ↔ _ := mem_iff_of_ascii (p := fun c => c.toNat ≤ 127 && is_graphic c)
    (by decide +kernel)
    (fun c hc => Nat.lt_succ_of_le (of_decide_eq_true (Bool.and_eq_true_iff.mp hc).1)) (by decide +kernel) c
  rw [List.mem_cons, Bool.and_eq_true, decide_eq_true_eq] at h
  exact h.symm

theorem parse_digest_eq_ok {cs : Text} : parse_digest cs = .ok () ↔ ∀ c ∈ cs, c = ' ' ∨ c ∈ graph_set := by
  induction cs with
  | nil => exact iff_of_true rfl (List.forall_mem_nil _)
  | cons c cs ih =>
    rw [parse_digest, List.forall_mem_cons, ← ih, ← is_graphic_eq]
    simp only [unit_bind_eq_ok, require_eq_ok, decide_eq_true_eq, and_assoc]

theorem idxOf_colon {x : Text} (hx : ':' ∉ x) (y : Text) : (x ++ ':' :: y).idxOf? ':' = some x.length := by
  induction x with
  | nil => rfl
  | cons c x ih =>
    rw [List.mem_cons, not_or] at hx
    have hc : (c == ':') = false := beq_false_of_ne fun h => hx.1 h.symm
    rw [List.cons_append, List.idxOf?_cons, hc, ih hx.2]
    rfl

theorem parse_udig_colon {x y : Text} (hx : ':' ∉ x) : parse_udig (x ++ ':' :: y) = .ok () ↔
    (x ++ ':' :: y).length ≤ 144 ∧ x ≠ [] ∧ x.length ≤ 8 ∧ parse_algorithm 0 x = .ok () ∧
      ∀ d ∈ y, d = ' ' ∨ d ∈ graph_set := by
  have hlen : x.length + 1 ≤ (x ++ ':' :: y).length := by simp
  have hzero : (x ++ ':' :: y).length ≠ 0 := by simp
  have htake : (x ++ ':' :: y).take x.length = x := List.take_left
  have hdrop : (x ++ ':' :: y).drop (x.length + 1) = y := by
    rw [← List.drop_drop, List.drop_left, List.drop_one, List.tail_cons]
  simp only [parse_udig, idxOf_colon hx, unit_bind_eq_ok, require_eq_ok, decide_eq_true_eq, htake, hdrop,
    parse_digest_eq_ok, hlen, hzero, ne_eq, not_false_eq_true, true_and, List.length_eq_zero_iff]

/-- A first character of an algorithm that is not turned away. -/
def first_ok (c : Char) : Bool :=
  c.toNat ≤ 127 && !between 'A' 'Z' c && !c.isDigit && c ≠ ':'

/-- `[first_ok][a-z0-9]{0,7}:[ -~]*`, of no more than 144 characters. -/
structure LooseUdig (u : Text) : Prop where
  parts : ∃ c algorithm digest, u = c :: algorithm ++ ':' :: digest ∧ first_ok c ∧
    Chars lower_alnum 0 7 algorithm ∧ ∀ d ∈ digest, d = ' ' ∨ d ∈ graph_set
  length : u.length ≤ 15 + 1 + 128

theorem parse_udig_eq_ok {u : Text} : parse_udig u = .ok () ↔ LooseUdig u := by
  constructor
  · intro h
    by_cases hcolon : ':' ∈ u
    · obtain ⟨x, y, rfl, hx⟩ := List.eq_append_cons_of_mem hcolon
      obtain ⟨hlen, hne, hle, halg, hy⟩ := (parse_udig_colon hx).mp h
      obtain ⟨c, algorithm, rfl⟩ := List.exists_cons_of_ne_nil hne
      rw [List.mem_cons, not_or] at hx
      simp only [parse_algorithm, unit_bind_eq_ok, require_eq_ok, decide_eq_true_eq, if_true,
        parse_algorithm_succ] at halg
      obtain ⟨hascii, hupper, hdigit, hrest⟩ := halg
      refine ⟨⟨c, algorithm, y, rfl, ?_, ⟨hrest, Nat.zero_le _, Nat.le_of_succ_le_succ hle⟩, hy⟩, hlen⟩
      simp only [first_ok, Bool.and_eq_true, decide_eq_true_eq]
      exact ⟨⟨⟨hascii, hupper⟩, hdigit⟩, fun h => hx.1 h.symm⟩
    · have hnone : u.idxOf? ':' = none := List.idxOf?_eq_none_iff.mpr hcolon
      simp only [parse_udig, hnone, unit_bind_eq_ok] at h
      cases h.2.2
  · rintro ⟨⟨c, algorithm, digest, rfl, hc, halg, hdigest⟩, hlen⟩
    simp only [first_ok, Bool.and_eq_true, decide_eq_true_eq] at hc
    obtain ⟨⟨⟨hascii, hupper⟩, hdigit⟩, hne⟩ := hc
    have hx : ':' ∉ c :: algorithm := by
      rw [List.mem_cons, not_or]
      exact ⟨fun h => hne h.symm, halg.not_mem (by decide)⟩
    apply (parse_udig_colon hx).mpr
    refine ⟨hlen, List.cons_ne_nil _ _, Nat.succ_le_succ halg.upper, ?_, hdigest⟩
    simp only [parse_algorithm, unit_bind_eq_ok, require_eq_ok, decide_eq_true_eq, if_true,
      parse_algorithm_succ]
    exact ⟨hascii, hupper, hdigit, halg.subset⟩

/-! ### The fields that are parsed -/

theorem transport_re_iff {f : Text} : transport_re f ↔
    ∃ tag detail, f = tag ++ '~' :: detail ∧ Tag tag ∧ Chars graph_set 1 128 detail := by
  simp only [transport_re, Bool.and_eq_true, decide_eq_true_eq, tag_ok_iff]
  constructor
  · rintro ⟨⟨htilde, htag⟩, hdetail⟩
    obtain ⟨tag, detail, rfl, hne⟩ := List.eq_append_cons_of_mem htilde
    rw [takeWhile_ne hne] at htag
    rw [dropWhile_ne hne] at hdetail
    exact ⟨tag, detail, rfl, htag, hdetail⟩
  · rintro ⟨tag, detail, rfl, htag, hdetail⟩
    have hne : '~' ∉ tag := fun h => absurd (htag.subset _ h) (by decide)
    rw [takeWhile_ne hne, dropWhile_ne hne]
    exact ⟨⟨by simp, htag⟩, hdetail⟩

/-- The fields pass the tests of `parse`. -/
structure Brr.Taken (go : GoLibrary) (b : Brr) : Prop where
  start_time : time_parse go.zone_ok b.start_time
  transport : transport_re b.transport
  verb : b.verb ∈ brr_verbs
  udig : parse_udig b.udig = .ok ()
  chat_history : b.chat_history ∈ brr_chats
  blob_size : (parse_uint b.blob_size).isSome
  wall_duration : (parse_duration (b.wall_duration ++ ['s'])).isSome

theorem parse_eq_ok {go : GoLibrary} {s : Text} {b : Brr} :
    parse go s = .ok b ↔ s.splitOn '\t' = b.fields ∧ b.Taken go := by
  unfold parse
  split
  · rename_i t tr v u ch n w hsplit
    simp only [unit_bind_eq_ok, require_eq_ok, Except.ok.injEq, decide_eq_true_eq]
    rw [hsplit]
    constructor
    · rintro ⟨ht, htr, hv, hu, hch, hn, hw, rfl⟩
      exact ⟨rfl, ht, htr, hv, hu, hch, hn, hw⟩
    · obtain ⟨t', tr', v', u', ch', n', w'⟩ := b
      rintro ⟨h, hb⟩
      simp only [Brr.fields, List.cons.injEq, and_true] at h
      obtain ⟨rfl, rfl, rfl, rfl, rfl, rfl, rfl⟩ := h
      exact ⟨hb.start_time, hb.transport, hb.verb, hb.udig, hb.chat_history, hb.blob_size,
        hb.wall_duration, rfl⟩
  · rename_i hsplit
    refine iff_of_false (by rintro ⟨⟩) ?_
    rintro ⟨h, -⟩
    exact hsplit _ _ _ _ _ _ _ h

/-! ### The comment on top of `brr.go` -/

/-- The replies of a handshake: a no is the last of them. -/
def Handshake (ch : Text) : Prop :=
  ∃ oks ≤ 2, ∃ last ∈ ["ok", "no"].map String.toList,
    ch = [','].intercalate (List.replicate oks "ok".toList ++ [last])

theorem handshake_iff {ch : Text} : Handshake ch ↔ ch ∈ brr_chats := by
  constructor
  · rintro ⟨oks, hoks, last, hlast, rfl⟩
    revert last oks
    decide +kernel
  · intro h
    simp only [brr_chats, List.map_cons, List.map_nil, List.mem_cons, List.not_mem_nil, or_false] at h
    rcases h with rfl | rfl | rfl | rfl | rfl | rfl
    · exact ⟨0, by decide, "ok".toList, by decide, by decide⟩
    · exact ⟨0, by decide, "no".toList, by decide, by decide⟩
    · exact ⟨1, by decide, "ok".toList, by decide, by decide⟩
    · exact ⟨2, by decide, "ok".toList, by decide, by decide⟩
    · exact ⟨1, by decide, "no".toList, by decide, by decide⟩
    · exact ⟨2, by decide, "no".toList, by decide, by decide⟩

/-- Decimal digits, as many as there are. -/
def Decimals (f : Text) : Prop :=
  f ≠ [] ∧ ∀ c ∈ f, c.isDigit

/-- `[a-z][a-z0-9]{0,7}:[[:graph:]]{1,128}` -/
def DocumentedUdig (u : Text) : Prop :=
  ∃ algorithm digest, u = algorithm ++ ':' :: digest ∧ Tag algorithm ∧ Chars graph_set 1 128 digest

def DocumentedSize (n : Text) : Prop :=
  Decimals n ∧ decimal n < 2 ^ 63

/-- `sec.ns`, with nine decimal places at most. -/
def DocumentedDuration (w : Text) : Prop :=
  ∃ sec ns, w = sec ++ '.' :: ns ∧ Decimals sec ∧ Decimals ns ∧ ns.length ≤ 9

structure Brr.Documented (go : GoLibrary) (b : Brr) : Prop where
  start_time : time_parse go.zone_ok b.start_time
  transport : ∃ tag detail, b.transport = tag ++ '~' :: detail ∧ Tag tag ∧ Chars graph_set 1 128 detail
  verb : b.verb ∈ brr_verbs
  udig : DocumentedUdig b.udig
  chat_history : Handshake b.chat_history
  blob_size : DocumentedSize b.blob_size
  wall_duration : DocumentedDuration b.wall_duration

/-- The string is a record of the comment's grammar. -/
def DocumentedRecord (go : GoLibrary) (s : Text) : Prop :=
  ∃ b : Brr, s.splitOn '\t' = b.fields ∧ b.Documented go

/-! ### Fields of another form that are parsed -/

/-- A udig of a wrong first character, of no digest or of too long a one, or with a blank. -/
def StrayUdig (u : Text) : Prop :=
  u.length ≤ 15 + 1 + 128 ∧ ∃ c algorithm digest, u = c :: algorithm ++ ':' :: digest ∧ first_ok c ∧
    Chars lower_alnum 0 7 algorithm ∧ (∀ d ∈ digest, d = ' ' ∨ d ∈ graph_set) ∧
    (¬ between 'a' 'z' c ∨ digest = [] ∨ ' ' ∈ digest ∨ 128 < digest.length)

/-- A size of 64 bits. -/
def StraySize (n : Text) : Prop :=
  Decimals n ∧ 2 ^ 63 ≤ decimal n ∧ decimal n < 2 ^ 64

/-- A duration with a sign or a unit, without a point, or of too many places. -/
def StrayDuration (w : Text) : Prop :=
  ¬ DocumentedDuration w ∧ (parse_duration (w ++ ['s'])).isSome

/-- More nanoseconds than a signed word holds. -/
def LongDuration (w : Text) : Prop :=
  ∃ sec ns, w = sec ++ '.' :: ns ∧ Decimals sec ∧ Decimals ns ∧ ns.length ≤ 9 ∧
    2 ^ 63 ≤ decimal sec * 1000000000 + decimal ns * 1000000000 / 10 ^ ns.length

theorem first_ok_of_letter {c : Char} (h : between 'a' 'z' c) : first_ok c := by
  simp only [between, Bool.and_eq_true, decide_eq_true_eq, Char.le_def, UInt32.le_iff_toNat_le] at h
  have ha : 'a'.val.toNat = 97 := rfl
  have hz : 'z'.val.toNat = 122 := rfl
  have hcode : ∀ n : Fin 26, first_ok (Char.ofNat (97 + n)) := by decide
  have hc := hcode ⟨c.toNat - 97, by simp only [Char.toNat]; omega⟩
  rwa [show 97 + (c.toNat - 97) = c.toNat by simp only [Char.toNat]; omega, Char.ofNat_toNat] at hc

theorem parse_udig_iff {u : Text} : parse_udig u = .ok () ↔ DocumentedUdig u ∨ StrayUdig u := by
  rw [parse_udig_eq_ok]
  constructor
  · rintro ⟨⟨c, algorithm, digest, rfl, hc, halg, hdigest⟩, hlen⟩
    by_cases hstray : ¬ between 'a' 'z' c ∨ digest = [] ∨ ' ' ∈ digest ∨ 128 < digest.length
    · exact .inr ⟨hlen, c, algorithm, digest, rfl, hc, halg, hdigest, hstray⟩
    · simp only [not_or, not_not, Nat.not_lt] at hstray
      obtain ⟨hletter, hne, hblank, hle⟩ := hstray
      refine .inl ⟨c :: algorithm, digest, rfl, ⟨c, algorithm, rfl, hletter, halg⟩, ?_,
        List.length_pos_iff.mpr hne, hle⟩
      intro d hd
      apply (hdigest d hd).resolve_left
      rintro rfl
      exact hblank hd
  · rintro (⟨algorithm, digest, rfl, htag, hdigest⟩ | ⟨hlen, c, algorithm, digest, rfl, hc, halg, hdigest,
    -⟩)
    · have hle := htag.length_le
      obtain ⟨c, rest, rfl, hletter, hrest⟩ := htag.parts
      refine ⟨⟨c, rest, digest, rfl, first_ok_of_letter hletter, hrest, fun d hd => .inr
        (hdigest.subset d hd)⟩, ?_⟩
      have hupper := hdigest.upper
      have hcolon : (':' :: digest).length = digest.length + 1 := List.length_cons
      rw [List.length_append, hcolon]
      omega
    · exact ⟨⟨c, algorithm, digest, rfl, hc, halg, hdigest⟩, hlen⟩

/-- The first colon of a text splits it in one way. -/
theorem split_first {a : Char} {x x' y y' : Text} (hx : a ∉ x) (hx' : a ∉ x')
    (h : x ++ a :: y = x' ++ a :: y') :
    x = x' ∧ y = y' := by
  have hfront := congrArg (List.takeWhile (· ≠ a)) h
  rw [takeWhile_ne hx, takeWhile_ne hx'] at hfront
  have hback := congrArg (List.dropWhile (· ≠ a)) h
  rw [dropWhile_ne hx, dropWhile_ne hx'] at hback
  exact ⟨hfront, (List.cons.inj hback).2⟩

theorem StrayUdig.not_documented {u : Text} (h : StrayUdig u) : ¬ DocumentedUdig u := by
  obtain ⟨-, c, algorithm, digest, rfl, hc, halg, -, hstray⟩ := h
  rintro ⟨algorithm', digest', heq, htag, hdigest⟩
  have hcolon : ':' ∉ algorithm' := fun h => absurd (htag.subset _ h) (by decide)
  have hcolon' : ':' ∉ c :: algorithm := by
    simp only [first_ok, Bool.and_eq_true, decide_eq_true_eq] at hc
    rw [List.mem_cons, not_or]
    exact ⟨fun h => hc.2 h.symm, halg.not_mem (by decide)⟩
  obtain ⟨rfl, rfl⟩ := split_first hcolon' hcolon heq
  obtain ⟨c', rest, hcons, hletter, -⟩ := htag.parts
  obtain ⟨rfl, rfl⟩ := List.cons.inj hcons
  rcases hstray with h | rfl | h | h
  · exact h hletter
  · exact absurd hdigest.lower (by decide)
  · exact absurd (hdigest.subset _ h) (by decide)
  · exact absurd hdigest.upper (by omega)

theorem parse_size_iff {n : Text} : (parse_uint n).isSome ↔ DocumentedSize n ∨ StraySize n := by
  rw [parse_uint_isSome]
  constructor
  · rintro ⟨hne, hdigits, hlt⟩
    rcases Nat.lt_or_ge (decimal n) (2 ^ 63) with h | h
    · exact .inl ⟨⟨hne, hdigits⟩, h⟩
    · exact .inr ⟨⟨hne, hdigits⟩, h, hlt⟩
  · rintro (⟨⟨hne, hdigits⟩, h⟩ | ⟨⟨hne, hdigits⟩, -, h⟩)
    · exact ⟨hne, hdigits, h.trans (by decide)⟩
    · exact ⟨hne, hdigits, h⟩

theorem LongDuration.documented {w : Text} : LongDuration w → DocumentedDuration w := by
  rintro ⟨sec, ns, h, hsec, hns, hplaces, -⟩
  exact ⟨sec, ns, h, hsec, hns, hplaces⟩

theorem parse_wall_duration_iff {w : Text} : (parse_duration (w ++ ['s'])).isSome ↔
    DocumentedDuration w ∧ ¬ LongDuration w ∨ StrayDuration w := by
  have hseconds : ∀ {sec ns}, Decimals sec → Decimals ns → ((parse_duration
    (sec ++ '.' :: ns ++ ['s'])).isSome ↔
      decimal sec * 1000000000 + decimal ns * 1000000000 / 10 ^ ns.length < 2 ^ 63) := by
    intro sec ns hsec hns
    rw [List.append_assoc, List.cons_append]
    exact parse_duration_seconds hsec.2 hns.2 hsec.1
  constructor
  · intro h
    by_cases hdoc : DocumentedDuration w
    · refine .inl ⟨hdoc, ?_⟩
      rintro ⟨sec, ns, rfl, hsec, hns, -, hlong⟩
      exact absurd ((hseconds hsec hns).mp h) (Nat.not_lt.mpr hlong)
    · exact .inr ⟨hdoc, h⟩
  · rintro (⟨⟨sec, ns, rfl, hsec, hns, hplaces⟩, hlong⟩ | h)
    · apply (hseconds hsec hns).mpr
      by_contra hlt
      exact hlong ⟨sec, ns, rfl, hsec, hns, hplaces, Nat.not_lt.mp hlt⟩
    · exact h.2

/-- Which strings `parse` and the comment take differently. -/
structure Brr.Astray (go : GoLibrary) (b : Brr) : Prop where
  start_time : time_parse go.zone_ok b.start_time
  transport : transport_re b.transport
  verb : b.verb ∈ brr_verbs
  chat_history : b.chat_history ∈ brr_chats
  strays : (DocumentedUdig b.udig ∨ StrayUdig b.udig) ∧
    (DocumentedSize b.blob_size ∨ StraySize b.blob_size) ∧
      (DocumentedDuration b.wall_duration ∧
        ¬ LongDuration b.wall_duration ∨ StrayDuration b.wall_duration) ∧
      (StrayUdig b.udig ∨ StraySize b.blob_size ∨ StrayDuration b.wall_duration) ∨
    DocumentedUdig b.udig ∧ DocumentedSize b.blob_size ∧ LongDuration b.wall_duration

theorem Brr.taken_documented_iff {go : GoLibrary} {b : Brr} :
    (b.Taken go ↔ b.Documented go) ↔ ¬ b.Astray go := by
  constructor
  · rintro h ⟨ht, htr, hv, hch, ⟨hu, hn, hw, hstray⟩ | ⟨hu, hn, hlong⟩⟩
    · have hdoc := h.mp ⟨ht, htr, hv, parse_udig_iff.mpr hu, hch, parse_size_iff.mpr hn,
        parse_wall_duration_iff.mpr hw⟩
      rcases hstray with hstray | hstray | hstray
      · exact hstray.not_documented hdoc.udig
      · exact absurd hdoc.blob_size.2 (Nat.not_lt.mpr hstray.2.1)
      · exact hstray.1 hdoc.wall_duration
    · have htaken := h.mpr ⟨ht, transport_re_iff.mp htr, hv, hu, handshake_iff.mpr hch, hn,
      hlong.documented⟩
      rcases parse_wall_duration_iff.mp htaken.wall_duration with hw | hw
      · exact hw.2 hlong
      · exact hw.1 hlong.documented
  · intro h
    constructor
    · intro htaken
      have hu := parse_udig_iff.mp htaken.udig
      have hn := parse_size_iff.mp htaken.blob_size
      have hw := parse_wall_duration_iff.mp htaken.wall_duration
      have hnone : ¬ (StrayUdig b.udig ∨ StraySize b.blob_size ∨ StrayDuration b.wall_duration) :=
        fun hstray =>
        h ⟨htaken.start_time, htaken.transport, htaken.verb, htaken.chat_history, .inl ⟨hu, hn, hw, hstray⟩⟩
      simp only [not_or] at hnone
      exact ⟨htaken.start_time, transport_re_iff.mp htaken.transport, htaken.verb, hu.resolve_right hnone.1,
        handshake_iff.mpr htaken.chat_history, hn.resolve_right hnone.2.1, (hw.resolve_right hnone.2.2).1⟩
    · intro hdoc
      have htr := transport_re_iff.mpr hdoc.transport
      have hch := handshake_iff.mp hdoc.chat_history
      have hlong : ¬ LongDuration b.wall_duration := fun hlong =>
        h ⟨hdoc.start_time, htr, hdoc.verb, hch, .inr ⟨hdoc.udig, hdoc.blob_size, hlong⟩⟩
      exact ⟨hdoc.start_time, htr, hdoc.verb, parse_udig_iff.mpr (.inl hdoc.udig), hch,
        parse_size_iff.mpr (.inl hdoc.blob_size), parse_wall_duration_iff.mpr (.inl ⟨hdoc.wall_duration,
          hlong⟩)⟩

theorem Brr.fields_injective {a b : Brr} (h : a.fields = b.fields) : a = b := by
  obtain ⟨t, tr, v, u, ch, n, w⟩ := a
  obtain ⟨t', tr', v', u', ch', n', w'⟩ := b
  simpa [Brr.fields] using h

/-- `parse` takes the strings of the comment's grammar and no others, but for the strings
that go astray. -/
theorem parse_documented_iff (go : GoLibrary) (s : Text) :
    ((∃ b, parse go s = .ok b) ↔ DocumentedRecord go s) ↔
      ¬ ∃ b : Brr, s.splitOn '\t' = b.fields ∧ b.Astray go := by
  simp only [parse_eq_ok, DocumentedRecord]
  by_cases hfields : ∃ b : Brr, s.splitOn '\t' = b.fields
  · obtain ⟨b, hb⟩ := hfields
    have hunique : ∀ P : Brr → Prop, (∃ a : Brr, s.splitOn '\t' = a.fields ∧ P a) ↔ P b := by
      intro P
      constructor
      · rintro ⟨a, ha, h⟩
        rwa [Brr.fields_injective (hb.symm.trans ha)]
      · exact fun h => ⟨b, hb, h⟩
    rw [hunique, hunique, hunique]
    exact Brr.taken_documented_iff
  · have hnone : ∀ P : Brr → Prop, ¬ ∃ a : Brr, s.splitOn '\t' = a.fields ∧ P a :=
      fun P ⟨a, ha, _⟩ => hfields ⟨a, ha⟩
    exact iff_of_true (iff_of_false (hnone _) (hnone _)) (hnone _)

/-- A library of the offsets and texts of a present one. -/
def go_library : GoLibrary where
  zone_ok h m := h ≤ 24 && m ≤ 60
  time_error f := "parsing time \"".toList ++ f ++ "\" as \"2006-01-02T15:04:05.999999999Z07:00\"".toList
  number_error f := "strconv.ParseUint: parsing \"".toList ++ f ++ "\": invalid syntax".toList
  duration_error f := "time: invalid duration \"".toList ++ f ++ "\"".toList

/-- A record of a get without a digest. -/
def no_digest : Text :=
  "2024-02-29T23:59:59.000000001+00:00\ttcp4~127.0.0.1:50000;127.0.0.1:1797\tget\tsha:\tok\t0\t0.000123456".toList

def no_digest_brr : Brr where
  start_time := "2024-02-29T23:59:59.000000001+00:00".toList
  transport := "tcp4~127.0.0.1:50000;127.0.0.1:1797".toList
  verb := "get".toList
  udig := "sha:".toList
  chat_history := "ok".toList
  blob_size := "0".toList
  wall_duration := "0.000123456".toList

theorem no_digest_parsed :
    (∃ b, parse go_library no_digest = .ok b) ∧ ¬ DocumentedRecord go_library no_digest := by
  have hsplit : no_digest.splitOn '\t' = no_digest_brr.fields := by
    decide +kernel
  constructor
  · refine ⟨no_digest_brr, parse_eq_ok.mpr ⟨hsplit, ?_⟩⟩
    constructor
    case udig => rfl
    all_goals decide +kernel
  · rintro ⟨b, hb, hdoc⟩
    cases Brr.fields_injective (hb.symm.trans hsplit)
    have hstray : StrayUdig no_digest_brr.udig :=
      ⟨by decide, 's', "ha".toList, [], by decide, by decide, by decide, by decide, .inr (.inl rfl)⟩
    exact hstray.not_documented hdoc.udig

end Blobio
