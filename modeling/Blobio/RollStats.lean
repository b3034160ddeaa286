import Blobio.AtomicThreads
import Blobio.FlowRecords
import Mathlib.Data.UInt

/-! The statistics of a roll: one goroutine for each frozen log adds the records of its log to
totals under a mutex, and the counts are compared when all have ended. -/
namespace Blobio.RollStat
open EventRuns AtomicThreads GoTexts

/-- What the program says when it leaves. -/
inductive Die
  | not_a (what : String) (fld : Text)
  | not_seven_fields (count : ℕ)
  | start_time (fld : Text)
  | wall (fld : Text)
  | impossible_chat_history (verb : Verb) (chat_history : Text)
  | impossible_verb (fld : Text)
  | roll_seen_twice (fld : Text)
  | min_after_max
  deriving DecidableEq

/-- The times of texts, as `time.Parse` has them, and the zones it knows. -/
structure Clock where
  zone_ok : ℕ → ℕ → Bool
  instant : Text → ℤ

/-! ### The tests of the fields -/

/-- `^[23]\d\d\d-[01]\d-[0123]\dT[0-2]\d:[0-6]\d:[0-6]\d\.` -/
def stamp_shape : List (Char → Bool) :=
  [between '2' '3', isdigit, isdigit, isdigit, (· = '-'), between '0' '1', isdigit, (· = '-'),
    between '0' '3', isdigit, (· = 'T'), between '0' '2', isdigit, (· = ':'), between '0' '6', isdigit,
    (· = ':'), between '0' '6', isdigit, (· = '.')]

/-- `[+-][0-2]\d:[0-6]\d$` -/
def offset_shape : List (Char → Bool) :=
  [fun c => c = '+' || c = '-', between '0' '2', isdigit, (· = ':'), between '0' '6', isdigit]

def RFC3339Nano_re (f : Text) : Bool :=
  Fits stamp_shape (f.take 20) && Chars digits 1 9 ((f.drop 20).takeWhile isdigit) &&
    Fits offset_shape ((f.drop 20).dropWhile isdigit)

/-- `^[a-z][a-z0-9]{0,7}:[[:graph:]]{32,128}$` -/
def udig_re (f : Text) : Bool :=
  ':' ∈ f && tag_ok (f.takeWhile (· ≠ ':')) && Chars graph_set 32 128 (f.dropWhile (· ≠ ':')).tail

/-- `((ok|no)|((ok,ok)|(ok,no))|(ok,ok,ok)|(ok,ok,no))$`, behind any text. -/
def chat_history_re (f : Text) : Bool :=
  "ok".toList <:+ f || "no".toList <:+ f

/-- `^0|([1-9][0-9]{0,18})$`: a zero in front, or such a number at the end. -/
def blob_size_re (f : Text) : Bool :=
  f.head? = some '0' ||
    (List.range 19).any fun n =>
      let number := f.drop (f.length - (n + 1))
      number.length = n + 1 && number.all isdigit && number.head? ≠ some '0'

/-- `[0-9]{1,10}(\.[0-9]{0,9})$`, behind any text. -/
def wall_duration_re (f : Text) : Bool :=
  let fraction := f.reverse.takeWhile isdigit
  let rest := f.reverse.dropWhile isdigit
  fraction.length ≤ 9 && rest.head? = some '.' && rest.tail.head?.any isdigit

/-- `strconv.ParseUint` with 63 bits. -/
def parse_uint63 (f : Text) : Option ℕ :=
  (parse_uint f).filter (· < 2 ^ 63)

/-- What a scanner makes of a line before it takes the mutex. -/
def scan_fields (brr : Text) : Except Die (Brr × ℕ) :=
  match brr.splitOn '\t' with
  | [start_time, transport, verb, udig, chat_history, blob_size, wall_duration] =>
    if ¬ RFC3339Nano_re start_time then .error (.not_a "start time" start_time)
    else if ¬ transport_re transport then .error (.not_a "transport" transport)
    else if verb ∉ brr_verbs then .error (.not_a "verb" verb)
    else if ¬ udig_re udig then .error (.not_a "udig" udig)
    else if ¬ chat_history_re chat_history then .error (.not_a "chat_history" chat_history)
    else if ¬ blob_size_re blob_size then .error (.not_a "udig" blob_size)
    else match parse_uint63 blob_size with
      | none => .error (.not_a "blob_size" blob_size)
      | some size =>
        if ¬ wall_duration_re wall_duration then .error (.not_a "wall_duration" wall_duration)
        else .ok (⟨start_time, transport, verb, udig, chat_history, blob_size, wall_duration⟩, size)
  | fld => .error (.not_seven_fields fld.length)

/-! ### The totals -/

structure Stat where
  brr_count : UInt64 := 0
  prev_roll : Option Brr := none
  min_brr_start_time : Option ℤ := none
  max_brr_start_time : Option ℤ := none
  max_brr_wall_duration : ℤ := 0
  max_brr_blob_size : ℕ := 0
  /-- The counts from `EatOkCount` to `RollNoCount`, by the verb and whether it was ok. -/
  counts : Verb → Bool → UInt64 := fun _ _ => 0
  /-- The sizes from `GetBlobSize` to `GiveBlobSize`. -/
  sizes : Verb → UInt64 := fun _ => 0
  udig_set : List Text := []
  /-- The logs that are done. -/
  dones : ℕ := 0
  dead : Option Die := none

def stat_verbs : List Verb := [.get, .put, .give, .take, .wrap, .roll, .eat]

/-- The switch over the verb and the chat history: the count to go up, none for the cases
without a statement. -/
def switch (verb : Verb) (chat_history : Text) : Except Die (Option Bool) :=
  match verb with
  | .eat | .get | .roll | .wrap =>
    if chat_history = "ok".toList then .ok (some true)
    else if chat_history = "no".toList then .ok (some false)
    else .error (.impossible_chat_history verb chat_history)
  | .put =>
    if chat_history = "ok,ok".toList then .ok (some true)
    else if chat_history = "no".toList ∨ chat_history = "ok,no".toList then .ok (some false)
    else .error (.impossible_chat_history verb chat_history)
  | .give =>
    if chat_history = "ok,ok,ok".toList then .ok (some true)
    else if chat_history = "ok,no".toList ∨ chat_history = "ok,ok,no".toList then .ok none
    else if chat_history = "no".toList then .ok (some false)
    else .error (.impossible_chat_history verb chat_history)
  | .take =>
    if chat_history = "ok,ok,ok".toList then .ok (some true)
    else if chat_history = "ok,no".toList then .ok none
    else if chat_history = "ok,ok,no".toList ∨ chat_history = "no".toList then .ok (some false)
    else .error (.impossible_chat_history verb chat_history)
  | .cat => .error (.impossible_verb verb.text)

/-- Whether the switch adds the blob's size to the verb's total. -/
def adds_size (verb : Verb) (chat_history : Text) : Bool :=
  match verb with
  | .get => chat_history = "ok".toList
  | .put | .give => true
  | .take => chat_history = "ok,ok,ok".toList || chat_history = "ok,ok,no".toList
  | _ => false

def bump (counts : Verb → Bool → UInt64) (verb : Verb) (ok : Bool) : Verb → Bool → UInt64 :=
  fun v o => if v = verb ∧ o = ok then counts v o + 1 else counts v o

def add_size (sizes : Verb → UInt64) (verb : Verb) (size : ℕ) : Verb → UInt64 :=
  fun v => if v = verb then sizes v + UInt64.ofNat size else sizes v

/-- The section of the switch. -/
def classify (st : Stat) (f : Brr) (size : ℕ) : Stat :=
  match stat_verbs.find? (·.text = f.verb) with
  | none => { st with dead := some (.impossible_verb f.verb) }
  | some verb =>
    if verb = .roll ∧ st.prev_roll.isSome then { st with dead := some (.roll_seen_twice f.blob_size) }
    else
      match switch verb f.chat_history with
      | .error die => { st with dead := some die }
      | .ok ok =>
        { st with
          prev_roll := if verb = .roll then some f else st.prev_roll
          counts := match ok with
            | some ok => bump st.counts verb ok
            | none => st.counts
          sizes := if adds_size verb f.chat_history then add_size st.sizes verb size else st.sizes }

/-- `Min.After(Max)`, where a time that is not set is the first of all. -/
def min_after_max (st : Stat) : Bool :=
  match st.min_brr_start_time, st.max_brr_start_time with
  | none, _ => false
  | some _, none => true
  | some m, some n => m > n

/-- What a scanner does of a line, or at the end of its log, from one section of the mutex to the
next. -/
inductive Action
  | count (brr : Text)
  | min (brr : Text)
  | max (brr : Text)
  | classify (brr : Text)
  | udig (brr : Text)
  | max_wall (brr : Text)
  | max_size (brr : Text)
  | finish (log : List Text)
  | done
  deriving DecidableEq

variable (clock : Clock)

def act_line (st : Stat) (f : Brr) (size : ℕ) : Action → Stat
  | .count _ => { st with brr_count := st.brr_count + 1 }
  | .min _ =>
    if time_parse clock.zone_ok f.start_time then
      let t := clock.instant f.start_time
      { st with min_brr_start_time := some (st.min_brr_start_time.elim t (Min.min t)) }
    else { st with dead := some (.start_time f.start_time) }
  | .max _ =>
    let t := clock.instant f.start_time
    { st with max_brr_start_time := some (st.max_brr_start_time.elim t (Max.max t)) }
  | .classify _ =>
    if (parse_duration (f.wall_duration ++ ['s'])).isSome then classify st f size
    else { st with dead := some (.wall f.wall_duration) }
  | .udig _ => { st with udig_set := if f.udig ∈ st.udig_set then st.udig_set else f.udig :: st.udig_set }
  | .max_wall _ =>
    { st with
      max_brr_wall_duration :=
        Max.max st.max_brr_wall_duration ((parse_duration (f.wall_duration ++ ['s'])).getD 0) }
  | .max_size _ => { st with max_brr_blob_size := Max.max st.max_brr_blob_size size }
  | _ => st

/-- Nothing happens any more when the program has left. -/
def act (st : Stat) (a : Action) : Option Stat :=
  if st.dead.isSome then none
  else match a with
    | .finish _ => some (if min_after_max st then { st with dead := some .min_after_max } else st)
    | .done => some { st with dones := st.dones + 1 }
    | .count brr | .min brr | .max brr | .classify brr | .udig brr | .max_wall brr | .max_size brr =>
      match scan_fields brr with
      | .error die => some { st with dead := some die }
      | .ok (f, size) => some (act_line clock st f size a)

def sections (brr : Text) : List Action :=
  [.count brr, .min brr, .max brr, .classify brr, .udig brr, .max_wall brr, .max_size brr]

def scan_brr_log (log : List Text) : List Action :=
  log.flatMap sections ++ [.finish log, .done]

/-- `scan_roll` starts a scanner for each log of the roll set. -/
def start (logs : List (List Text)) : State Stat Action := ⟨{}, logs.map scan_brr_log⟩

def verb_count (st : Stat) : UInt64 :=
  (stat_verbs.map fun v => st.counts v true + st.counts v false).sum

/-- The test behind the last scanner; no distinct udig has been counted at that time. -/
def sanity (st : Stat) : Bool := verb_count st = st.brr_count

/-! ### What the totals should be -/

/-- The chat histories of the domain `brr` of the schema. -/
def schema_chats : Verb → List Text
  | .get | .eat | .wrap | .roll => ["ok".toList, "no".toList]
  | .put => ["no".toList, "ok,ok".toList, "ok,no".toList]
  | .give | .take => ["no".toList, "ok,ok,ok".toList, "ok,no".toList, "ok,ok,no".toList]
  | .cat => []

/-- The combinations that come to a case without a statement. -/
def Overlooked (verb : Verb) (chat_history : Text) : Prop :=
  verb = .give ∧ (chat_history = "ok,no".toList ∨ chat_history = "ok,ok,no".toList) ∨
    verb = .take ∧ chat_history = "ok,no".toList

def outcome (chat_history : Text) : Bool :=
  "ok".toList <:+ chat_history

/-- The verbs with a total of their blobs' sizes. -/
def sized_verbs : List Verb := [.get, .put, .give, .take]

/-- What is added up over the records. -/
inductive Quantity
  | records
  | classified
  | count (verb : Verb) (ok : Bool)
  | size (verb : Verb)

def value (st : Stat) : Quantity → ℕ
  | .records => st.brr_count.toNat
  | .classified => (stat_verbs.map fun v => (st.counts v true).toNat + (st.counts v false).toNat).sum
  | .count verb ok => (st.counts verb ok).toNat
  | .size verb => (st.sizes verb).toNat

/-- What the switch should add for a record. -/
def share (f : Brr) (size : ℕ) : Quantity → ℕ
  | .records => 0
  | .classified => 1
  | .count verb ok => if f.verb = verb.text ∧ ok = outcome f.chat_history then 1 else 0
  | .size verb => if f.verb = verb.text ∧ verb ∈ sized_verbs then size else 0

/-- What an action should add to a quantity. -/
def weight (q : Quantity) : Action → ℕ
  | .count _ =>
    match q with
    | .records => 1
    | _ => 0
  | .classify brr =>
    match scan_fields brr with
    | .ok (f, size) => share f size q
    | .error _ => 0
  | _ => 0

/-- What has been added and what is left make up all of the logs. -/
def Right (logs : List (List Text)) (s : State Stat Action) : Prop :=
  s.shared.dead = none ∧ ∀ q, value s.shared q + (s.left.flatten.map (weight q)).sum =
    (((logs.map scan_brr_log).flatten).map (weight q)).sum

/-- A record that the switch counts, and with its size: one of the schema that it does not
overlook, and without a size where it does not add it. -/
structure Counted (f : Brr) (size : ℕ) (verb : Verb) : Prop where
  verb_mem : verb ∈ stat_verbs
  verb_eq : f.verb = verb.text
  chat : f.chat_history ∈ schema_chats verb
  not_overlooked : ¬ Overlooked verb f.chat_history
  no_size : verb ∈ sized_verbs → ¬ adds_size verb f.chat_history → size = 0

/-- What a section has to meet in a state: the times parse, there is but one roll, and no total
comes to its limit. -/
def CleanFields (st : Stat) (f : Brr) (size : ℕ) : Action → Prop
  | .count _ => st.brr_count.toNat + 1 < 2 ^ 64
  | .min _ => time_parse clock.zone_ok f.start_time
  | .classify _ =>
    (parse_duration (f.wall_duration ++ ['s'])).isSome ∧ ∃ verb, Counted f size verb ∧
      (verb = .roll → st.prev_roll = none) ∧ (st.counts verb (outcome f.chat_history)).toNat + 1 < 2 ^ 64 ∧
      (verb ∈ sized_verbs → (st.sizes verb).toNat + size < 2 ^ 64)
  | _ => True

/-- What an action has to meet in a state: a line passes the tests of its fields, and a log
without a line does not end while the times of the first record are being set. -/
def Clean (st : Stat) (a : Action) : Prop :=
  match a with
  | .finish log => log = [] → ¬ min_after_max st
  | .done => True
  | .count brr | .min brr | .max brr | .classify brr | .udig brr | .max_wall brr | .max_size brr =>
    ∃ f size, scan_fields brr = .ok (f, size) ∧ CleanFields clock st f size a

/-! ### The switch -/

theorem switch_of_schema {verb : Verb} {chat : Text} (hchat : chat ∈ schema_chats verb)
    (hseen : ¬ Overlooked verb chat) : switch verb chat = .ok (some (outcome chat)) := by
  cases verb <;> simp only [schema_chats, List.mem_cons, List.not_mem_nil, or_false] at hchat
  case give =>
    rcases hchat with rfl | rfl | rfl | rfl
    · rfl
    · rfl
    · exact absurd (.inl ⟨rfl, .inl rfl⟩) hseen
    · exact absurd (.inl ⟨rfl, .inr rfl⟩) hseen
  case take =>
    rcases hchat with rfl | rfl | rfl | rfl
    · rfl
    · rfl
    · exact absurd (.inr ⟨rfl, rfl⟩) hseen
    · rfl
  case put => rcases hchat with rfl | rfl | rfl <;> rfl
  all_goals rcases hchat with rfl | rfl <;> rfl

theorem schema_of_switch {verb : Verb} {chat : Text} {ok : Option Bool} (h : switch verb chat = .ok ok) :
    chat ∈ schema_chats verb ∧ (ok = none ↔ Overlooked verb chat) := by
  cases verb <;> simp only [switch] at h
  case cat => cases h
  case give =>
    split_ifs at h with hok hskip hno <;> cases h
    · exact ⟨by rw [hok]; decide, by simp [Overlooked, hok]⟩
    · rcases hskip with rfl | rfl <;> exact ⟨by decide, by simp [Overlooked]⟩
    · exact ⟨by rw [hno]; decide, by simp [Overlooked, hno]⟩
  case take =>
    split_ifs at h with hok hskip hno <;> cases h
    · exact ⟨by rw [hok]; decide, by simp [Overlooked, hok]⟩
    · exact ⟨by rw [hskip]; decide, by simp [Overlooked, hskip]⟩
    · rcases hno with rfl | rfl <;> exact ⟨by decide, by simp [Overlooked]⟩
  case put =>
    split_ifs at h with hok hno <;> cases h
    · exact ⟨by rw [hok]; decide, by simp [Overlooked]⟩
    · rcases hno with rfl | rfl <;> exact ⟨by decide, by simp [Overlooked]⟩
  all_goals
    split_ifs at h with hok hno <;> cases h
    · exact ⟨by rw [hok]; decide, by simp [Overlooked]⟩
    · exact ⟨by rw [hno]; decide, by simp [Overlooked]⟩

theorem find_verb {t : Text} {verb : Verb} :
    stat_verbs.find? (·.text = t) = some verb ↔ verb ∈ stat_verbs ∧ t = verb.text := by
  constructor
  · intro h
    have htext := List.find?_some h
    exact ⟨List.mem_of_find?_eq_some h, (of_decide_eq_true htext).symm⟩
  · rintro ⟨hmem, rfl⟩
    revert hmem
    cases verb <;> decide

theorem text_injective {v w : Verb} (h : v.text = w.text) : v = w := by
  revert h
  cases v <;> cases w <;> decide

theorem toNat_add_ofNat_iff (x : UInt64) (n : ℕ) :
    (x + UInt64.ofNat n).toNat = x.toNat + n ↔ x.toNat + n < 2 ^ 64 := by
  rw [UInt64.toNat_add, UInt64.toNat_ofNat']
  have := x.toNat_lt
  omega

/-- All counts together, after one of them has gone up. -/
theorem classified_bump {st : Stat} {verb : Verb} {ok : Bool} (hverb : verb ∈ stat_verbs)
    (hlt : (st.counts verb ok).toNat + 1 < 2 ^ 64) :
    (stat_verbs.map fun v => (bump st.counts verb ok v true).toNat +
      (bump st.counts verb ok v false).toNat).sum =
      (stat_verbs.map fun v => (st.counts v true).toNat + (st.counts v false).toNat).sum + 1 := by
  have hup : (st.counts verb ok + 1).toNat = (st.counts verb ok).toNat + 1 :=
    (toNat_add_ofNat_iff (st.counts verb ok) 1).mpr hlt
  cases verb
  case cat => exact absurd hverb (by decide)
  all_goals
    cases ok <;> simp only [bump, stat_verbs, List.map_cons, List.map_nil, List.sum_cons, List.sum_nil,
      reduceCtorEq, and_self, and_false, false_and, if_true, if_false, hup] <;> omega

/-- What the section of the switch needs of the record and of the totals. -/
def ClassifyClean (st : Stat) (f : Brr) (size : ℕ) : Prop :=
  ∃ verb, Counted f size verb ∧ (verb = .roll → st.prev_roll = none) ∧
    (st.counts verb (outcome f.chat_history)).toNat + 1 < 2 ^ 64 ∧
    (verb ∈ sized_verbs → (st.sizes verb).toNat + size < 2 ^ 64)

/-- The totals have gone up by the record's shares. -/
def Added (st st' : Stat) (f : Brr) (size : ℕ) : Prop :=
  st'.dead = none ∧ ∀ q, value st' q = value st q + share f size q

section shares
variable {f : Brr} {verb : Verb}

theorem verb_eq_iff (h : f.verb = verb.text) (v : Verb) : f.verb = v.text ↔ v = verb :=
  ⟨fun heq => (text_injective (h.symm.trans heq)).symm, fun heq => heq ▸ h⟩

theorem share_count (h : f.verb = verb.text) (size : ℕ) (v : Verb) (ok : Bool) :
    share f size (.count v ok) = if v = verb ∧ ok = outcome f.chat_history then 1 else 0 :=
  if_congr (and_congr_left' (verb_eq_iff h v)) rfl rfl

theorem share_size (h : f.verb = verb.text) (size : ℕ) (v : Verb) :
    share f size (.size v) = if v = verb ∧ v ∈ sized_verbs then size else 0 :=
  if_congr (and_congr_left' (verb_eq_iff h v)) rfl rfl

theorem share_count_own (h : f.verb = verb.text) (size : ℕ) :
    share f size (.count verb (outcome f.chat_history)) = 1 :=
  if_pos ⟨h, rfl⟩

theorem share_size_own (h : f.verb = verb.text) (size : ℕ) (hsized : verb ∈ sized_verbs) :
    share f size (.size verb) = size :=
  if_pos ⟨h, hsized⟩

theorem adds_size_sized {chat : Text} (h : adds_size verb chat) : verb ∈ sized_verbs := by
  cases verb
  case get | put | give | take => decide
  all_goals cases h

end shares

theorem classify_added {st : Stat} {f : Brr} {size : ℕ} (hdead : st.dead = none)
    (h : ClassifyClean st f size) : Added st (classify st f size) f size := by
  obtain ⟨verb, hcounted, hroll, hcount, hsize⟩ := h
  have hfind := find_verb.mpr ⟨hcounted.verb_mem, hcounted.verb_eq⟩
  have hnotroll : ¬ (verb = .roll ∧ st.prev_roll.isSome) := by
    rintro ⟨hv, hsome⟩
    rw [hroll hv] at hsome
    cases hsome
  have hclassify : classify st f size =
      { st with
        prev_roll := if verb = .roll then some f else st.prev_roll
        counts := bump st.counts verb (outcome f.chat_history)
        sizes := if adds_size verb f.chat_history then add_size st.sizes verb size else st.sizes } := by
    rw [classify, hfind]
    simp only [if_neg hnotroll, switch_of_schema hcounted.chat hcounted.not_overlooked]
  rw [hclassify]
  refine ⟨hdead, fun q => ?_⟩
  cases q with
  | records => rfl
  | classified => exact classified_bump hcounted.verb_mem hcount
  | count v ok =>
    change (bump st.counts verb (outcome f.chat_history) v ok).toNat = (st.counts v ok).toNat + _
    rw [share_count hcounted.verb_eq, bump]
    split_ifs with hv
    · rw [hv.1, hv.2]
      exact (toNat_add_ofNat_iff _ 1).mpr hcount
    · rfl
  | size v =>
    change (ite _ (add_size st.sizes verb size) st.sizes v).toNat = (st.sizes v).toNat + _
    rw [share_size hcounted.verb_eq]
    by_cases hv : v = verb
    · subst hv
      by_cases hadds : adds_size v f.chat_history
      · have hsized := adds_size_sized hadds
        rw [if_pos hadds, if_pos ⟨rfl, hsized⟩, add_size, if_pos rfl]
        exact (toNat_add_ofNat_iff _ _).mpr (hsize hsized)
      · rw [if_neg hadds]
        split_ifs with hsized
        · rw [hcounted.no_size hsized.2 hadds, Nat.add_zero]
        · rw [Nat.add_zero]
    · have hsame : (if adds_size verb f.chat_history then add_size st.sizes verb size else st.sizes) v =
          st.sizes v := by
        split_ifs
        · rw [add_size, if_neg hv]
        · rfl
      rw [hsame, if_neg fun h => hv h.1, Nat.add_zero]

/-- Where the section of the switch goes wrong it shows in a total, or the program leaves. -/
theorem classify_clean {st : Stat} {f : Brr} {size : ℕ}
    (h : Added st (classify st f size) f size) : ClassifyClean st f size := by
  obtain ⟨hdead, hvalues⟩ := h
  unfold classify at hdead hvalues
  cases hfind : stat_verbs.find? (·.text = f.verb) with
  | none => simp [hfind] at hdead
  | some verb =>
    obtain ⟨hmem, hverb⟩ := find_verb.mp hfind
    by_cases htwice : verb = .roll ∧ st.prev_roll.isSome
    · simp [hfind, htwice] at hdead
    · cases hswitch : switch verb f.chat_history with
      | error die => simp [hfind, htwice, hswitch] at hdead
      | ok ok =>
        simp only [hfind, if_neg htwice, hswitch] at hvalues
        obtain ⟨hchat, hnone⟩ := schema_of_switch hswitch
        have hcount := hvalues (.count verb (outcome f.chat_history))
        rw [share_count_own hverb] at hcount
        have hseen : ¬ Overlooked verb f.chat_history := by
          intro hover
          rw [hnone.mpr hover] at hcount
          exact absurd hcount (Nat.succ_ne_self _).symm
        have hok : ok = some (outcome f.chat_history) := by
          rw [switch_of_schema hchat hseen] at hswitch
          exact (Except.ok.inj hswitch).symm
        have hsize := hvalues (.size verb)
        refine ⟨verb, ⟨hmem, hverb, hchat, hseen, fun hsized hadds => ?_⟩, fun hroll => ?_, ?_,
          fun hsized => ?_⟩
        · rw [share_size_own hverb size hsized] at hsize
          change (ite _ (add_size st.sizes verb size) st.sizes verb).toNat =
            (st.sizes verb).toNat + size at hsize
          rw [if_neg hadds] at hsize
          exact Nat.left_eq_add.mp hsize
        · have := not_and.mp htwice hroll
          simpa using this
        · rw [hok] at hcount
          change (bump st.counts verb (outcome f.chat_history) verb
            (outcome f.chat_history)).toNat = _ at hcount
          rw [bump, if_pos ⟨rfl, rfl⟩] at hcount
          exact (toNat_add_ofNat_iff _ 1).mp hcount
        · rw [share_size_own hverb size hsized] at hsize
          change (ite _ (add_size st.sizes verb size) st.sizes verb).toNat =
            (st.sizes verb).toNat + size at hsize
          split_ifs at hsize with hadds
          · rw [add_size, if_pos rfl] at hsize
            exact (toNat_add_ofNat_iff _ _).mp hsize
          · rw [← hsize]
            exact (st.sizes verb).toNat_lt

/-! ### Steps -/

section steps
variable {clock} {st st' : Stat} {a : Action}

theorem act_alive (h : act clock st a = some st') : st.dead = none := by
  by_cases hdead : st.dead.isSome
  · unfold act at h
    rw [if_pos hdead] at h
    cases h
  · simpa using hdead

theorem act_of_line (brr : Text) (hdead : st.dead = none)
    (ha : a ∈ sections brr) : act clock st a = some (match scan_fields brr with
      | .error die => { st with dead := some die }
      | .ok (f, size) => act_line clock st f size a) := by
  simp only [sections, List.mem_cons, List.not_mem_nil, or_false] at ha
  rcases ha with rfl | rfl | rfl | rfl | rfl | rfl | rfl <;>
    · simp only [act, hdead, Option.isSome_none, Bool.false_eq_true, if_false]
      cases scan_fields brr <;> rfl

theorem clean_of_line {brr : Text} (ha : a ∈ sections brr) :
    Clean clock st a ↔ ∃ f size, scan_fields brr = .ok (f, size) ∧ CleanFields clock st f size a := by
  simp only [sections, List.mem_cons, List.not_mem_nil, or_false] at ha
  rcases ha with rfl | rfl | rfl | rfl | rfl | rfl | rfl <;> exact Iff.rfl

/-- The totals have gone up by an action's weights. -/
def Balanced (st st' : Stat) (a : Action) : Prop :=
  st'.dead = none ∧ ∀ q, value st' q = value st q + weight q a

theorem act_line_balanced_iff {brr : Text} {f : Brr} {size : ℕ} (ha : a ∈ sections brr)
    (hscan : scan_fields brr = .ok (f, size)) (hdead : st.dead = none) :
    Balanced st (act_line clock st f size a) a ↔ CleanFields clock st f size a := by
  simp only [sections, List.mem_cons, List.not_mem_nil, or_false] at ha
  rcases ha with rfl | rfl | rfl | rfl | rfl | rfl | rfl
  · constructor
    · intro h
      exact (toNat_add_ofNat_iff st.brr_count 1).mp (h.2 .records)
    · intro h
      refine ⟨hdead, fun q => ?_⟩
      cases q
      case records => exact (toNat_add_ofNat_iff st.brr_count 1).mpr h
      all_goals rfl
  · change Balanced st (if _ then _ else _) _ ↔ time_parse clock.zone_ok f.start_time = true
    split_ifs with htime
    · exact iff_of_true ⟨hdead, fun q => by cases q <;> rfl⟩ htime
    · exact iff_of_false (fun h => Option.some_ne_none _ h.1) htime
  · exact iff_of_true ⟨hdead, fun q => by cases q <;> rfl⟩ trivial
  · change Balanced st (if _ then _ else _) _ ↔ _ ∧ ClassifyClean st f size
    split_ifs with hwall
    · rw [and_iff_right hwall]
      have hweight : ∀ q, weight q (.classify brr) = share f size q := by
        intro q
        rw [weight, hscan]
      rw [Balanced]
      simp only [hweight]
      exact ⟨classify_clean, classify_added hdead⟩
    · exact iff_of_false (fun h => Option.some_ne_none _ h.1) fun h => hwall h.1
  · exact iff_of_true ⟨hdead, fun q => by cases q <;> rfl⟩ trivial
  · exact iff_of_true ⟨hdead, fun q => by cases q <;> rfl⟩ trivial
  · exact iff_of_true ⟨hdead, fun q => by cases q <;> rfl⟩ trivial

theorem line_or_end (a : Action) : (∃ brr, a ∈ sections brr) ∨ (∃ log, a = .finish log) ∨ a = .done := by
  cases a
  case finish log => exact .inr (.inl ⟨log, rfl⟩)
  case done => exact .inr (.inr rfl)
  all_goals exact .inl ⟨_, by simp [sections]; rfl⟩

theorem act_balanced_iff (hact : act clock st a = some st')
    (hfinish : ∀ log, a = .finish log → log ≠ [] → ¬ min_after_max st) :
    Balanced st st' a ↔ Clean clock st a := by
  have hdead := act_alive hact
  rcases line_or_end a with ⟨brr, ha⟩ | ⟨log, rfl⟩ | rfl
  · rw [clean_of_line ha]
    rw [act_of_line _ hdead ha] at hact
    obtain rfl := Option.some.inj hact
    cases hscan : scan_fields brr with
    | error die =>
      refine iff_of_false (fun h => Option.some_ne_none _ h.1) ?_
      rintro ⟨f, size, hok, -⟩
      cases hok
    | ok fields =>
      obtain ⟨f, size⟩ := fields
      refine (act_line_balanced_iff ha hscan hdead).trans ⟨fun h => ⟨f, size, rfl, h⟩, ?_⟩
      rintro ⟨f', size', hok, h⟩
      cases hok
      exact h
  · simp only [act, hdead, Option.isSome_none, Bool.false_eq_true, if_false, Option.some.injEq] at hact
    obtain rfl := hact
    by_cases hafter : min_after_max st
    · rw [if_pos hafter]
      refine iff_of_false (fun h => Option.some_ne_none _ h.1) fun hclean => ?_
      by_cases hlog : log = []
      · exact hclean hlog hafter
      · exact hfinish log rfl hlog hafter
    · rw [if_neg hafter]
      exact iff_of_true ⟨hdead, fun _ => rfl⟩ fun _ => hafter
  · simp only [act, hdead, Option.isSome_none, Bool.false_eq_true, if_false, Option.some.injEq] at hact
    obtain rfl := hact
    exact iff_of_true ⟨rfl, fun q => by cases q <;> rfl⟩ trivial

/-! ### The times -/

/-- A section of a line has left its mark on the times, or the program has left. -/
def Marked (clock : Clock) (a : Action) (st : Stat) : Prop :=
  st.dead = none → match a with
    | .min brr => ∃ f size m, scan_fields brr = .ok (f, size) ∧ st.min_brr_start_time = some m ∧
        m ≤ clock.instant f.start_time
    | .max brr => ∃ f size m, scan_fields brr = .ok (f, size) ∧ st.max_brr_start_time = some m ∧
        clock.instant f.start_time ≤ m
    | _ => True

theorem classify_times (st : Stat) (f : Brr) (size : ℕ) :
    (classify st f size).min_brr_start_time = st.min_brr_start_time ∧
      (classify st f size).max_brr_start_time = st.max_brr_start_time := by
  unfold classify
  split
  · exact ⟨rfl, rfl⟩
  · split
    · exact ⟨rfl, rfl⟩
    · split <;> exact ⟨rfl, rfl⟩

/-- The first time only goes down, the last one only up. -/
structure Widened (st st' : Stat) : Prop where
  min : ∀ m, st.min_brr_start_time = some m → ∃ m' ≤ m, st'.min_brr_start_time = some m'
  max : ∀ m, st.max_brr_start_time = some m → ∃ m', m ≤ m' ∧ st'.max_brr_start_time = some m'

theorem Widened.of_eq (hmin : st'.min_brr_start_time = st.min_brr_start_time)
    (hmax : st'.max_brr_start_time = st.max_brr_start_time) : Widened st st' :=
  ⟨fun m hm => ⟨m, le_rfl, hmin.trans hm⟩, fun m hm => ⟨m, le_rfl, hmax.trans hm⟩⟩

theorem act_line_widened (f : Brr) (size : ℕ) : Widened st (act_line clock st f size a) := by
  cases a
  case min brr =>
    rw [act_line]
    split
    · refine ⟨fun m hm => ⟨_, min_le_right (clock.instant f.start_time) m, ?_⟩, fun m hm => ⟨m, le_rfl, hm⟩⟩
      rw [hm]
      rfl
    · exact .of_eq rfl rfl
  case max brr =>
    refine ⟨fun m hm => ⟨m, le_rfl, hm⟩, fun m hm => ⟨_, le_max_right (clock.instant f.start_time) m, ?_⟩⟩
    rw [act_line, hm]
    rfl
  case classify brr =>
    rw [act_line]
    split
    · exact .of_eq (classify_times st f size).1 (classify_times st f size).2
    · exact .of_eq rfl rfl
  all_goals exact .of_eq rfl rfl

theorem classify_dones (st : Stat) (f : Brr) (size : ℕ) : (classify st f size).dones = st.dones := by
  unfold classify
  split
  · rfl
  · split
    · rfl
    · split <;> rfl

theorem act_line_dones (f : Brr) (size : ℕ) : (act_line clock st f size a).dones = st.dones := by
  cases a
  case min brr =>
    rw [act_line]
    split <;> rfl
  case classify brr =>
    rw [act_line]
    split
    · exact classify_dones st f size
    · rfl
  all_goals rfl

theorem act_widened (hact : act clock st a = some st') : Widened st st' := by
  have hdead := act_alive hact
  rcases line_or_end a with ⟨brr, ha⟩ | ⟨log, rfl⟩ | rfl
  · rw [act_of_line _ hdead ha] at hact
    obtain rfl := Option.some.inj hact
    cases hscan : scan_fields brr with
    | error die => exact .of_eq rfl rfl
    | ok fields => exact act_line_widened _ _
  · simp only [act, hdead, Option.isSome_none, Bool.false_eq_true, if_false, Option.some.injEq] at hact
    obtain rfl := hact
    refine .of_eq ?_ ?_ <;> split <;> rfl
  · simp only [act, hdead, Option.isSome_none, Bool.false_eq_true, if_false, Option.some.injEq] at hact
    obtain rfl := hact
    exact .of_eq rfl rfl

theorem marked_keep {b : Action} (hact : act clock st a = some st') (h : Marked clock b st) :
    Marked clock b st' := by
  intro _
  have hb := h (act_alive hact)
  have hwide := act_widened hact
  cases b
  case min brr =>
    obtain ⟨f, size, m, hscan, hm, hle⟩ := hb
    obtain ⟨m', hle', hm'⟩ := hwide.min m hm
    exact ⟨f, size, m', hscan, hm', hle'.trans hle⟩
  case max brr =>
    obtain ⟨f, size, m, hscan, hm, hle⟩ := hb
    obtain ⟨m', hle', hm'⟩ := hwide.max m hm
    exact ⟨f, size, m', hscan, hm', hle.trans hle'⟩
  all_goals trivial

theorem marked_set (hact : act clock st a = some st') : Marked clock a st' := by
  intro hdead'
  have hdead := act_alive hact
  cases a
  case min brr =>
    rw [act_of_line brr hdead (by simp [sections])] at hact
    obtain rfl := Option.some.inj hact
    cases hscan : scan_fields brr with
    | error die => simp [hscan] at hdead'
    | ok fields =>
      obtain ⟨f, size⟩ := fields
      simp only [hscan, act_line] at hdead' ⊢
      split at hdead'
      · rename_i htime
        rw [if_pos htime]
        cases hm : st.min_brr_start_time with
        | none => exact ⟨f, size, _, rfl, rfl, le_rfl⟩
        | some m => exact ⟨f, size, _, rfl, rfl, min_le_left _ _⟩
      · cases hdead'
  case max brr =>
    rw [act_of_line brr hdead (by simp [sections])] at hact
    obtain rfl := Option.some.inj hact
    cases hscan : scan_fields brr with
    | error die => simp [hscan] at hdead'
    | ok fields =>
      obtain ⟨f, size⟩ := fields
      simp only [act_line]
      cases hm : st.max_brr_start_time with
      | none => exact ⟨f, size, _, hscan, rfl, le_rfl⟩
      | some m => exact ⟨f, size, _, hscan, rfl, le_max_left _ _⟩
  all_goals trivial

end steps

/-! ### Runs -/

section runs
variable {clock} {logs : List
    (List Text)} {is : List ℕ} {s s' : State Stat Action} {st st' : Stat} {a : Action}

/-- The sections of a log's lines are behind the thread that comes to its end. -/
theorem before_finish {log log' : List Text} {before as : List Action}
    (h : before ++ .finish log :: as = scan_brr_log log') : log = log' ∧ ∀ a ∈ log'.flatMap sections,
      a ∈ before := by
  have hnot : ∀ log'', Action.finish log'' ∉ log'.flatMap sections := by simp [sections]
  have hmem : Action.finish log ∈ scan_brr_log log' := by
    rw [← h]
    exact List.mem_append_right _ List.mem_cons_self
  refine ⟨by simpa [scan_brr_log, hnot] using hmem, fun a ha => ?_⟩
  rw [scan_brr_log, List.append_eq_append_iff] at h
  rcases h with ⟨rest, hlines, hrest⟩ | ⟨rest, rfl, -⟩
  · cases rest with
    | nil => rwa [hlines, List.append_nil] at ha
    | cons b rest =>
      obtain rfl := List.head_eq_of_cons_eq hrest
      exact absurd (hlines ▸ List.mem_append_right _ List.mem_cons_self) (hnot log)
  · exact List.mem_append_left _ ha

/-- At the end of a log with a line the last time is not before the first one. -/
theorem finish_in_order (hrun : exec (AtomicThreads.step (act clock))
    (start logs) is = some s) {i : ℕ} {log : List Text}
    {as : List Action} (hleft : s.left[i]? = some (.finish log :: as)) (hdead : s.shared.dead = none)
    (hlog : log ≠ []) : ¬ min_after_max s.shared := by
  obtain ⟨before, hbefore, hmarked⟩ := behind (F := Marked clock)
    (fun _ _ _ h => marked_set h) (fun _ _ _ _ h => marked_keep h) hrun hleft
  simp only [start, List.getElem?_map, Option.map_eq_some_iff] at hbefore
  obtain ⟨log', -, hactions⟩ := hbefore
  obtain ⟨rfl, hlines⟩ := before_finish hactions.symm
  obtain ⟨brr, hbrr⟩ := List.exists_mem_of_ne_nil log hlog
  have hsection : ∀ a ∈ sections brr, a ∈ before := fun a ha =>
    hlines a (List.mem_flatMap.mpr ⟨brr, hbrr, ha⟩)
  obtain ⟨f, size, m, hscan, hm, hle⟩ := hmarked _ (hsection (.min brr) (by simp [sections])) hdead
  obtain ⟨f', size', n, hscan', hn, hle'⟩ := hmarked _ (hsection (.max brr) (by simp [sections])) hdead
  obtain ⟨rfl, rfl⟩ : f = f' ∧ size = size' := by simpa [hscan] using hscan'
  simp only [min_after_max, hm, hn, gt_iff_lt, decide_eq_true_eq, not_lt]
  exact hle.trans hle'

theorem right_step_iff (hrun : exec (AtomicThreads.step (act clock)) (start logs) is = some s) {i : ℕ}
    (h : Right logs s)
    (hstep : AtomicThreads.step (act clock) s i = some s') : Right logs s' ↔ Next (Clean clock) s i := by
  obtain ⟨a, as, shared, hleft, hact, rfl⟩ := step_eq_some.mp hstep
  have hbalanced : Balanced s.shared shared a ↔ Clean clock s.shared a :=
    act_balanced_iff hact fun log ha hlog => finish_in_order hrun (ha ▸ hleft) (act_alive hact) hlog
  have hnext : Next (Clean clock) s i ↔ Clean clock s.shared a := by
    constructor
    · exact fun hn => hn a as hleft
    · intro hclean b bs hb
      obtain ⟨rfl, rfl⟩ : a = b ∧ as = bs := by simpa [hleft] using hb
      exact hclean
  rw [hnext, ← hbalanced]
  refine and_congr_right' (forall_congr' fun q => ?_)
  rw [← h.2 q, sum_left (weight q) hleft]
  dsimp only
  omega

/-! ### The totals at the end -/

def is_record (verb : Verb) (ok : Bool) (brr : Text) : Bool :=
  match scan_fields brr with
  | .ok (f, _) => f.verb = verb.text ∧ ok = outcome f.chat_history
  | .error _ => false

def record_size (verb : Verb) (brr : Text) : ℕ :=
  match scan_fields brr with
  | .ok (f, size) => if f.verb = verb.text then size else 0
  | .error _ => 0

/-- Each record has been counted once, under its verb and its outcome, and the sizes of the blobs
are those of the records. -/
structure Totalled (logs : List (List Text)) (st : Stat) : Prop where
  sanity : sanity st
  brr_count : st.brr_count.toNat = logs.flatten.length
  counts : ∀ verb ok, (st.counts verb ok).toNat = logs.flatten.countP (is_record verb ok)
  sizes : ∀ verb ∈ sized_verbs, (st.sizes verb).toNat = (logs.flatten.map (record_size verb)).sum

theorem sum_weight_log (q : Quantity) (log : List Text) : ((scan_brr_log log).map (weight q)).sum =
    (log.map fun brr => weight q (.count brr) + weight q (.classify brr)).sum := by
  have hlines : ((log.flatMap sections).map (weight q)).sum =
      (log.map fun brr => weight q (.count brr) + weight q (.classify brr)).sum := by
    induction log with
    | nil => rfl
    | cons brr log ih =>
      rw [List.flatMap_cons, List.map_append, List.sum_append, ih, List.map_cons, List.sum_cons]
      simp [sections, weight]
  rw [scan_brr_log, List.map_append, List.sum_append, hlines]
  rfl

theorem sum_weight (q : Quantity) (logs : List (List Text)) :
    ((logs.map scan_brr_log).flatten.map (weight q)).sum =
      (logs.flatten.map fun brr => weight q (.count brr) + weight q (.classify brr)).sum := by
  induction logs with
  | nil => rfl
  | cons log logs ih =>
    rw [List.map_cons, List.flatten_cons, List.map_append, List.sum_append, ih, sum_weight_log,
      List.flatten_cons, List.map_append, List.sum_append]

theorem toNat_sum (l : List UInt64) : l.sum.toNat = (l.map UInt64.toNat).sum % 2 ^ 64 := by
  induction l with
  | nil => rfl
  | cons x l ih =>
    rw [List.sum_cons, UInt64.toNat_add, ih, List.map_cons, List.sum_cons]
    omega

theorem verb_count_toNat (st : Stat) : (verb_count st).toNat = value st .classified % 2 ^ 64 := by
  rw [verb_count, toNat_sum, List.map_map]
  simp only [stat_verbs, value, List.map_cons, List.map_nil, List.sum_cons, List.sum_nil,
    Function.comp_apply,
    UInt64.toNat_add]
  omega

theorem act_dones (hact : act clock st a = some st') :
    st'.dones = st.dones + if a = .done then 1 else 0 := by
  have hdead := act_alive hact
  rcases line_or_end a with ⟨brr, ha⟩ | ⟨log, rfl⟩ | rfl
  · have hnot : a ≠ .done := by
      rintro rfl
      simp [sections] at ha
    rw [act_of_line _ hdead ha] at hact
    obtain rfl := Option.some.inj hact
    rw [if_neg hnot]
    cases scan_fields brr with
    | error die => rfl
    | ok fields => exact act_line_dones _ _
  · simp only [act, hdead, Option.isSome_none, Bool.false_eq_true, if_false, Option.some.injEq] at hact
    obtain rfl := hact
    split <;> rfl
  · simp only [act, hdead, Option.isSome_none, Bool.false_eq_true, if_false, Option.some.injEq] at hact
    obtain rfl := hact
    rfl

theorem exec_dones {done : List Action} (hrun : exec (act clock) st done = some st') :
    st'.dones = st.dones + done.count .done := by
  induction done generalizing st with
  | nil =>
    obtain rfl : st = st' := by simpa using hrun
    rfl
  | cons a done ih =>
    obtain ⟨m, hstep, hrest⟩ := exec_cons.mp hrun
    rw [ih hrest, act_dones hstep, List.count_cons, Nat.add_assoc, Nat.add_comm (List.count _ _)]
    simp [beq_iff_eq]

theorem count_done (logs : List (List Text)) : (logs.map scan_brr_log).flatten.count .done = logs.length :=
    by
  induction logs with
  | nil => rfl
  | cons log logs ih =>
    have hlines : (log.flatMap sections).count .done = 0 := List.count_eq_zero.mpr (by simp [sections])
    rw [List.map_cons, List.flatten_cons, List.count_append, ih, scan_brr_log, List.count_append, hlines,
      List.length_cons]
    exact Nat.add_comm _ _

/-- The scanners that have all said that they are done have nothing left. -/
theorem finished_of_dones (hrun : exec (AtomicThreads.step (act clock)) (start logs) is = some s)
    (hdones : s.shared.dones = logs.length) : Finished s := by
  obtain ⟨done, hdone, -, hperm⟩ := serialized (P := fun _ _ => True) hrun
    (along_of_forall (fun _ _ _ _ _ _ => trivial) _)
  have hlast : ∀ as ∈ (start logs).left, as = [] ∨ as.getLast? = some .done := by
    intro as has
    obtain ⟨log, -, rfl⟩ := List.mem_map.mp has
    exact .inr (by simp [scan_brr_log])
  refine finished_of_last hlast hrun hperm ?_
  have hcount := exec_dones hdone
  rw [show (start logs).left.flatten.count .done = logs.length from count_done logs, ← hdones, hcount]
  exact (Nat.zero_add _).symm

theorem countP_eq_sum (p : Text → Bool) (l : List Text) : l.countP p =
    (l.map fun t => if p t then 1 else 0).sum := by
  induction l with
  | nil => rfl
  | cons t l ih => rw [List.countP_cons, ih, List.map_cons, List.sum_cons, Nat.add_comm]

theorem count_weight (verb : Verb) (ok : Bool) (brr : Text) :
    weight (.count verb ok) (.count brr) + weight (.count verb ok) (.classify brr) =
      if is_record verb ok brr then 1 else 0 := by
  cases hscan : scan_fields brr <;> simp [weight, is_record, share, hscan]

theorem size_weight {verb : Verb} (hverb : verb ∈ sized_verbs) (brr : Text) :
    weight (.size verb) (.count brr) + weight (.size verb) (.classify brr) = record_size verb brr := by
  cases hscan : scan_fields brr <;> simp [weight, record_size, share, hscan, hverb]

theorem records_weight (brr : Text) :
    weight .records (.count brr) + weight .records (.classify brr) = 1 := by
  cases hscan : scan_fields brr <;> simp [weight, share, hscan]

theorem classified_weight {brr : Text} {fields : Brr × ℕ} (hscan : scan_fields brr = .ok fields) :
    weight .classified (.count brr) + weight .classified (.classify brr) = 1 := by
  simp [weight, share, hscan]

/-- All lines of the logs have passed the tests of their fields when the scanners are done. -/
theorem lines_scanned (hclean : Along (AtomicThreads.step (act clock)) (Next (Clean clock)) (start logs) is)
    (hrun : exec (AtomicThreads.step (act clock)) (start logs) is = some s)
      (hfinished : Finished s) {brr : Text}
    (hbrr : brr ∈ logs.flatten) : ∃ fields, scan_fields brr = .ok fields := by
  obtain ⟨done, hdone, halong, hperm⟩ := serialized hrun hclean
  rw [hfinished.flatten, List.append_nil] at hperm
  have hcounted : .count brr ∈ done := by
    rw [hperm.mem_iff]
    obtain ⟨log, hlog, hmem⟩ := List.mem_flatten.mp hbrr
    refine List.mem_flatten.mpr ⟨_, List.mem_map_of_mem hlog, ?_⟩
    exact List.mem_append_left _ (List.mem_flatMap.mpr ⟨brr, hmem, by simp [sections]⟩)
  have hscanned := halong.forall (p := fun a => ∀ b, a = .count b → ∃ fields, scan_fields b = .ok fields)
    (fun st a h b ha => by
      subst ha
      obtain ⟨f, size, hscan, -⟩ := h
      exact ⟨_, hscan⟩) hdone
  exact hscanned _ hcounted _ rfl

theorem totalled_of_right (hclean : Along (AtomicThreads.step (act clock)) (Next (Clean clock))
    (start logs) is)
    (hrun : exec (AtomicThreads.step (act clock)) (start logs) is = some s) (hright : Right logs s)
    (hdones : s.shared.dones = logs.length) : Totalled logs s.shared := by
  have hfinished := finished_of_dones hrun hdones
  have htotal : ∀ q, value s.shared q =
      (logs.flatten.map fun brr => weight q (.count brr) + weight q (.classify brr)).sum := by
    intro q
    rw [← sum_weight, ← hright.2 q, hfinished.flatten]
    rfl
  have hones : ∀ l : List Text, (l.map fun _ => 1).sum = l.length := by simp
  have hrecords : value s.shared .records = logs.flatten.length := by
    rw [htotal, List.map_congr_left fun brr _ => records_weight brr, hones]
  have hclassified : value s.shared .classified = logs.flatten.length := by
    rw [htotal, ← hones]
    refine congrArg List.sum (List.map_congr_left fun brr hbrr => ?_)
    obtain ⟨fields, hscan⟩ := lines_scanned hclean hrun hfinished hbrr
    exact classified_weight hscan
  refine ⟨?_, hrecords, fun verb ok => ?_, fun verb hverb => ?_⟩
  · rw [sanity, decide_eq_true_eq, ← UInt64.toNat_inj, verb_count_toNat, hclassified, ← hrecords]
    exact Nat.mod_eq_of_lt s.shared.brr_count.toNat_lt
  · refine (htotal (.count verb ok)).trans ?_
    rw [countP_eq_sum]
    exact congrArg List.sum (List.map_congr_left fun brr _ => count_weight verb ok brr)
  · refine (htotal (.size verb)).trans ?_
    exact congrArg List.sum (List.map_congr_left fun brr _ => size_weight hverb brr)

theorem right_start (logs : List (List Text)) : Right logs (start logs) := by
  refine ⟨rfl, fun q => ?_⟩
  have hzero : value {} q = 0 := by cases q <;> rfl
  rw [start, hzero, Nat.zero_add]

end runs

/-- The program stays up, no total is off in any state of a run, and the totals at its end are
those of the records, just if all sections of the run meet what a section has to meet. -/
theorem right_iff_clean {logs : List (List Text)} {is : List ℕ} {s : State Stat Action}
    (hrun : exec (AtomicThreads.step (act clock)) (start logs) is = some s) :
    (∀ before s', before <+: is → exec (AtomicThreads.step (act clock)) (start logs) before = some s' →
        Right logs s' ∧ (s'.shared.dones = logs.length → Totalled logs s'.shared)) ↔
      Along (AtomicThreads.step (act clock)) (Next (Clean clock)) (start logs) is := by
  have hright : (∀ before t, before <+: is → exec (AtomicThreads.step (act clock))
    (start logs) before = some t → Right logs t) ↔
      Along (AtomicThreads.step (act clock)) (Next (Clean clock)) (start logs) is := by
    refine forall_states_iff_along (I := fun t => ∃ js, exec (AtomicThreads.step (act clock))
      (start logs) js = some t)
      ?_ ?_ ⟨[], rfl⟩ (right_start logs) hrun
    · rintro t i t' ⟨js, hjs⟩ hstep
      exact ⟨js ++ [i], exec_concat.mpr ⟨t, hjs, hstep⟩⟩
    · rintro t i t' ⟨js, hjs⟩ hR hstep
      exact right_step_iff hjs hR hstep
  constructor
  · intro h
    exact hright.mp fun before t hpre hbefore => (h before t hpre hbefore).1
  · intro hclean before s' hpre hbefore
    have hR := hright.mpr hclean before s' hpre hbefore
    obtain ⟨after, rfl⟩ := hpre
    exact ⟨hR, totalled_of_right (along_append.mp hclean).1 hbefore hR⟩

instance (verb : Verb) (chat_history : Text) : Decidable (Overlooked verb chat_history) :=
  inferInstanceAs (Decidable (_ ∨ _))

instance (f : Brr) (size : ℕ) (verb : Verb) : Decidable (Counted f size verb) :=
  decidable_of_iff (verb ∈ stat_verbs ∧ f.verb = verb.text ∧ f.chat_history ∈ schema_chats verb ∧
      ¬ Overlooked verb f.chat_history ∧ (verb ∈ sized_verbs → ¬ adds_size verb f.chat_history → size = 0))
    ⟨fun ⟨hmem, heq, hchat, hseen, hsize⟩ => ⟨hmem, heq, hchat, hseen, hsize⟩,
      fun h => ⟨h.verb_mem, h.verb_eq, h.chat, h.not_overlooked, h.no_size⟩⟩

instance (st : Stat) (f : Brr) (size : ℕ) : Decidable (ClassifyClean st f size) :=
  decidable_of_iff (∃ verb ∈ stat_verbs, Counted f size verb ∧ (verb = .roll → st.prev_roll = none) ∧
      (st.counts verb (outcome f.chat_history)).toNat + 1 < 2 ^ 64 ∧
      (verb ∈ sized_verbs → (st.sizes verb).toNat + size < 2 ^ 64))
    ⟨fun ⟨verb, _, h⟩ => ⟨verb, h⟩, fun ⟨verb, h⟩ => ⟨verb, h.1.verb_mem, h⟩⟩

instance (st : Stat) (f : Brr) (size : ℕ) : ∀ a, Decidable (CleanFields clock st f size a)
  | .count _ => inferInstanceAs (Decidable (_ < _))
  | .min _ => inferInstanceAs (Decidable (_ = _))
  | .classify _ => inferInstanceAs (Decidable (_ ∧ ClassifyClean st f size))
  | .max _ | .udig _ | .max_wall _ | .max_size _ | .finish _ | .done => .isTrue trivial

instance (st : Stat) (a : Action) (brr : Text) :
    Decidable (∃ f size, scan_fields brr = .ok (f, size) ∧ CleanFields clock st f size a) :=
  match h : scan_fields brr with
  | .ok (f, size) => decidable_of_iff (CleanFields clock st f size a)
      ⟨fun hc => ⟨f, size, rfl, hc⟩, fun ⟨_, _, heq, hc⟩ => by cases heq; exact hc⟩
  | .error _ => .isFalse fun ⟨_, _, heq, _⟩ => by cases heq

instance (st : Stat) : ∀ a, Decidable (Clean clock st a)
  | .finish log => inferInstanceAs (Decidable (log = [] → ¬ min_after_max st))
  | .done => .isTrue trivial
  | .count brr | .min brr | .max brr | .classify brr | .udig brr | .max_wall brr | .max_size brr =>
    inferInstanceAs (Decidable (∃ f size, scan_fields brr = .ok (f, size) ∧ CleanFields clock st f size _))

/-- A put that is refused at its end. -/
def put_brr : Text :=
  "2024-02-29T23:59:58.000000001+00:00\ttcp4~127.0.0.1:50001;127.0.0.1:1797\tput\tsha:".toList ++
    "1111111111111111111111111111111111111111\tok,no\t7\t0.000223456".toList

/-- Its log, and one without a record. -/
def frozen_logs : List (List Text) := [[put_brr], []]

/-- The time of the record. -/
def february : Clock where
  zone_ok := go_library.zone_ok
  instant _ := 1709251198000000001

/-- The log without a record ends before the times are set. -/
def turns : List ℕ := [0, 1, 0, 0, 0, 1, 0, 0, 0, 0, 0]

theorem frozen_logs_clean :
    Along (AtomicThreads.step (act february)) (Next (Clean february)) (start frozen_logs) turns ∧
      ∃ s, exec (AtomicThreads.step (act february)) (start frozen_logs) turns = some s ∧
        ∀ before s', before <+: turns → exec (AtomicThreads.step (act february))
          (start frozen_logs) before = some s' →
          Right frozen_logs s' ∧ (s'.shared.dones = frozen_logs.length → Totalled frozen_logs s'.shared) :=
            by
  have hclean : Along (AtomicThreads.step (act february)) (Next (Clean february))
    (start frozen_logs) turns := by
    decide +kernel
  have hsome : (exec (AtomicThreads.step (act february)) (start frozen_logs) turns).isSome := by
    decide +kernel
  obtain ⟨s, hs⟩ := Option.isSome_iff_exists.mp hsome
  exact ⟨hclean, s, hs, (right_iff_clean february hs).mpr hclean⟩

/-- The records are of the schema, and at most one of them is of a roll. -/
def OfSchema (logs : List (List Text)) : Prop :=
  (∀ brr ∈ logs.flatten, ∃ f size verb, scan_fields brr = .ok (f, size) ∧ f.verb = verb.text ∧
      f.chat_history ∈ schema_chats verb) ∧
    logs.flatten.countP (fun brr => is_record .roll true brr || is_record .roll false brr) ≤ 1

/-- A give whose taker has hung up. -/
def give_brr : Text :=
  "2024-02-29T23:59:58.000000001+00:00\ttcp4~127.0.0.1:50001;127.0.0.1:1797\tgive\tsha:".toList ++
    "1111111111111111111111111111111111111111\tok,no\t7\t0.000223456".toList

theorem give_brr_of_schema : OfSchema [[give_brr]] := by
  have hscan : (scan_fields give_brr).toOption.any fun fields =>
      fields.1.verb = Verb.give.text ∧ fields.1.chat_history ∈ schema_chats .give := by
    unfold give_brr
    rw [String.toList_ofList, String.toList_ofList]
    decide +kernel
  constructor
  · intro brr hbrr
    rw [List.mem_singleton.mp hbrr]
    cases hfields : scan_fields give_brr with
    | error die => simp [hfields, Except.toOption] at hscan
    | ok fields =>
      rw [hfields] at hscan
      obtain ⟨hverb, hchat⟩ := of_decide_eq_true hscan
      exact ⟨fields.1, fields.2, .give, rfl, hverb, hchat⟩
  · exact List.countP_le_length

/-- The record is counted under no verb. -/
theorem give_not_counted : ¬ ∀ clock logs is s, OfSchema logs →
    exec (AtomicThreads.step (act clock)) (start logs) is = some s → s.shared.dones = logs.length →
      sanity s.shared := by
  intro h
  have hrun : ((exec (AtomicThreads.step (act february)) (start [[give_brr]])
    (List.replicate 9 0)).map fun s =>
      (s.shared.dones, sanity s.shared)) = some (1, false) := by
    unfold give_brr
    rw [String.toList_ofList, String.toList_ofList]
    decide +kernel
  obtain ⟨s, hs, hend⟩ := Option.map_eq_some_iff.mp hrun
  have hsane := h february [[give_brr]] _ s give_brr_of_schema hs (congrArg Prod.fst hend)
  rw [show sanity s.shared = false from congrArg Prod.snd hend] at hsane
  cases hsane

end Blobio.RollStat
