import Blobio.FlowRecords
import Blobio.TerminatedLines
import Mathlib.Data.List.Forall2

/-! `append-brr`: a blob request record made of the arguments of a command line. The
arguments are taken up to their nulls. -/
namespace Blobio

/-- A program that ends with the messages of `die`, or goes on. -/
abbrev OrDie (α : Type) := Except (List Text) α

def OrDie.unless (ok : Bool) (msgs : List Text) : OrDie Unit :=
  if ok then .ok () else .error msgs

theorem OrDie.unless_eq_ok {ok : Bool} {msgs : List Text} {u : Unit} :
    OrDie.unless ok msgs = .ok u ↔ ok := by
  cases ok <;> simp [OrDie.unless]

theorem OrDie.bind_eq_ok {α β : Type} {m : OrDie α} {k : α → OrDie β} {b : β} :
    (m >>= k) = .ok b ↔ ∃ a, m = .ok a ∧ k a = .ok b := by
  cases m with
  | error msgs => exact iff_of_false (by rintro ⟨⟩) (by simp)
  | ok a => exact ⟨fun h => ⟨a, rfl, h⟩, fun ⟨_, ha, h⟩ => Except.ok.inj ha ▸ h⟩

/-- Neither tab nor new-line, so that the text stays one field of one line. -/
def IsPlain (arg : Text) : Prop := '\t' ∉ arg ∧ '\n' ∉ arg

instance : DecidablePred IsPlain := fun arg => inferInstanceAs (Decidable ('\t' ∉ arg ∧ '\n' ∉ arg))

theorem isPlain_of_forall {arg : Text} {p : Char → Prop} (h : ∀ c ∈ arg, p c) (htab : ¬ p '\t')
    (hline : ¬ p '\n') : IsPlain arg :=
  ⟨fun hmem => htab (h _ hmem), fun hmem => hline (h _ hmem)⟩

/-- Arguments, each with a tab behind it, as a line whose last tab became the new-line. -/
theorem line_of_plain_args {args : List Text} (hne : args ≠ []) (h : ∀ arg ∈ args, IsPlain arg) :
    '\n' ∉ (TerminatedLines.terminated '\t' args).dropLast ∧
      (TerminatedLines.terminated '\t' args).dropLast.splitOn '\t' = args := by
  refine ⟨fun hmem => ?_, TerminatedLines.splitOn_dropLast_terminated hne fun arg harg => (h arg harg).1⟩
  obtain ⟨arg, harg, hin⟩ := List.mem_flatMap.mp (List.dropLast_subset _ hmem)
  rcases List.mem_append.mp hin with hin | hin
  · exact (h arg harg).2 hin
  · exact absurd (List.mem_singleton.mp hin) (by decide)

namespace AppendBrr

/-- `arg2brr`: the record so far, with the argument and a tab behind it. -/
def arg2brr (name arg : Text) (min_len size : ℕ) (brr : Text) : OrDie Text :=
  if arg.length < min_len then
    .error ["argument too short".toList, name, arg]
  else if size < arg.length then
    .error ["arg too big for brr field".toList, name, arg]
  else
    .ok (brr ++ arg ++ ['\t'])

def in_char_set (name arg set : Text) : OrDie Unit :=
  OrDie.unless (∀ c ∈ arg, c ∈ set) [name, "illegal char exists".toList, arg]

def start_time_set : Text := "0123456789-T:.+".toList

def is_start_time (arg brr : Text) : OrDie Text := do
  let nm := "start time".toList
  let brr ← arg2brr nm arg 26 (10 + 1 + 8 + 1 + 9 + 1 + 6) brr
  OrDie.unless (arg[4]? = some '-') [nm, "dash not at pos 5".toList, arg]
  OrDie.unless (arg[7]? = some '-') [nm, "dash not at pos 7".toList, arg]
  OrDie.unless (arg[10]? = some 'T') [nm, "T not at pos 11".toList, arg]
  OrDie.unless (arg[13]? = some ':') [nm, "colon not at pos 14".toList, arg]
  OrDie.unless (arg[16]? = some ':') [nm, "colon not at pos 17".toList, arg]
  OrDie.unless (arg[19]? = some '.') [nm, "colon not at pos 20".toList, arg]
  in_char_set nm arg start_time_set
  return brr

/-- The messages of a scan of `[a-z][a-z0-9]{0,7}` up to a stop. -/
structure TagMessages where
  first : Text
  long : Text
  char : Text
  stop : Text

/-- What follows the stop; `i` is the position in the argument. -/
def scan_tag_rest (nm arg : Text) (msgs : TagMessages) (stop : Char) : ℕ → Text → OrDie Text
  | _, [] => .error [nm, msgs.stop, arg]
  | i, c :: a =>
    if c = stop then .ok a
    else if i > 7 then .error [nm, msgs.long, arg]
    else if ¬ isdigit c ∧ ¬ islower c then .error [nm, msgs.char, arg]
    else scan_tag_rest nm arg msgs stop (i + 1) a

/-- The first byte of an empty argument is its null. -/
def scan_tag (nm arg : Text) (msgs : TagMessages) (stop : Char) : OrDie Text :=
  match arg with
  | [] => .error [nm, msgs.first, arg]
  | c :: a => if ¬ between 'a' 'z' c then .error [nm, msgs.first, arg] else scan_tag_rest nm arg msgs stop 1 a

/-- `isgraph`, of the ASCII characters. -/
def isgraph (c : Char) : Bool := between '!' '~' c

def is_transport (arg brr : Text) : OrDie Text := do
  let nm := "transport".toList
  let brr ← arg2brr nm arg 3 (8 + 1 + 128) brr
  let a ← scan_tag nm arg ⟨"protocol not ^[a-z]".toList, "protocol > 8 characters".toList,
    "protocol not [a-z0-9]".toList, "tilda not seen".toList⟩ '~'
  OrDie.unless (a.length ≤ 128) [nm, "flow: length > 128".toList, arg]
  OrDie.unless (a.all isgraph) [nm, "flow: bad char".toList, arg]
  return brr

def is_udig (arg brr : Text) : OrDie Text := do
  let nm := "udig".toList
  let brr ← arg2brr nm arg (1 + 1 + 28) (8 + 1 + 128) brr
  let a ← scan_tag nm arg ⟨"algorithm not ^[a-z]".toList, "algorithm > 8 characters".toList,
    "algorithm not [a-z0-9]".toList, "no colon at end of algorithm".toList⟩ ':'
  OrDie.unless (32 ≤ a.length) [nm, "digest: length < 32".toList, arg]
  OrDie.unless (a.length ≤ 128) [nm, "digest: length > 128".toList, arg]
  OrDie.unless (a.all isgraph) [nm, "digest: bad char".toList, arg]
  return brr

def is_blob_size (arg brr : Text) : OrDie Text := do
  let brr ← arg2brr "blob size".toList arg 1 19 brr
  in_char_set "blob size".toList arg digits
  return brr

def duration_set : Text := "0123456789.".toList

def is_wall_duration (arg brr : Text) : OrDie Text := do
  let brr ← arg2brr "wall duration".toList arg 1 (10 + 1 + 9) brr
  in_char_set "wall duration".toList arg duration_set
  return brr

def verbs : List Text :=
  ["get".toList, "put".toList, "give".toList, "take".toList, "eat".toList, "wrap".toList, "cat".toList,
    "roll".toList]

def is_verb (arg brr : Text) : OrDie Text := do
  let brr ← arg2brr "verb".toList arg 3 8 brr
  OrDie.unless (arg ∈ verbs) ["not verb".toList, arg]
  return brr

def chat_histories : List Text :=
  ["ok".toList, "no".toList, "ok,ok".toList, "ok,no".toList, "ok,ok,ok".toList, "ok,ok,no".toList]

def is_chat_history (arg brr : Text) : OrDie Text := do
  let brr ← arg2brr "chat history".toList arg 2 8 brr
  OrDie.unless (arg ∈ chat_histories) ["not chat history".toList, arg]
  return brr

def MIN_BRR : ℕ := 35
def MAX_BRR : ℕ := 419

/-- A record and a null, as `main` declares the buffer. -/
def sizeof_brr : ℕ := MAX_BRR + 1 + 1

def usage : Text := "append-brr <path> <time> <transport> <verb> <udig> <chat> <size> <wall> ".toList

/-- The fields of the record, each with its tab. -/
def fields (start_time transport verb udig chat_history blob_size wall_duration : Text) : OrDie Text := do
  let b ← is_start_time start_time []
  let b ← is_transport transport b
  let b ← is_verb verb b
  let b ← is_udig udig b
  let b ← is_chat_history chat_history b
  let b ← is_blob_size blob_size b
  is_wall_duration wall_duration b

/-- The path that is opened and the record that is written to it. `open_error` is what the
open of the path fails with. -/
def main (open_error : Text → Option Text) : List Text → OrDie (Text × Text)
  | [_, path, start_time, transport, verb, udig, chat_history, blob_size, wall_duration] => do
    let b ← fields start_time transport verb udig chat_history blob_size wall_duration
    let brr := b.dropLast ++ ['\n']    -- zap trailing tab
    OrDie.unless (open_error path).isNone ["open() failed".toList, (open_error path).getD [], path]
    OrDie.unless (MIN_BRR ≤ brr.length) ["brr < 35 bytes".toList]
    return (path, brr)
  | _ => .error ["wrong number of arguments".toList, usage]

/-! ### What the validators let through -/

/-- One field of a line, of at most so many characters. -/
def IsField (arg : Text) (size : ℕ) : Prop := IsPlain arg ∧ arg.length ≤ size

/-- The argument went into the record, as a field. -/
structure Appends (arg : Text) (size : ℕ) (brr brr' : Text) : Prop where
  brr_eq : brr' = brr ++ arg ++ ['\t']
  isField : IsField arg size

variable {name arg brr brr' : Text} {min_len size : ℕ}

theorem arg2brr_eq_ok : arg2brr name arg min_len size brr = .ok brr' ↔
    min_len ≤ arg.length ∧ arg.length ≤ size ∧ brr' = brr ++ arg ++ ['\t'] := by
  unfold arg2brr
  split_ifs with hmin hsize
  · exact iff_of_false (by rintro ⟨⟩) (by omega)
  · exact iff_of_false (by rintro ⟨⟩) (by omega)
  · simp only [not_lt] at hmin hsize
    simp [hmin, hsize, eq_comm]

theorem in_char_set_eq_ok {set : Text} {u : Unit} : in_char_set name arg set = .ok u ↔ ∀ c ∈ arg, c ∈ set := by
  rw [in_char_set, OrDie.unless_eq_ok, decide_eq_true_eq]

theorem appends_of_set {set : Text} {u : Unit} (h : arg2brr name arg min_len size brr = .ok brr')
    (hset : in_char_set name arg set = .ok u) (htab : '\t' ∉ set) (hline : '\n' ∉ set) :
    Appends arg size brr brr' := by
  obtain ⟨-, hle, rfl⟩ := arg2brr_eq_ok.mp h
  exact ⟨rfl, isPlain_of_forall (in_char_set_eq_ok.mp hset) htab hline, hle⟩

theorem appends_of_mem {texts : List Text} (h : arg2brr name arg min_len size brr = .ok brr')
    (hmem : arg ∈ texts) (hplain : ∀ text ∈ texts, IsPlain text) : Appends arg size brr brr' := by
  obtain ⟨-, hle, rfl⟩ := arg2brr_eq_ok.mp h
  exact ⟨rfl, hplain arg hmem, hle⟩

theorem isPlain_cons {c : Char} {a : Text} (hc : c ≠ '\t' ∧ c ≠ '\n') (ha : IsPlain a) : IsPlain (c :: a) :=
  ⟨List.not_mem_cons_of_ne_of_not_mem (Ne.symm hc.1) ha.1, List.not_mem_cons_of_ne_of_not_mem (Ne.symm hc.2) ha.2⟩

theorem isPlain_of_all_isgraph {a : Text} (h : a.all isgraph) : IsPlain a :=
  isPlain_of_forall (List.all_eq_true.mp h) (by decide) (by decide)

theorem ne_of_lower_alnum {c : Char} (h : ¬ (¬ isdigit c ∧ ¬ islower c)) : c ≠ '\t' ∧ c ≠ '\n' := by
  constructor
  · rintro rfl
    exact h (by decide)
  · rintro rfl
    exact h (by decide)

/-- What stands before the stop are letters and digits. -/
theorem scan_tag_rest_plain {nm : Text} {msgs : TagMessages} {stop : Char} {a : Text}
    (hstop : stop ≠ '\t' ∧ stop ≠ '\n') (ha : IsPlain a) {i : ℕ} {rest : Text}
    (h : scan_tag_rest nm arg msgs stop i rest = .ok a) : IsPlain rest := by
  induction rest generalizing i with
  | nil => cases h
  | cons c rest ih =>
    rw [scan_tag_rest] at h
    split_ifs at h with hc hi hchar
    · obtain rfl := Except.ok.inj h
      exact isPlain_cons (hc ▸ hstop) ha
    · exact isPlain_cons (ne_of_lower_alnum hchar) (ih h)

theorem scan_tag_plain {nm : Text} {msgs : TagMessages} {stop : Char} {a : Text}
    (hstop : stop ≠ '\t' ∧ stop ≠ '\n') (ha : IsPlain a) (h : scan_tag nm arg msgs stop = .ok a) :
    IsPlain arg := by
  cases arg with
  | nil => cases h
  | cons c rest =>
    rw [scan_tag] at h
    split_ifs at h with hc
    refine isPlain_cons ⟨?_, ?_⟩ (scan_tag_rest_plain hstop ha h)
    all_goals
      rintro rfl
      exact absurd hc (by decide)

theorem is_start_time_appends (h : is_start_time arg brr = .ok brr') : Appends arg 36 brr brr' := by
  simp only [is_start_time, OrDie.bind_eq_ok] at h
  obtain ⟨b, hb, -, -, -, -, -, -, -, -, -, -, -, -, u, hset, hret⟩ := h
  obtain rfl := Except.ok.inj hret
  exact appends_of_set hb hset (by decide) (by decide)

theorem is_transport_appends (h : is_transport arg brr = .ok brr') : Appends arg 137 brr brr' := by
  simp only [is_transport, OrDie.bind_eq_ok, OrDie.unless_eq_ok] at h
  obtain ⟨b, hb, a, htag, -, -, -, hgraph, hret⟩ := h
  obtain rfl := Except.ok.inj hret
  obtain ⟨-, hle, rfl⟩ := arg2brr_eq_ok.mp hb
  exact ⟨rfl, scan_tag_plain (by decide) (isPlain_of_all_isgraph hgraph) htag, hle⟩

theorem is_verb_appends (h : is_verb arg brr = .ok brr') : Appends arg 8 brr brr' := by
  simp only [is_verb, OrDie.bind_eq_ok, OrDie.unless_eq_ok, decide_eq_true_eq] at h
  obtain ⟨b, hb, -, hmem, hret⟩ := h
  obtain rfl := Except.ok.inj hret
  exact appends_of_mem hb hmem (by decide +kernel)

theorem is_udig_appends (h : is_udig arg brr = .ok brr') : Appends arg 137 brr brr' := by
  simp only [is_udig, OrDie.bind_eq_ok, OrDie.unless_eq_ok] at h
  obtain ⟨b, hb, a, htag, -, -, -, -, -, hgraph, hret⟩ := h
  obtain rfl := Except.ok.inj hret
  obtain ⟨-, hle, rfl⟩ := arg2brr_eq_ok.mp hb
  exact ⟨rfl, scan_tag_plain (by decide) (isPlain_of_all_isgraph hgraph) htag, hle⟩

theorem is_chat_history_appends (h : is_chat_history arg brr = .ok brr') : Appends arg 8 brr brr' := by
  simp only [is_chat_history, OrDie.bind_eq_ok, OrDie.unless_eq_ok, decide_eq_true_eq] at h
  obtain ⟨b, hb, -, hmem, hret⟩ := h
  obtain rfl := Except.ok.inj hret
  exact appends_of_mem hb hmem (by decide +kernel)

theorem is_blob_size_appends (h : is_blob_size arg brr = .ok brr') : Appends arg 19 brr brr' := by
  simp only [is_blob_size, OrDie.bind_eq_ok] at h
  obtain ⟨b, hb, u, hset, hret⟩ := h
  obtain rfl := Except.ok.inj hret
  exact appends_of_set hb hset (by decide) (by decide)

theorem is_wall_duration_appends (h : is_wall_duration arg brr = .ok brr') : Appends arg 20 brr brr' := by
  simp only [is_wall_duration, OrDie.bind_eq_ok] at h
  obtain ⟨b, hb, u, hset, hret⟩ := h
  obtain rfl := Except.ok.inj hret
  exact appends_of_set hb hset (by decide) (by decide)

/-! ### The record -/

/-- The widths of the seven fields in their order. -/
def widths : List ℕ := [36, 137, 8, 137, 8, 19, 20]

theorem fields_eq_ok {start_time transport verb udig chat_history blob_size wall_duration b : Text}
    (h : fields start_time transport verb udig chat_history blob_size wall_duration = .ok b) :
    List.Forall₂ IsField [start_time, transport, verb, udig, chat_history, blob_size, wall_duration] widths ∧
      b = TerminatedLines.terminated '\t'
        [start_time, transport, verb, udig, chat_history, blob_size, wall_duration] := by
  simp only [fields, OrDie.bind_eq_ok] at h
  obtain ⟨b₁, h₁, b₂, h₂, b₃, h₃, b₄, h₄, b₅, h₅, b₆, h₆, h₇⟩ := h
  obtain ⟨hb₁, hstart⟩ := is_start_time_appends h₁
  obtain ⟨hb₂, htransport⟩ := is_transport_appends h₂
  obtain ⟨hb₃, hverb⟩ := is_verb_appends h₃
  obtain ⟨hb₄, hudig⟩ := is_udig_appends h₄
  obtain ⟨hb₅, hchat⟩ := is_chat_history_appends h₅
  obtain ⟨hb₆, hsize⟩ := is_blob_size_appends h₆
  obtain ⟨hb₇, hwall⟩ := is_wall_duration_appends h₇
  constructor
  · exact .cons hstart <| .cons htransport <| .cons hverb <| .cons hudig <| .cons hchat <| .cons hsize <|
      .cons hwall .nil
  · rw [hb₇, hb₆, hb₅, hb₄, hb₃, hb₂, hb₁]
    simp [TerminatedLines.terminated]

theorem length_terminated_le {args : List Text} {ws : List ℕ} (h : List.Forall₂ IsField args ws) :
    (TerminatedLines.terminated '\t' args).length ≤ (ws.map (· + 1)).sum := by
  induction h with
  | nil => exact le_rfl
  | @cons arg w args ws harg _ ih =>
    have hle := harg.2
    simp only [TerminatedLines.terminated_cons, List.length_append, List.length_singleton, List.map_cons,
      List.sum_cons]
    omega

variable {open_error : Text → Option Text} {argv : List Text} {path record : Text}

theorem main_eq_ok (h : main open_error argv = .ok (path, record)) :
    List.Forall₂ IsField (argv.drop 2) widths ∧
      record = (TerminatedLines.terminated '\t' (argv.drop 2)).dropLast ++ ['\n'] := by
  unfold main at h
  split at h
  · simp only [OrDie.bind_eq_ok, OrDie.unless_eq_ok] at h
    obtain ⟨b, hb, -, -, -, -, hret⟩ := h
    obtain ⟨hfields, rfl⟩ := fields_eq_ok hb
    obtain ⟨-, rfl⟩ := Prod.mk.inj (Except.ok.inj hret)
    exact ⟨hfields, rfl⟩
  · cases h

/-- What `append-brr` appends lies within its buffer and is one line of just the seven
fields it was given. -/
theorem appended_line (h : main open_error argv = .ok (path, record)) :
    record.length ≤ sizeof_brr ∧
      ∃ line, record = line ++ ['\n'] ∧ '\n' ∉ line ∧ line.splitOn '\t' = argv.drop 2 ∧ argv.length = 9 := by
  obtain ⟨hfields, rfl⟩ := main_eq_ok h
  have hseven : (argv.drop 2).length = 7 := hfields.length_eq
  have hne : argv.drop 2 ≠ [] := List.ne_nil_of_length_pos (by omega)
  have hplain : ∀ arg ∈ argv.drop 2, IsPlain arg := ((List.forall₂_and_left _ _).mp hfields).1
  have hlen := length_terminated_le hfields
  obtain ⟨hline, hsplit⟩ := line_of_plain_args hne hplain
  refine ⟨?_, _, rfl, hline, hsplit, ?_⟩
  · rw [List.length_append, List.length_dropLast, List.length_singleton]
    refine (Nat.add_le_add_right (Nat.sub_le_sub_right hlen 1) 1).trans ?_
    decide
  · rw [List.length_drop] at hseven
    omega

/-- A get of the empty blob, as `bio4d` would report it. -/
def get_argv : List Text :=
  ["append-brr".toList, "spool/bio4d.brr".toList, "2024-01-02T03:04:05.678901-06:00".toList,
    "tcp4~127.0.0.1:1797;127.0.0.1:60001".toList, "get".toList,
    "sha:da39a3ee5e6b4b0d3255bfef95601890afd80709".toList, "ok".toList, "0".toList, "0.000123456".toList]

def get_brr : Text := (TerminatedLines.terminated '\t' (get_argv.drop 2)).dropLast ++ ['\n']

theorem appended_get_line :
    main (fun _ => none) get_argv = .ok ("spool/bio4d.brr".toList, get_brr) ∧ get_brr.length ≤ sizeof_brr ∧
      ∃ line, get_brr = line ++ ['\n'] ∧ '\n' ∉ line ∧ line.splitOn '\t' = get_argv.drop 2 ∧
        get_argv.length = 9 :=
  have h : main (fun _ => none) get_argv = .ok ("spool/bio4d.brr".toList, get_brr) := by decide +kernel
  ⟨h, appended_line h⟩

end AppendBrr
end Blobio
