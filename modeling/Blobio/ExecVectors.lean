import Blobio.HexDigests
import Blobio.TerminatedLines
import Mathlib.Data.List.TakeWhile
import Mathlib.Logic.Relation

/-! The vectors that `flowd` sends to a `flowd-execv` process: a line with a tab between any two
arguments, taken apart in a table of fixed slots. A string is the list of its bytes. -/
namespace Blobio.ExecVectors
open TerminatedLines

/-! ### The sender -/

structure Command where
  full_path : Bytes
  argv : List Bytes

/-- The vector of `command.call`. -/
def Command.xargv (cmd : Command) (argv : List Bytes) : List Bytes :=
  cmd.full_path :: cmd.argv ++ argv

/-- `strings.Join` with tabs, and a newline. -/
def request (argv : List Bytes) : Bytes :=
  [9].intercalate argv ++ [10]

/-! ### The scanner -/

def MAX_X_ARG : ℕ := 256

def MAX_X_ARGC : ℕ := 64

/-- `sizeof args` -/
def sizeof_args : ℕ := MAX_X_ARGC * (MAX_X_ARG + 1)

/-- The slot of the current argument, the bytes that it has, and the memory of all slots. The slot
behind the last one is the null at the end of `x_argv`. -/
structure Scan where
  x_argc : ℕ
  arg : ℕ
  args : Bytes
  deriving DecidableEq

inductive Message
  | argc_too_big
  | non_ascii
  | arg_too_big
  | read_of_0
  deriving DecidableEq

def Message.text : Message → String
  | argc_too_big => "argc too big"
  | non_ascii => "non-ascii input"
  | arg_too_big => "arg too big"
  | read_of_0 => "unexpected read(request) of 0"

/-- A death with its message, or a write through a null or behind the slots. -/
inductive Stop
  | die (msg : Message)
  | fault
  deriving DecidableEq

def Scan.store (s : Scan) (c : UInt8) : Option Bytes :=
  if s.x_argc < MAX_X_ARGC ∧ s.x_argc * (MAX_X_ARG + 1) + s.arg < s.args.length then
    some (s.args.set (s.x_argc * (MAX_X_ARG + 1) + s.arg) c)
  else none

/-- A tab, or a byte of an argument. -/
def Scan.turn (s : Scan) (c : UInt8) : Except Stop Scan :=
  if c = 9 then
    match s.store 0 with
    | none => .error .fault
    | some args =>
      if MAX_X_ARGC < s.x_argc + 1 then .error (.die .argc_too_big)
      else .ok ⟨s.x_argc + 1, 0, args⟩
  else if 128 ≤ c then .error (.die .non_ascii)
  else if MAX_X_ARG < s.arg then .error (.die .arg_too_big)
  else
    match s.store c with
    | none => .error .fault
    | some args => .ok { s with arg := s.arg + 1, args := args }

/-- The strings in the first slots, each up to its null. -/
def x_argv : ℕ → Bytes → List Bytes
  | 0, _ => []
  | n + 1, args => args.takeWhile (· ≠ 0) :: x_argv n (args.drop (MAX_X_ARG + 1))

/-- What follows a buffer: one more read, or the end of the process. -/
inductive After
  | read (s : Scan)
  | exit
  | stop (stop : Stop)

/-- The loop over a buffer, with the vectors that it executes. -/
def scan_request : Scan → Bytes → List (List Bytes) × After
  | s, [] => ([], .read s)
  | s, c :: buf =>
    if c = 0 then ([], .read s)
    else if c = 10 then
      match s.store 0 with
      | none => ([], .stop .fault)
      | some args =>
        let argv := x_argv (s.x_argc + 1) args
        if argv = [[]] then ([], .exit)
        else
          let (vectors, after) := scan_request ⟨0, 0, args⟩ buf
          (argv :: vectors, after)
    else
      match s.turn c with
      | .error stop => ([], .stop stop)
      | .ok s => scan_request s buf

/-! ### The process -/

inductive Phase
  | reading (s : Scan) (buf : Bytes)
  | exit
  | stop (stop : Stop)

/-- The process, what is still in its pipe, and the vectors that it has executed. -/
structure Config where
  phase : Phase
  pipe : Bytes
  executed : List (List Bytes)

def After.phase : After → Phase
  | read s => .reading s []
  | exit => .exit
  | stop e => .stop e

/-- A read may return any part of what is left in the pipe, as long as it has room. -/
inductive Step (max_msg : ℕ) : Config → Config → Prop
  | again {s : Scan} {buf chunk rest : Bytes} {executed : List (List Bytes)} (hne : chunk ≠ [])
      (hroom : (buf ++ chunk).length ≤ max_msg) (hlast : (buf ++ chunk).getLast? ≠ some 10) :
      Step max_msg ⟨.reading s buf, chunk ++ rest, executed⟩ ⟨.reading s (buf ++ chunk), rest, executed⟩
  | request {s : Scan} {buf chunk rest : Bytes} {executed : List (List Bytes)} (hne : chunk ≠ [])
      (hroom : (buf ++ chunk).length ≤ max_msg) (hlast : (buf ++ chunk).getLast? = some 10) :
      Step max_msg ⟨.reading s buf, chunk ++ rest, executed⟩
        ⟨(scan_request s (buf ++ chunk)).2.phase, rest, executed ++ (scan_request s (buf ++ chunk)).1⟩
  | full {s : Scan} {buf pipe : Bytes} {executed : List (List Bytes)} (hfull : max_msg ≤ buf.length) :
      Step max_msg ⟨.reading s buf, pipe, executed⟩ ⟨.stop (.die .read_of_0), pipe, executed⟩

/-- Where nothing moves: the process has ended, or it waits on an empty pipe. -/
def Settled (max_msg : ℕ) (c : Config) : Prop :=
  ∀ c', ¬ Step max_msg c c'

def Runs (max_msg : ℕ) : Config → Config → Prop :=
  Relation.ReflTransGen (Step max_msg)

/-- Between two requests, whatever the slots hold. -/
def Scan.Idle (s : Scan) : Prop :=
  s.x_argc = 0 ∧ s.arg = 0 ∧ s.args.length = sizeof_args

/-- Exactly the vector is executed, and the process waits for the next one. -/
structure Served (argv : List Bytes) (c : Config) : Prop where
  executed : c.executed = [argv]
  pipe : c.pipe = []
  phase : ∃ s, s.Idle ∧ c.phase = .reading s []

/-- An error without an execution. -/
structure Refusal (c : Config) : Prop where
  executed : c.executed = []
  phase : ∃ msg, c.phase = .stop (.die msg)

/-- However the line is read, the process executes the vector or reports an error. -/
def RequestRight (max_msg : ℕ) (argv : List Bytes) : Prop :=
  ∀ s, s.Idle → ∀ c, Runs max_msg ⟨.reading s [], request argv, []⟩ c → Settled max_msg c →
    Served argv c ∨ Refusal c

/-! ### A field in its slot -/

def feed (s : Scan) (text : Bytes) : Except Stop Scan :=
  text.foldlM Scan.turn s

/-- A field that is scanned to its end. -/
structure Plain (f : Bytes) : Prop where
  ascii : ∀ c ∈ f, c < 128
  length : f.length ≤ MAX_X_ARG + 1

theorem plain_iff (f : Bytes) : f.all (· < 128) ∧ f.length ≤ MAX_X_ARG + 1 ↔ Plain f := by
  simp only [List.all_eq_true, decide_eq_true_eq]
  exact ⟨fun h => ⟨h.1, h.2⟩, fun h => ⟨h.ascii, h.length⟩⟩

instance (f : Bytes) : Decidable (Plain f) :=
  decidable_of_iff _ (plain_iff f)

section field
variable {i : ℕ} {pre cur rest f : Bytes} {c : UInt8}

/-- In a slot, with these bytes of a field so far. -/
def inSlot (i : ℕ) (pre cur rest : Bytes) : Scan :=
  ⟨i, cur.length, pre ++ cur ++ rest⟩

theorem store_inSlot (hpre : pre.length = i * (MAX_X_ARG + 1)) (hi : i < MAX_X_ARGC) (r c : UInt8)
    (rest : Bytes) :
    (inSlot i pre cur (r :: rest)).store c = some (pre ++ cur ++ c :: rest) := by
  have hat : i * (MAX_X_ARG + 1) + cur.length = (pre ++ cur).length := by rw [List.length_append, hpre]
  have hin : (pre ++ cur).length < (pre ++ cur ++ r :: rest).length := by simp
  rw [Scan.store, inSlot, hat, if_pos ⟨hi, hin⟩, List.set_append_right _ _ le_rfl, Nat.sub_self,
    List.set_cons_zero]

theorem store_full (hpre : pre.length = i * (MAX_X_ARG + 1)) : (inSlot i pre cur []).store c = none := by
  rw [Scan.store, inSlot, if_neg]
  intro h
  simp only [List.append_nil, List.length_append, hpre, lt_self_iff_false, and_false] at h

theorem store_null (hi : ¬ i < MAX_X_ARGC) : (inSlot i pre cur rest).store c = none := by
  rw [Scan.store, inSlot, if_neg fun h => hi h.1]

theorem turn_byte (hpre : pre.length = i * (MAX_X_ARG + 1)) (hi : i < MAX_X_ARGC) (hc : c ≠ 9)
    (hascii : c < 128)
    (hcur : cur.length ≤ MAX_X_ARG) (r : UInt8) (rest : Bytes) :
    (inSlot i pre cur (r :: rest)).turn c = .ok (inSlot i pre (cur ++ [c]) rest) := by
  have harg : ¬ MAX_X_ARG < (inSlot i pre cur (r :: rest)).arg := not_lt.mpr hcur
  rw [Scan.turn, if_neg hc, if_neg (UInt8.not_le.mpr hascii), if_neg harg, store_inSlot hpre hi]
  simp [inSlot]

theorem turn_non_ascii {s : Scan} (hc : c ≠ 9) (hascii : ¬ c < 128) : s.turn c = .error
    (.die .non_ascii) := by
  rw [Scan.turn, if_neg hc, if_pos (UInt8.not_lt.mp hascii)]

theorem turn_too_big {s : Scan} (hc : c ≠ 9) (hascii : c < 128) (harg : MAX_X_ARG < s.arg) :
    s.turn c = .error (.die .arg_too_big) := by
  rw [Scan.turn, if_neg hc, if_neg (UInt8.not_le.mpr hascii), if_pos harg]

/-- The bytes of a field, from any of them on. -/
theorem feed_field (hpre : pre.length = i * (MAX_X_ARG + 1)) (hi : i < MAX_X_ARGC) (hf : 9 ∉ f)
    (hplain : Plain (cur ++ f)) (hrest : MAX_X_ARG + 1 ≤ cur.length + rest.length) :
    feed (inSlot i pre cur rest) f = .ok (inSlot i pre (cur ++ f) (rest.drop f.length)) := by
  induction f generalizing cur rest with
  | nil => simp [feed]; rfl
  | cons c f ih =>
    rw [List.mem_cons, not_or] at hf
    have hlength := hplain.length
    rw [List.length_append, List.length_cons] at hlength
    have hcur : cur.length ≤ MAX_X_ARG := by omega
    have hc : c < 128 := hplain.ascii c (by simp)
    cases rest with
    | nil =>
      rw [List.length_nil] at hrest
      omega
    | cons r rest =>
      have hplain' : Plain (cur ++ [c] ++ f) := by
        rw [List.append_assoc]
        exact hplain
      have hrest' : MAX_X_ARG + 1 ≤ (cur ++ [c]).length + rest.length := by
        rw [List.length_append, List.length_singleton]
        rw [List.length_cons] at hrest
        omega
      have hrun := ih hf.2 hplain' hrest'
      rw [feed, List.foldlM_cons, turn_byte hpre hi (Ne.symm hf.1) hc hcur]
      change feed _ f = _
      rw [hrun, List.append_assoc]
      rfl

theorem feed_dies (hpre : pre.length = i * (MAX_X_ARG + 1)) (hi : i < MAX_X_ARGC) (hf : 9 ∉ f)
    (hcur : Plain cur) (hnot : ¬ Plain (cur ++ f)) (hrest : MAX_X_ARG + 1 ≤ cur.length + rest.length) :
    ∃ msg, feed (inSlot i pre cur rest) f = .error (.die msg) := by
  induction f generalizing cur rest with
  | nil =>
    rw [List.append_nil] at hnot
    exact absurd hcur hnot
  | cons c f ih =>
    rw [List.mem_cons, not_or] at hf
    rw [feed, List.foldlM_cons]
    by_cases hascii : c < 128
    · by_cases hbig : MAX_X_ARG < cur.length
      · exact ⟨_, by rw [turn_too_big (Ne.symm hf.1) hascii hbig]; rfl⟩
      · cases rest with
        | nil =>
          rw [List.length_nil] at hrest
          omega
        | cons r rest =>
          rw [turn_byte hpre hi (Ne.symm hf.1) hascii (not_lt.mp hbig)]
          refine ih hf.2 ⟨?_, ?_⟩ ?_ ?_
          · rw [List.forall_mem_append, List.forall_mem_singleton]
            exact ⟨hcur.ascii, hascii⟩
          · rw [List.length_append, List.length_singleton]
            omega
          · rw [List.append_assoc]
            exact hnot
          · rw [List.length_append, List.length_singleton]
            rw [List.length_cons] at hrest
            omega
    · exact ⟨_, by rw [turn_non_ascii (Ne.symm hf.1) hascii]; rfl⟩

theorem feed_plain (hpre : pre.length = i * (MAX_X_ARG + 1)) (hi : i < MAX_X_ARGC) (hf : 9 ∉ f)
    (hplain : Plain f)
    (hrest : MAX_X_ARG + 1 ≤ rest.length) :
    feed (inSlot i pre [] rest) f = .ok (inSlot i pre f (rest.drop f.length)) :=
  @feed_field i pre [] rest f hpre hi hf hplain (by simpa using hrest)

theorem feed_not_plain (hpre : pre.length = i * (MAX_X_ARG + 1)) (hi : i < MAX_X_ARGC) (hf : 9 ∉ f)
    (hnot : ¬ Plain f) (hrest : MAX_X_ARG + 1 ≤ rest.length) :
    ∃ msg, feed (inSlot i pre [] rest) f = .error (.die msg) :=
  @feed_dies i pre [] rest f hpre hi hf ⟨by simp, by simp⟩ hnot (by simpa using hrest)

end field

/-! ### The fields of a text -/

inductive Fate
  | scanned
  | died
  | faulted
  deriving DecidableEq

/-- What becomes of the fields from a slot on. -/
def fate : ℕ → List Bytes → Fate
  | _, [] => .scanned
  | i, f :: fs =>
    if i < MAX_X_ARGC then
      if ¬ Plain f then .died
      else if fs = [] then .scanned
      else if i + 1 = MAX_X_ARGC ∧ f.length = MAX_X_ARG + 1 then .faulted
      else fate (i + 1) fs
    else
      match f with
      | [] => if fs = [] then .scanned else .faulted
      | c :: _ => if c < 128 then .faulted else .died

/-- There is room for the null behind the last of the fields. -/
def room : ℕ → List Bytes → Prop
  | _, [] => False
  | i, [f] => i + 1 < MAX_X_ARGC ∨ (i + 1 = MAX_X_ARGC ∧ f.length ≤ MAX_X_ARG)
  | i, _ :: f :: fs => room (i + 1) (f :: fs)

/-- The strings in the slots: a field that fills its slot has no null of its own. -/
def spill : List Bytes → List Bytes
  | [] => []
  | f :: fs => (if f.length = MAX_X_ARG + 1 then f ++ (spill fs).headD [] else f) :: spill fs

/-- The scan of the fields: a death, a fault, or the strings as they are when the null behind the
last field is written. -/
def Scanned (pre : Bytes) (i : ℕ) (fs : List Bytes) (size : ℕ) : Except Stop Scan → Prop
  | .error (.die _) => fate i fs = .died
  | .error .fault => fate i fs = .faulted
  | .ok s' => fate i fs = .scanned ∧ s'.x_argc + 1 = i + fs.length ∧
      ((room i fs ∧ ∃ m, s'.store 0 = some (pre ++ m) ∧ m.length = size ∧ x_argv fs.length m = spill fs) ∨
        (¬ room i fs ∧ s'.store 0 = none))

section fields
variable {i : ℕ} {pre m f : Bytes} {fs : List Bytes}

theorem takeWhile_null (hf : 0 ∉ f) (r : Bytes) : (f ++ 0 :: r).takeWhile (· ≠ 0) = f := by
  rw [List.takeWhile_append_of_pos fun c hc => by simpa using fun h : c = 0 => hf (h ▸ hc)]
  simp

theorem takeWhile_full (hf : 0 ∉ f) (r : Bytes) : (f ++ r).takeWhile (· ≠ 0) = f ++ r.takeWhile (· ≠ 0) :=
  List.takeWhile_append_of_pos fun c hc => by simpa using fun h : c = 0 => hf (h ▸ hc)

theorem feed_append (s : Scan) (a b : Bytes) : feed s (a ++ b) = (feed s a).bind fun s' => feed s' b :=
  List.foldlM_append

theorem feed_null {c : UInt8} (hi : ¬ i < MAX_X_ARGC) (hc : c ≠ 9) (text : Bytes) :
    feed (inSlot i pre [] m) (c :: text) = if c < 128 then .error .fault else .error (.die .non_ascii) := by
  rw [feed, List.foldlM_cons]
  split_ifs with hascii
  · have harg : ¬ MAX_X_ARG < (inSlot i pre [] m).arg := Nat.not_lt_zero _
    rw [Scan.turn, if_neg hc, if_neg (UInt8.not_le.mpr hascii), if_neg harg, store_null hi]
    rfl
  · rw [turn_non_ascii hc hascii]
    rfl

theorem slot_length (hi : i < MAX_X_ARGC) (hm : m.length = (MAX_X_ARGC - i) * (MAX_X_ARG + 1)) :
    MAX_X_ARG + 1 ≤ m.length := by
  rw [hm]
  exact Nat.le_mul_of_pos_left _ (Nat.sub_pos_of_lt hi)

theorem scanned_last (hpre : pre.length = i * (MAX_X_ARG + 1)) (hi : i ≤ MAX_X_ARGC)
    (hm : m.length = (MAX_X_ARGC - i) * (MAX_X_ARG + 1)) (htab : 9 ∉ f) (hnull : 0 ∉ f) :
    Scanned pre i [f] m.length (feed (inSlot i pre [] m) f) := by
  by_cases hlt : i < MAX_X_ARGC
  · have hslot := slot_length hlt hm
    by_cases hplain : Plain f
    · have hfate : fate i [f] = .scanned := by simp [fate, hlt, hplain]
      have hlength := hplain.length
      rw [feed_plain hpre hlt htab hplain hslot]
      refine ⟨hfate, rfl, ?_⟩
      cases hdrop : m.drop f.length with
      | nil =>
        have hle := List.drop_eq_nil_iff.mp hdrop
        refine .inr ⟨?_, store_full hpre⟩
        simp only [room, MAX_X_ARGC, MAX_X_ARG] at *
        omega
      | cons r rest =>
        have hrest : m.length = f.length + (rest.length + 1) := by
          have hdropped := congrArg List.length hdrop
          rw [List.length_drop, List.length_cons] at hdropped
          omega
        refine .inl ⟨?_, f ++ 0 :: rest, ?_, ?_, ?_⟩
        · simp only [room, MAX_X_ARGC, MAX_X_ARG] at *
          omega
        · rw [store_inSlot hpre hlt, List.append_assoc]
        · rw [List.length_append, List.length_cons, hrest]
        · rw [List.length_singleton, x_argv, takeWhile_null hnull]
          simp [x_argv, spill]
    · obtain ⟨msg, hrun⟩ := feed_not_plain hpre hlt htab hplain hslot
      rw [hrun]
      simp [Scanned, fate, hlt, hplain]
  · cases f with
    | nil =>
      refine ⟨by simp [fate, hlt], rfl, .inr ⟨?_, store_null hlt⟩⟩
      simp only [room, MAX_X_ARGC] at *
      omega
    | cons c f =>
      rw [List.mem_cons, not_or] at htab
      rw [feed_null hlt (Ne.symm htab.1)]
      split_ifs with hascii
      · simp [Scanned, fate, hlt, hascii]
      · simp [Scanned, fate, hlt, hascii]

/-- A field with the tab behind it. -/
theorem feed_tab (hpre : pre.length = i * (MAX_X_ARG + 1)) (hi : i < MAX_X_ARGC)
    (hm : m.length = (MAX_X_ARGC - i) * (MAX_X_ARG + 1)) (htab : 9 ∉ f) (hplain : Plain f) :
    (i + 1 = MAX_X_ARGC ∧ f.length = MAX_X_ARG + 1 ∧ feed (inSlot i pre [] m) (f ++ [9]) = .error .fault) ∨
      (¬ (i + 1 = MAX_X_ARGC ∧ f.length = MAX_X_ARG + 1) ∧ ∃ rest, m.length = f.length + (rest.length + 1) ∧
        feed (inSlot i pre [] m) (f ++ [9]) = .ok (inSlot (i + 1) (pre ++ (f ++ 0 :: rest).take
          (MAX_X_ARG + 1)) []
          ((f ++ 0 :: rest).drop (MAX_X_ARG + 1)))) := by
  have hslot := slot_length hi hm
  have hlength := hplain.length
  rw [feed_append, feed_plain hpre hi htab hplain hslot, Except.bind, feed, List.foldlM_cons, Scan.turn,
    if_pos rfl]
  cases hdrop : m.drop f.length with
  | nil =>
    have hle := List.drop_eq_nil_iff.mp hdrop
    rw [store_full hpre]
    refine .inl ⟨?_, ?_, rfl⟩
    · simp only [MAX_X_ARGC, MAX_X_ARG] at *
      omega
    · omega
  | cons r rest =>
    have hrest : m.length = f.length + (rest.length + 1) := by
      have hdropped := congrArg List.length hdrop
      rw [List.length_drop, List.length_cons] at hdropped
      omega
    have hroom : ¬ MAX_X_ARGC < (inSlot i pre f (r :: rest)).x_argc + 1 := not_lt.mpr hi
    rw [store_inSlot hpre hi]
    simp only [if_neg hroom]
    refine .inr ⟨?_, rest, hrest, ?_⟩
    · simp only [MAX_X_ARGC, MAX_X_ARG] at *
      omega
    · simp only [List.foldlM_nil, inSlot, List.append_nil, List.append_assoc, List.take_append_drop]
      rfl

theorem spill_cons (f : Bytes) (fs : List Bytes) :
    spill (f :: fs) = (if f.length = MAX_X_ARG + 1 then f ++ (spill fs).headD [] else f) :: spill fs :=
  rfl

/-- The string in front of the slots of the fields that follow. -/
theorem x_argv_cons (hnull : 0 ∉ f) (hlength : f.length ≤ MAX_X_ARG + 1) {rest m' : Bytes} {g : Bytes}
    {gs : List Bytes} (hslot : MAX_X_ARG + 1 ≤ (f ++ 0 :: rest).length)
    (hargv : x_argv (g :: gs).length m' = spill (g :: gs)) :
    x_argv (f :: g :: gs).length ((f ++ 0 :: rest).take (MAX_X_ARG + 1) ++ m') = spill (f :: g :: gs) := by
  have htake : ((f ++ 0 :: rest).take (MAX_X_ARG + 1)).length = MAX_X_ARG + 1 :=
    List.length_take_of_le hslot
  rw [List.length_cons, x_argv, List.drop_left' htake, hargv, spill_cons f, List.cons.injEq,
    and_iff_left rfl]
  by_cases hfull : f.length = MAX_X_ARG + 1
  · have hhead : (spill (g :: gs)).headD [] = m'.takeWhile (· ≠ 0) := by
      rw [← hargv]
      rfl
    rw [if_pos hfull, hhead, List.take_left' hfull, takeWhile_full hnull]
  · obtain ⟨k, hk⟩ : ∃ k, MAX_X_ARG + 1 = f.length + (k + 1) := ⟨MAX_X_ARG - f.length, by omega⟩
    rw [if_neg hfull, hk, List.take_length_add_append, List.take_succ_cons, List.append_assoc,
      List.cons_append,
      takeWhile_null hnull]

theorem fate_slot (hi : i < MAX_X_ARGC) : fate i (f :: fs) =
    if ¬ Plain f then .died
    else if fs = [] then .scanned
    else if i + 1 = MAX_X_ARGC ∧ f.length = MAX_X_ARG + 1 then .faulted
    else fate (i + 1) fs := by
  simp only [fate, if_pos hi]

theorem fate_next {g : Bytes} {gs : List Bytes} (hi : i < MAX_X_ARGC) (hplain : Plain f)
    (hnot : ¬ (i + 1 = MAX_X_ARGC ∧ f.length = MAX_X_ARG + 1)) :
    fate i (f :: g :: gs) = fate (i + 1) (g :: gs) := by
  rw [fate_slot hi, if_neg (not_not.mpr hplain), if_neg (List.cons_ne_nil _ _), if_neg hnot]

theorem scanned_next {pre' m' : Bytes} {g : Bytes} {gs : List Bytes} {size : ℕ} {result : Except Stop Scan}
    (hfate : fate i (f :: g :: gs) = fate (i + 1) (g :: gs))
    (hmemory : ∀ m₂, m₂.length = m'.length → x_argv (g :: gs).length m₂ = spill (g :: gs) →
      ∃ m₁, pre' ++ m₂ = pre ++ m₁ ∧ m₁.length = size ∧ x_argv (f :: g :: gs).length m₁ = spill
        (f :: g :: gs))
    (h : Scanned pre' (i + 1) (g :: gs) m'.length result) : Scanned pre i (f :: g :: gs) size result := by
  match result, h with
  | .error (.die _), h => exact hfate.trans h
  | .error .fault, h => exact hfate.trans h
  | .ok s, ⟨hscanned, hx, hroom⟩ =>
    refine ⟨hfate.trans hscanned, ?_, ?_⟩
    · rw [hx, List.length_cons, List.length_cons, List.length_cons]
      omega
    · rcases hroom with ⟨hroom, m₂, hstore, hlength, hargv⟩ | hroom
      · obtain ⟨m₁, hm, hlength', hargv'⟩ := hmemory m₂ hlength hargv
        exact .inl ⟨hroom, m₁, by rw [hstore, hm], hlength', hargv'⟩
      · exact .inr hroom

theorem scanned_fields (hne : fs ≠ []) (hpre : pre.length = i * (MAX_X_ARG + 1)) (hi : i ≤ MAX_X_ARGC)
    (hm : m.length = (MAX_X_ARGC - i) * (MAX_X_ARG + 1)) (hfs : ∀ f ∈ fs, 9 ∉ f ∧ 0 ∉ f) :
    Scanned pre i fs m.length (feed (inSlot i pre [] m) ([9].intercalate fs)) := by
  induction fs generalizing i pre m with
  | nil => exact absurd rfl hne
  | cons f fs ih =>
    rw [List.forall_mem_cons] at hfs
    obtain ⟨⟨htab, hnull⟩, hfs⟩ := hfs
    cases fs with
    | nil =>
      rw [List.intercalate_singleton]
      exact scanned_last hpre hi hm htab hnull
    | cons g gs =>
      rw [List.intercalate_cons_cons, feed_append]
      by_cases hlt : i < MAX_X_ARGC
      · by_cases hplain : Plain f
        · obtain ⟨hi', hlength, hrun⟩ | ⟨hnot, rest, hrest, hrun⟩ := feed_tab hpre hlt hm htab hplain
          · rw [hrun]
            simp [Except.bind, Scanned, fate, hlt, hplain, hi', hlength]
          · have hslot : MAX_X_ARG + 1 ≤ (f ++ 0 :: rest).length := by
              rw [List.length_append, List.length_cons, ← hrest]
              exact slot_length hlt hm
            have htake := List.length_take_of_le hslot
            have hmem : (f ++ 0 :: rest).length = m.length := by
              rw [List.length_append, List.length_cons, hrest]
            rw [hrun]
            refine scanned_next (fate_next hlt hplain hnot) ?_
              (ih (List.cons_ne_nil _ _) ?_ hlt ?_ hfs)
            · intro m₂ hlength hargv
              refine ⟨(f ++ 0 :: rest).take (MAX_X_ARG + 1) ++ m₂, List.append_assoc _ _ _, ?_, ?_⟩
              · rw [List.length_append, htake, hlength, List.length_drop, hmem]
                have hle := slot_length hlt hm
                omega
              · exact x_argv_cons hnull hplain.length hslot hargv
            · rw [List.length_append, htake, hpre, Nat.succ_mul]
            · rw [List.length_drop, hmem, hm, ← Nat.sub_one_mul, Nat.sub_sub]
        · obtain ⟨msg, hrun⟩ := feed_not_plain hpre hlt htab hplain (slot_length hlt hm)
          rw [feed_append, hrun]
          simp [Except.bind, Scanned, fate, hlt, hplain]
      · cases f with
        | nil =>
          have hrun : feed (inSlot i pre [] m) ([] ++ [9]) = .error .fault := by
            rw [List.nil_append, feed, List.foldlM_cons, Scan.turn, if_pos rfl, store_null hlt]
            rfl
          rw [hrun]
          simp [Except.bind, Scanned, fate, hlt]
        | cons c f =>
          rw [List.mem_cons, not_or] at htab
          rw [List.cons_append, feed_null hlt (Ne.symm htab.1)]
          split_ifs with hascii
          · simp [Except.bind, Scanned, fate, hlt, hascii]
          · simp [Except.bind, Scanned, fate, hlt, hascii]

end fields

/-! ### The scan of a buffer -/

section texts
variable {s s' : Scan} {args text head rest : Bytes} {fs : List Bytes}

theorem mem_splitOn {sep : UInt8} {xs f : Bytes} (h : f ∈ xs.splitOn sep) : sep ∉ f ∧ ∀ c ∈ f, c ∈ xs := by
  induction xs generalizing f with
  | nil =>
    rw [List.splitOn_nil, List.mem_singleton] at h
    simp [h]
  | cons x xs ih =>
    rw [List.splitOn_cons_eq_if_modifyHead] at h
    split_ifs at h with hx
    · rcases List.mem_cons.mp h with rfl | hmem
      · simp
      · exact ⟨(ih hmem).1, fun c hc => List.mem_cons_of_mem _ ((ih hmem).2 c hc)⟩
    · obtain ⟨g, gs, hsplit⟩ := List.exists_cons_of_ne_nil (List.splitOn_ne_nil sep xs)
      rw [hsplit, List.modifyHead_cons] at h
      rw [hsplit] at ih
      rcases List.mem_cons.mp h with rfl | hmem
      · obtain ⟨hsep, hsub⟩ := ih List.mem_cons_self
        refine ⟨?_, ?_⟩
        · rw [List.mem_cons, not_or]
          exact ⟨fun heq => hx (by simp [heq]), hsep⟩
        · rw [List.forall_mem_cons]
          exact ⟨List.mem_cons_self, fun c hc => List.mem_cons_of_mem _ (hsub c hc)⟩
      · obtain ⟨hsep, hsub⟩ := ih (List.mem_cons_of_mem _ hmem)
        exact ⟨hsep, fun c hc => List.mem_cons_of_mem _ (hsub c hc)⟩

/-- The scan of a text from between two requests. -/
theorem scanned_text (hargs : args.length = sizeof_args) (hnull : 0 ∉ text) :
    Scanned [] 0 (text.splitOn 9) sizeof_args (feed ⟨0, 0, args⟩ text) := by
  have h := @scanned_fields 0 [] args (text.splitOn 9) (List.splitOn_ne_nil 9 text) rfl
    (Nat.zero_le _) hargs
    fun f hf => ⟨(mem_splitOn hf).1, fun hmem => hnull ((mem_splitOn hf).2 0 hmem)⟩
  rw [List.intercalate_splitOn, hargs] at h
  exact h

theorem scan_request_append (hhead : ∀ c ∈ head, c ≠ 0 ∧ c ≠ 10) (s : Scan) (rest : Bytes) :
    scan_request s (head ++ rest) = match feed s head with
      | .error stop => ([], .stop stop)
      | .ok s' => scan_request s' rest := by
  induction head generalizing s with
  | nil => rfl
  | cons c head ih =>
    rw [List.forall_mem_cons] at hhead
    rw [List.cons_append, scan_request, if_neg hhead.1.1, if_neg hhead.1.2, feed, List.foldlM_cons]
    cases hturn : s.turn c with
    | error stop => rfl
    | ok s' => exact ih hhead.2 s'

/-- What a buffer has in front of its first null or newline. -/
def line_head (buf : Bytes) : Bytes :=
  buf.takeWhile fun c => c ≠ 0 ∧ c ≠ 10

theorem line_head_spec (buf : Bytes) : (∀ c ∈ line_head buf, c ≠ 0 ∧ c ≠ 10) ∧
    (buf = line_head buf ∨ ∃ r, buf = line_head buf ++ 0 :: r ∨ buf = line_head buf ++ 10 :: r) := by
  induction buf with
  | nil => exact ⟨by simp [line_head], .inl rfl⟩
  | cons c buf ih =>
    by_cases h0 : c = 0
    · subst h0
      exact ⟨by simp [line_head], .inr ⟨buf, .inl rfl⟩⟩
    · by_cases h10 : c = 10
      · subst h10
        exact ⟨by simp [line_head], .inr ⟨buf, .inr rfl⟩⟩
      · have hcons : line_head (c :: buf) = c :: line_head buf := by
          rw [line_head, List.takeWhile_cons_of_pos (by simp [h0, h10])]
          rfl
        rw [hcons, List.forall_mem_cons]
        refine ⟨⟨⟨h0, h10⟩, ih.1⟩, ?_⟩
        rcases ih.2 with heq | ⟨r, heq | heq⟩
        · exact .inl (congrArg (c :: ·) heq)
        · exact .inr ⟨r, .inl (congrArg (c :: ·) heq)⟩
        · exact .inr ⟨r, .inr (congrArg (c :: ·) heq)⟩

end texts

/-! ### Requests that are refused -/

/-- Behind this text the process dies before it executes anything, in whichever parts it reads the
rest: each time up to a newline, of which it scans what is in front of a null. -/
inductive Refused (max_msg : ℕ) : Bytes → Bytes → Prop
  | intro {text pipe : Bytes} (hne : pipe ≠ [])
      (hstop : ∀ buf rest, pipe = buf ++ rest → buf.getLast? = some 10 → buf.length ≤ max_msg →
        fate 0 ((text ++ line_head buf).splitOn 9) ≠ .died →
          fate 0 ((text ++ line_head buf).splitOn 9) = .scanned ∧ buf[(line_head buf).length]? = some 0)
      (hrest : ∀ buf rest, pipe = buf ++ rest → buf.getLast? = some 10 → buf.length ≤ max_msg →
        fate 0 ((text ++ line_head buf).splitOn 9) ≠ .died → Refused max_msg (text ++ line_head buf) rest) :
      Refused max_msg text pipe

/-! ### Runs -/

section runs
variable {max_msg : ℕ} {c c' : Config} {s : Scan} {args text pipe buf rest : Bytes} {argv : List Bytes}

theorem settled_stop {stop : Stop} (h : c.phase = .stop stop) : Settled max_msg c := by
  intro c' hstep
  cases hstep <;> cases h

theorem settled_exit (h : c.phase = .exit) : Settled max_msg c := by
  intro c' hstep
  cases hstep <;> cases h

theorem settled_waiting {executed : List (List Bytes)} (hmax : 0 < max_msg) :
    Settled max_msg ⟨.reading s [], [], executed⟩ := by
  intro c' hstep
  generalize hc : (⟨.reading s [], [], executed⟩ : Config) = c at hstep
  cases hstep with
  | again hne _ _ =>
    obtain ⟨-, hpipe, -⟩ := Config.mk.inj hc
    exact hne (List.append_eq_nil_iff.mp hpipe.symm).1
  | request hne _ _ =>
    obtain ⟨-, hpipe, -⟩ := Config.mk.inj hc
    exact hne (List.append_eq_nil_iff.mp hpipe.symm).1
  | full hfull =>
    obtain ⟨hphase, -, -⟩ := Config.mk.inj hc
    obtain ⟨-, rfl⟩ := Phase.reading.inj hphase
    exact absurd hfull (not_le.mpr hmax)

/-- As long as something is in the pipe, the process reads or has no more room. -/
theorem step_of_pipe (max_msg : ℕ) (hphase : c.phase = .reading s buf) (hpipe : c.pipe ≠ []) : ∃ c',
    Step max_msg c c' := by
  obtain ⟨_, pipe, executed⟩ := c
  obtain rfl : _ = _ := hphase
  obtain ⟨x, rest, rfl⟩ := List.exists_cons_of_ne_nil hpipe
  by_cases hfull : max_msg ≤ buf.length
  · exact ⟨_, .full hfull⟩
  · have hroom : (buf ++ [x]).length ≤ max_msg := by
      rw [List.length_append, List.length_singleton]
      omega
    by_cases hlast : (buf ++ [x]).getLast? = some 10
    · exact ⟨_, @Step.request max_msg s buf [x] rest executed (by simp) hroom hlast⟩
    · exact ⟨_, @Step.again max_msg s buf [x] rest executed (by simp) hroom hlast⟩

/-- What has been executed stays so, and a step takes from the pipe or ends the process. -/
theorem step_shrinks (h : Step max_msg c c') : c.executed <+: c'.executed ∧
    (c'.pipe.length < c.pipe.length ∨ c'.pipe.length = c.pipe.length ∧ ∃ stop, c'.phase = .stop stop) := by
  cases h with
  | again hne _ _ =>
    have hpos := List.length_pos_iff.mpr hne
    refine ⟨List.prefix_rfl, .inl ?_⟩
    simp only [List.length_append]
    omega
  | request hne _ _ =>
    have hpos := List.length_pos_iff.mpr hne
    refine ⟨List.prefix_append _ _, .inl ?_⟩
    simp only [List.length_append]
    omega
  | full _ => exact ⟨List.prefix_rfl, .inr ⟨rfl, _, rfl⟩⟩

theorem exists_settled (max_msg : ℕ) (c : Config) :
    ∃ c', Runs max_msg c c' ∧ Settled max_msg c' ∧ c.executed <+: c'.executed := by
  induction hn : c.pipe.length using Nat.strong_induction_on generalizing c with
  | _ n ih =>
    subst hn
    by_cases hsettled : Settled max_msg c
    · exact ⟨c, .refl, hsettled, List.prefix_rfl⟩
    · obtain ⟨c₁, hstep⟩ := not_forall_not.mp hsettled
      obtain ⟨hescaped, hless | ⟨-, stop, hstop⟩⟩ := step_shrinks hstep
      · obtain ⟨c₂, hruns, hsettled₂, hescaped₂⟩ := ih _ hless c₁ rfl
        exact ⟨c₂, .head hstep hruns, hsettled₂, hescaped.trans hescaped₂⟩
      · exact ⟨c₁, .single hstep, settled_stop hstop, hescaped⟩

/-! ### A refused request dies -/

/-- Nothing has been executed, and what is left is refused. -/
def Refusing (max_msg : ℕ) (args : Bytes) (c : Config) : Prop :=
  ∃ text s buf, 0 ∉ text ∧ feed ⟨0, 0, args⟩ text = .ok s ∧ c.phase = .reading s buf ∧ c.executed = [] ∧
    Refused max_msg text (buf ++ c.pipe) ∧ (buf ++ c.pipe).getLast? = some 10 ∧ buf.getLast? ≠ some 10

theorem Refused.ne_nil (h : Refused max_msg text pipe) : pipe ≠ [] := by
  cases h with
  | intro hne _ _ => exact hne

theorem no_null_append (htext : 0 ∉ text) (buf : Bytes) : 0 ∉ text ++ line_head buf := by
  rw [List.mem_append, not_or]
  exact ⟨htext, fun hmem => ((line_head_spec buf).1 0 hmem).1 rfl⟩

/-- A buffer has a stop behind its head, from which the scan goes on if it gets there. -/
theorem scan_buffer (hlast : buf.getLast? = some 10) (s : Scan) :
    ∃ c r, (c = 0 ∨ c = 10) ∧ buf = line_head buf ++ c :: r ∧
      scan_request s buf = match feed s (line_head buf) with
        | .error stop => ([], .stop stop)
        | .ok s' => scan_request s' (c :: r) := by
  obtain ⟨hhead, heq | ⟨r, heq | heq⟩⟩ := line_head_spec buf
  · have hmem : 10 ∈ buf := List.mem_of_getLast? hlast
    rw [heq] at hmem
    exact absurd rfl (hhead 10 hmem).2
  · exact ⟨0, r, .inl rfl, heq, (congrArg (scan_request s) heq).trans (scan_request_append hhead s _)⟩
  · exact ⟨10, r, .inr rfl, heq, (congrArg (scan_request s) heq).trans (scan_request_append hhead s _)⟩

/-- The scan goes on with the texts of both. -/
theorem scanned_further (hargs : args.length = sizeof_args) (htext : 0 ∉ text) (hfeed : feed ⟨0, 0,
    args⟩ text = .ok s)
    (buf : Bytes) : Scanned [] 0 ((text ++ line_head buf).splitOn 9) sizeof_args (feed s
      (line_head buf)) := by
  have h := scanned_text hargs (no_null_append htext buf)
  rw [feed_append, hfeed] at h
  exact h

theorem refusing_step (hargs : args.length = sizeof_args) (h : Refusing max_msg args c)
    (hstep : Step max_msg c c') : Refusing max_msg args c' ∨ Refusal c' := by
  obtain ⟨text, s, buf, htext, hfeed, hphase, hexecuted, hrefused, hlast, hbuf⟩ := h
  cases hstep with
  | full _ => exact .inr ⟨hexecuted, _, rfl⟩
  | @again s' buf' chunk rest executed hne hroom hlast' =>
    obtain ⟨rfl, rfl⟩ := Phase.reading.inj hphase
    refine .inl ⟨text, _, _, htext, hfeed, rfl, hexecuted, ?_, ?_, hlast'⟩
    · rw [List.append_assoc]
      exact hrefused
    · rw [List.append_assoc]
      exact hlast
  | @request s' buf' chunk rest executed hne hroom hlast' =>
    obtain ⟨rfl, rfl⟩ := Phase.reading.inj hphase
    obtain rfl : executed = [] := hexecuted
    have hpipe : buf' ++ (chunk ++ rest) = buf' ++ chunk ++ rest := (List.append_assoc _ _ _).symm
    rw [hpipe] at hrefused hlast
    have hscanned := scanned_further hargs htext hfeed (buf' ++ chunk)
    obtain ⟨c, r, -, hbuffer, hscan⟩ := scan_buffer hlast' s'
    obtain ⟨-, hstop, hrest⟩ := hrefused
    have hstop := hstop _ _ rfl hlast' hroom
    have hrest := hrest _ _ rfl hlast' hroom
    rw [hscan]
    match hresult : feed s' (line_head (buf' ++ chunk)), hscanned with
    | .error (.die msg), _ => exact .inr ⟨rfl, msg, rfl⟩
    | .error .fault, hfate =>
      have hscanned := (hstop (by rw [hfate]; decide)).1
      rw [hfate] at hscanned
      cases hscanned
    | .ok s₂, ⟨hfate, _⟩ =>
      have hlive : fate 0 ((text ++ line_head (buf' ++ chunk)).splitOn 9) ≠ .died := by
        rw [hfate]
        decide
      have hnull := (hstop hlive).2
      rw [hbuffer, List.getElem?_append_right (by rw [← hbuffer]), ← hbuffer, Nat.sub_self,
        List.getElem?_cons_zero,
        Option.some.injEq] at hnull
      subst hnull
      have hleft := hrest hlive
      refine .inl ⟨_, s₂, [], no_null_append htext _, ?_, ?_, ?_, hleft, ?_, nofun⟩
      · rw [feed_append, hfeed]
        exact hresult
      · change After.phase (scan_request s₂ (0 :: r)).2 = _
        rw [scan_request, if_pos rfl]
        rfl
      · change [] ++ (scan_request s₂ (0 :: r)).1 = _
        rw [scan_request, if_pos rfl]
        rfl
      · rw [List.getLast?_append_of_ne_nil _ hleft.ne_nil] at hlast
        exact hlast

theorem getLast?_request (argv : List Bytes) : (request argv).getLast? = some 10 :=
  List.getLast?_concat

theorem Scan.Idle.eq (h : s.Idle) : s = ⟨0, 0, s.args⟩ := by
  obtain ⟨x_argc, arg, args⟩ := s
  obtain ⟨rfl, rfl, -⟩ := h
  rfl

theorem refusing_runs (hargs : args.length = sizeof_args) (h : Refusing max_msg args c)
    (hruns : Runs max_msg c c') :
    Refusing max_msg args c' ∨ Refusal c' := by
  induction hruns with
  | refl => exact .inl h
  | tail _ hstep ih =>
    rcases ih with hrefusing | ⟨-, msg, hphase⟩
    · exact refusing_step hargs hrefusing hstep
    · exact absurd hstep (settled_stop hphase _)

theorem refused_right (h : Refused max_msg [] (request argv)) : RequestRight max_msg argv := by
  intro s hidle c hruns hsettled
  rw [hidle.eq] at hruns
  have hstart : Refusing max_msg s.args ⟨.reading ⟨0, 0, s.args⟩ [], request argv, []⟩ :=
    ⟨[], _, [], List.not_mem_nil, rfl, rfl, rfl, h, getLast?_request argv, nofun⟩
  rcases refusing_runs hidle.2.2 hstart hruns with ⟨text, s', buf, -, -, hphase, -, -, hlast,
    hbuf⟩ | hrefusal
  · have hpipe : c.pipe ≠ [] := by
      intro hnil
      rw [hnil, List.append_nil] at hlast
      exact hbuf hlast
    obtain ⟨c', hstep⟩ := step_of_pipe max_msg hphase hpipe
    exact absurd hstep (hsettled c')
  · exact .inr hrefusal

/-! ### A vector that fits is executed -/

/-- The arguments lie apart in the slots. -/
structure InSlots (argv : List Bytes) : Prop where
  apart : ∀ a ∈ argv, 9 ∉ a ∧ 10 ∉ a ∧ 0 ∉ a
  scanned : fate 0 argv = .scanned
  room : room 0 argv
  spill : spill argv = argv
  not_exit : argv ≠ [[]]

theorem InSlots.ne_nil (h : InSlots argv) : argv ≠ [] := by
  rintro rfl
  exact h.room

theorem mem_intercalate {c : UInt8} (hc : c ≠ 9) (h : c ∈ [9].intercalate argv) : ∃ a ∈ argv, c ∈ a := by
  induction argv with
  | nil => cases h
  | cons a argv ih =>
    cases argv with
    | nil =>
      rw [List.intercalate_singleton] at h
      exact ⟨a, List.mem_cons_self, h⟩
    | cons b argv =>
      rw [List.intercalate_cons_cons, List.mem_append, List.mem_append, List.mem_singleton] at h
      rcases h with (h | h) | h
      · exact ⟨a, List.mem_cons_self, h⟩
      · exact absurd h hc
      · obtain ⟨a', ha', hc'⟩ := ih h
        exact ⟨a', List.mem_cons_of_mem _ ha', hc'⟩

theorem line_of_apart (h : ∀ a ∈ argv, 9 ∉ a ∧ 10 ∉ a ∧ 0 ∉ a) : ∀ c ∈ [9].intercalate argv, c ≠ 0 ∧
    c ≠ 10 := by
  intro c hc
  by_cases htab : c = 9
  · subst htab
    decide
  · obtain ⟨a, ha, hmem⟩ := mem_intercalate htab hc
    obtain ⟨-, hnewline, hnull⟩ := h a ha
    exact ⟨fun heq => hnull (heq ▸ hmem), fun heq => hnewline (heq ▸ hmem)⟩

theorem InSlots.line (h : InSlots argv) : ∀ c ∈ [9].intercalate argv, c ≠ 0 ∧ c ≠ 10 :=
  line_of_apart h.apart

theorem scan_in_slots (hargs : args.length = sizeof_args) (h : InSlots argv) :
    ∃ m, m.length = sizeof_args ∧ scan_request ⟨0, 0, args⟩ (request argv) = ([argv], .read ⟨0, 0, m⟩) := by
  have hscanned := @scanned_fields 0 [] args argv h.ne_nil rfl (Nat.zero_le _) hargs
    fun a ha => ⟨(h.apart a ha).1, (h.apart a ha).2.2⟩
  rw [request, scan_request_append h.line]
  change Scanned [] 0 argv args.length (feed ⟨0, 0, args⟩ ([9].intercalate argv)) at hscanned
  match hresult : feed ⟨0, 0, args⟩ ([9].intercalate argv), hscanned with
  | .error (.die _), hfate =>
    rw [Scanned, h.scanned] at hfate
    cases hfate
  | .error .fault, hfate =>
    rw [Scanned, h.scanned] at hfate
    cases hfate
  | .ok s, ⟨_, hx, hroom⟩ =>
    obtain ⟨-, m, hstore, hlength, hargv⟩ := hroom.resolve_right fun hnot => hnot.1 h.room
    rw [Nat.zero_add] at hx
    refine ⟨m, hlength.trans hargs, ?_⟩
    rw [List.nil_append] at hstore
    rw [h.spill, ← hx] at hargv
    simp only [scan_request, hstore, hargv, if_neg h.not_exit, if_true]
    rfl

/-- A read up to a newline has read the line. -/
theorem rest_eq_nil (h : InSlots argv) (hlast : buf.getLast? = some 10) (heq : buf ++ rest = request argv) :
    rest = [] := by
  obtain hnil | ⟨r, x, rfl⟩ := List.eq_nil_or_concat rest
  · exact hnil
  · rw [List.concat_eq_append, ← List.append_assoc, request] at heq
    obtain ⟨hline, -⟩ := List.append_inj' heq rfl
    have hmem : 10 ∈ [9].intercalate argv := by
      rw [← hline]
      exact List.mem_append_left _ (List.mem_of_getLast? hlast)
    exact absurd rfl (h.line 10 hmem).2

/-- The line is being read, or has been. -/
def Serving (max_msg : ℕ) (argv : List Bytes) (c : Config) : Prop :=
  (∃ s buf, s.Idle ∧ c.phase = .reading s buf ∧ c.executed = [] ∧ buf ++ c.pipe = request argv ∧
    buf.getLast? ≠ some 10) ∨ Refusal c ∨ (0 < max_msg ∧ Served argv c)

theorem serving_step (hslots : InSlots argv) (h : Serving max_msg argv c) (hstep : Step max_msg c c') :
    Serving max_msg argv c' := by
  rcases h with ⟨s, buf, hidle, hphase, hexecuted, hline, hbuf⟩ | ⟨-, msg, hphase⟩ | ⟨hmax, hexecuted,
    hpipe, s, -, hphase⟩
  · cases hstep with
    | full _ => exact .inr (.inl ⟨hexecuted, _, rfl⟩)
    | @again s' buf' chunk rest executed hne hroom hlast =>
      obtain ⟨rfl, rfl⟩ := Phase.reading.inj hphase
      refine .inl ⟨_, _, hidle, rfl, hexecuted, ?_, hlast⟩
      rw [List.append_assoc]
      exact hline
    | @request s' buf' chunk rest executed hne hroom hlast =>
      obtain ⟨rfl, rfl⟩ := Phase.reading.inj hphase
      obtain rfl : executed = [] := hexecuted
      rw [← List.append_assoc] at hline
      obtain rfl := rest_eq_nil hslots hlast hline
      rw [List.append_nil] at hline
      obtain ⟨m, hm, hscan⟩ := scan_in_slots hidle.2.2 hslots
      rw [hline, hidle.eq, hscan]
      have hpos := List.length_pos_iff.mpr hne
      rw [List.length_append] at hroom
      exact .inr (.inr ⟨by omega, rfl, rfl, _, ⟨rfl, rfl, hm⟩, rfl⟩)
  · exact absurd hstep (settled_stop hphase _)
  · obtain ⟨phase, pipe, executed⟩ := c
    obtain rfl : pipe = [] := hpipe
    obtain rfl : phase = _ := hphase
    exact absurd hstep (settled_waiting hmax _)

theorem in_slots_right (hslots : InSlots argv) : RequestRight max_msg argv := by
  intro s hidle c hruns hsettled
  have hserving : Serving max_msg argv c := by
    clear hsettled
    induction hruns with
    | refl => exact .inl ⟨s, [], hidle, rfl, rfl, rfl, nofun⟩
    | tail _ hstep ih => exact serving_step hslots ih hstep
  rcases hserving with ⟨s', buf, -, hphase, -, hline, hbuf⟩ | hrefusal | ⟨-, hserved⟩
  · have hpipe : c.pipe ≠ [] := by
      intro hnil
      rw [hnil, List.append_nil] at hline
      rw [hline] at hbuf
      exact hbuf (getLast?_request argv)
    obtain ⟨c', hstep⟩ := step_of_pipe max_msg hphase hpipe
    exact absurd hstep (hsettled c')
  · exact .inr hrefusal
  · exact .inl hserved

/-! ### Every other vector goes wrong -/

theorem x_argv_no_null (n : ℕ) (args : Bytes) : ∀ a ∈ x_argv n args, 0 ∉ a := by
  induction n generalizing args with
  | zero => simp [x_argv]
  | succ n ih =>
    rw [x_argv, List.forall_mem_cons]
    refine ⟨fun hmem => ?_, ih _⟩
    simpa using List.mem_takeWhile_imp hmem

/-- What becomes of a buffer in which the scan does not die. -/
inductive Lives (args text buf : Bytes) : List (List Bytes) × After → Prop
  | fault : Lives args text buf ([], .stop .fault)
  | exit : Lives args text buf ([], .exit)
  | execute {argv : List Bytes} {vectors : List (List Bytes)} {after : After} (hnull : ∀ a ∈ argv, 0 ∉ a)
      (hnewline : buf[(line_head buf).length]? = some 10) (hexit : argv ≠ [[]])
      (hscanned : fate 0 ((text ++ line_head buf).splitOn 9) = .scanned)
      (hroom : room 0 ((text ++ line_head buf).splitOn 9))
      (hspill : argv = spill ((text ++ line_head buf).splitOn 9)) :
      Lives args text buf (argv :: vectors, after)
  | wait {s : Scan} (hnull : buf[(line_head buf).length]? = some 0)
      (hscanned : fate 0 ((text ++ line_head buf).splitOn 9) = .scanned)
      (hfeed : feed ⟨0, 0, args⟩ (text ++ line_head buf) = .ok s) : Lives args text buf ([], .read s)

theorem scan_lives (hargs : args.length = sizeof_args) (htext : 0 ∉ text) (hfeed : feed ⟨0, 0,
    args⟩ text = .ok s)
    (hlast : buf.getLast? = some 10) (hlive : fate 0 ((text ++ line_head buf).splitOn 9) ≠ .died) :
    Lives args text buf (scan_request s buf) := by
  have hscanned := scanned_further hargs htext hfeed buf
  obtain ⟨c, r, hc, hbuffer, hscan⟩ := scan_buffer hlast s
  have hat : buf[(line_head buf).length]? = some c := by
    rw [hbuffer, List.getElem?_append_right (by rw [← hbuffer]), ← hbuffer, Nat.sub_self,
      List.getElem?_cons_zero]
  rw [hscan]
  match hresult : feed s (line_head buf), hscanned with
  | .error (.die _), hfate => exact absurd hfate hlive
  | .error .fault, _ => exact .fault
  | .ok s', ⟨hfate, hx, hroom⟩ =>
    rw [Nat.zero_add] at hx
    rcases hc with rfl | rfl
    · change Lives args text buf (scan_request s' (0 :: r))
      rw [scan_request, if_pos rfl]
      refine .wait hat hfate ?_
      rw [feed_append, hfeed]
      exact hresult
    · change Lives args text buf (scan_request s' (10 :: r))
      rw [scan_request, if_neg (by decide), if_pos rfl]
      rcases hroom with ⟨hroom, m, hstore, -, hargv⟩ | ⟨-, hstore⟩
      · rw [hstore]
        by_cases hexit : x_argv (s'.x_argc + 1) m = [[]]
        · simp only [List.nil_append, hexit, if_true]
          exact .exit
        · simp only [List.nil_append, if_neg hexit]
          exact .execute (x_argv_no_null _ _) hat hexit hfate hroom (by rw [hx, hargv])
      · rw [hstore]
        exact .fault

/-- What can still go wrong has gone wrong, or the vector has no nulls. -/
def Escaped (c : Config) : Prop :=
  ¬ Refusal c ∧ ∀ argv vectors, c.executed = argv :: vectors → ∀ a ∈ argv, 0 ∉ a

theorem escaped_of_executed {vectors : List (List Bytes)} (hnull : ∀ a ∈ argv, 0 ∉ a)
    (h : argv :: vectors <+: c.executed) : Escaped c := by
  obtain ⟨more, hmore⟩ := h
  refine ⟨fun hrefusal => ?_, fun argv' vectors' hexecuted => ?_⟩
  · rw [hrefusal.executed] at hmore
    exact List.cons_ne_nil _ _ hmore
  · rw [hexecuted, List.cons_append] at hmore
    rw [← (List.cons.inj hmore).1]
    exact hnull

theorem escaped_of_phase (hexecuted : c.executed = []) (hphase : ∀ msg, c.phase ≠ .stop
    (.die msg)) : Escaped c := by
  refine ⟨fun ⟨_, msg, h⟩ => hphase msg h, fun argv vectors h => ?_⟩
  rw [hexecuted] at h
  cases h

theorem request_step (hlast : buf.getLast? = some 10) (hroom : buf.length ≤ max_msg) (s : Scan)
    (rest : Bytes) :
    Step max_msg ⟨.reading s [], buf ++ rest, []⟩ ⟨(scan_request s buf).2.phase, rest,
      (scan_request s buf).1⟩ := by
  have hne : buf ≠ [] := by
    rintro rfl
    cases hlast
  exact @Step.request max_msg s [] buf rest [] hne hroom hlast

/-- A request that is not refused can be read so that the process does not report an error. -/
theorem escape (hmax : 0 < max_msg) (hargs : args.length = sizeof_args) (htext : 0 ∉ text)
    (hfeed : feed ⟨0, 0, args⟩ text = .ok s) (hpipe : pipe ≠ [] → pipe.getLast? = some 10)
    (hnot : ¬ Refused max_msg text pipe) :
    ∃ c, Runs max_msg ⟨.reading s [], pipe, []⟩ c ∧ Settled max_msg c ∧ Escaped c := by
  induction hn : pipe.length using Nat.strong_induction_on generalizing pipe text s with
  | _ n ih =>
    subst hn
    by_cases hne : pipe = []
    · subst hne
      exact ⟨_, .refl, settled_waiting hmax, escaped_of_phase rfl (by simp)⟩
    · obtain ⟨buf, rest, rfl, hlast, hroom, hlive, hnext⟩ : ∃ buf rest, pipe = buf ++ rest ∧
      buf.getLast? = some 10 ∧
          buf.length ≤ max_msg ∧ fate 0 ((text ++ line_head buf).splitOn 9) ≠ .died ∧
          (fate 0 ((text ++ line_head buf).splitOn 9) = .scanned → buf[(line_head buf).length]? = some 0 →
            ¬ Refused max_msg (text ++ line_head buf) rest) := by
        by_contra hall
        push Not at hall
        refine hnot ⟨hne, fun buf rest heq hlast hroom hlive => ?_,
          fun buf rest heq hlast hroom hlive => ?_⟩
        · obtain ⟨hscanned, hnull, -⟩ := hall buf rest heq hlast hroom hlive
          exact ⟨hscanned, hnull⟩
        · exact (hall buf rest heq hlast hroom hlive).2.2
      have hstep := request_step hlast hroom s rest
      match hresult : scan_request s buf, scan_lives hargs htext hfeed hlast hlive with
      | _, .fault =>
        rw [hresult] at hstep
        exact ⟨_, .single hstep, settled_stop rfl, escaped_of_phase rfl (by simp [After.phase])⟩
      | _, .exit =>
        rw [hresult] at hstep
        exact ⟨_, .single hstep, settled_exit rfl, escaped_of_phase rfl (by simp [After.phase])⟩
      | _, .execute hnull _ _ _ _ _ =>
        rw [hresult] at hstep
        obtain ⟨c, hruns, hsettled, hescaped⟩ := exists_settled max_msg _
        exact ⟨c, .head hstep hruns, hsettled, escaped_of_executed hnull hescaped⟩
      | _, .wait hnull hscanned hfeed' =>
        rw [hresult] at hstep
        have hpos : 0 < buf.length := List.length_pos_of_mem (List.mem_of_getLast? hlast)
        have hless : rest.length < (buf ++ rest).length := by
          rw [List.length_append]
          omega
        have hrest : rest ≠ [] → rest.getLast? = some 10 := by
          intro hrest
          rw [← List.getLast?_append_of_ne_nil buf hrest]
          exact hpipe hne
        obtain ⟨c, hruns, hsettled, hescaped⟩ := ih _ hless (no_null_append htext buf) hfeed' hrest
          (hnext hscanned hnull) rfl
        exact ⟨c, .head hstep hruns, hsettled, hescaped⟩

theorem refused_of_short (h : max_msg = 0) (argv : List Bytes) : Refused max_msg [] (request argv) := by
  subst h
  have hempty : ∀ buf : Bytes, buf.getLast? = some 10 → ¬ buf.length ≤ 0 := by
    intro buf hlast hle
    rw [List.length_eq_zero_iff.mp (Nat.le_zero.mp hle)] at hlast
    cases hlast
  exact ⟨by simp [request], fun buf _ _ hlast hroom => absurd hroom (hempty buf hlast),
    fun buf _ _ hlast hroom => absurd hroom (hempty buf hlast)⟩

theorem line_head_append (hhead : ∀ c ∈ text, c ≠ 0 ∧ c ≠ 10) (rest : Bytes) : line_head
    (text ++ 10 :: rest) = text := by
  rw [line_head, List.takeWhile_append_of_pos fun c hc => by simpa using hhead c hc]
  simp

/-- Every read that ends with a newline has read the first line. -/
theorem first_line (hhead : ∀ c ∈ text, c ≠ 0 ∧ c ≠ 10) (heq : text ++ 10 :: pipe = buf ++ rest)
    (hlast : buf.getLast? = some 10) : line_head buf = text ∧ text.length < buf.length := by
  have hmem := List.mem_of_getLast? hlast
  rcases List.append_eq_append_iff.mp heq with ⟨more, rfl, hmore⟩ | ⟨more, rfl, -⟩
  · cases more with
    | nil =>
      rw [List.append_nil] at hmem
      exact absurd rfl (hhead 10 hmem).2
    | cons c more =>
      obtain ⟨rfl, -⟩ := List.cons.inj hmore
      exact ⟨line_head_append hhead more, by simp⟩
  · exact absurd rfl (hhead 10 (List.mem_append_left _ hmem)).2

theorem refused_of_long (hhead : ∀ c ∈ text, c ≠ 0 ∧ c ≠ 10) (hlong : max_msg ≤ text.length) :
    Refused max_msg [] (text ++ 10 :: pipe) := by
  have hroom : ∀ buf rest, text ++ 10 :: pipe = buf ++ rest → buf.getLast? = some 10 →
    ¬ buf.length ≤ max_msg :=
    fun buf rest heq hlast hle => absurd (first_line hhead heq hlast).2 (by omega)
  exact ⟨by simp, fun buf rest heq hlast hle => absurd hle (hroom buf rest heq hlast),
    fun buf rest heq hlast hle => absurd hle (hroom buf rest heq hlast)⟩

theorem refused_of_died (hhead : ∀ c ∈ text, c ≠ 0 ∧ c ≠ 10) (hdied : fate 0 (text.splitOn 9) = .died) :
    Refused max_msg [] (text ++ 10 :: pipe) := by
  have hfate : ∀ buf rest, text ++ 10 :: pipe = buf ++ rest → buf.getLast? = some 10 →
      fate 0 (([] ++ line_head buf).splitOn 9) = .died := by
    intro buf rest heq hlast
    rw [(first_line hhead heq hlast).1]
    exact hdied
  exact ⟨by simp, fun buf rest heq hlast _ hlive => absurd (hfate buf rest heq hlast) hlive,
    fun buf rest heq hlast _ hlive => absurd (hfate buf rest heq hlast) hlive⟩

theorem mem_spill {fs : List Bytes} {a : Bytes} (h : a ∈ spill fs) : ∀ c ∈ a, ∃ f ∈ fs, c ∈ f := by
  induction fs generalizing a with
  | nil => cases h
  | cons f fs ih =>
    intro c hc
    have hlater : ∀ a ∈ spill fs, c ∈ a → ∃ g ∈ f :: fs, c ∈ g := by
      intro a ha hc
      obtain ⟨g, hg, hmem⟩ := ih ha c hc
      exact ⟨g, List.mem_cons_of_mem _ hg, hmem⟩
    rw [spill_cons, List.mem_cons] at h
    rcases h with rfl | h
    · split_ifs at hc with hfull
      · rcases List.mem_append.mp hc with hc | hc
        · exact ⟨f, List.mem_cons_self, hc⟩
        · cases hspill : spill fs with
          | nil =>
            rw [hspill] at hc
            cases hc
          | cons b bs =>
            rw [hspill] at hc hlater
            exact hlater b List.mem_cons_self hc
      · exact ⟨f, List.mem_cons_self, hc⟩
    · exact hlater a h hc

theorem request_no_null (h : ∀ a ∈ argv, 0 ∉ a) : 0 ∉ request argv := by
  rw [request, List.mem_append, not_or]
  refine ⟨fun hmem => ?_, by decide⟩
  obtain ⟨a, ha, hnull⟩ := mem_intercalate (by decide) hmem
  exact h a ha hnull

/-- A vector that is executed from the first line of its own request lies apart in the slots. -/
theorem in_slots_of_spill (hhead : ∀ c ∈ text, c ≠ 0 ∧ c ≠ 10) (hline : request argv = text ++ 10 :: pipe)
    (hexit : argv ≠ [[]]) (hscanned : fate 0 (text.splitOn 9) = .scanned) (hroom : room 0 (text.splitOn 9))
    (hspill : argv = spill (text.splitOn 9)) : InSlots argv := by
  have happart : ∀ a ∈ argv, 9 ∉ a ∧ 10 ∉ a ∧ 0 ∉ a := by
    intro a ha
    rw [hspill] at ha
    have hfield : ∀ c ∈ a, c ≠ 9 ∧ c ≠ 0 ∧ c ≠ 10 := by
      intro c hc
      obtain ⟨f, hf, hmem⟩ := mem_spill ha c hc
      obtain ⟨htab, hsub⟩ := mem_splitOn hf
      exact ⟨fun heq => htab (heq ▸ hmem), hhead c (hsub c hmem)⟩
    exact ⟨fun h => (hfield 9 h).1 rfl, fun h => (hfield 10 h).2.2 rfl, fun h => (hfield 0 h).2.1 rfl⟩
  have hne : argv ≠ [] := by
    rintro rfl
    obtain ⟨f, fs, hsplit⟩ := List.exists_cons_of_ne_nil (List.splitOn_ne_nil 9 text)
    rw [hsplit, spill_cons] at hspill
    cases hspill
  have htext : text = [9].intercalate argv := by
    have hown := line_head_append (line_of_apart happart) []
    have hfirst := line_head_append hhead pipe
    rw [← hline, request, hown] at hfirst
    exact hfirst.symm
  have hfields : text.splitOn 9 = argv := by
    rw [htext]
    exact List.splitOn_intercalate _ (fun a ha => (happart a ha).1) hne
  rw [hfields] at hscanned hroom hspill
  exact ⟨happart, hscanned, hroom, hspill.symm, hexit⟩

theorem executed_eq (hright : RequestRight max_msg argv) (hidle : s.Idle)
    (hruns : Runs max_msg ⟨.reading s [], request argv, []⟩ c)
    {argv' : List Bytes} {vectors : List (List Bytes)}
      (hexecuted : c.executed = argv' :: vectors) : argv' = argv := by
  obtain ⟨c', hruns', hsettled, more, hmore⟩ := exists_settled max_msg c
  rw [hexecuted, List.cons_append] at hmore
  rcases hright s hidle c' (hruns.trans hruns') hsettled with hserved | hrefusal
  · rw [hserved.executed] at hmore
    exact (List.cons.inj hmore).1
  · rw [hrefusal.executed] at hmore
    cases hmore

theorem right_in_slots (hright : RequestRight max_msg argv) (hnot : ¬ Refused max_msg [] (request argv)) :
    InSlots argv := by
  have hmax : 0 < max_msg := Nat.pos_of_ne_zero fun h => hnot (refused_of_short h argv)
  have hargs : (List.replicate sizeof_args (0 : UInt8)).length = sizeof_args := List.length_replicate
  have hidle : Scan.Idle ⟨0, 0, List.replicate sizeof_args 0⟩ := ⟨rfl, rfl, hargs⟩
  obtain ⟨c, hruns, hsettled, hrefusal, hexecuted⟩ :=
    @escape max_msg _ _ _ (request argv) hmax hargs List.not_mem_nil rfl
      (fun _ => getLast?_request argv) hnot
  have hserved := (hright _ hidle c hruns hsettled).resolve_right hrefusal
  have hnull := request_no_null (hexecuted argv [] hserved.executed)
  obtain ⟨hhead, heq | ⟨rest, heq | heq⟩⟩ := line_head_spec (request argv)
  · have hmem := List.mem_of_getLast? (getLast?_request argv)
    rw [heq] at hmem
    exact absurd rfl (hhead 10 hmem).2
  · refine absurd ?_ hnull
    rw [heq]
    simp
  · generalize line_head (request argv) = text at hhead heq
    rw [heq] at hnot
    have hroom : (text ++ [10]).length ≤ max_msg := by
      rw [List.length_append, List.length_singleton]
      exact not_le.mp fun hle => hnot (refused_of_long hhead hle)
    have hlast : (text ++ [10]).getLast? = some (10 : UInt8) := List.getLast?_concat
    have hline : line_head (text ++ [10]) = text := (first_line hhead (List.append_nil _).symm hlast).1
    have hlive : fate 0 (([] ++ line_head (text ++ [10])).splitOn 9) ≠ .died := by
      rw [hline]
      exact fun hdied => hnot (refused_of_died hhead hdied)
    have hstep := request_step hlast hroom ⟨0, 0, List.replicate sizeof_args 0⟩ rest
    have hpipe : text ++ [10] ++ rest = request argv := by
      rw [heq, List.append_assoc]
      rfl
    rw [hpipe] at hstep
    match hresult : scan_request ⟨0, 0, List.replicate sizeof_args 0⟩ (text ++ [10]),
        scan_lives hargs List.not_mem_nil rfl hlast hlive with
    | _, .fault =>
      rw [hresult] at hstep
      rcases hright _ hidle _ (.single hstep) (settled_stop rfl) with hserved | ⟨-, msg, hphase⟩
      · cases hserved.executed
      · cases hphase
    | _, .exit =>
      rw [hresult] at hstep
      rcases hright _ hidle _ (.single hstep) (settled_exit rfl) with hserved | ⟨-, msg, hphase⟩
      · cases hserved.executed
      · cases hphase
    | _, .wait hstop _ _ =>
      rw [hline, List.getElem?_append_right le_rfl, Nat.sub_self] at hstop
      cases hstop
    | _, .execute _ _ hexit hscanned hroom hspill =>
      rw [hresult] at hstep
      rw [hline, List.nil_append] at hscanned hroom hspill
      obtain rfl := executed_eq hright hidle (.single hstep) rfl
      exact in_slots_of_spill hhead heq hexit hscanned hroom hspill

end runs

/-! ### The vectors that fit -/

/-- No argument has a byte of the line's own, there are no more of them than slots, and a slot has
no room for the null of the longest ones, which the next argument must give if it is empty. -/
structure Fits (argv : List Bytes) : Prop where
  apart : ∀ a ∈ argv, 9 ∉ a ∧ 10 ∉ a ∧ 0 ∉ a
  ascii : ∀ a ∈ argv, ∀ c ∈ a, c < 128
  length : ∀ a ∈ argv, a.length ≤ MAX_X_ARG + 1
  count : argv.length ≤ MAX_X_ARGC
  full : ∀ a rest, a :: rest <:+ argv → a.length = MAX_X_ARG + 1 →
    rest.headD [] = [] ∧ (rest = [] → argv.length < MAX_X_ARGC)
  not_exit : argv ≠ [[]]

section fits
variable {i : ℕ} {f : Bytes} {fs argv : List Bytes}

theorem room_iff (hi : i + fs.length ≤ MAX_X_ARGC) (hne : fs ≠ []) (hfs : ∀ f ∈ fs,
    f.length ≤ MAX_X_ARG + 1) :
    room i fs ↔ ∀ f, [f] <:+ fs → f.length = MAX_X_ARG + 1 → i + fs.length < MAX_X_ARGC := by
  induction fs generalizing i with
  | nil => exact absurd rfl hne
  | cons f fs ih =>
    cases fs with
    | nil =>
      have hlength := hfs f List.mem_cons_self
      have hsuffix : (∀ g, [g] <:+ [f] → g.length = MAX_X_ARG + 1 → i + [f].length < MAX_X_ARGC) ↔
          (f.length = MAX_X_ARG + 1 → i + 1 < MAX_X_ARGC) := by
        refine ⟨fun h => h f List.suffix_rfl, fun h g hg => ?_⟩
        obtain rfl := List.singleton_inj.mp (hg.eq_of_length rfl)
        exact h
      rw [hsuffix, room]
      rw [List.length_singleton] at hi
      omega
    | cons g gs =>
      rw [List.length_cons, ← Nat.add_assoc, Nat.add_right_comm] at hi ⊢
      rw [room, ih hi (List.cons_ne_nil _ _) fun f hf => hfs f (List.mem_cons_of_mem _ hf)]
      refine forall_congr' fun a => imp_congr_left ⟨fun h => h.trans (List.suffix_cons _ _), fun h => ?_⟩
      rcases List.suffix_cons_iff.mp h with heq | h
      · cases heq
      · exact h

theorem room.count (h : room i fs) : i + fs.length ≤ MAX_X_ARGC := by
  induction fs generalizing i with
  | nil => exact absurd h not_false
  | cons f fs ih =>
    cases fs with
    | nil =>
      simp only [room] at h
      rw [List.length_singleton]
      omega
    | cons g gs =>
      have hcount := ih h
      rw [List.length_cons]
      omega

theorem fate_eq_scanned (hroom : room i fs) : fate i fs = .scanned ↔ ∀ f ∈ fs, Plain f := by
  induction fs generalizing i with
  | nil => exact absurd hroom not_false
  | cons f fs ih =>
    cases fs with
    | nil =>
      have hi : i < MAX_X_ARGC := by
        simp only [room] at hroom
        omega
      rw [fate_slot hi, List.forall_mem_singleton]
      by_cases hplain : Plain f <;> simp [hplain]
    | cons g gs =>
      have hcount := room.count hroom
      rw [List.length_cons, List.length_cons] at hcount
      have hi : i < MAX_X_ARGC := by omega
      have hnot : ¬ (i + 1 = MAX_X_ARGC ∧ f.length = MAX_X_ARG + 1) := by omega
      rw [List.forall_mem_cons]
      by_cases hplain : Plain f
      · rw [fate_next hi hplain hnot, ih hroom, and_iff_right hplain]
      · rw [fate_slot hi, if_pos hplain]
        simp [hplain]

/-- A field that fills its slot has the next one for its end. -/
theorem spill_eq_iff : spill fs = fs ↔
    ∀ f rest, f :: rest <:+ fs → f.length = MAX_X_ARG + 1 → rest.headD [] = [] := by
  induction fs with
  | nil => simp [spill]
  | cons f fs ih =>
    have hsuffix : (∀ g rest, g :: rest <:+ f :: fs → g.length = MAX_X_ARG + 1 → rest.headD [] = []) ↔
        (f.length = MAX_X_ARG + 1 → fs.headD [] = []) ∧
          ∀ g rest, g :: rest <:+ fs → g.length = MAX_X_ARG + 1 → rest.headD [] = [] := by
      simp only [List.suffix_cons_iff, List.cons.injEq, or_imp, forall_and, and_imp,
        forall_eq_apply_imp_iff, forall_eq]
    rw [spill_cons, List.cons.injEq, and_comm, ih, hsuffix, and_comm, and_congr_left_iff]
    intro hfs
    rw [ih.mpr hfs]
    split_ifs with hfull
    · rw [List.append_right_eq_self]
      exact ⟨fun h _ => h, fun h => h hfull⟩
    · exact ⟨fun _ h => absurd h hfull, fun _ => rfl⟩

theorem InSlots.fits (h : InSlots argv) : Fits argv := by
  have hplain := (fate_eq_scanned h.room).mp h.scanned
  have hcount := h.room.count
  rw [Nat.zero_add] at hcount
  refine ⟨h.apart, fun a ha => (hplain a ha).ascii, fun a ha => (hplain a ha).length, hcount,
    fun a rest ha hfull => ⟨?_, ?_⟩,
    h.not_exit⟩
  · exact spill_eq_iff.mp h.spill a rest ha hfull
  · rintro rfl
    rw [← Nat.zero_add argv.length] at hcount ⊢
    exact (room_iff hcount h.ne_nil fun a ha => (hplain a ha).length).mp h.room a ha hfull

theorem Fits.inSlots (hne : argv ≠ []) (h : Fits argv) : InSlots argv := by
  have hcount := h.count
  rw [← Nat.zero_add argv.length] at hcount
  have hroom : room 0 argv := by
    refine (room_iff hcount hne h.length).mpr fun a ha hfull => ?_
    rw [Nat.zero_add]
    exact (h.full a [] ha hfull).2 rfl
  refine ⟨h.apart, ?_, hroom, ?_, h.not_exit⟩
  · exact (fate_eq_scanned hroom).mpr fun a ha => ⟨h.ascii a ha, h.length a ha⟩
  · exact spill_eq_iff.mpr fun a rest ha hfull => (h.full a rest ha hfull).1

end fits

/-- Every vector of a call that fits is executed as it is, and of the others only those whose
request is refused are safe. -/
theorem requests_right_iff (max_msg : ℕ) (cmd : Command) (argv : List Bytes) :
    RequestRight max_msg (cmd.xargv argv) ↔
      Fits (cmd.xargv argv) ∨ Refused max_msg [] (request (cmd.xargv argv)) := by
  have hne : cmd.xargv argv ≠ [] := List.cons_ne_nil _ _
  constructor
  · intro hright
    by_cases hrefused : Refused max_msg [] (request (cmd.xargv argv))
    · exact .inr hrefused
    · exact .inl (right_in_slots hright hrefused).fits
  · rintro (hfits | hrefused)
    · exact in_slots_right (hfits.inSlots hne)
    · exact refused_right hrefused

/-- An argument of 257 bytes leaves no room for its null, and runs into the one behind it. -/
theorem long_argument_spills :
    ¬ RequestRight 512 (Command.xargv ⟨[47, 98], []⟩ [List.replicate 257 97, [98]]) := by
  intro hright
  have hslots := right_in_slots hright fun hrefused => by
    obtain ⟨-, hstop, -⟩ := hrefused
    have hnull := (hstop _ [] (List.append_nil _).symm (getLast?_request _) (by decide +kernel)
      (by decide +kernel)).2
    revert hnull
    decide +kernel
  have hspill := hslots.spill
  revert hspill
  decide +kernel

end Blobio.ExecVectors
