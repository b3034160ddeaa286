import Blobio.AppendBrr
import Blobio.LogAcceptance
import Blobio.QueryArgs

/-! `append-xdr`: a process execution record made of the arguments of a command line. -/
namespace Blobio.AppendXdr
open QueryArgs (lower_or_digit_iff)

/-- What the program uses of the library. A concatenation leaves out what does not fit in
its target, a null included. -/
structure Library where
  /-- `JMSCOTT_ATOMIC_WRITE_SIZE` -/
  max_xdr : ℕ
  max_xdr_pos : 0 < max_xdr
  strcat2 : ℕ → Text → Text → Text
  strcat2_eq : ∀ size a b, 0 < size → strcat2 size a b = (a ++ b).take (size - 1)
  a2ui63 : Text → Except Text ℕ
  a2ui63_ok : ∀ t n, a2ui63 t = .ok n → Chars digits 1 19 t ∧ Nat.ofDigitChars 10 t 0 = n
  /-- The error of a text that is no udig. -/
  frisk_udig : Text → Option Text
  frisk_udig_ok : ∀ t, frisk_udig t = none → UdigSyntax t

variable (lib : Library)

/-- The record so far, with the argument and a tab behind it. -/
def arg_cat (arg xdr : Text) : Text :=
  xdr ++ lib.strcat2 (lib.max_xdr - xdr.length) arg ['\t']

def arg_uint64 (what arg xdr : Text) : OrDie Text := do
  OrDie.unless (arg.length ≠ 0) ["empty arg".toList, what]
  OrDie.unless (arg.length ≤ 20) ["arg > 20 chars".toList, what]
  OrDie.unless (arg.all isdigit) ["char not digit".toList, what]
  return arg_cat lib arg xdr

def arg_exit_class (word arg xdr : Text) : OrDie Text := do
  OrDie.unless (word = arg) ["unknown exit class".toList, arg]
  return arg_cat lib arg xdr

def arg_duration (what arg xdr : Text) : OrDie Text := do
  OrDie.unless (arg.all fun c => isdigit c || c = '.') ["can not parse duration".toList, what, arg]
  return arg_cat lib arg xdr

/-- The switch on the length of the exit class; its case for three has no default. -/
def exit_class_cat (exit_class xdr : Text) : OrDie Text :=
  match exit_class.length with
  | 2 => arg_exit_class lib "OK".toList exit_class xdr
  | 3 =>
    if exit_class.head? = some 'E' then arg_exit_class lib "ERR".toList exit_class xdr
    else if exit_class.head? = some 'S' then arg_exit_class lib "SIG".toList exit_class xdr
    else .ok xdr
  | 4 => arg_exit_class lib "NOPS".toList exit_class xdr
  | _ => .error ["unknown exit class".toList, exit_class]

/-- The arguments behind the path of the log. -/
structure Args where
  start_time : Text
  flow_seq : Text
  command_name : Text
  process_id : Text
  exit_class : Text
  blob : Text
  exit_code : Text
  wall_duration : Text
  user_seconds : Text
  sys_seconds : Text

def Args.list (a : Args) : List Text :=
  [a.start_time, a.flow_seq, a.command_name, a.process_id, a.exit_class, a.blob, a.exit_code, a.wall_duration,
    a.user_seconds, a.sys_seconds]

def is_command_char (c : Char) : Bool := isdigit c || islower c || c = '_'

def a2ui63 (t : Text) (msgs : Text → List Text) : OrDie ℕ :=
  match lib.a2ui63 t with
  | .error err => .error (msgs err)
  | .ok n => .ok n

/-- The fields of the record, each with its tab. -/
def fields (a : Args) : OrDie Text := do
  OrDie.unless (a.start_time ≠ []) ["empty start stime".toList]
  OrDie.unless (a.start_time.head? = some '2') ["do not recognize start time".toList, a.start_time]
  let xp := arg_cat lib a.start_time []
  let _ ← a2ui63 lib a.flow_seq fun err => ["can not parse flow sequence".toList, err, a.flow_seq]
  let xp := arg_cat lib a.flow_seq xp
  OrDie.unless (a.command_name ≠ []) ["empty command name".toList]
  OrDie.unless (a.command_name.length ≤ 32) ["command name > 32 chars".toList, a.command_name]
  OrDie.unless (a.command_name.head?.any islower) ["first char of command name not lower".toList, a.command_name]
  OrDie.unless (a.command_name.tail.all is_command_char) ["char in command name not [a-z0-9_]".toList]
  let xp := arg_cat lib a.command_name xp
  let xp ← arg_uint64 lib "process id".toList a.process_id xp
  OrDie.unless (a.exit_class ≠ []) ["empty exit class".toList]
  OrDie.unless (a.exit_class.length ≤ 5) ["exit class > 5 chars".toList, a.exit_class]
  let xp ← exit_class_cat lib a.exit_class xp
  OrDie.unless (lib.frisk_udig a.blob).isNone ["can not parse blob".toList, (lib.frisk_udig a.blob).getD []]
  let xp := arg_cat lib a.blob xp
  let ex ← a2ui63 lib a.exit_code fun _ => ["can not parser exit code".toList, a.exit_code]
  OrDie.unless (ex ≤ 255) ["exit code > 255".toList, a.exit_code]
  let xp := arg_cat lib a.exit_code xp
  let xp ← arg_duration lib "wall duration".toList a.wall_duration xp
  let xp ← arg_duration lib "user seconds".toList a.user_seconds xp
  arg_duration lib "sys seconds".toList a.sys_seconds xp

def usage : Text :=
  "append-xdr <log-path> <start time> <flow-seq> <command-name> <process-id> <exit-class> ".toList ++
    "<blob> <exit-code> <wall_duration_seconds> <ruser_seconds> <rsys_seconds>".toList

/-- The path that is opened and the record that is written to it. `open_error` is what the
open of the path fails with; a request for help ends the program as well. -/
def main (open_error : Text → Option Text) : List Text → OrDie (Text × Text)
  | [_, log_path, start_time, flow_seq, command_name, process_id, exit_class, blob, exit_code, wall_duration,
      user_seconds, sys_seconds] => do
    OrDie.unless (log_path ≠ []) ["empty path/to/*.xdr".toList]
    OrDie.unless (¬ log_path.head?.any isdigit) ["log path starts with digit".toList, log_path]
    let xp ← fields lib ⟨start_time, flow_seq, command_name, process_id, exit_class, blob, exit_code,
      wall_duration, user_seconds, sys_seconds⟩
    let xdr := xp ++ ['\n']
    OrDie.unless (open_error log_path).isNone
      ["open(xdr) failed".toList, (open_error log_path).getD [], log_path]
    return (log_path, xdr)
  | _ => .error [usage]

/-! ### The documented fields -/

def exit_classes : List Text := ["OK".toList, "ERR".toList, "SIG".toList, "NOPS".toList]

/-- The characters of a time in the nano format of rfc3339. -/
def rfc3339_set : Text := "0123456789-T:.+Z".toList

/-- Widths and sets of characters as the comments and the documentation of the record have
them. No width is given for a duration. -/
structure Documented (a : Args) : Prop where
  start_time : Chars rfc3339_set 1 35 a.start_time
  flow_seq : Chars digits 1 20 a.flow_seq
  command_first : a.command_name.head?.any islower
  command_name : Chars ('_' :: lower_alnum) 1 32 a.command_name
  process_id : Chars digits 1 20 a.process_id
  exit_class : a.exit_class ∈ exit_classes
  blob : UdigSyntax a.blob
  exit_code : Chars digits 1 20 a.exit_code
  exit_code_le : Nat.ofDigitChars 10 a.exit_code 0 ≤ 255
  wall_duration : a.wall_duration ≠ [] ∧ ∀ c ∈ a.wall_duration, c ∈ AppendBrr.duration_set
  user_seconds : a.user_seconds ≠ [] ∧ ∀ c ∈ a.user_seconds, c ∈ AppendBrr.duration_set
  sys_seconds : a.sys_seconds ≠ [] ∧ ∀ c ∈ a.sys_seconds, c ∈ AppendBrr.duration_set

/-- One line of just the fields that were given, each as it is documented. -/
structure Right (a : Args) (xdr : Text) : Prop where
  line : ∃ line, xdr = line ++ ['\n'] ∧ '\n' ∉ line ∧ line.splitOn '\t' = a.list
  documented : Documented a

/-! ### What the program lets through -/

variable {lib} {a : Args} {arg arg' what xdr xdr' : Text}

/-- Tabs and arguments, up to the null of the buffer. -/
def cut (lib : Library) (args : List Text) : Text :=
  (TerminatedLines.terminated '\t' args).take (lib.max_xdr - 1)

theorem arg_cat_cut (args : List Text) : arg_cat lib arg (cut lib args) = cut lib (args ++ [arg]) := by
  have hpos := lib.max_xdr_pos
  have hlen : (cut lib args).length = min (lib.max_xdr - 1) (TerminatedLines.terminated '\t' args).length :=
    List.length_take
  have hterm : TerminatedLines.terminated '\t' (args ++ [arg]) =
      TerminatedLines.terminated '\t' args ++ (arg ++ ['\t']) := by
    simp [TerminatedLines.terminated]
  -- a full buffer takes nothing more, and one with room starts where the fields end
  have hroom : lib.max_xdr - (cut lib args).length - 1 =
      lib.max_xdr - 1 - (TerminatedLines.terminated '\t' args).length := by
    omega
  rw [arg_cat, lib.strcat2_eq _ _ _ (by omega), hroom, cut, ← List.take_append, ← hterm]
  rfl

theorem arg_uint64_eq_ok {args : List Text} (h : arg_uint64 lib what arg (cut lib args) = .ok xdr') :
    Chars digits 1 20 arg ∧ xdr' = cut lib (args ++ [arg]) := by
  simp only [arg_uint64, OrDie.bind_eq_ok, OrDie.unless_eq_ok, decide_eq_true_eq] at h
  obtain ⟨-, hne, -, hle, -, hdigit, hret⟩ := h
  refine ⟨⟨fun c hc => mem_digits.mpr (List.all_eq_true.mp hdigit c hc), by omega, hle⟩, ?_⟩
  rw [← arg_cat_cut]
  exact (Except.ok.inj hret).symm

theorem arg_exit_class_eq_ok {word : Text} {args : List Text}
    (h : arg_exit_class lib word arg (cut lib args) = .ok xdr') :
    arg = word ∧ xdr' = cut lib (args ++ [arg]) := by
  simp only [arg_exit_class, OrDie.bind_eq_ok, OrDie.unless_eq_ok, decide_eq_true_eq] at h
  obtain ⟨-, hword, hret⟩ := h
  rw [← arg_cat_cut]
  exact ⟨hword.symm, (Except.ok.inj hret).symm⟩

theorem mem_duration_set {c : Char} : c ∈ AppendBrr.duration_set ↔ isdigit c = true ∨ c = '.' := by
  have hset : AppendBrr.duration_set = digits ++ ['.'] := by decide
  rw [hset, List.mem_append, mem_digits, List.mem_singleton]

theorem arg_duration_eq_ok {args : List Text} (h : arg_duration lib what arg (cut lib args) = .ok xdr') :
    (∀ c ∈ arg, c ∈ AppendBrr.duration_set) ∧ xdr' = cut lib (args ++ [arg]) := by
  simp only [arg_duration, OrDie.bind_eq_ok, OrDie.unless_eq_ok] at h
  obtain ⟨-, hall, hret⟩ := h
  rw [← arg_cat_cut]
  refine ⟨fun c hc => mem_duration_set.mpr ?_, (Except.ok.inj hret).symm⟩
  have hchar := List.all_eq_true.mp hall c hc
  rwa [Bool.or_eq_true, decide_eq_true_eq] at hchar

/-- The exit class of three characters that is neither tested nor written. -/
def Dropped (exit_class : Text) : Prop :=
  exit_class.length = 3 ∧ exit_class.head? ≠ some 'E' ∧ exit_class.head? ≠ some 'S'

theorem Dropped.not_mem {exit_class : Text} (h : Dropped exit_class) : exit_class ∉ exit_classes := by
  obtain ⟨hlen, hE, hS⟩ := h
  intro hmem
  simp only [exit_classes, List.mem_cons, List.not_mem_nil, or_false] at hmem
  rcases hmem with rfl | rfl | rfl | rfl
  · exact absurd hlen (by decide)
  · exact hE rfl
  · exact hS rfl
  · exact absurd hlen (by decide)

theorem exit_class_cat_eq_ok {args : List Text} (h : exit_class_cat lib arg (cut lib args) = .ok xdr') :
    arg ∈ exit_classes ∧ xdr' = cut lib (args ++ [arg]) ∨ Dropped arg ∧ xdr' = cut lib args := by
  unfold exit_class_cat at h
  split at h
  · obtain ⟨rfl, hxdr⟩ := arg_exit_class_eq_ok h
    exact .inl ⟨by decide, hxdr⟩
  · rename_i hlen
    split_ifs at h with hE hS
    · obtain ⟨rfl, hxdr⟩ := arg_exit_class_eq_ok h
      exact .inl ⟨by decide, hxdr⟩
    · obtain ⟨rfl, hxdr⟩ := arg_exit_class_eq_ok h
      exact .inl ⟨by decide, hxdr⟩
    · exact .inr ⟨⟨hlen, hE, hS⟩, (Except.ok.inj h).symm⟩
  · obtain ⟨rfl, hxdr⟩ := arg_exit_class_eq_ok h
    exact .inl ⟨by decide, hxdr⟩
  · cases h

theorem a2ui63_eq_ok {n : ℕ} {msgs : Text → List Text} (h : a2ui63 lib arg msgs = .ok n) :
    Chars digits 1 19 arg ∧ Nat.ofDigitChars 10 arg 0 = n := by
  unfold a2ui63 at h
  split at h
  · cases h
  · rename_i m hm
    obtain rfl := Except.ok.inj h
    exact lib.a2ui63_ok _ _ hm

/-- The fields in the record: all of them, or all but a dropped exit class. -/
def Args.kept (a : Args) : List Text :=
  [a.start_time, a.flow_seq, a.command_name, a.process_id] ++
    ((if a.exit_class ∈ exit_classes then [a.exit_class] else []) ++
      [a.blob, a.exit_code, a.wall_duration, a.user_seconds, a.sys_seconds])

/-- What is tested of the arguments. -/
structure Tested (a : Args) : Prop where
  start_time : a.start_time.head? = some '2'
  flow_seq : Chars digits 1 19 a.flow_seq
  command_first : a.command_name.head?.any islower
  command_name : Chars ('_' :: lower_alnum) 1 32 a.command_name
  process_id : Chars digits 1 20 a.process_id
  exit_class : a.exit_class ∈ exit_classes ∨ Dropped a.exit_class
  blob : UdigSyntax a.blob
  exit_code : Chars digits 1 19 a.exit_code
  exit_code_le : Nat.ofDigitChars 10 a.exit_code 0 ≤ 255
  wall_duration : ∀ c ∈ a.wall_duration, c ∈ AppendBrr.duration_set
  user_seconds : ∀ c ∈ a.user_seconds, c ∈ AppendBrr.duration_set
  sys_seconds : ∀ c ∈ a.sys_seconds, c ∈ AppendBrr.duration_set

theorem command_name_chars {name : Text} (hne : name ≠ []) (hle : name.length ≤ 32)
    (hfirst : name.head?.any islower) (hrest : name.tail.all is_command_char) :
    Chars ('_' :: lower_alnum) 1 32 name := by
  cases name with
  | nil => exact absurd rfl hne
  | cons c rest =>
    refine ⟨List.forall_mem_cons.mpr ⟨?_, fun d hd => ?_⟩, Nat.succ_le_succ (Nat.zero_le _), hle⟩
    · have hc : islower c = true := hfirst
      exact List.mem_cons_of_mem _ ((lower_or_digit_iff c).mp (by simp [hc]))
    · have hchar := List.all_eq_true.mp hrest d hd
      rw [is_command_char, Bool.or_eq_true, Bool.or_comm, decide_eq_true_eq] at hchar
      rcases hchar with hchar | rfl
      · exact List.mem_cons_of_mem _ ((lower_or_digit_iff d).mp hchar)
      · exact List.mem_cons_self

theorem fields_eq_ok (h : fields lib a = .ok xdr) : Tested a ∧ xdr = cut lib a.kept := by
  have hempty : ([] : Text) = cut lib [] := by simp [cut]
  simp only [fields, OrDie.bind_eq_ok, OrDie.unless_eq_ok, decide_eq_true_eq] at h
  obtain ⟨-, -, -, hstart, seq, hseq, -, hne, -, hle, -, hfirst, -, hrest, x₁, hpid, -, -, -, -, x₂, hclass, -,
    hblob, ex, hex, -, hex_le, x₃, hwall, x₄, huser, hsys⟩ := h
  rw [hempty, arg_cat_cut, arg_cat_cut, arg_cat_cut] at hpid
  obtain ⟨hpid_chars, rfl⟩ := arg_uint64_eq_ok hpid
  obtain ⟨args, hargs, hkept, hknown⟩ : ∃ args, x₂ = cut lib args ∧ a.kept = args ++
      [a.blob, a.exit_code, a.wall_duration, a.user_seconds, a.sys_seconds] ∧
      (a.exit_class ∈ exit_classes ∨ Dropped a.exit_class) := by
    rcases exit_class_cat_eq_ok hclass with ⟨hmem, hx₂⟩ | ⟨hdrop, hx₂⟩
    · exact ⟨_, hx₂, by simp [Args.kept, hmem], .inl hmem⟩
    · have hmem : a.exit_class ∉ exit_classes := hdrop.not_mem
      exact ⟨_, hx₂, by simp [Args.kept, hmem], .inr hdrop⟩
  subst hargs
  rw [arg_cat_cut, arg_cat_cut] at hwall
  obtain ⟨hwall_chars, rfl⟩ := arg_duration_eq_ok hwall
  obtain ⟨huser_chars, rfl⟩ := arg_duration_eq_ok huser
  obtain ⟨hsys_chars, rfl⟩ := arg_duration_eq_ok hsys
  obtain ⟨hexit, hval⟩ := a2ui63_eq_ok hex
  refine ⟨⟨hstart, (a2ui63_eq_ok hseq).1, hfirst, command_name_chars hne hle hfirst hrest, hpid_chars, hknown,
    lib.frisk_udig_ok _ (Option.isNone_iff_eq_none.mp hblob), hexit, hval ▸ hex_le, hwall_chars, huser_chars,
    hsys_chars⟩, ?_⟩
  rw [hkept]
  simp

variable {open_error : Text → Option Text} {argv : List Text} {path : Text}

theorem main_eq_ok (h : main lib open_error argv = .ok (path, xdr)) :
    ∃ prog a, argv = prog :: path :: a.list ∧ Tested a ∧ xdr = cut lib a.kept ++ ['\n'] := by
  unfold main at h
  split at h
  · rename_i prog log_path _ _ _ _ _ _ _ _ _ _
    simp only [OrDie.bind_eq_ok] at h
    obtain ⟨-, -, -, -, xp, hxp, -, -, hret⟩ := h
    obtain ⟨rfl, rfl⟩ := Prod.mk.inj (Except.ok.inj hret)
    obtain ⟨htested, rfl⟩ := fields_eq_ok hxp
    exact ⟨prog, _, rfl, htested, rfl⟩
  · cases h

/-! ### The record against its documentation -/

/-- What the program leaves untested of the documentation. -/
structure Untested (a : Args) : Prop where
  start_time : Chars rfc3339_set 1 35 a.start_time
  exit_class : a.exit_class ∈ exit_classes
  wall_duration : a.wall_duration ≠ []
  user_seconds : a.user_seconds ≠ []
  sys_seconds : a.sys_seconds ≠ []

theorem documented_iff (h : Tested a) : Documented a ↔ Untested a := by
  constructor
  · intro hdoc
    exact ⟨hdoc.start_time, hdoc.exit_class, hdoc.wall_duration.1, hdoc.user_seconds.1, hdoc.sys_seconds.1⟩
  · intro hun
    have hseq : Chars digits 1 20 a.flow_seq := ⟨h.flow_seq.subset, h.flow_seq.lower, h.flow_seq.upper.trans (by decide)⟩
    have hexit : Chars digits 1 20 a.exit_code :=
      ⟨h.exit_code.subset, h.exit_code.lower, h.exit_code.upper.trans (by decide)⟩
    exact ⟨hun.start_time, hseq, h.command_first, h.command_name, h.process_id, hun.exit_class, h.blob, hexit,
      h.exit_code_le, ⟨hun.wall_duration, h.wall_duration⟩, ⟨hun.user_seconds, h.user_seconds⟩,
      ⟨hun.sys_seconds, h.sys_seconds⟩⟩

theorem Documented.isPlain (h : Documented a) : ∀ arg ∈ a.list, IsPlain arg := by
  have hclass : IsPlain a.exit_class := (by decide : ∀ t ∈ exit_classes, IsPlain t) _ h.exit_class
  have hduration {t : Text} (ht : ∀ c ∈ t, c ∈ AppendBrr.duration_set) : IsPlain t :=
    isPlain_of_forall ht (by decide) (by decide)
  simp only [Args.list, List.forall_mem_cons, List.not_mem_nil, false_imp_iff, implies_true, and_true]
  exact ⟨isPlain_of_forall h.start_time.subset (by decide) (by decide),
    isPlain_of_forall h.flow_seq.subset (by decide) (by decide),
    isPlain_of_forall h.command_name.subset (by decide) (by decide),
    isPlain_of_forall h.process_id.subset (by decide) (by decide), hclass,
    isPlain_of_forall h.blob.chars.2.2 (by decide) (by decide),
    isPlain_of_forall h.exit_code.subset (by decide) (by decide), hduration h.wall_duration.2,
    hduration h.user_seconds.2, hduration h.sys_seconds.2⟩

theorem kept_eq_list (h : a.exit_class ∈ exit_classes) : a.kept = a.list := by
  simp [Args.kept, Args.list, h]

theorem length_terminated (args : List Text) :
    (TerminatedLines.terminated '\t' args).length = (args.map List.length).sum + args.length := by
  induction args with
  | nil => rfl
  | cons arg args ih =>
    rw [TerminatedLines.terminated_cons, List.length_append, List.length_append, ih]
    simp only [List.map_cons, List.sum_cons, List.length_cons, List.length_nil]
    omega

/-- The tab behind the last field is written as any other, so the line is right just when
the end of the buffer cuts that one tab off. -/
theorem cut_right_iff (hplain : ∀ arg ∈ a.list, IsPlain arg) :
    (∃ line, cut lib a.list ++ ['\n'] = line ++ ['\n'] ∧ '\n' ∉ line ∧ line.splitOn '\t' = a.list) ↔
      (a.list.map List.length).sum + 10 = lib.max_xdr := by
  have hpos := lib.max_xdr_pos
  have hne : a.list ≠ [] := List.cons_ne_nil _ _
  have hlen := length_terminated a.list
  have hten : a.list.length = 10 := rfl
  have hdrop : (TerminatedLines.terminated '\t' a.list).dropLast = ['\t'].intercalate a.list :=
    TerminatedLines.dropLast_terminated hne
  obtain ⟨hline, hsplit⟩ := line_of_plain_args hne hplain
  constructor
  · rintro ⟨line, hcut, -, hfields⟩
    have hlen_line : line.length = (a.list.map List.length).sum + 9 := by
      have hjoin : ['\t'].intercalate (line.splitOn '\t') = line := List.intercalate_splitOn '\t'
      rw [← hjoin, hfields, ← hdrop, List.length_dropLast]
      omega
    have hlen_cut : line.length = min (lib.max_xdr - 1) (TerminatedLines.terminated '\t' a.list).length := by
      rw [← List.append_cancel_right hcut, cut, List.length_take]
    omega
  · intro hsum
    have htake : cut lib a.list = (TerminatedLines.terminated '\t' a.list).dropLast := by
      rw [cut, List.dropLast_eq_take]
      congr 1
      omega
    exact ⟨_, by rw [htake], hline, hsplit⟩

/-- Every record that is appended ends with a tab too many, but for one whose last tab is
all the buffer has no room for. -/
theorem appended_right_iff (h : main lib open_error argv = .ok (path, xdr)) :
    ∃ prog a, argv = prog :: path :: a.list ∧
      (Right a xdr ↔ Untested a ∧ (a.list.map List.length).sum + 10 = lib.max_xdr) := by
  obtain ⟨prog, a, rfl, htested, rfl⟩ := main_eq_ok h
  refine ⟨prog, a, rfl, ?_⟩
  constructor
  · rintro ⟨hline, hdoc⟩
    rw [kept_eq_list hdoc.exit_class, cut_right_iff hdoc.isPlain] at hline
    exact ⟨(documented_iff htested).mp hdoc, hline⟩
  · rintro ⟨hun, hsum⟩
    have hdoc := (documented_iff htested).mpr hun
    refine ⟨?_, hdoc⟩
    rw [kept_eq_list hun.exit_class, cut_right_iff hdoc.isPlain]
    exact hsum

/-- With durations that a clock could give, no record comes near the end of the buffer. -/
theorem never_right (h : main lib open_error argv = .ok (path, xdr)) (hmax : 512 ≤ lib.max_xdr) :
    ∃ prog a, argv = prog :: path :: a.list ∧
      (a.wall_duration.length ≤ 20 → a.user_seconds.length ≤ 20 → a.sys_seconds.length ≤ 20 → ¬ Right a xdr) := by
  obtain ⟨prog, a, rfl, htested, rfl⟩ := main_eq_ok h
  refine ⟨prog, a, rfl, fun hwall huser hsys hright => ?_⟩
  obtain ⟨hline, hdoc⟩ := hright
  rw [kept_eq_list hdoc.exit_class, cut_right_iff hdoc.isPlain] at hline
  have hclass := (by decide : ∀ t ∈ exit_classes, t.length ≤ 4) _ hdoc.exit_class
  have hblob := hdoc.blob.chars.2.1
  have hstart := hdoc.start_time.upper
  have hname := hdoc.command_name.upper
  have hpid := hdoc.process_id.upper
  have hseq := htested.flow_seq.upper
  have hexit := htested.exit_code.upper
  simp only [Args.list, List.map_cons, List.map_nil, List.sum_cons, List.sum_nil] at hline
  omega

/-! ### A record of a call -/

def decimal (t : Text) : Except Text ℕ :=
  if 1 ≤ t.length ∧ t.length ≤ 19 ∧ t.all isdigit then .ok (Nat.ofDigitChars 10 t 0) else .error "not a number".toList

/-- The library on texts the record below has. -/
def plain_library : Library where
  max_xdr := 512
  max_xdr_pos := by decide
  strcat2 size a b := (a ++ b).take (size - 1)
  strcat2_eq _ _ _ _ := rfl
  a2ui63 := decimal
  a2ui63_ok t n h := by
    unfold decimal at h
    split_ifs at h with ht
    obtain ⟨hlower, hupper, hall⟩ := ht
    exact ⟨⟨fun c hc => mem_digits.mpr (List.all_eq_true.mp hall c hc), hlower, hupper⟩, Except.ok.inj h⟩
  frisk_udig t := if udig_ok t ∧ '\x00' ∉ t then none else some "not a udig".toList
  frisk_udig_ok t h := by
    split_ifs at h with ht
    exact (udig_ok_checks t ht.2).mp ht.1

def ls_args : Args where
  start_time := "2026-08-16T00:19:00.892394-05:00".toList
  flow_seq := "7".toList
  command_name := "ls".toList
  process_id := "411".toList
  exit_class := "OK".toList
  blob := "sha:da39a3ee5e6b4b0d3255bfef95601890afd80709".toList
  exit_code := "0".toList
  wall_duration := "0.25".toList
  user_seconds := "0.01".toList
  sys_seconds := "0.02".toList

def ls_argv : List Text := "append-xdr".toList :: "spool/floq.xdr".toList :: ls_args.list

def ls_xdr : Text := TerminatedLines.terminated '\t' ls_args.list ++ ['\n']

theorem ls_accepted : main plain_library (fun _ => none) ls_argv = .ok ("spool/floq.xdr".toList, ls_xdr) := by
  decide +kernel

theorem ls_record_right_iff : ∃ prog a, ls_argv = prog :: "spool/floq.xdr".toList :: a.list ∧
    (Right a ls_xdr ↔ Untested a ∧ (a.list.map List.length).sum + 10 = plain_library.max_xdr) :=
  appended_right_iff ls_accepted

/-- The record of an ordinary call has an eleventh, empty field. -/
theorem trailing_tab : ¬ ∀ (lib : Library) (open_error : Text → Option Text) (prog path : Text) (a : Args) (xdr : Text),
    main lib open_error (prog :: path :: a.list) = .ok (path, xdr) → Right a xdr := by
  intro h
  obtain ⟨line, hxdr, -, hfields⟩ := (h plain_library (fun _ => none) _ _ ls_args ls_xdr ls_accepted).line
  obtain rfl := List.append_cancel_right hxdr
  exact absurd (congrArg List.length hfields) (by decide +kernel)

end Blobio.AppendXdr
