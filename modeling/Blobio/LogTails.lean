import Blobio.EventRuns
import Blobio.HexDigests
import Blobio.TerminatedLines

/-! The tail of a log: it polls for lines of a file that grows and is rolled away now and then. -/
namespace Blobio.Tail
open EventRuns TerminatedLines

def newline : UInt8 := 10

/-- The files that have had the log's path, the tail, and the lines it has sent. -/
structure State where
  files : ℕ → Bytes
  /-- The file at the path. -/
  last : ℕ := 0
  src : ℕ := 0
  /-- The position in the file behind what has been read. -/
  pos : ℕ := 0
  /-- What the buffered reader has of a line. -/
  line : Bytes := []
  draining : Bool := false
  /-- The reader has come to an end of file that `eof` has not looked at. -/
  at_eof : Bool := false
  out : List Bytes := []

/-- The writer appends and the log is rolled; the tail reads some bytes or finds none, and at the
end of the file it looks whether the path has another one. -/
inductive Event
  | append (bytes : Bytes)
  | roll
  | read (n : ℕ)
  | eof
  | reopen
  deriving DecidableEq

def State.file (s : State) : Bytes := s.files s.src

def State.chunk (s : State) (n : ℕ) : Bytes := (s.file.drop s.pos).take n

/-- `eof` on a source that is at its end. -/
def reopen (s : State) : State :=
  if s.src = s.last then { s with draining := false, at_eof := false }
  else if s.draining then { s with src := s.last, pos := 0, draining := false, at_eof := false }
  else { s with draining := true, at_eof := false }

def step (s : State) : Event → Option State
  | .append bytes => some { s with files := Function.update s.files s.last (s.files s.last ++ bytes) }
  | .roll => some { s with files := Function.update s.files (s.last + 1) [], last := s.last + 1 }
  | .read n =>
    if s.at_eof ∨ s.chunk n = [] then none
    else
      let (out, line) := (s.chunk n).foldl (feed newline) (s.out, s.line)
      some { s with pos := s.pos + (s.chunk n).length, line := line, out := out }
  | .eof =>
    -- The rest of a line goes away with the reader that returned it.
    if s.at_eof ∨ s.pos ≠ s.file.length then none else some { s with line := [], at_eof := true }
  | .reopen => if s.at_eof then some (reopen s) else none

/-- Before the log has been written. -/
def start : State := { files := fun _ => [] }

/-! ### The lines that should be sent -/

def lines (b : Bytes) : List Bytes := complete newline b

/-- The complete lines of the files before the source. -/
def State.passed (s : State) : List Bytes := (List.range s.src).flatMap fun i => lines (s.files i)

/-- Each complete line of what has been read has been sent, once and in order. -/
def Right (s : State) : Prop := s.out = s.passed ++ lines (s.file.take s.pos)

def CaughtUp (s : State) : Prop := s.src = s.last ∧ s.pos = s.file.length

/-- The lines of all files, the old ones first. -/
def State.logged (s : State) : List Bytes := (List.range (s.last + 1)).flatMap fun i => lines (s.files i)

/-- When all has been read, all has been sent. -/
def Tailed (s : State) : Prop := Right s ∧ (CaughtUp s → s.out = s.logged)

/-- A newline comes with all of its line before it, none of it lost at an end of file, and the
file that takes the place of a drained one is not behind another with a line. -/
def Clean (s : State) : Event → Prop
  | .read n => newline ∈ s.chunk n → s.line = unfinished newline (s.file.take s.pos)
  | .reopen => s.src < s.last → s.draining → ∀ i, s.src < i → i < s.last → lines (s.files i) = []
  | _ => True

/-! ### Invariants -/

structure Inv (s : State) : Prop where
  src_le : s.src ≤ s.last
  pos_le : s.pos ≤ s.file.length
  line : ∃ lost, unfinished newline (s.file.take s.pos) = lost ++ s.line
  draining : s.draining → s.src < s.last
  at_eof : s.at_eof → s.line = []
  drained : s.at_eof → s.draining → s.pos = s.file.length

theorem inv_start : Inv start :=
  ⟨le_rfl, le_rfl, ⟨[], rfl⟩, by simp [start], by simp [start], by simp [start]⟩

section steps
variable {s s' : State} {n : ℕ}

theorem step_read : step s (.read n) = some s' ↔ ¬ s.at_eof ∧ s.chunk n ≠ [] ∧
    s' = { s with
      pos := s.pos + (s.chunk n).length
      line := ((s.chunk n).foldl (feed newline) (s.out, s.line)).2
      out := ((s.chunk n).foldl (feed newline) (s.out, s.line)).1 } := by
  rw [step]
  split
  · rename_i h
    exact iff_of_false (by simp) fun ⟨hno, hne, _⟩ => h.elim hno hne
  · rename_i h
    rw [← and_assoc, and_iff_right (not_or.mp h), eq_comm]
    exact Option.some_inj

theorem step_eof : step s .eof = some s' ↔ ¬ s.at_eof ∧ s.pos = s.file.length ∧
    s' = { s with line := [], at_eof := true } := by
  rw [step]
  split
  · rename_i h
    exact iff_of_false (by simp) fun ⟨hno, heq, _⟩ => h.elim hno fun hne => hne heq
  · rename_i h
    rw [not_or, not_not] at h
    rw [Option.some.injEq, ← and_assoc, and_iff_right h, eq_comm]

theorem step_reopen : step s .reopen = some s' ↔ s.at_eof ∧ s' = reopen s := by
  rw [step]
  split
  · rename_i h
    rw [Option.some.injEq, and_iff_right h, eq_comm]
  · rename_i h
    exact iff_of_false (by simp) fun ⟨hat, _⟩ => h hat

/-- Reading goes on in the file. -/
theorem take_read (s : State) (n : ℕ) :
    s.file.take (s.pos + (s.chunk n).length) = s.file.take s.pos ++ s.chunk n := by
  rw [List.take_add, State.chunk, List.length_take, ← List.take_take, List.take_length]

theorem appended_of_lt {bytes : Bytes} {i : ℕ} (h : i < s.last) :
    Function.update s.files s.last (s.files s.last ++ bytes) i = s.files i :=
  Function.update_of_ne h.ne _ _

/-- What has been read of a file is not changed by what is appended. -/
theorem take_appended (h : Inv s) (bytes : Bytes) :
    ((Function.update s.files s.last (s.files s.last ++ bytes)) s.src).take s.pos = s.file.take s.pos := by
  rcases h.src_le.lt_or_eq with hlt | heq
  · rw [appended_of_lt hlt]
    rfl
  · rw [heq, Function.update_self, List.take_append_of_le_length (by simpa [State.file, heq] using h.pos_le)]
    rw [State.file, heq]

theorem inv_append (h : Inv s) (bytes : Bytes) :
    Inv { s with files := Function.update s.files s.last (s.files s.last ++ bytes) } where
  src_le := h.src_le
  pos_le := by
    refine h.pos_le.trans ?_
    rcases h.src_le.lt_or_eq with hlt | heq
    · exact (congrArg List.length (appended_of_lt hlt)).ge
    · simp [State.file, heq]
  line := by
    change ∃ lost, unfinished newline ((Function.update s.files s.last _ s.src).take s.pos) = _
    rw [take_appended h]
    exact h.line
  draining := h.draining
  at_eof := h.at_eof
  drained hat hdrain := by
    rw [h.drained hat hdrain]
    exact (congrArg List.length (appended_of_lt (h.draining hdrain))).symm

theorem file_rolled {i : ℕ} (hi : i ≤ s.last) : Function.update s.files (s.last + 1) [] i = s.files i :=
  Function.update_of_ne (by omega) _ _

theorem inv_roll (h : Inv s) :
    Inv { s with files := Function.update s.files (s.last + 1) [], last := s.last + 1 } where
  src_le := h.src_le.trans (Nat.le_succ _)
  pos_le := h.pos_le.trans (congrArg List.length (file_rolled h.src_le)).ge
  line := by
    change ∃ lost, unfinished newline ((Function.update s.files (s.last + 1) [] s.src).take s.pos) = _
    rw [file_rolled h.src_le]
    exact h.line
  draining hd := (h.draining hd).trans (Nat.lt_succ_self _)
  at_eof := h.at_eof
  drained hat hd := by
    rw [h.drained hat hd]
    exact (congrArg List.length (file_rolled h.src_le)).symm

/-- What the reader has of the line after the bytes is the end of the line. -/
theorem line_read (h : Inv s) (n : ℕ) :
    ∃ lost, unfinished newline (s.file.take s.pos ++ s.chunk n) =
      lost ++ ((s.chunk n).foldl (feed newline) (s.out, s.line)).2 := by
  rw [unfinished_append]
  by_cases hmem : newline ∈ s.chunk n
  · obtain ⟨l, ls, v, hfeed⟩ := foldl_feed_of_mem hmem
    exact ⟨[], by rw [hfeed, hfeed]; rfl⟩
  · obtain ⟨lost, hlost⟩ := h.line
    exact ⟨lost, by rw [foldl_feed_of_not_mem hmem, foldl_feed_of_not_mem hmem, hlost, List.append_assoc]⟩

theorem inv_read (h : Inv s) (hat : ¬ s.at_eof) (n : ℕ) : Inv { s with
      pos := s.pos + (s.chunk n).length
      line := ((s.chunk n).foldl (feed newline) (s.out, s.line)).2
      out := ((s.chunk n).foldl (feed newline) (s.out, s.line)).1 } where
  src_le := h.src_le
  pos_le := by
    have hpos := h.pos_le
    have hchunk : (s.chunk n).length ≤ s.file.length - s.pos := by
      rw [State.chunk, List.length_take, List.length_drop]
      exact Nat.min_le_right _ _
    change s.pos + (s.chunk n).length ≤ s.file.length
    omega
  line := by
    change ∃ lost, unfinished newline (s.file.take (s.pos + (s.chunk n).length)) = _
    rw [take_read]
    exact line_read h n
  draining := h.draining
  at_eof hat' := absurd hat' hat
  drained hat' := absurd hat' hat

theorem inv_eof (h : Inv s) (hpos : s.pos = s.file.length) : Inv { s with line := [], at_eof := true } where
  src_le := h.src_le
  pos_le := h.pos_le
  line := ⟨_, (List.append_nil _).symm⟩
  draining := h.draining
  at_eof _ := rfl
  drained _ _ := hpos

theorem inv_reopen (h : Inv s) (hat : s.at_eof) : Inv (reopen s) := by
  have hline := h.at_eof hat
  unfold reopen
  split_ifs with hsame hdrain
  · exact ⟨h.src_le, h.pos_le, h.line, nofun, nofun, nofun⟩
  · exact ⟨le_rfl, Nat.zero_le _, ⟨[], hline.symm⟩, nofun, nofun, nofun⟩
  · exact ⟨h.src_le, h.pos_le, h.line, fun _ => h.src_le.lt_of_ne hsame, nofun, nofun⟩

theorem inv_step {e : Event} (h : Inv s) (hstep : step s e = some s') : Inv s' := by
  cases e with
  | append bytes =>
    obtain rfl := Option.some.inj hstep
    exact inv_append h bytes
  | roll =>
    obtain rfl := Option.some.inj hstep
    exact inv_roll h
  | read n =>
    obtain ⟨hat, -, rfl⟩ := step_read.mp hstep
    exact inv_read h hat n
  | eof =>
    obtain ⟨-, hpos, rfl⟩ := step_eof.mp hstep
    exact inv_eof h hpos
  | reopen =>
    obtain ⟨hat, rfl⟩ := step_reopen.mp hstep
    exact inv_reopen h hat

/-! ### The lines that are sent -/

theorem passed_congr {files : ℕ → Bytes} (h : ∀ i < s.src, files i = s.files i) :
    ((List.range s.src).flatMap fun i => lines (files i)) = s.passed :=
  List.flatMap_congr fun i hi => by rw [h i (List.mem_range.mp hi)]

theorem right_append_iff (h : Inv s) (bytes : Bytes) :
    Right { s with files := Function.update s.files s.last (s.files s.last ++ bytes) } ↔ Right s := by
  change s.out = ((List.range s.src).flatMap fun i =>
    lines (Function.update s.files s.last _ i)) ++ lines ((Function.update s.files s.last _ s.src).take s.pos) ↔ _
  rw [take_appended h, passed_congr fun i hi => appended_of_lt (hi.trans_le h.src_le)]
  rfl

theorem right_roll_iff (h : Inv s) :
    Right { s with files := Function.update s.files (s.last + 1) [], last := s.last + 1 } ↔ Right s := by
  change s.out = ((List.range s.src).flatMap fun i => lines (Function.update s.files (s.last + 1) [] i)) ++
    lines ((Function.update s.files (s.last + 1) [] s.src).take s.pos) ↔ _
  rw [file_rolled h.src_le, passed_congr fun i hi => file_rolled (hi.le.trans h.src_le)]
  rfl

/-- A line is sent whole if nothing of it has been lost. -/
theorem right_read_iff (hright : Right s) (n : ℕ) : Right { s with
      pos := s.pos + (s.chunk n).length
      line := ((s.chunk n).foldl (feed newline) (s.out, s.line)).2
      out := ((s.chunk n).foldl (feed newline) (s.out, s.line)).1 } ↔ Clean s (.read n) := by
  change ((s.chunk n).foldl (feed newline) (s.out, s.line)).1 =
    s.passed ++ complete newline (s.file.take (s.pos + (s.chunk n).length)) ↔ _
  rw [take_read, complete_append, hright]
  by_cases hmem : newline ∈ s.chunk n
  · obtain ⟨l, ls, v, hfeed⟩ := foldl_feed_of_mem hmem
    rw [hfeed, hfeed, List.append_assoc, List.append_cancel_left_eq]
    change complete newline _ ++ _ = complete newline _ ++ _ ↔ _
    rw [List.append_cancel_left_eq, List.cons.injEq, and_iff_left rfl, List.append_cancel_right_eq]
    exact ⟨fun heq _ => heq, fun hclean => hclean hmem⟩
  · rw [foldl_feed_of_not_mem hmem, foldl_feed_of_not_mem hmem]
    exact iff_of_true rfl fun hmem' => absurd hmem' hmem

theorem range_split {m n : ℕ} (h : m ≤ n) : List.range n = List.range m ++ (List.range (n - m)).map (m + ·) := by
  rw [← List.range_add, Nat.add_sub_cancel' h]

/-- The source is left for the newest file. -/
theorem right_reopen_iff (h : Inv s) (hright : Right s) (hat : s.at_eof) :
    Right (reopen s) ↔ Clean s .reopen := by
  unfold reopen
  split_ifs with hsame hdrain
  · exact iff_of_true hright fun hlt => absurd hsame hlt.ne
  · have hlt := h.draining hdrain
    have hall : s.file.take s.pos = s.file := List.take_of_length_le (h.drained hat hdrain).ge
    have hpassed : s.passed ++ lines s.file = (List.range (s.src + 1)).flatMap fun i => lines (s.files i) := by
      rw [List.range_succ, List.flatMap_append, List.flatMap_singleton]
      rfl
    change s.out = ((List.range s.last).flatMap fun i => lines (s.files i)) ++ [] ↔ _
    rw [hright, hall, hpassed, List.append_nil, range_split (m := s.src + 1) (n := s.last) hlt, List.flatMap_append,
      List.self_eq_append_right, List.flatMap_eq_nil_iff]
    constructor
    · intro hnone _ _ i hi hi'
      refine hnone i (List.mem_map.mpr ⟨i - (s.src + 1), List.mem_range.mpr ?_, ?_⟩) <;> omega
    · intro hclean i hi
      obtain ⟨j, hj, rfl⟩ := List.mem_map.mp hi
      have hj' := List.mem_range.mp hj
      exact hclean hlt hdrain _ (by omega) (by omega)
  · exact iff_of_true hright fun _ hd => absurd hd hdrain

theorem right_step_iff {e : Event} (h : Inv s) (hright : Right s) (hstep : step s e = some s') :
    Right s' ↔ Clean s e := by
  cases e with
  | append bytes =>
    obtain rfl := Option.some.inj hstep
    exact iff_of_true ((right_append_iff h bytes).mpr hright) trivial
  | roll =>
    obtain rfl := Option.some.inj hstep
    exact iff_of_true ((right_roll_iff h).mpr hright) trivial
  | read n =>
    obtain ⟨-, -, rfl⟩ := step_read.mp hstep
    exact right_read_iff hright n
  | eof =>
    obtain ⟨-, -, rfl⟩ := step_eof.mp hstep
    exact iff_of_true hright trivial
  | reopen =>
    obtain ⟨hat, rfl⟩ := step_reopen.mp hstep
    exact right_reopen_iff h hright hat

theorem Right.tailed (hright : Right s) : Tailed s := by
  refine ⟨hright, fun ⟨hsrc, hpos⟩ => ?_⟩
  rw [hright, List.take_of_length_le hpos.ge, State.logged, ← hsrc, List.range_succ, List.flatMap_append,
    List.flatMap_singleton]
  rfl

/-! ### Polls of a quiet log -/

/-- The polls of the tail, the log left alone. -/
def Polls (s s' : State) : Prop :=
  ∃ es, exec step s es = some s' ∧ s'.files = s.files ∧ s'.last = s.last

theorem Polls.refl (s : State) : Polls s s := ⟨[], rfl, rfl, rfl⟩

theorem Polls.step {t : State} (h : Polls s s') (e : Event) (he : step s' e = some t) (hfiles : t.files = s'.files)
    (hlast : t.last = s'.last) : Polls s t := by
  obtain ⟨es, hrun, hsame, hsame'⟩ := h
  exact ⟨es ++ [e], exec_concat.mpr ⟨s', hrun, he⟩, hfiles.trans hsame, hlast.trans hsame'⟩

/-- The reader comes to the end of the file. -/
theorem polls_end (h : Inv s) (hat : ¬ s.at_eof) : ∃ s', Polls s s' ∧ s'.src = s.src ∧ s'.draining = s.draining ∧
    ¬ s'.at_eof ∧ s'.pos = s'.file.length := by
  by_cases hpos : s.pos = s.file.length
  · exact ⟨s, .refl s, rfl, rfl, hat, hpos⟩
  · have hlt : s.pos < s.file.length := lt_of_le_of_ne h.pos_le hpos
    have hlen : (s.chunk s.file.length).length = s.file.length - s.pos := by
      rw [State.chunk, List.length_take, List.length_drop]
      omega
    have hchunk : s.chunk s.file.length ≠ [] := by
      intro hnil
      rw [hnil, List.length_nil] at hlen
      omega
    refine ⟨_, (Polls.refl s).step _ (step_read.mpr ⟨hat, hchunk, rfl⟩) rfl rfl, rfl, rfl, hat, ?_⟩
    change s.pos + (s.chunk s.file.length).length = s.file.length
    omega

/-- From an end of file the tail gets to another poll. -/
theorem polls_reopen (hat : ¬ s.at_eof) (hpos : s.pos = s.file.length) :
    Polls s (reopen { s with line := [], at_eof := true }) := by
  refine ((Polls.refl s).step .eof (step_eof.mpr ⟨hat, hpos, rfl⟩) rfl rfl).step .reopen
    (step_reopen.mpr ⟨rfl, rfl⟩) ?_ ?_ <;>
  · unfold reopen
    split_ifs <;> rfl

theorem Polls.trans {t : State} (h : Polls s s') (h' : Polls s' t) : Polls s t := by
  obtain ⟨es, hrun, hfiles, hlast⟩ := h
  obtain ⟨es', hrun', hfiles', hlast'⟩ := h'
  exact ⟨es ++ es', exec_append.mpr ⟨s', hrun, hrun'⟩, hfiles'.trans hfiles, hlast'.trans hlast⟩

theorem Polls.inv (h : Polls s s') (hinv : Inv s) : Inv s' := by
  obtain ⟨es, hrun, -⟩ := h
  exact invariant_exec (fun _ _ _ => inv_step) hinv hrun

theorem catch_up_last (h : Inv s) (hat : ¬ s.at_eof) (hsrc : s.src = s.last) : ∃ s', Polls s s' ∧ CaughtUp s' := by
  obtain ⟨s', hpolls, hsrc', -, -, hpos⟩ := polls_end h hat
  obtain ⟨es, hrun, hfiles, hlast⟩ := hpolls
  exact ⟨s', ⟨es, hrun, hfiles, hlast⟩, by rw [hsrc', hsrc, hlast], hpos⟩

theorem catch_up_draining (h : Inv s) (hat : ¬ s.at_eof) (hd : s.draining) : ∃ s', Polls s s' ∧ CaughtUp s' := by
  obtain ⟨m, hpolls, -, hdrain, hat', hpos⟩ := polls_end h hat
  have hreopen := polls_reopen hat' hpos
  have hne : m.src ≠ m.last := ((hpolls.inv h).draining (hdrain ▸ hd)).ne
  rw [reopen, if_neg hne, if_pos (hdrain ▸ hd)] at hreopen
  obtain ⟨s', hrest, hcaught⟩ := catch_up_last (hreopen.inv (hpolls.inv h)) Bool.false_ne_true rfl
  exact ⟨s', (hpolls.trans hreopen).trans hrest, hcaught⟩

theorem catch_up_reading (h : Inv s) (hat : ¬ s.at_eof) : ∃ s', Polls s s' ∧ CaughtUp s' := by
  by_cases hd : s.draining
  · exact catch_up_draining h hat hd
  · obtain ⟨m, hpolls, -, hdrain, hat', hpos⟩ := polls_end h hat
    by_cases hsame : m.src = m.last
    · exact ⟨m, hpolls, hsame, hpos⟩
    · have hreopen := polls_reopen hat' hpos
      rw [reopen, if_neg hsame, if_neg (hdrain ▸ hd)] at hreopen
      obtain ⟨s', hrest, hcaught⟩ := catch_up_draining (hreopen.inv (hpolls.inv h)) Bool.false_ne_true rfl
      exact ⟨s', (hpolls.trans hreopen).trans hrest, hcaught⟩

/-- When the log is left alone the tail reads all of it. -/
theorem catch_up (h : Inv s) : ∃ s', Polls s s' ∧ CaughtUp s' := by
  by_cases hat : s.at_eof
  · have hpolls : Polls s (reopen s) := by
      refine (Polls.refl s).step .reopen (step_reopen.mpr ⟨hat, rfl⟩) ?_ ?_ <;>
      · unfold reopen
        split_ifs <;> rfl
    have hat' : ¬ (reopen s).at_eof := by
      unfold reopen
      split_ifs <;> exact not_false
    obtain ⟨s', hrest, hcaught⟩ := catch_up_reading (hpolls.inv h) hat'
    exact ⟨s', hpolls.trans hrest, hcaught⟩
  · exact catch_up_reading h hat

end steps

/-- The tail has sent the complete lines of what it has read, and all lines once it has read all,
in all states of a run just if the run is clean; and it can always come to read all. -/
theorem tailed_iff_clean {es : List Event} {s : State} (hrun : exec step start es = some s) :
    ((∀ before t, before <+: es → exec step start before = some t → Tailed t) ↔ Along step Clean start es) ∧
      ∃ s', Polls s s' ∧ CaughtUp s' := by
  have hinv : ∀ s e s', Inv s → step s e = some s' → Inv s' := fun _ _ _ => inv_step
  refine ⟨?_, catch_up (invariant_exec hinv inv_start hrun)⟩
  refine forall_states_iff_along hinv (fun s e s' h hR he => ?_) inv_start (Right.tailed rfl) hrun
  exact ⟨fun ht => (right_step_iff h hR.1 he).mp ht.1, fun hc => ((right_step_iff h hR.1 he).mpr hc).tailed⟩

instance (s : State) : ∀ e, Decidable (Clean s e)
  | .read n => inferInstanceAs (Decidable (newline ∈ s.chunk n → s.line = unfinished newline (s.file.take s.pos)))
  | .reopen =>
    decidable_of_iff (s.src < s.last → s.draining → ∀ i < s.last, s.src < i → lines (s.files i) = [])
      ⟨fun h hlt hd i hi hi' => h hlt hd i hi' hi, fun h hlt hd i hi hi' => h hlt hd i hi' hi⟩
  | .append _ | .roll | .eof => .isTrue trivial

/-- Two lines in a log, the second of them in two pieces and read in two, the log is rolled before
a third line, and the tail drains the old file before it goes on to the new one. -/
def two_files : List Event :=
  [.append [97, 10, 98], .read 2, .read 1, .append [99, 10], .read 2, .eof, .reopen, .eof, .append [100, 10], .roll,
    .append [101, 10], .reopen, .read 2, .eof, .reopen, .read 2]

theorem two_files_tailed : Along step Clean start two_files ∧ ∃ s, exec step start two_files = some s ∧
    ∀ before t, before <+: two_files → exec step start before = some t → Tailed t := by
  have hclean : Along step Clean start two_files := by
    decide +kernel
  have hsome : (exec step start two_files).isSome := by
    decide +kernel
  obtain ⟨s, hs⟩ := Option.isSome_iff_exists.mp hsome
  exact ⟨hclean, s, hs, (tailed_iff_clean hs).1.mpr hclean⟩

/-- A poll between two pieces of a line: the first piece goes away, the second one is sent. -/
theorem torn_line : ¬ ∀ es s, exec step start es = some s → CaughtUp s → s.out = s.logged := by
  intro h
  have htorn := h [.append [97], .read 1, .eof, .reopen, .append [98, 10], .read 2] _ rfl ⟨rfl, rfl⟩
  revert htorn
  decide

end Blobio.Tail
