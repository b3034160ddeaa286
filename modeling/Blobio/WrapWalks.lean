import Blobio.ArcOrders
import Blobio.LogAcceptance

/-! The walk of `walk-wrap-set` from a wrap set back to the oldest one, and the order of udigs that it builds. -/
namespace Blobio.Walk

/-! ### Rows of a log -/

/-- `0[0-9]|10|11|12`, and `[012][0-9]|30|31`. -/
def month_re (c d : Char) : Bool := c = '0' && isdigit d || c = '1' && between '0' '2' d

def day_re (c d : Char) : Bool := between '0' '2' c && isdigit d || c = '3' && between '0' '1' d

def start_time_re (f : Text) : Bool :=
  let date := f.take 20
  let fraction := (f.drop 20).takeWhile isdigit
  let zone := (f.drop 20).dropWhile isdigit
  date.head? = some '2' && decide (Fits date_shape date) && month_re (date.getD 5 ' ') (date.getD 6 ' ') &&
    day_re (date.getD 8 ' ') (date.getD 9 ' ') && decide (Chars digits 1 9 fraction) && decide (Fits zone_shape zone)

def transport_re (f : Text) : Bool :=
  '~' ∈ f && tag_ok (f.takeWhile (· ≠ '~')) && Chars graph_set 1 128 (f.dropWhile (· ≠ '~')).tail

def verbs : List Verb := [.get, .put, .give, .take, .eat, .wrap, .roll]

def chat_histories : List Text :=
  ["ok".toList, "ok,ok".toList, "ok,ok,ok".toList, "no".toList, "ok,no".toList, "ok,ok,no".toList]

def wall_duration_re (f : Text) : Bool :=
  let sec := f.takeWhile isdigit
  let rest := f.dropWhile isdigit
  Chars digits 1 10 sec && rest.head? = some '.' && decide (Chars digits 9 9 rest.tail)

/-- What the pattern of a row takes out of it. -/
structure Brr where
  start_time : Text
  transport : Text
  verb : Verb
  udig : Text
  chat_history : Text
  blob_size : Text
  deriving DecidableEq

/-- `m/^${BRR_RE}$/`, of a line with its new-line. -/
def brr_re (row : Text) : Option Brr :=
  if row.getLast? ≠ some '\n' then none
  else
    match row.dropLast.splitOn '\t' with
    | [start_time, transport, verb, udig, chat_history, blob_size, wall_duration] =>
      match verbs.find? (·.text = verb) with
      | none => none
      | some verb =>
        if start_time_re start_time ∧ transport_re transport ∧ udig_ok udig ∧ chat_history ∈ chat_histories ∧
            Chars digits 1 19 blob_size ∧ wall_duration_re wall_duration then
          some ⟨start_time, transport, verb, udig, chat_history, blob_size⟩
        else none
    | _ => none

/-- `/no$/` -/
def Brr.no (b : Brr) : Bool := "no".toList.isSuffixOf b.chat_history

/-- A row that puts a wrap set on the stack of the walk, as long as the set has not been seen. -/
def Brr.Names (b : Brr) (wrap_set : Text) : Prop :=
  b.udig = wrap_set ∧ (b.verb = .wrap ∨ b.verb = .roll) ∧ b.chat_history = "ok".toList

instance (b : Brr) (wrap_set : Text) : Decidable (b.Names wrap_set) :=
  inferInstanceAs (Decidable (_ ∧ _ ∧ _))

/-- The lines of a file, each with its new-line, which the last one may lack. -/
def lines (blob : Text) : List Text :=
  ((blob.splitOn '\n').dropLast.map (· ++ ['\n'])) ++ ((blob.splitOn '\n').getLast?.filter (· ≠ [])).toList

def chomp (line : Text) : Text := if line.getLast? = some '\n' then line.dropLast else line

/-! ### The walk -/

/-- The service that the calls of `blobio` go to, which answers the same as long as the script runs, what
`blobio empty` says of a udig, and the order in which a hash gives its keys. -/
structure World where
  service : Text → Except ℕ (Option Text)
  empty : Text → ℕ
  keys : List Text → List Text
  keys_perm : ∀ l, (keys l).Perm l

/-- The variables of the script, a hash by its keys. The stack has its top in front. -/
structure State where
  wrap_set : List Text
  WRAP_SET : List Text
  UDIG : List Text
  BRR_LOG : List Text
  NO_BRR_LOG : List Text
  UDIG_AFTER : List (Text × Text)
  oldest_wrap_set : Text

def State.start (start_wrap_set : Text) : State := ⟨[start_wrap_set], [], [], [], [], [], []⟩

def State.udig_after (a b : Text) (s : State) : State :=
  if (a, b) ∈ s.UDIG_AFTER then s else { s with UDIG_AFTER := s.UDIG_AFTER ++ [(a, b)] }

/-- A row that has been matched. -/
def State.row (wrap_set brr_log : Text) (s : State) (b : Brr) : State :=
  if b.no ∨ (b.verb ≠ .wrap ∧ b.verb ≠ .roll) then s
  else
    let s := s.udig_after b.udig brr_log
    if b.chat_history ≠ "ok".toList then s
    else if b.udig ∈ s.WRAP_SET then s
    else ({ s with wrap_set := b.udig :: s.wrap_set }).udig_after b.udig wrap_set

section world
variable (w : World)

/-- The rows of a log from some number on, each matched before the next one is read. -/
def scan_rows (wrap_set brr_log : Text) : ℕ → List Text → State → Except Text State
  | _, [], s => .ok s
  | rc, line :: ls, s =>
    match brr_re line with
    | none => .error ("row ".toList ++ Nat.toDigits 10 (rc + 1) ++ " is not brr in log: ".toList ++ brr_log)
    | some b => scan_rows wrap_set brr_log (rc + 1) ls (s.row wrap_set brr_log b)

/-- A log that the walk comes to. -/
def State.meet (wrap_set brr_log : Text) (s : State) : State :=
  ({ s with BRR_LOG := s.BRR_LOG ++ [brr_log] }).udig_after wrap_set brr_log

/-- The logs of a wrap set. A log that is not there is passed over, as is the count of logs with it. -/
def scan_logs (stop_brr_log_count : ℕ) (wrap_set : Text) : List Text → State → Except Text State
  | [], s => .ok s
  | brr_log :: ls, s =>
    if brr_log ∈ s.BRR_LOG then scan_logs stop_brr_log_count wrap_set ls s
    else
      let s := s.meet wrap_set brr_log
      match w.service brr_log with
      | .error status =>
        .error ("blobio get brr log failed: exit status=".toList ++ Nat.toDigits 10 status)
      | .ok none => scan_logs stop_brr_log_count wrap_set ls { s with NO_BRR_LOG := s.NO_BRR_LOG ++ [brr_log] }
      | .ok (some blob) =>
        match scan_rows wrap_set brr_log 0 (lines blob) s with
        | .error msg => .error msg
        | .ok s =>
          if 0 < stop_brr_log_count ∧ stop_brr_log_count ≤ s.BRR_LOG.length then .ok { s with wrap_set := [] }
          else scan_logs stop_brr_log_count wrap_set ls s

/-- The udigs of a wrap set, from those that have been read on. -/
def frisk_lines (wrap_set : Text) : List Text → List Text → State → Except Text (List Text × State)
  | [], ELEMENTS, s => .ok (ELEMENTS, s)
  | line :: ls, ELEMENTS, s =>
    let udig := chomp line
    if ¬ udig_ok udig then .error ("blob is not udig set: ".toList ++ udig)
    else if udig ∈ ELEMENTS then .error ("udig set has a duplicate: ".toList ++ udig)
    else frisk_lines wrap_set ls (ELEMENTS ++ [udig]) (s.udig_after wrap_set udig)

/-- The elements of a wrap set that has not been seen yet. The status of `blobio eat` is not shifted as that
of `blobio empty` is, so that a wrap set which is not there ends the script, too. -/
def frisk_wrap_set (wrap_set : Text) (s : State) : Except Text (List Text × State) :=
  if w.empty wrap_set = 0 then .error ("unexpected frisk empty udig: ".toList ++ wrap_set)
  else if w.empty wrap_set ≠ 1 then
    .error ("blobio frisk empty failed: exit status=".toList ++ Nat.toDigits 10 (w.empty wrap_set))
  else
    match w.service wrap_set with
    | .error status =>
      .error ("blobio eat frisk failed: exit status=".toList ++ Nat.toDigits 10 (256 * status))
    | .ok none => .error ("blobio eat frisk failed: exit status=".toList ++ Nat.toDigits 10 256)
    | .ok (some blob) =>
      match frisk_lines wrap_set (lines blob) [] { s with WRAP_SET := s.WRAP_SET ++ [wrap_set] } with
      | .error msg => .error msg
      | .ok (ELEMENTS, s) => .ok (ELEMENTS, { s with UDIG := s.UDIG ++ [wrap_set] })

/-- A turn of the loop, for the wrap set that has come off the stack. -/
def visit (stop_brr_log_count : ℕ) (wrap_set : Text) (s : State) : Except Text State :=
  if wrap_set ∈ s.WRAP_SET then .error ("tail wrap set seen twice: ".toList ++ wrap_set)
  else
    match frisk_wrap_set w wrap_set s with
    | .error msg => .error msg
    | .ok (ELEMENTS, s) =>
      if ELEMENTS = [] then .ok { s with oldest_wrap_set := wrap_set, wrap_set := [] }
      else
        match scan_logs w stop_brr_log_count wrap_set (w.keys ELEMENTS) s with
        | .error msg => .error msg
        | .ok s => .ok { s with oldest_wrap_set := wrap_set }

/-- The loop, of at most so many turns. -/
def walk (stop_brr_log_count : ℕ) : ℕ → State → Option (Except Text State)
  | 0, _ => none
  | n + 1, s =>
    match s.wrap_set with
    | [] => some (.ok s)
    | wrap_set :: rest =>
      match visit w stop_brr_log_count wrap_set { s with wrap_set := rest } with
      | .error msg => some (.error msg)
      | .ok s => walk stop_brr_log_count n s

end world

/-! ### What rows and logs do -/

section steps
variable {a b : Text} {s s' : State} {wrap_set brr_log : Text} {row : Brr} {bs : List Brr} {e : Text × Text}

@[simp] theorem udig_after_wrap_set : (s.udig_after a b).wrap_set = s.wrap_set := by
  unfold State.udig_after
  split <;> rfl

@[simp] theorem udig_after_WRAP_SET : (s.udig_after a b).WRAP_SET = s.WRAP_SET := by
  unfold State.udig_after
  split <;> rfl

@[simp] theorem udig_after_UDIG : (s.udig_after a b).UDIG = s.UDIG := by
  unfold State.udig_after
  split <;> rfl

@[simp] theorem udig_after_BRR_LOG : (s.udig_after a b).BRR_LOG = s.BRR_LOG := by
  unfold State.udig_after
  split <;> rfl

theorem mem_udig_after : e ∈ (s.udig_after a b).UDIG_AFTER ↔ e ∈ s.UDIG_AFTER ∨ e = (a, b) := by
  unfold State.udig_after
  split_ifs with h
  · refine (or_iff_left_of_imp ?_).symm
    rintro rfl
    exact h
  · rw [List.mem_append, List.mem_singleton]

/-- A row whose udig comes behind its log in the order. -/
def Brr.Marks (b : Brr) : Prop := b.no = false ∧ (b.verb = .wrap ∨ b.verb = .roll)

theorem Brr.Names.marks {V : Text} (h : row.Names V) : row.Marks := by
  refine ⟨?_, h.2.1⟩
  rw [Brr.no, h.2.2]
  decide

/-- What a row pushes. -/
def State.pushed (s : State) (row : Brr) : List Text :=
  if row.Names row.udig ∧ row.udig ∉ s.WRAP_SET then [row.udig] else []

theorem row_cases (s : State) (wrap_set brr_log : Text) (row : Brr) :
    (¬ row.Marks ∧ s.row wrap_set brr_log row = s) ∨
    (row.Marks ∧ ¬ (row.Names row.udig ∧ row.udig ∉ s.WRAP_SET) ∧
      s.row wrap_set brr_log row = s.udig_after row.udig brr_log) ∨
    (row.Marks ∧ (row.Names row.udig ∧ row.udig ∉ s.WRAP_SET) ∧ s.row wrap_set brr_log row =
      ({ s.udig_after row.udig brr_log with wrap_set := row.udig :: s.wrap_set }).udig_after row.udig wrap_set) := by
  unfold State.row
  dsimp only
  by_cases hskip : row.no ∨ (row.verb ≠ .wrap ∧ row.verb ≠ .roll)
  · rw [if_pos hskip]
    refine .inl ⟨fun hmarks => ?_, rfl⟩
    rcases hskip with hno | hverb
    · exact Bool.false_ne_true (hmarks.1.symm.trans hno)
    · exact hmarks.2.elim hverb.1 hverb.2
  · rw [if_neg hskip]
    rw [not_or, Bool.not_eq_true, ← or_iff_not_and_not] at hskip
    have hmarks : row.Marks := hskip
    right
    by_cases hchat : row.chat_history ≠ "ok".toList
    · rw [if_pos hchat]
      exact .inl ⟨hmarks, fun h => hchat h.1.2.2, rfl⟩
    · rw [if_neg hchat, udig_after_WRAP_SET, udig_after_wrap_set]
      have hnames : row.Names row.udig := ⟨rfl, hmarks.2, not_not.mp hchat⟩
      by_cases hseen : row.udig ∈ s.WRAP_SET
      · rw [if_pos hseen]
        exact .inl ⟨hmarks, fun h => h.2 hseen, rfl⟩
      · rw [if_neg hseen]
        exact .inr ⟨hmarks, ⟨hnames, hseen⟩, rfl⟩

/-- What a row leaves as it was. -/
structure SameRows (s s' : State) : Prop where
  WRAP_SET : s'.WRAP_SET = s.WRAP_SET
  UDIG : s'.UDIG = s.UDIG
  BRR_LOG : s'.BRR_LOG = s.BRR_LOG

theorem SameRows.trans {t : State} (h : SameRows s s') (h' : SameRows s' t) : SameRows s t :=
  ⟨h'.WRAP_SET.trans h.WRAP_SET, h'.UDIG.trans h.UDIG, h'.BRR_LOG.trans h.BRR_LOG⟩

theorem row_same : SameRows s (s.row wrap_set brr_log row) := by
  rcases row_cases s wrap_set brr_log row with ⟨-, h⟩ | ⟨-, -, h⟩ | ⟨-, -, h⟩ <;> rw [h] <;> constructor <;> simp

theorem row_wrap_set : (s.row wrap_set brr_log row).wrap_set = s.pushed row ++ s.wrap_set := by
  unfold State.pushed
  rcases row_cases s wrap_set brr_log row with ⟨hmarks, h⟩ | ⟨-, hnot, h⟩ | ⟨-, hnames, h⟩
  · rw [h, if_neg fun hnames => hmarks hnames.1.marks]
    rfl
  · rw [h, if_neg hnot, udig_after_wrap_set]
    rfl
  · rw [h, if_pos hnames, udig_after_wrap_set]
    rfl

theorem mem_row_after (h : e ∈ (s.row wrap_set brr_log row).UDIG_AFTER) :
    e ∈ s.UDIG_AFTER ∨ (row.Marks ∧ e.1 = row.udig) := by
  rcases row_cases s wrap_set brr_log row with ⟨-, hrow⟩ | ⟨hmarks, -, hrow⟩ | ⟨hmarks, -, hrow⟩ <;> rw [hrow] at h
  · exact .inl h
  · rcases mem_udig_after.mp h with h | rfl
    · exact .inl h
    · exact .inr ⟨hmarks, rfl⟩
  · rcases mem_udig_after.mp h with h | rfl
    · rcases mem_udig_after.mp h with h | rfl
      · exact .inl h
      · exact .inr ⟨hmarks, rfl⟩
    · exact .inr ⟨hmarks, rfl⟩

theorem row_after_subset : s.UDIG_AFTER ⊆ (s.row wrap_set brr_log row).UDIG_AFTER := by
  intro e h
  rcases row_cases s wrap_set brr_log row with ⟨-, hrow⟩ | ⟨-, -, hrow⟩ | ⟨-, -, hrow⟩ <;> rw [hrow]
  · exact h
  · exact mem_udig_after.mpr (.inl h)
  · exact mem_udig_after.mpr (.inl (mem_udig_after.mpr (.inl h)))

/-- The rows of a log, the first one first. -/
def State.rows (wrap_set brr_log : Text) (s : State) (bs : List Brr) : State := bs.foldl (State.row wrap_set brr_log) s

theorem rows_same : SameRows s (s.rows wrap_set brr_log bs) := by
  induction bs generalizing s with
  | nil => exact ⟨rfl, rfl, rfl⟩
  | cons row bs ih => exact row_same.trans ih

theorem rows_wrap_set : (s.rows wrap_set brr_log bs).wrap_set = (bs.flatMap s.pushed).reverse ++ s.wrap_set := by
  induction bs generalizing s with
  | nil => rfl
  | cons row bs ih =>
    have hpushed : (s.row wrap_set brr_log row).pushed = s.pushed := by
      funext row'
      rw [State.pushed, State.pushed, row_same.WRAP_SET]
    have hreverse : (s.pushed row).reverse = s.pushed row := by
      unfold State.pushed
      split_ifs <;> rfl
    calc (s.rows wrap_set brr_log (row :: bs)).wrap_set
        = (bs.flatMap s.pushed).reverse ++ (s.pushed row ++ s.wrap_set) := by
          rw [← row_wrap_set, ← hpushed]
          exact ih
      _ = ((row :: bs).flatMap s.pushed).reverse ++ s.wrap_set := by
          rw [List.flatMap_cons, List.reverse_append, hreverse, List.append_assoc]

theorem mem_rows_after (h : e ∈ (s.rows wrap_set brr_log bs).UDIG_AFTER) :
    e ∈ s.UDIG_AFTER ∨ ∃ row ∈ bs, row.Marks ∧ e.1 = row.udig := by
  induction bs generalizing s with
  | nil => exact .inl h
  | cons row bs ih =>
    rcases ih h with h | ⟨row', hmem, h⟩
    · exact (mem_row_after h).imp_right fun h => ⟨row, List.mem_cons_self, h⟩
    · exact .inr ⟨row', List.mem_cons_of_mem _ hmem, h⟩

theorem rows_after_subset : s.UDIG_AFTER ⊆ (s.rows wrap_set brr_log bs).UDIG_AFTER := by
  induction bs generalizing s with
  | nil => exact List.Subset.refl _
  | cons row bs ih => exact List.Subset.trans row_after_subset ih

theorem scan_rows_eq_ok {rc : ℕ} {ls : List Text} : scan_rows wrap_set brr_log rc ls s = .ok s' ↔
    ∃ bs, ls.map brr_re = bs.map some ∧ s' = s.rows wrap_set brr_log bs := by
  induction ls generalizing rc s with
  | nil =>
    rw [scan_rows, Except.ok.injEq]
    constructor
    · rintro rfl
      exact ⟨[], rfl, rfl⟩
    · rintro ⟨bs, h, rfl⟩
      obtain rfl := List.map_eq_nil_iff.mp h.symm
      rfl
  | cons line ls ih =>
    rw [scan_rows]
    cases hline : brr_re line with
    | none =>
      refine iff_of_false ?_ ?_
      · rintro ⟨⟩
      · rintro ⟨bs, h, -⟩
        cases bs <;> simp [hline] at h
    | some row =>
      rw [ih]
      constructor
      · rintro ⟨bs, h, rfl⟩
        exact ⟨row :: bs, by rw [List.map_cons, List.map_cons, hline, h], rfl⟩
      · rintro ⟨bs, h, rfl⟩
        cases bs with
        | nil => cases h
        | cons row' bs =>
          rw [List.map_cons, List.map_cons, hline, List.cons.injEq, Option.some.injEq] at h
          obtain ⟨rfl, h⟩ := h
          exact ⟨bs, h, rfl⟩

end steps

/-! ### The logs of a wrap set -/

section logs
variable (w : World)

/-- The rows of a log. -/
def log_rows (brr_log : Text) : List Brr :=
  match w.service brr_log with
  | .ok (some blob) => (lines blob).filterMap brr_re
  | _ => []

/-- A log that is there, of nothing but rows. -/
def IsLog (brr_log : Text) : Prop :=
  ∃ blob, w.service brr_log = .ok (some blob) ∧ (lines blob).map brr_re = (log_rows w brr_log).map some

/-- The runs of `scan_logs`. -/
inductive Reads (stop : ℕ) (wrap_set : Text) : List Text → State → State → Prop
  | nil {s} : Reads stop wrap_set [] s s
  | again {L ls s s'} (hL : L ∈ s.BRR_LOG) (h : Reads stop wrap_set ls s s') : Reads stop wrap_set (L :: ls) s s'
  | missing {L ls s s'} (hL : L ∉ s.BRR_LOG) (hservice : w.service L = .ok none)
      (h : Reads stop wrap_set ls { s.meet wrap_set L with NO_BRR_LOG := (s.meet wrap_set L).NO_BRR_LOG ++ [L] } s') :
      Reads stop wrap_set (L :: ls) s s'
  | log {L ls s s'} (hL : L ∉ s.BRR_LOG) (hlog : IsLog w L)
      (h : Reads stop wrap_set ls ((s.meet wrap_set L).rows wrap_set L (log_rows w L)) s') :
      Reads stop wrap_set (L :: ls) s s'
  | counted {L ls s} (hL : L ∉ s.BRR_LOG) (hlog : IsLog w L) (hcount : 0 < stop ∧ stop ≤ s.BRR_LOG.length + 1) :
      Reads stop wrap_set (L :: ls) s { (s.meet wrap_set L).rows wrap_set L (log_rows w L) with wrap_set := [] }

variable {w} {stop : ℕ} {wrap_set L : Text} {s s' : State} {ls : List Text}

theorem log_rows_of_map {blob : Text} {bs : List Brr} (hservice : w.service L = .ok (some blob))
    (h : (lines blob).map brr_re = bs.map some) : log_rows w L = bs := by
  rw [log_rows, hservice]
  calc (lines blob).filterMap brr_re = ((lines blob).map brr_re).filterMap id := by rw [List.filterMap_map]; rfl
    _ = bs := by rw [h, List.filterMap_map]; exact List.filterMap_some

theorem reads_of_scan_logs (h : scan_logs w stop wrap_set ls s = .ok s') : Reads w stop wrap_set ls s s' := by
  induction ls generalizing s with
  | nil =>
    cases h
    exact .nil
  | cons L ls ih =>
    rw [scan_logs] at h
    by_cases hL : L ∈ s.BRR_LOG
    · rw [if_pos hL] at h
      exact .again hL (ih h)
    rw [if_neg hL] at h
    dsimp only at h
    cases hservice : w.service L with
    | error status =>
      rw [hservice] at h
      cases h
    | ok blob => cases blob with
      | none =>
        rw [hservice] at h
        exact .missing hL hservice (ih h)
      | some blob =>
        rw [hservice] at h
        dsimp only at h
        cases hrows : scan_rows wrap_set L 0 (lines blob) (s.meet wrap_set L) with
        | error msg =>
          rw [hrows] at h
          cases h
        | ok s₁ =>
          obtain ⟨bs, hbs, rfl⟩ := scan_rows_eq_ok.mp hrows
          rw [hrows] at h
          dsimp only at h
          obtain rfl := log_rows_of_map hservice hbs
          have hlog : IsLog w L := ⟨blob, hservice, hbs⟩
          split_ifs at h with hcount
          · cases h
            refine .counted hL hlog ?_
            rw [rows_same.BRR_LOG, State.meet, udig_after_BRR_LOG, List.length_append] at hcount
            exact hcount
          · exact .log hL hlog (ih h)

/-- The logs have been counted up to where the walk is to stop. -/
def Counted (stop : ℕ) (s : State) : Prop := 0 < stop ∧ stop ≤ s.BRR_LOG.length

theorem rows_BRR_LOG {bs : List Brr} :
    ((s.meet wrap_set L).rows wrap_set L bs).BRR_LOG = s.BRR_LOG ++ [L] := by
  rw [rows_same.BRR_LOG, State.meet, udig_after_BRR_LOG]

/-- What each log of a wrap set keeps, all of them keep, but for the stack when the walk is cut short. -/
theorem Reads.keeps_or_cut {P : State → Prop} (h : Reads w stop wrap_set ls s s')
    (hmissing : ∀ L ∈ ls, ∀ s, L ∉ s.BRR_LOG → w.service L = .ok none → P s →
      P { s.meet wrap_set L with NO_BRR_LOG := (s.meet wrap_set L).NO_BRR_LOG ++ [L] })
    (hlog : ∀ L ∈ ls, ∀ s, L ∉ s.BRR_LOG → IsLog w L → P s → P ((s.meet wrap_set L).rows wrap_set L (log_rows w L)))
    (hs : P s) : (Counted stop s' ∧ ∃ t, P t ∧ s' = { t with wrap_set := [] }) ∨ P s' := by
  induction h with
  | nil => exact .inr hs
  | again hL h ih =>
    rw [List.forall_mem_cons] at hmissing hlog
    exact ih hmissing.2 hlog.2 hs
  | missing hL hservice h ih =>
    rw [List.forall_mem_cons] at hmissing hlog
    exact ih hmissing.2 hlog.2 (hmissing.1 _ hL hservice hs)
  | log hL hisLog h ih =>
    rw [List.forall_mem_cons] at hmissing hlog
    exact ih hmissing.2 hlog.2 (hlog.1 _ hL hisLog hs)
  | counted hL hisLog hcount =>
    rw [List.forall_mem_cons] at hlog
    refine .inl ⟨⟨hcount.1, hcount.2.trans_eq ?_⟩, _, hlog.1 _ hL hisLog hs, rfl⟩
    dsimp only
    rw [rows_BRR_LOG, List.length_append]
    rfl

theorem Reads.keeps {P : State → Prop} (h : Reads w stop wrap_set ls s s')
    (hmissing : ∀ L ∈ ls, ∀ s, L ∉ s.BRR_LOG → w.service L = .ok none → P s →
      P { s.meet wrap_set L with NO_BRR_LOG := (s.meet wrap_set L).NO_BRR_LOG ++ [L] })
    (hlog : ∀ L ∈ ls, ∀ s, L ∉ s.BRR_LOG → IsLog w L → P s → P ((s.meet wrap_set L).rows wrap_set L (log_rows w L)))
    (hcut : ∀ s, P s → P { s with wrap_set := [] }) (hs : P s) : P s' := by
  rcases h.keeps_or_cut hmissing hlog hs with ⟨-, t, ht, rfl⟩ | hs'
  · exact hcut t ht
  · exact hs'

@[simp] theorem meet_BRR_LOG : (s.meet wrap_set L).BRR_LOG = s.BRR_LOG ++ [L] := by
  rw [State.meet, udig_after_BRR_LOG]

@[simp] theorem meet_WRAP_SET : (s.meet wrap_set L).WRAP_SET = s.WRAP_SET := by
  rw [State.meet, udig_after_WRAP_SET]

@[simp] theorem meet_UDIG : (s.meet wrap_set L).UDIG = s.UDIG := by
  rw [State.meet, udig_after_UDIG]

@[simp] theorem meet_wrap_set : (s.meet wrap_set L).wrap_set = s.wrap_set := by
  rw [State.meet, udig_after_wrap_set]

theorem mem_meet_after {e : Text × Text} :
    e ∈ (s.meet wrap_set L).UDIG_AFTER ↔ e ∈ s.UDIG_AFTER ∨ e = (wrap_set, L) :=
  mem_udig_after

theorem Reads.same (h : Reads w stop wrap_set ls s s') : s'.WRAP_SET = s.WRAP_SET ∧ s'.UDIG = s.UDIG := by
  refine h.keeps (P := fun t => t.WRAP_SET = s.WRAP_SET ∧ t.UDIG = s.UDIG) ?_ ?_ (fun _ ht => ht) ⟨rfl, rfl⟩
  · intro L _ t _ _ ht
    exact ⟨meet_WRAP_SET.trans ht.1, meet_UDIG.trans ht.2⟩
  · intro L _ t _ _ ht
    exact ⟨rows_same.WRAP_SET.trans (meet_WRAP_SET.trans ht.1), rows_same.UDIG.trans (meet_UDIG.trans ht.2)⟩

theorem Reads.prefix_log (h : Reads w stop wrap_set ls s s') : s.BRR_LOG <+: s'.BRR_LOG := by
  refine h.keeps (P := fun t => s.BRR_LOG <+: t.BRR_LOG) ?_ ?_ (fun _ ht => ht) (List.prefix_refl _)
  · intro L _ t _ _ ht
    exact ht.trans (meet_BRR_LOG ▸ List.prefix_append _ _)
  · intro L _ t _ _ ht
    rw [rows_same.BRR_LOG, meet_BRR_LOG]
    exact ht.trans (List.prefix_append _ _)

theorem Reads.stack_grows (h : Reads w stop wrap_set ls s s') :
    (s'.wrap_set = [] ∧ Counted stop s') ∨ s.wrap_set <:+ s'.wrap_set := by
  refine (h.keeps_or_cut (P := fun t => s.wrap_set <:+ t.wrap_set) ?_ ?_ (List.suffix_refl _)).imp_left ?_
  · intro L _ t _ _ ht
    change s.wrap_set <:+ (t.meet wrap_set L).wrap_set
    rwa [meet_wrap_set]
  · intro L _ t _ _ ht
    rw [rows_wrap_set, meet_wrap_set]
    exact ht.trans (List.suffix_append _ _)
  · rintro ⟨hcount, t, -, rfl⟩
    exact ⟨rfl, hcount⟩

/-- All the logs are met, unless the walk is cut short. -/
theorem Reads.covers (h : Reads w stop wrap_set ls s s') :
    (s'.wrap_set = [] ∧ Counted stop s') ∨ ∀ L ∈ ls, L ∈ s'.BRR_LOG := by
  induction h with
  | nil => exact .inr (by simp)
  | again hL h ih => exact ih.imp_right fun hlogs => List.forall_mem_cons.mpr ⟨h.prefix_log.subset hL, hlogs⟩
  | missing hL hservice h ih =>
    exact ih.imp_right fun hlogs => List.forall_mem_cons.mpr ⟨h.prefix_log.subset (by simp), hlogs⟩
  | log hL hlog h ih =>
    refine ih.imp_right fun hlogs => List.forall_mem_cons.mpr ⟨h.prefix_log.subset ?_, hlogs⟩
    rw [rows_BRR_LOG]
    simp
  | counted hL hlog hcount =>
    refine .inl ⟨rfl, hcount.1, hcount.2.trans_eq ?_⟩
    dsimp only
    rw [rows_BRR_LOG, List.length_append]
    rfl

theorem log_rows_of_missing (h : w.service L = .ok none) : log_rows w L = [] := by
  rw [log_rows, h]

/-- The wrap sets that the logs name are on the stack or have been seen. -/
def Pushed (w : World) (s : State) : Prop :=
  ∀ L ∈ s.BRR_LOG, ∀ row ∈ log_rows w L, ∀ V, row.Names V → V ∈ s.WRAP_SET ∨ V ∈ s.wrap_set

theorem mem_pushed {row : Brr} {V : Text} (h : row.Names V) (hV : V ∉ s.WRAP_SET) : V ∈ s.pushed row := by
  obtain rfl := h.1
  rw [State.pushed, if_pos ⟨h, hV⟩]
  exact List.mem_singleton_self _

theorem names_of_mem_pushed {row : Brr} {V : Text} (h : V ∈ s.pushed row) : row.Names V ∧ V ∉ s.WRAP_SET := by
  unfold State.pushed at h
  split_ifs at h with hnames
  · obtain rfl := List.mem_singleton.mp h
    exact hnames
  · cases h

theorem Reads.pushed (h : Reads w stop wrap_set ls s s') (hs : Pushed w s) :
    (s'.wrap_set = [] ∧ Counted stop s') ∨ Pushed w s' := by
  refine (h.keeps_or_cut (P := Pushed w) ?_ ?_ hs).imp_left ?_
  · intro L _ t _ hservice ht L' hL' row hrow V hV
    rw [meet_BRR_LOG, List.mem_append, List.mem_singleton] at hL'
    rw [meet_WRAP_SET, meet_wrap_set]
    rcases hL' with hL' | rfl
    · exact ht L' hL' row hrow V hV
    · rw [log_rows_of_missing hservice] at hrow
      cases hrow
  · intro L _ t _ _ ht L' hL' row hrow V hV
    rw [rows_BRR_LOG, List.mem_append, List.mem_singleton] at hL'
    rw [rows_same.WRAP_SET, meet_WRAP_SET, rows_wrap_set, meet_wrap_set, List.mem_append, List.mem_reverse]
    rcases hL' with hL' | rfl
    · exact (ht L' hL' row hrow V hV).imp_right .inr
    · by_cases hseen : V ∈ t.WRAP_SET
      · exact .inl hseen
      · refine .inr (.inl (List.mem_flatMap.mpr ⟨row, hrow, mem_pushed hV ?_⟩))
        rwa [meet_WRAP_SET]
  · rintro ⟨hcount, t, -, rfl⟩
    exact ⟨rfl, hcount⟩

/-- What comes on the stack is named in a log. -/
theorem Reads.named (h : Reads w stop wrap_set ls s s') : ∀ V ∈ s'.wrap_set,
    V ∈ s.wrap_set ∨ ∃ L ∈ ls, ∃ row ∈ log_rows w L, row.Names V := by
  refine h.keeps (P := fun t => ∀ V ∈ t.wrap_set, V ∈ s.wrap_set ∨ ∃ L ∈ ls, ∃ row ∈ log_rows w L, row.Names V)
    ?_ ?_ (by simp) fun _ => .inl
  · intro L _ t _ _ ht V hV
    exact ht V (meet_wrap_set ▸ hV)
  · intro L hL t _ _ ht V hV
    rw [rows_wrap_set, meet_wrap_set, List.mem_append, List.mem_reverse, List.mem_flatMap] at hV
    rcases hV with ⟨row, hrow, hV⟩ | hV
    · exact .inr ⟨L, hL, row, hrow, (names_of_mem_pushed hV).1⟩
    · exact ht V hV

/-- The logs that have been met: each once, each from the wrap set, and without an end of the walk. -/
theorem Reads.met (h : Reads w stop wrap_set ls s s') (hs : s.BRR_LOG.Nodup) : s'.BRR_LOG.Nodup ∧
    ∀ L ∈ s'.BRR_LOG, L ∈ s.BRR_LOG ∨ (L ∈ ls ∧ (w.service L = .ok none ∨ IsLog w L) ∧
      (wrap_set, L) ∈ s'.UDIG_AFTER) := by
  have hnodup : ∀ (t : State) (L : Text), L ∉ t.BRR_LOG → t.BRR_LOG.Nodup → (t.BRR_LOG ++ [L]).Nodup :=
    fun t L hL ht => List.nodup_append.mpr ⟨ht, List.nodup_singleton _, by
      rintro a ha b hb rfl
      exact hL (List.mem_singleton.mp hb ▸ ha)⟩
  refine h.keeps (P := fun t => t.BRR_LOG.Nodup ∧ ∀ L ∈ t.BRR_LOG, L ∈ s.BRR_LOG ∨ (L ∈ ls ∧
    (w.service L = .ok none ∨ IsLog w L) ∧ (wrap_set, L) ∈ t.UDIG_AFTER)) ?_ ?_ (fun _ ht => ht)
      ⟨hs, fun _ => .inl⟩
  · intro L hL t hnew hservice ht
    refine ⟨meet_BRR_LOG ▸ hnodup t L hnew ht.1, fun L' hL' => ?_⟩
    rw [meet_BRR_LOG, List.mem_append, List.mem_singleton] at hL'
    rcases hL' with hL' | rfl
    · exact (ht.2 L' hL').imp_right fun hmet => ⟨hmet.1, hmet.2.1, mem_meet_after.mpr (.inl hmet.2.2)⟩
    · exact .inr ⟨hL, .inl hservice, mem_meet_after.mpr (.inr rfl)⟩
  · intro L hL t hnew hlog ht
    rw [rows_BRR_LOG]
    refine ⟨hnodup t L hnew ht.1, fun L' hL' => ?_⟩
    rw [List.mem_append, List.mem_singleton] at hL'
    rcases hL' with hL' | rfl
    · exact (ht.2 L' hL').imp_right fun hmet =>
        ⟨hmet.1, hmet.2.1, rows_after_subset (mem_meet_after.mpr (.inl hmet.2.2))⟩
    · exact .inr ⟨hL, .inr hlog, rows_after_subset (mem_meet_after.mpr (.inr rfl))⟩

/-- What comes first in a pair of the order: a wrap set, or a udig that a row of a log names. -/
def Sourced (w : World) (s : State) (e : Text × Text) : Prop :=
  e.1 ∈ s.WRAP_SET ∨ ∃ L ∈ s.BRR_LOG, ∃ row ∈ log_rows w L, row.Marks ∧ e.1 = row.udig

theorem Sourced.mono {e : Text × Text} (h : Sourced w s e) (hseen : s.WRAP_SET ⊆ s'.WRAP_SET)
    (hlogs : s.BRR_LOG ⊆ s'.BRR_LOG) : Sourced w s' e :=
  h.imp (@hseen _) fun ⟨L, hL, h⟩ => ⟨L, hlogs hL, h⟩

theorem Reads.sourced (h : Reads w stop wrap_set ls s s') (hwrap : wrap_set ∈ s.WRAP_SET)
    (hs : ∀ e ∈ s.UDIG_AFTER, Sourced w s e) : s.UDIG_AFTER ⊆ s'.UDIG_AFTER ∧ ∀ e ∈ s'.UDIG_AFTER, Sourced w s' e := by
  refine (h.keeps (P := fun t => wrap_set ∈ t.WRAP_SET ∧ s.UDIG_AFTER ⊆ t.UDIG_AFTER ∧
    ∀ e ∈ t.UDIG_AFTER, Sourced w t e) ?_ ?_ (fun _ ht => ht) ⟨hwrap, List.Subset.refl _, hs⟩).2
  · intro L _ t _ _ ht
    refine ⟨meet_WRAP_SET.symm ▸ ht.1, fun e he => mem_meet_after.mpr (.inl (ht.2.1 he)), fun e he => ?_⟩
    rcases mem_meet_after.mp he with he | rfl
    · refine (ht.2.2 e he).mono ?_ ?_
      · exact meet_WRAP_SET.symm ▸ List.Subset.refl _
      · exact meet_BRR_LOG.symm ▸ List.subset_append_left _ _
    · exact .inl (meet_WRAP_SET.symm ▸ ht.1)
  · intro L _ t _ _ ht
    have hseen : ((t.meet wrap_set L).rows wrap_set L (log_rows w L)).WRAP_SET = t.WRAP_SET :=
      rows_same.WRAP_SET.trans meet_WRAP_SET
    refine ⟨hseen.symm ▸ ht.1, fun e he => rows_after_subset (mem_meet_after.mpr (.inl (ht.2.1 he))), fun e he => ?_⟩
    rcases mem_rows_after he with he | ⟨row, hrow, hmarks⟩
    · rcases mem_meet_after.mp he with he | rfl
      · refine (ht.2.2 e he).mono ?_ ?_
        · exact hseen.symm ▸ List.Subset.refl _
        · exact rows_BRR_LOG.symm ▸ List.subset_append_left _ _
      · exact .inl (hseen.symm ▸ ht.1)
    · exact .inr ⟨L, rows_BRR_LOG.symm ▸ by simp, row, hrow, hmarks⟩

end logs

/-! ### Turns of the walk -/

section turns
variable (w : World)

/-- The udigs in a wrap set. -/
def elements (wrap_set : Text) : List Text :=
  match w.service wrap_set with
  | .ok (some blob) => (lines blob).map chomp
  | _ => []

/-- A blob that is there. -/
def There (udig : Text) : Prop := ∃ blob, w.service udig = .ok (some blob)

variable {w} {stop : ℕ} {wrap_set : Text} {s s' : State} {ls ELEMENTS ELEMENTS' : List Text}

theorem frisk_lines_spec (h : frisk_lines wrap_set ls ELEMENTS s = .ok (ELEMENTS', s')) :
    ELEMENTS' = ELEMENTS ++ ls.map chomp ∧ SameRows s s' ∧ s'.wrap_set = s.wrap_set ∧
      s.UDIG_AFTER ⊆ s'.UDIG_AFTER ∧ ∀ e ∈ s'.UDIG_AFTER, e ∈ s.UDIG_AFTER ∨ e.1 = wrap_set := by
  induction ls generalizing ELEMENTS s with
  | nil =>
    cases h
    exact ⟨(List.append_nil _).symm, ⟨rfl, rfl, rfl⟩, rfl, List.Subset.refl _, fun _ => .inl⟩
  | cons line ls ih =>
    rw [frisk_lines] at h
    split_ifs at h with hudig hmem
    obtain ⟨helements, hsame, hstack, hsub, hafter⟩ := ih h
    refine ⟨?_, ?_, hstack.trans udig_after_wrap_set, fun e he => hsub (mem_udig_after.mpr (.inl he)), fun e he => ?_⟩
    · rw [helements, List.append_assoc]
      rfl
    · exact ⟨hsame.WRAP_SET.trans udig_after_WRAP_SET, hsame.UDIG.trans udig_after_UDIG,
        hsame.BRR_LOG.trans udig_after_BRR_LOG⟩
    · rcases hafter e he with he | he
      · exact (mem_udig_after.mp he).imp_right fun h => by rw [h]
      · exact .inr he

/-- What a wrap set that is seen for the first time does to the variables. -/
structure Frisked (w : World) (wrap_set : Text) (s s' : State) : Prop where
  there : There w wrap_set
  stack : s'.wrap_set = s.wrap_set
  WRAP_SET : s'.WRAP_SET = s.WRAP_SET ++ [wrap_set]
  UDIG : ∀ V, V ∈ s'.UDIG ↔ V ∈ s.UDIG ∨ (V = wrap_set ∧ There w V)
  BRR_LOG : s'.BRR_LOG = s.BRR_LOG
  subset : s.UDIG_AFTER ⊆ s'.UDIG_AFTER
  after : ∀ e ∈ s'.UDIG_AFTER, e ∈ s.UDIG_AFTER ∨ e.1 = wrap_set

theorem frisk_wrap_set_spec (h : frisk_wrap_set w wrap_set s = .ok (ELEMENTS, s')) :
    ELEMENTS = elements w wrap_set ∧ Frisked w wrap_set s s' := by
  unfold frisk_wrap_set at h
  split_ifs at h
  cases hservice : w.service wrap_set with
  | error status =>
    rw [hservice] at h
    cases h
  | ok blob => cases blob with
    | none =>
      rw [hservice] at h
      cases h
    | some blob =>
      rw [hservice] at h
      dsimp only at h
      cases hlines : frisk_lines wrap_set (lines blob) [] { s with WRAP_SET := s.WRAP_SET ++ [wrap_set] } with
      | error msg =>
        rw [hlines] at h
        cases h
      | ok x =>
        obtain ⟨ELEMENTS', s₁⟩ := x
        rw [hlines] at h
        cases h
        obtain ⟨helements, hsame, hstack, hsub, hafter⟩ := frisk_lines_spec hlines
        refine ⟨?_, ⟨blob, hservice⟩, hstack, hsame.WRAP_SET, fun V => ?_, hsame.BRR_LOG, hsub, hafter⟩
        · rw [helements, elements, hservice]
          rfl
        · dsimp only
          rw [hsame.UDIG, List.mem_append, List.mem_singleton]
          refine or_congr_right ⟨?_, And.left⟩
          rintro rfl
          exact ⟨rfl, blob, hservice⟩

/-- A turn that does not die: a wrap set that has not been seen, which has no elements or the logs of which
are read. -/
theorem visit_cases (h : visit w stop wrap_set s = .ok s') : wrap_set ∉ s.WRAP_SET ∧ ∃ s₁, Frisked w wrap_set s s₁ ∧
    ((elements w wrap_set = [] ∧ s' = { s₁ with oldest_wrap_set := wrap_set, wrap_set := [] }) ∨
      (elements w wrap_set ≠ [] ∧ ∃ ls s₂, ls.Perm (elements w wrap_set) ∧ Reads w stop wrap_set ls s₁ s₂ ∧
        s' = { s₂ with oldest_wrap_set := wrap_set })) := by
  unfold visit at h
  by_cases hseen : wrap_set ∈ s.WRAP_SET
  · rw [if_pos hseen] at h
    cases h
  rw [if_neg hseen] at h
  refine ⟨hseen, ?_⟩
  cases hfrisk : frisk_wrap_set w wrap_set s with
  | error msg =>
    rw [hfrisk] at h
    cases h
  | ok x =>
    obtain ⟨ELEMENTS, s₁⟩ := x
    obtain ⟨rfl, hfrisked⟩ := frisk_wrap_set_spec hfrisk
    rw [hfrisk] at h
    dsimp only at h
    refine ⟨s₁, hfrisked, ?_⟩
    by_cases hnil : elements w wrap_set = []
    · rw [if_pos hnil] at h
      cases h
      exact .inl ⟨hnil, rfl⟩
    rw [if_neg hnil] at h
    cases hscan : scan_logs w stop wrap_set (w.keys (elements w wrap_set)) s₁ with
    | error msg =>
      rw [hscan] at h
      cases h
    | ok s₂ =>
      rw [hscan] at h
      cases h
      exact .inr ⟨hnil, _, s₂, w.keys_perm _, reads_of_scan_logs hscan, rfl⟩

/-- A turn that does not die. -/
def Turn (w : World) (stop : ℕ) (s s' : State) : Prop :=
  ∃ wrap_set rest, s.wrap_set = wrap_set :: rest ∧ visit w stop wrap_set { s with wrap_set := rest } = .ok s'

/-- The turns of a walk that ends keep what each of them keeps. -/
theorem walk_keeps {P : State → Prop} {n : ℕ} {t : State} (hturn : ∀ s s', P s → Turn w stop s s' → P s')
    (h : walk w stop n s = some (.ok t)) (hs : P s) : P t ∧ t.wrap_set = [] := by
  induction n generalizing s with
  | zero => cases h
  | succ n ih =>
    rw [walk] at h
    cases hstack : s.wrap_set with
    | nil =>
      rw [hstack] at h
      cases h
      exact ⟨hs, hstack⟩
    | cons wrap_set rest =>
      rw [hstack] at h
      dsimp only at h
      cases hvisit : visit w stop wrap_set { s with wrap_set := rest } with
      | error msg =>
        rw [hvisit] at h
        cases h
      | ok s' =>
        rw [hvisit] at h
        exact ih h (hturn s s' hs ⟨wrap_set, rest, hstack, hvisit⟩)

/-! ### What a walk reaches -/

/-- A wrap set that the logs lead to from another one. -/
inductive Reached (w : World) (start : Text) : Text → Prop
  | start : Reached w start start
  | named {W L row V} (h : Reached w start W) (hL : L ∈ elements w W) (hrow : row ∈ log_rows w L)
      (hV : row.Names V) : Reached w start V

/-- What holds all along a walk. -/
structure Walking (w : World) (start : Text) (s : State) : Prop where
  stack : ∀ V ∈ s.wrap_set, Reached w start V
  seen_nodup : s.WRAP_SET.Nodup
  seen : ∀ V ∈ s.WRAP_SET, Reached w start V
  there : ∀ V, V ∈ s.UDIG ↔ V ∈ s.WRAP_SET ∧ There w V
  log_nodup : s.BRR_LOG.Nodup
  logs : ∀ L ∈ s.BRR_LOG, (∃ W ∈ s.WRAP_SET, L ∈ elements w W) ∧ (w.service L = .ok none ∨ IsLog w L) ∧
    ∃ W, (W, L) ∈ s.UDIG_AFTER
  after : ∀ e ∈ s.UDIG_AFTER, Sourced w s e

theorem Walking.start (start : Text) : Walking w start (.start start) where
  stack V hV := by
    obtain rfl := List.mem_singleton.mp hV
    exact .start
  seen_nodup := .nil
  seen V hV := by cases hV
  there V := by simp [State.start]
  log_nodup := .nil
  logs L hL := by cases hL
  after e he := by cases he

theorem Walking.turn {start : Text} (hs : Walking w start s) (h : Turn w stop s s') : Walking w start s' := by
  obtain ⟨W, rest, hstack, hvisit⟩ := h
  obtain ⟨hseen, s₁, hfrisked, hturn⟩ := visit_cases hvisit
  have hW : Reached w start W := hs.stack W (hstack ▸ List.mem_cons_self)
  have hrest : ∀ V ∈ rest, Reached w start V := fun V hV => hs.stack V (hstack ▸ List.mem_cons_of_mem _ hV)
  -- behind the look into the wrap set
  have h₁ : Walking w start s₁ := by
    refine ⟨?_, ?_, ?_, fun V => ?_, ?_, ?_, fun e he => ?_⟩
    · rwa [hfrisked.stack]
    · rw [hfrisked.WRAP_SET]
      refine List.nodup_append.mpr ⟨hs.seen_nodup, List.nodup_singleton _, ?_⟩
      rintro V hV V' hV' rfl
      exact hseen (List.mem_singleton.mp hV' ▸ hV)
    · intro V hV
      rw [hfrisked.WRAP_SET, List.mem_append, List.mem_singleton] at hV
      rcases hV with hV | rfl
      · exact hs.seen V hV
      · exact hW
    · rw [hfrisked.UDIG, hfrisked.WRAP_SET, List.mem_append, List.mem_singleton, hs.there]
      tauto
    · rw [hfrisked.BRR_LOG]
      exact hs.log_nodup
    · intro L hL
      rw [hfrisked.BRR_LOG] at hL
      obtain ⟨⟨W', hW', hL'⟩, hlog, W'', hafter⟩ := hs.logs L hL
      exact ⟨⟨W', hfrisked.WRAP_SET ▸ List.mem_append_left _ hW', hL'⟩, hlog, W'', hfrisked.subset hafter⟩
    · rcases hfrisked.after e he with he | he
      · refine (hs.after e he).mono ?_ ?_
        · rw [hfrisked.WRAP_SET]
          exact List.subset_append_left _ _
        · rw [hfrisked.BRR_LOG]
          exact List.Subset.refl _
      · rw [Sourced, hfrisked.WRAP_SET, he]
        exact .inl (by simp)
  rcases hturn with ⟨-, rfl⟩ | ⟨-, ls, s₂, hls, hreads, rfl⟩
  · exact ⟨by simp, h₁.seen_nodup, h₁.seen, h₁.there, h₁.log_nodup, h₁.logs, h₁.after⟩
  · have hmem : W ∈ s₁.WRAP_SET := by
      rw [hfrisked.WRAP_SET]
      simp
    obtain ⟨hWRAP_SET, hUDIG⟩ := hreads.same
    obtain ⟨hnodup, hmet⟩ := hreads.met h₁.log_nodup
    obtain ⟨hsub, hafter⟩ := hreads.sourced hmem h₁.after
    refine ⟨fun V hV => ?_, hWRAP_SET ▸ h₁.seen_nodup, fun V hV => ?_, fun V => ?_, hnodup, fun L hL => ?_, hafter⟩
    · rcases hreads.named V hV with hV | ⟨L, hL, row, hrow, hnames⟩
      · exact h₁.stack V hV
      · exact .named hW (hls.subset hL) hrow hnames
    · exact h₁.seen V (hWRAP_SET ▸ hV)
    · dsimp only
      rw [hUDIG, hWRAP_SET]
      exact h₁.there V
    · dsimp only
      rw [hWRAP_SET]
      rcases hmet L hL with hold | ⟨hmemL, hlog, hpair⟩
      · obtain ⟨hfrom, hlog, W', hpair⟩ := h₁.logs L hold
        exact ⟨hfrom, hlog, W', hsub hpair⟩
      · exact ⟨⟨W, hmem, hls.subset hmemL⟩, hlog, W, hpair⟩

/-- A walk that has come to its end in front of a wrap set without elements, or at its count of logs. -/
def Short (w : World) (stop : ℕ) (s : State) : Prop := elements w s.oldest_wrap_set = [] ∨ Counted stop s

/-- Nothing has been passed over: what is named is seen or waits on the stack. -/
structure Whole (w : World) (start : Text) (s : State) : Prop where
  start : start ∈ s.WRAP_SET ∨ start ∈ s.wrap_set
  pushed : Pushed w s
  covered : ∀ W ∈ s.WRAP_SET, ∀ L ∈ elements w W, L ∈ s.BRR_LOG

theorem Whole.turn {start : Text} (hs : Whole w start s) (h : Turn w stop s s') :
    (s'.wrap_set = [] ∧ Short w stop s') ∨ Whole w start s' := by
  obtain ⟨W, rest, hstack, hvisit⟩ := h
  obtain ⟨-, s₁, hfrisked, ⟨hnil, rfl⟩ | ⟨-, ls, s₂, hls, hreads, rfl⟩⟩ := visit_cases hvisit
  · exact .inl ⟨rfl, .inl hnil⟩
  have hpopped : ∀ V, V ∈ s.WRAP_SET ∨ V ∈ s.wrap_set → V ∈ s₁.WRAP_SET ∨ V ∈ s₁.wrap_set := by
    intro V hV
    rw [hstack, List.mem_cons] at hV
    rw [hfrisked.WRAP_SET, hfrisked.stack, List.mem_append, List.mem_singleton, or_assoc]
    exact hV
  have hpushed : Pushed w s₁ := by
    intro L hL row hrow V hV
    rw [hfrisked.BRR_LOG] at hL
    exact hpopped V (hs.pushed L hL row hrow V hV)
  rcases hreads.stack_grows with ⟨hcut, hcount⟩ | hgrows
  · exact .inl ⟨hcut, .inr hcount⟩
  rcases hreads.pushed hpushed with ⟨hcut, hcount⟩ | hpushed'
  · exact .inl ⟨hcut, .inr hcount⟩
  rcases hreads.covers with ⟨hcut, hcount⟩ | hcovers
  · exact .inl ⟨hcut, .inr hcount⟩
  refine .inr ⟨?_, hpushed', fun W' hW' L hL => ?_⟩
  · dsimp only
    rw [hreads.same.1]
    exact (hpopped start hs.start).imp_right fun hmem => hgrows.subset hmem
  · dsimp only at hW' ⊢
    rw [hreads.same.1, hfrisked.WRAP_SET, List.mem_append, List.mem_singleton] at hW'
    rcases hW' with hW' | rfl
    · exact hreads.prefix_log.subset (hfrisked.BRR_LOG ▸ hs.covered W' hW' L hL)
    · exact hcovers L (hls.mem_iff.mpr hL)

/-- A service of a few blobs, each with its udig. -/
def plain_world (blobs : List (Text × Text)) : World where
  service udig := .ok (blobs.lookup udig)
  empty _ := 1
  keys l := l
  keys_perm l := .refl l

theorem mem_of_plain {blobs : List (Text × Text)} {u blob : Text}
    (h : (plain_world blobs).service u = .ok (some blob)) : u ∈ blobs.map Prod.fst := by
  have hlookup : blobs.lookup u = some blob := Except.ok.inj h
  obtain ⟨l₁, l₂, rfl, -⟩ := List.lookup_eq_some_iff.mp hlookup
  simp

def udig_of (c : Char) : Text := "sha:".toList ++ List.replicate 40 c

def row_of (verb : Verb) (udig : Text) (chat_history : Text) : Text :=
  "2024-02-29T23:59:59.000000001+00:00\ttcp4~127.0.0.1:50000;127.0.0.1:1797\t".toList ++ verb.text ++ '\t' :: udig ++
    '\t' :: chat_history ++ "\t3\t0.000123456\n".toList

/-- Two logs in a wrap set, a blob that is put in the one and taken in the other. -/
def put_world : World :=
  plain_world [(udig_of 'a', udig_of 'b' ++ '\n' :: udig_of 'c' ++ ['\n']),
    (udig_of 'b', row_of .put (udig_of 'e') "ok,ok".toList), (udig_of 'c', row_of .take (udig_of 'e') "ok,ok,ok".toList)]

/-- A walk that passes a test when it is run. -/
theorem exists_walk {w : World} {stop n : ℕ} {start : Text} {P : State → Prop} [DecidablePred P]
    (h : (match walk w stop n (.start start) with
      | some (.ok s) => decide (P s)
      | _ => false) = true) : ∃ s, walk w stop n (.start start) = some (.ok s) ∧ P s := by
  split at h
  · rename_i s hs
    exact ⟨s, hs, of_decide_eq_true h⟩
  · cases h

theorem put_world_walk : ∃ s, walk put_world 0 4 (.start (udig_of 'a')) = some (.ok s) ∧
    s.WRAP_SET = [udig_of 'a'] ∧ s.BRR_LOG = [udig_of 'b', udig_of 'c'] ∧ s.oldest_wrap_set = udig_of 'a' ∧
      s.UDIG_AFTER = [(udig_of 'a', udig_of 'b'), (udig_of 'a', udig_of 'c')] :=
  exists_walk (by decide +kernel)

/-- A walk that does not end short has seen all that can be reached, and nothing else: every wrap set once and
every log of each. -/
theorem walk_covers {n : ℕ} {start : Text} (h : walk w stop n (.start start) = some (.ok s)) :
    (s.WRAP_SET.Nodup ∧ s.BRR_LOG.Nodup ∧ (∀ W ∈ s.WRAP_SET, Reached w start W) ∧
      ∀ L ∈ s.BRR_LOG, ∃ W ∈ s.WRAP_SET, L ∈ elements w W) ∧
    (¬ Short w stop s → (∀ W, Reached w start W → W ∈ s.WRAP_SET) ∧
      ∀ W, Reached w start W → ∀ L ∈ elements w W, L ∈ s.BRR_LOG) := by
  have hwalking := (walk_keeps (fun s s' hs => hs.turn) h (Walking.start start)).1
  refine ⟨⟨hwalking.seen_nodup, hwalking.log_nodup, hwalking.seen, fun L hL => (hwalking.logs L hL).1⟩,
    fun hnot => ?_⟩
  have hstart : Whole w start (.start start) := by
    refine ⟨.inr (List.mem_singleton_self _), ?_, ?_⟩
    · intro L hL
      cases hL
    · intro W hW
      cases hW
  obtain ⟨hend, hstack⟩ := walk_keeps (P := fun s => (s.wrap_set = [] ∧ Short w stop s) ∨ Whole w start s)
    (fun s s' hs hturn => by
      rcases hs with ⟨hnil, -⟩ | hs
      · obtain ⟨W, rest, hcons, -⟩ := hturn
        cases hnil.symm.trans hcons
      · exact hs.turn hturn) h (.inr hstart)
  have hwhole := hend.resolve_left fun hcut => hnot hcut.2
  have hseen : ∀ W, Reached w start W → W ∈ s.WRAP_SET := by
    intro W hW
    have hor : W ∈ s.WRAP_SET ∨ W ∈ s.wrap_set := by
      induction hW with
      | start => exact hwhole.start
      | named hW' hL hrow hV ih =>
        have hW'seen := ih.resolve_right (by rw [hstack]; exact List.not_mem_nil)
        exact hwhole.pushed _ (hwhole.covered _ hW'seen _ hL) _ hrow _ hV
    exact hor.resolve_right (by rw [hstack]; exact List.not_mem_nil)
  exact ⟨hseen, fun W hW => hwhole.covered W (hseen W hW)⟩

theorem put_world_covered : ∃ s, walk put_world 0 4 (.start (udig_of 'a')) = some (.ok s) ∧
    ∀ L ∈ elements put_world (udig_of 'a'), L ∈ s.BRR_LOG := by
  obtain ⟨s, h, -, -, holdest, -⟩ := put_world_walk
  have hnot : ¬ Short put_world 0 s := by
    rw [Short, holdest, Counted, not_or]
    exact ⟨by decide +kernel, fun hcount => absurd hcount.1 (by decide)⟩
  exact ⟨s, h, ((walk_covers h).2 hnot).2 _ .start⟩

/-! ### The end of a walk -/

/-- With so many blobs in the service a walk has come to its end, and be it its death, after one turn more. -/
theorem walk_ends (stop : ℕ) (start : Text) {blobs : Finset Text} (hblobs : ∀ u, There w u → u ∈ blobs) :
    (walk w stop (blobs.card + 2) (.start start)).isSome := by
  have hends : ∀ n (s : State), (blobs \ s.WRAP_SET.toFinset).card + 2 ≤ n → (walk w stop n s).isSome := by
    intro n
    induction n with
    | zero => exact fun s hs => absurd hs (by omega)
    | succ n ih =>
      intro s hs
      rw [walk]
      cases hstack : s.wrap_set with
      | nil => rfl
      | cons W rest =>
        dsimp only
        cases hvisit : visit w stop W { s with wrap_set := rest } with
        | error msg => rfl
        | ok s' =>
          dsimp only
          obtain ⟨hseen, s₁, hfrisked, hturn⟩ := visit_cases hvisit
          -- one blob less is left to be seen
          have hWRAP_SET : s'.WRAP_SET = s.WRAP_SET ++ [W] := by
            rcases hturn with ⟨-, rfl⟩ | ⟨-, ls, s₂, -, hreads, rfl⟩
            · exact hfrisked.WRAP_SET
            · exact hreads.same.1.trans hfrisked.WRAP_SET
          refine ih s' (Nat.lt_succ_iff.mp ((Nat.add_lt_add_right (Finset.card_lt_card ?_) 2).trans_le hs))
          refine Finset.ssubset_iff_subset_ne.mpr ⟨fun V hV => ?_, fun heq => ?_⟩
          · rw [Finset.mem_sdiff, List.mem_toFinset, hWRAP_SET] at hV
            rw [Finset.mem_sdiff, List.mem_toFinset]
            exact ⟨hV.1, fun hmem => hV.2 (List.mem_append_left _ hmem)⟩
          · have hW : W ∈ blobs \ s.WRAP_SET.toFinset := by
              rw [Finset.mem_sdiff, List.mem_toFinset]
              exact ⟨hblobs W hfrisked.there, hseen⟩
            rw [← heq, Finset.mem_sdiff, List.mem_toFinset, hWRAP_SET] at hW
            exact hW.2 (by simp)
  exact hends _ _ (Nat.add_le_add_right (Finset.card_le_card Finset.sdiff_subset) 2)

theorem put_world_ends : (walk put_world 0 5 (.start (udig_of 'a'))).isSome := by
  refine @walk_ends put_world 0 (udig_of 'a') [udig_of 'a', udig_of 'b', udig_of 'c'].toFinset ?_
  rintro u ⟨blob, hblob⟩
  exact List.mem_toFinset.mpr (mem_of_plain hblob)

/-- A wrap set that kills the walk unless it ends short: it waits twice, or waits although it has been seen. -/
def Pending (V : Text) (s : State) : Prop := 2 ≤ s.wrap_set.count V ∨ (V ∈ s.WRAP_SET ∧ V ∈ s.wrap_set)

theorem Pending.turn {V : Text} (hs : Pending V s) (h : Turn w stop s s') :
    (s'.wrap_set = [] ∧ Short w stop s') ∨ Pending V s' := by
  obtain ⟨W, rest, hstack, hvisit⟩ := h
  obtain ⟨hseen, s₁, hfrisked, ⟨hnil, rfl⟩ | ⟨-, ls, s₂, -, hreads, rfl⟩⟩ := visit_cases hvisit
  · exact .inl ⟨rfl, .inl hnil⟩
  rcases hreads.stack_grows with ⟨hcut, hcount⟩ | hgrows
  · exact .inl ⟨hcut, .inr hcount⟩
  rw [hfrisked.stack] at hgrows
  have hWRAP_SET : s₂.WRAP_SET = s.WRAP_SET ++ [W] := hreads.same.1.trans hfrisked.WRAP_SET
  right
  rw [Pending, hstack] at hs
  by_cases hV : V = W
  · subst hV
    refine .inr ⟨hWRAP_SET ▸ by simp, hgrows.subset ?_⟩
    rcases hs with hs | hs
    · rw [List.count_cons_self] at hs
      have hpos : 0 < rest.count V := by omega
      exact List.count_pos_iff.mp hpos
    · exact absurd hs.1 hseen
  · refine hs.imp (fun hs => ?_) fun hs => ⟨hWRAP_SET ▸ List.mem_append_left _ hs.1, hgrows.subset ?_⟩
    · rw [List.count_cons_of_ne (Ne.symm hV)] at hs
      exact hs.trans (hgrows.sublist.count_le V)
    · exact (List.mem_cons.mp hs.2).resolve_left hV

/-- Nothing has been heard of a wrap set. -/
structure Unheard (V L : Text) (s : State) : Prop where
  seen : V ∉ s.WRAP_SET
  stack : V ∉ s.wrap_set
  log : L ∉ s.BRR_LOG

theorem count_pushed {V : Text} {bs : List Brr} (hV : V ∉ s.WRAP_SET) :
    (bs.flatMap s.pushed).count V = (bs.filter (·.Names V)).length := by
  induction bs with
  | nil => rfl
  | cons row bs ih =>
    have hrow : (s.pushed row).count V = if row.Names V then 1 else 0 := by
      by_cases hnames : row.Names V
      · have hudig := hnames.1
        rw [if_pos hnames, State.pushed, hudig, if_pos ⟨hnames, hV⟩, List.count_singleton_self]
      · rw [if_neg hnames]
        refine List.count_eq_zero.mpr fun hmem => hnames (names_of_mem_pushed hmem).1
    rw [List.flatMap_cons, List.count_append, ih, hrow, List.filter_cons]
    by_cases hnames : row.Names V
    · simp [hnames, Nat.add_comm]
    · simp [hnames]

theorem Unheard.reads {V L : Text} {ls : List Text} (hs : Unheard V L s) (h : Reads w stop wrap_set ls s s')
    (hpair : 2 ≤ ((log_rows w L).filter (·.Names V)).length)
    (honly : ∀ L' ≠ L, ∀ row ∈ log_rows w L', ¬ row.Names V) :
    (s'.wrap_set = [] ∧ Counted stop s') ∨ Unheard V L s' ∨ Pending V s' := by
  refine (h.keeps_or_cut (P := fun t => V ∉ t.WRAP_SET ∧
    ((L ∉ t.BRR_LOG ∧ V ∉ t.wrap_set) ∨ (L ∈ t.BRR_LOG ∧ 2 ≤ t.wrap_set.count V))) ?_ ?_
    ⟨hs.seen, .inl ⟨hs.log, hs.stack⟩⟩).imp ?_ ?_
  · intro L' hL' t hnew hservice ht
    dsimp only
    have hne : L' ≠ L := by
      rintro rfl
      rw [log_rows_of_missing hservice] at hpair
      exact absurd hpair (show ¬ 2 ≤ 0 by decide)
    rw [meet_WRAP_SET, meet_BRR_LOG, meet_wrap_set, List.mem_append, List.mem_singleton, or_iff_left (Ne.symm hne)]
    exact ht
  · intro L' hL' t hnew hlog ht
    have hseen : V ∉ (t.meet wrap_set L').WRAP_SET := by
      rw [meet_WRAP_SET]
      exact ht.1
    rw [rows_same.WRAP_SET, rows_BRR_LOG, rows_wrap_set, List.mem_append, List.mem_append, List.mem_singleton,
      List.mem_reverse, List.count_append, List.count_reverse, count_pushed hseen, meet_wrap_set]
    refine ⟨hseen, ?_⟩
    by_cases hL : L = L'
    · subst hL
      exact .inr ⟨.inr rfl, Nat.le_add_right_of_le hpair⟩
    · have hnone : V ∉ (log_rows w L').flatMap (t.meet wrap_set L').pushed := by
        intro hmem
        obtain ⟨row, hrow, hmem⟩ := List.mem_flatMap.mp hmem
        exact honly L' (Ne.symm hL) row hrow (names_of_mem_pushed hmem).1
      rw [or_iff_left hL, or_iff_right hnone]
      exact ht.2.imp_right fun h => ⟨h.1, Nat.le_add_left_of_le h.2⟩
  · rintro ⟨hcount, t, -, rfl⟩
    exact ⟨rfl, hcount⟩
  · rintro ⟨hseen, ⟨hlog, hstack⟩ | ⟨-, hcount⟩⟩
    · exact .inl ⟨hseen, hstack, hlog⟩
    · exact .inr (.inl hcount)

/-- A walk that reads of a wrap set twice in the one log that names it, as of a wrap and of the roll behind it,
dies when the set comes off the stack again, unless it ends short before. -/
theorem twice_named_dies {n : ℕ} {start V L : Text} (h : walk w stop n (.start start) = some (.ok s))
    (hV : V ≠ start) (hpair : 2 ≤ ((log_rows w L).filter (·.Names V)).length)
    (honly : ∀ L' ≠ L, ∀ row ∈ log_rows w L', ¬ row.Names V) (hL : L ∈ s.BRR_LOG) : Short w stop s := by
  have hstart : Unheard V L (.start start) := ⟨List.not_mem_nil, by simpa [State.start] using hV, List.not_mem_nil⟩
  obtain ⟨hend, hstack⟩ := walk_keeps (P := fun s => (s.wrap_set = [] ∧ Short w stop s) ∨ Unheard V L s ∨ Pending V s)
    (fun s s' hs hturn => by
      rcases hs with ⟨hnil, -⟩ | hs | hs
      · obtain ⟨W, rest, hcons, -⟩ := hturn
        cases hnil.symm.trans hcons
      · obtain ⟨W, rest, hcons, hvisit⟩ := hturn
        obtain ⟨-, s₁, hfrisked, ⟨hnil, rfl⟩ | ⟨-, ls, s₂, -, hreads, rfl⟩⟩ := visit_cases hvisit
        · exact .inl ⟨rfl, .inl hnil⟩
        have hne := hs.stack
        rw [hcons, List.mem_cons, not_or] at hne
        have h₁ : Unheard V L s₁ := by
          refine ⟨?_, ?_, ?_⟩
          · rw [hfrisked.WRAP_SET, List.mem_append, List.mem_singleton, not_or]
            exact ⟨hs.seen, hne.1⟩
          · rw [hfrisked.stack]
            exact hne.2
          · rw [hfrisked.BRR_LOG]
            exact hs.log
        rcases h₁.reads hreads hpair honly with ⟨hcut, hcount⟩ | hs₂ | hs₂
        · exact .inl ⟨hcut, .inr hcount⟩
        · exact .inr (.inl ⟨hs₂.seen, hs₂.stack, hs₂.log⟩)
        · exact .inr (.inr hs₂)
      · exact (hs.turn hturn).imp_right .inr) h (.inr (.inl hstart))
  rcases hend with hcut | hunheard | hpending
  · exact hcut.2
  · exact absurd hL hunheard.log
  · rw [Pending, hstack] at hpending
    simp at hpending

/-- A log with the wrap and the roll of a wrap set. -/
def pair_world : World :=
  plain_world [(udig_of 'a', udig_of 'b' ++ ['\n']),
    (udig_of 'b', row_of .wrap (udig_of 'c') "ok".toList ++ row_of .roll (udig_of 'c') "ok".toList),
    (udig_of 'c', udig_of 'd' ++ ['\n'])]

/-- It is walked as long as no more than the one log is asked for. -/
theorem pair_world_short : ∃ s, walk pair_world 1 4 (.start (udig_of 'a')) = some (.ok s) ∧ Counted 1 s := by
  obtain ⟨s, h, hL, holdest⟩ := @exists_walk pair_world 1 4 (udig_of 'a')
    (fun s => udig_of 'b' ∈ s.BRR_LOG ∧ s.oldest_wrap_set = udig_of 'a') _ (by decide +kernel)
  have hshort := @twice_named_dies pair_world 1 s 4 (udig_of 'a') (udig_of 'c') (udig_of 'b') h (by decide)
    (by decide +kernel) (fun L' hne row hrow => ?_) hL
  · exact ⟨s, h, hshort.resolve_left (by rw [holdest]; decide +kernel)⟩
  intro _
  by_cases hthere : There pair_world L'
  · obtain ⟨blob, hblob⟩ := hthere
    have hmem := mem_of_plain hblob
    simp only [List.map_cons, List.map_nil, List.mem_cons, List.not_mem_nil, or_false] at hmem
    have hnil : ∀ L ∈ [udig_of 'a', udig_of 'c'], log_rows pair_world L = [] := by decide +kernel
    rcases hmem with rfl | rfl | rfl
    · rw [hnil _ (by simp)] at hrow
      cases hrow
    · exact hne rfl
    · rw [hnil _ (by simp)] at hrow
      cases hrow
  · unfold log_rows at hrow
    split at hrow
    · rename_i blob hblob
      exact hthere ⟨blob, hblob⟩
    · cases hrow

end turns

end Blobio.Walk
