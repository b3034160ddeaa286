import Mathlib.Logic.Function.Basic
import Blobio.CivilDates
import Blobio.DecimalNumerals
import Blobio.HexDigests

/-! The writer of `flowd` that rolls its file: stamps, renames and truncations, with the records
between them. -/
namespace Blobio.FileRolls
open CivilDates DecimalNumerals

/-- The seconds of the epoch, and those since the year 2000 by the local clock. -/
structure Reading where
  unix : ℤ
  civil : ℤ

inductive StampFormat
  | Dow | YYYYMMDD | epoch | YYYYMMDD_hhmmss

def year_text : ℤ → Text
  | .ofNat n => padded 4 n
  | .negSucc n => '-' :: padded 4 (n + 1)

def date_text (d : Date) : Text :=
  year_text d.year ++ (padded 2 d.month ++ padded 2 d.day)

def time_text (second : ℕ) : Text :=
  padded 2 (second / 3600) ++ (padded 2 (second % 3600 / 60) ++ padded 2 (second % 60))

/-- The first of January of the year 2000 is a Saturday. -/
def weekday (days : ℤ) : Text :=
  (["Sun", "Mon", "Tue", "Wed", "Thu", "Fri", "Sat"].getD ((days + 6) % 7).toNat "").toList

def make_stamp (stamp_format : StampFormat) (now : Reading) : Text :=
  match stamp_format with
  | .Dow => weekday (now.civil / 86400)
  | .YYYYMMDD => date_text (date_of_days (now.civil / 86400))
  | .epoch => signed now.unix
  | .YYYYMMDD_hhmmss => date_text (date_of_days (now.civil / 86400)) ++ '_' :: time_text
    (now.civil % 86400).toNat

/-- The arguments of `map_roll`; a tick of its clock may come at any time. -/
structure Roller where
  stem : Text
  stamp_format : StampFormat
  suffix : Text
  stamp_active : Bool
  notify_roll : Bool

namespace Roller
variable (c : Roller)

def stamped_path (stamp : Text) : Text :=
  c.stem ++ '-' :: (stamp ++ '.' :: c.suffix)

def make_active_path (now : Reading) : Text :=
  if c.stamp_active then c.stamped_path (make_stamp c.stamp_format now) else c.stem ++ '.' :: c.suffix

end Roller

/-- A file is what was written to it. -/
abbrev Files := Text → Option (List Bytes)

def content (files : Files) (path : Text) : List Bytes :=
  (files path).getD []

/-- The variables of the writer, the last reading of the clock, and of its history: the content that was
there and the records, the files that were closed and what they are called, and whether one of them was
renamed over or truncated. -/
structure State where
  files : Files
  stamp : Text
  open_path : Text
  now : Reading
  records : List Bytes
  rolled : List Text
  overwritten : Bool

/-- A tick of the clock, with the readings for the stamp and for the active path, and the entries of the
watcher before and after a roll. -/
structure Tick where
  stamp_read : Reading
  path_read : Reading
  before : List Bytes
  after : List Bytes

namespace State

def write (s : State) (bytes : Bytes) : State :=
  { s with
    files := Function.update s.files s.open_path (some (content s.files s.open_path ++ [bytes]))
    records := s.records ++ [bytes] }

def close (s : State) : State :=
  { s with rolled := s.rolled ++ [s.open_path] }

/-- The closed file under another name. -/
def rename (s : State) (path : Text) : State :=
  { s with
    files := Function.update (Function.update s.files s.open_path none) path (s.files s.open_path)
    rolled := s.rolled ++ [path]
    overwritten := s.overwritten || decide (path ∈ s.rolled) }

def open_truncate (s : State) (path : Text) : State :=
  { s with
    files := Function.update s.files path (some [])
    open_path := path
    overwritten := s.overwritten || decide (path ∈ s.rolled) }

end State

/-- The first open is append. -/
def start (c : Roller) (files : Files) (stamp_read path_read : Reading) : State :=
  let open_path := c.make_active_path path_read
  { files := Function.update files open_path (some (content files open_path))
    stamp := make_stamp c.stamp_format stamp_read
    open_path := open_path
    now := if c.stamp_active then path_read else stamp_read
    records := content files open_path
    rolled := []
    overwritten := false }

/-- The last reading of a roll: without a stamp in it, the active path takes none. -/
def Tick.last (c : Roller) (t : Tick) : Reading :=
  if c.stamp_active then t.path_read else t.stamp_read

def roll (c : Roller) (s : State) (t : Tick) : State :=
  let st := make_stamp c.stamp_format t.stamp_read
  if st = s.stamp then { s with now := t.stamp_read }
  else
    let roll_path := c.make_active_path t.path_read
    let s := if c.notify_roll then t.before.foldl State.write s else s
    let s := if c.stamp_active then s.close else s.rename (c.stamped_path s.stamp)
    let s := { s.open_truncate roll_path with stamp := st, now := t.last c }
    if c.notify_roll then t.after.foldl State.write s else s

/-- The states of a run whose clock never goes back, and whose ticks are all as the predicate says. -/
inductive Reached (c : Roller) (files : Files) (Ok : State → Tick → Prop) : State → Prop
  | start {stamp_read path_read : Reading} (h : stamp_read.unix ≤ path_read.unix) :
      Reached c files Ok (start c files stamp_read path_read)
  | record {s : State} (bytes : Bytes) (h : Reached c files Ok s) : Reached c files Ok (s.write bytes)
  | tick {s : State} {t : Tick} (h : Reached c files Ok s) (hnow : s.now.unix ≤ t.stamp_read.unix)
      (hlast : t.stamp_read.unix ≤ (t.last c).unix) (hok : Ok s t) : Reached c files Ok (roll c s t)

/-! ### What should hold -/

/-- The second that a stamp names. -/
def Roller.second (c : Roller) (r : Reading) : ℤ :=
  match c.stamp_format with
  | .epoch => r.unix
  | _ => r.civil

/-- Every record is in one file, in the order of the stamps and the records,
    and nothing was written over. -/
structure Conserved (c : Roller) (s : State) : Prop where
  stamped : ∃ rs : List Reading, s.rolled = rs.map (fun r => c.stamped_path (make_stamp c.stamp_format r)) ∧
    rs.Pairwise fun r r' => c.second r < c.second r'
  distinct : (s.rolled ++ [s.open_path]).Nodup
  ordered : s.rolled.flatMap (content s.files) ++ content s.files s.open_path = s.records
  kept : s.overwritten = false

/-- A roll of a stamped active file opens another one, and the local clock is not set back where it makes
the stamps. -/
structure Steady (c : Roller) (s : State) (t : Tick) : Prop where
  apart : c.stamp_active = true → make_stamp c.stamp_format t.stamp_read ≠ s.stamp →
    c.make_active_path t.path_read ≠ s.open_path
  forward : c.stamp_format = .YYYYMMDD_hhmmss →
    s.now.civil ≤ t.stamp_read.civil ∧ t.stamp_read.civil ≤ (t.last c).civil

/-! ### Stamps -/

section stamps
variable {r r' : Reading}

theorem year_text_injective : Function.Injective year_text :=
  sign_injective (fun _ _ h => padded_injective h)
    (fun _ hmem => absurd (isDigit_of_mem_padded hmem) (by decide)) (fun _ => rfl) fun _ => rfl

/-- Two digits at the end of a text. -/
theorem two_digits_injective {t t' : Text} {n m : ℕ} (hn : n < 100) (hm : m < 100)
    (h : t ++ padded 2 n = t' ++ padded 2 m) : t = t' ∧ n = m := by
  have hlen : (padded 2 n).length = (padded 2 m).length := by
    rw [length_padded (by decide) hn, length_padded (by decide) hm]
  obtain ⟨ht, hp⟩ := List.append_inj' h hlen
  exact ⟨ht, padded_injective hp⟩

theorem date_text_injective {days days' : ℤ}
    (h : date_text (date_of_days days) = date_text (date_of_days days')) : days = days' := by
  have hbounds : ∀ days, (date_of_days days).month < 100 ∧ (date_of_days days).day < 100 := by
    intro days
    obtain ⟨-, hmonth, hday⟩ := month_of_lt days
    have hmost := days_in_le (month_of days).1 (year_of days).1
    constructor
    · exact lt_of_le_of_lt hmonth (by decide)
    · change (month_of days).2 + 1 < 100
      omega
  rw [date_text, date_text, ← List.append_assoc, ← List.append_assoc] at h
  obtain ⟨h, hday⟩ := two_digits_injective (hbounds days).2 (hbounds days').2 h
  obtain ⟨h, hmonth⟩ := two_digits_injective (hbounds days).1 (hbounds days').1 h
  have hyear := year_text_injective h
  have hdate : date_of_days days = date_of_days days' := (Date.mk.injEq ..).mpr ⟨hyear, hmonth, hday⟩
  exact date_of_days_injective hdate

theorem time_text_injective {t t' : Text} {n m : ℕ} (hn : n < 86400) (hm : m < 86400)
    (h : t ++ time_text n = t' ++ time_text m) : t = t' ∧ n = m := by
  unfold time_text at h
  rw [← List.append_assoc, ← List.append_assoc, ← List.append_assoc, ← List.append_assoc] at h
  obtain ⟨h, hsec⟩ := two_digits_injective (by omega) (by omega) h
  obtain ⟨h, hmin⟩ := two_digits_injective (by omega) (by omega) h
  obtain ⟨h, hhr⟩ := two_digits_injective (by omega) (by omega) h
  exact ⟨h, by omega⟩

/-- The format names the second. -/
def Roller.ToSecond (c : Roller) : Prop :=
  c.stamp_format = .epoch ∨ c.stamp_format = .YYYYMMDD_hhmmss

/-- Stamps differ exactly if their seconds do. -/
theorem make_stamp_eq_iff {c : Roller} (hc : c.ToSecond) :
    make_stamp c.stamp_format r = make_stamp c.stamp_format r' ↔ c.second r = c.second r' := by
  unfold Roller.second
  rcases hc with hc | hc
  · rw [hc]
    exact signed_injective.eq_iff
  · rw [hc]
    unfold make_stamp
    constructor
    · intro h
      dsimp only at h
      rw [List.append_cons, List.append_cons _ '_' (time_text (r'.civil % 86400).toNat)] at h
      have hlt : ∀ i : ℤ, (i % 86400).toNat < 86400 := by omega
      obtain ⟨hdate, htime⟩ := time_text_injective (hlt _) (hlt _) h
      have hdays := date_text_injective (List.append_cancel_right hdate)
      change r.civil = r'.civil
      omega
    · intro h
      change r.civil = r'.civil at h
      rw [h]

theorem stamped_path_eq_iff {c : Roller} (hc : c.ToSecond) :
    c.stamped_path (make_stamp c.stamp_format r) = c.stamped_path (make_stamp c.stamp_format r') ↔
      c.second r = c.second r' := by
  rw [← make_stamp_eq_iff hc, Roller.stamped_path, Roller.stamped_path, List.append_right_inj,
    List.cons.injEq,
    and_iff_right rfl, List.append_left_inj]

theorem plain_ne_stamped_path (c : Roller)
    (stamp : Text) : c.stem ++ '.' :: c.suffix ≠ c.stamped_path stamp := by
  intro h
  have hchar := (List.cons.inj (List.append_cancel_left h)).1
  exact absurd hchar (by decide)

end stamps

/-! ### Runs -/

/-- The files that were closed and the open one are those of readings that come one after the other. -/
structure Kept (c : Roller) (s : State) (rs : List Reading) (cur : Reading) : Prop where
  names : s.rolled = rs.map fun r => c.stamped_path (make_stamp c.stamp_format r)
  increasing : (rs ++ [cur]).Pairwise fun r r' => c.second r < c.second r'
  now : c.second cur ≤ c.second s.now
  active : s.open_path = c.make_active_path cur
  stamp : c.stamp_active = false → s.stamp = make_stamp c.stamp_format cur
  ordered : s.rolled.flatMap (content s.files) ++ content s.files s.open_path = s.records
  kept : s.overwritten = false

section kept
variable {c : Roller} {s : State} {rs : List Reading} {cur r : Reading}

@[simp] theorem content_update (files : Files) (path : Text) (bs : List Bytes) :
    content (Function.update files path (some bs)) path = bs := by
  rw [content, Function.update_self, Option.getD_some]

theorem content_update_of_ne {path path' : Text} (h : path' ≠ path) (files : Files) (file : Option
    (List Bytes)) :
    content (Function.update files path file) path' = content files path' := by
  rw [content, Function.update_of_ne h, content]

/-- The other files stay as they are. -/
theorem flatMap_update {path : Text} {paths : List Text} (h : path ∉ paths) (files : Files)
    (file : Option (List Bytes)) :
    paths.flatMap (content (Function.update files path file)) = paths.flatMap (content files) := by
  refine List.flatMap_congr fun path' hmem => content_update_of_ne ?_ files file
  rintro rfl
  exact h hmem

/-- A later second is no stamp of a closed file. -/
theorem Kept.stamped_path_not_mem (h : Kept c s rs cur) (hc : c.ToSecond) (hr : c.second cur ≤ c.second r) :
    c.stamped_path (make_stamp c.stamp_format r) ∉ s.rolled := by
  rw [h.names, List.mem_map]
  rintro ⟨r', hmem, heq⟩
  have hlt := (List.pairwise_append.mp h.increasing).2.2 r' hmem cur List.mem_cons_self
  rw [stamped_path_eq_iff hc] at heq
  omega

theorem Kept.open_path_not_mem (h : Kept c s rs cur) (hc : c.ToSecond) : s.open_path ∉ s.rolled := by
  rw [h.active, Roller.make_active_path]
  split_ifs
  · exact h.stamped_path_not_mem hc (le_refl _)
  · rw [h.names, List.mem_map]
    rintro ⟨r', -, heq⟩
    exact plain_ne_stamped_path c _ heq.symm

theorem Kept.nodup (h : Kept c s rs cur) (hc : c.ToSecond) : (s.rolled ++ [s.open_path]).Nodup := by
  have hrolled : s.rolled.Nodup := by
    rw [h.names, List.Nodup, List.pairwise_map]
    refine (List.pairwise_append.mp h.increasing).1.imp fun hlt heq => ?_
    rw [stamped_path_eq_iff hc] at heq
    omega
  refine List.nodup_append.mpr ⟨hrolled, by simp, fun path hmem path' hopen heq => ?_⟩
  rw [heq, List.mem_singleton.mp hopen] at hmem
  exact h.open_path_not_mem hc hmem

theorem Kept.write (h : Kept c s rs cur) (hc : c.ToSecond) (bytes : Bytes) : Kept c
    (s.write bytes) rs cur where
  names := h.names
  increasing := h.increasing
  now := h.now
  active := h.active
  stamp := h.stamp
  ordered := by
    change s.rolled.flatMap (content (Function.update _ _ _)) ++ content
      (Function.update _ _ _) s.open_path = _
    rw [flatMap_update (h.open_path_not_mem hc), content_update, ← List.append_assoc, h.ordered]
    rfl
  kept := h.kept

theorem Kept.writes (h : Kept c s rs cur) (hc : c.ToSecond) (entries : List Bytes) :
    Kept c (entries.foldl State.write s) rs cur := by
  induction entries generalizing s with
  | nil => exact h
  | cons bytes entries ih => exact ih (h.write hc bytes)

/-- Later readings go behind the earlier ones. -/
theorem Kept.later (h : Kept c s rs cur) (hr : c.second cur < c.second r) :
    (rs ++ [cur] ++ [r]).Pairwise fun r r' => c.second r < c.second r' := by
  refine List.pairwise_append.mpr ⟨h.increasing, List.pairwise_singleton _ _, fun r₁ hmem r₂ hr₂ => ?_⟩
  rw [List.mem_singleton.mp hr₂]
  rcases List.mem_append.mp hmem with hmem | hmem
  · exact ((List.pairwise_append.mp h.increasing).2.2 r₁ hmem cur List.mem_cons_self).trans hr
  · rwa [List.mem_singleton.mp hmem]

/-- With its stamp in its name, a closed file stays where it is. -/
theorem Kept.stamped (h : Kept c s rs cur) (hc : c.ToSecond) (hactive : c.stamp_active = true)
    (hr : c.second cur < c.second r) (st : Text) :
    Kept c { s.close.open_truncate (c.make_active_path r) with stamp := st, now := r } (rs ++ [cur]) r := by
  have hopen : c.make_active_path r = c.stamped_path (make_stamp c.stamp_format r) := if_pos hactive
  have hclosed : s.open_path = c.stamped_path (make_stamp c.stamp_format cur) := h.active.trans
    (if_pos hactive)
  have hnew : c.make_active_path r ∉ s.rolled ++ [s.open_path] := by
    rw [List.mem_append, List.mem_singleton, not_or, hopen, hclosed, stamped_path_eq_iff hc]
    exact ⟨h.stamped_path_not_mem hc hr.le, by omega⟩
  refine ⟨?_, h.later hr, le_refl _, rfl, fun hno => ?_, ?_, ?_⟩
  · change s.rolled ++ [s.open_path] = _
    rw [List.map_append, ← h.names, hclosed]
    rfl
  · rw [hactive] at hno
    cases hno
  · change (s.rolled ++ [s.open_path]).flatMap (content (Function.update _ _ _)) ++
      content (Function.update _ _ _) (c.make_active_path r) = s.records
    rw [flatMap_update hnew, content_update, List.append_nil, List.flatMap_append, List.flatMap_singleton]
    exact h.ordered
  · change (s.overwritten || decide (c.make_active_path r ∈ s.rolled ++ [s.open_path])) = false
    rw [h.kept, Bool.false_or, decide_eq_false hnew]

/-- Without, it gets the stamp that it was opened with. -/
theorem Kept.renamed (h : Kept c s rs cur) (hc : c.ToSecond) (hactive : c.stamp_active = false)
    (hr : c.second cur < c.second r) :
    Kept c { (s.rename (c.stamped_path s.stamp)).open_truncate (c.make_active_path r) with
      stamp := make_stamp c.stamp_format r, now := r } (rs ++ [cur]) r := by
  have hplain : ∀ r, c.make_active_path r = c.stem ++ '.' :: c.suffix := fun r => if_neg
    (by rw [hactive]; simp)
  have hsame : c.make_active_path r = s.open_path := by rw [h.active, hplain, hplain]
  have hne : s.open_path ≠ c.stamped_path s.stamp := by
    rw [h.active, hplain]
    exact plain_ne_stamped_path c _
  have hnew : c.stamped_path s.stamp ∉ s.rolled := by
    rw [h.stamp hactive]
    exact h.stamped_path_not_mem hc (le_refl _)
  have hopen : s.open_path ∉ s.rolled ++ [c.stamped_path s.stamp] := by
    rw [List.mem_append, List.mem_singleton, not_or]
    exact ⟨h.open_path_not_mem hc, hne⟩
  refine ⟨?_, h.later hr, le_refl _, rfl, fun _ => rfl, ?_, ?_⟩
  · change s.rolled ++ [c.stamped_path s.stamp] = _
    rw [List.map_append, ← h.names, h.stamp hactive]
    rfl
  · change (s.rolled ++ [c.stamped_path s.stamp]).flatMap (content (Function.update _ _ _)) ++
      content (Function.update _ _ _) (c.make_active_path r) = s.records
    rw [hsame, flatMap_update hopen, content_update, List.append_nil, List.flatMap_append,
      List.flatMap_singleton]
    change s.rolled.flatMap (content (Function.update (Function.update _ _ _) _ _)) ++
      content (Function.update _ _ _) (c.stamped_path s.stamp) = s.records
    rw [flatMap_update hnew, flatMap_update (h.open_path_not_mem hc), content, Function.update_self]
    exact h.ordered
  · change (s.overwritten || decide (c.stamped_path s.stamp ∈ s.rolled) ||
      decide (c.make_active_path r ∈ s.rolled ++ [c.stamped_path s.stamp])) = false
    rw [h.kept, hsame, decide_eq_false hnew, decide_eq_false hopen]
    rfl

/-- The entries of a watcher, if there is one. -/
theorem Kept.watched (h : Kept c s rs cur) (hc : c.ToSecond) (entries : List Bytes) :
    Kept c (if c.notify_roll = true then entries.foldl State.write s else s) rs cur := by
  split_ifs
  · exact h.writes hc entries
  · exact h

/-- A tick of a steady run goes on with a later reading, or with the same file. -/
theorem Kept.roll (h : Kept c s rs cur) (hc : c.ToSecond) {t : Tick}
    (hnow : c.second s.now ≤ c.second t.stamp_read)
    (hlast : c.second t.stamp_read ≤ c.second (t.last c)) (hsteady : Steady c s t) :
    ∃ rs' cur', Kept c (roll c s t) rs' cur' := by
  unfold FileRolls.roll
  dsimp only
  by_cases hst : make_stamp c.stamp_format t.stamp_read = s.stamp
  · rw [if_pos hst]
    exact ⟨rs, cur, { h with now := h.now.trans hnow }⟩
  rw [if_neg hst]
  have hbefore := h.watched hc t.before
  have hcur := h.now.trans hnow
  -- The watcher's last entries are in the old file, with the variables as they were.
  generalize (if c.notify_roll = true then t.before.foldl State.write s else s) = s₁ at hbefore ⊢
  refine ⟨rs ++ [cur], t.last c, Kept.watched ?_ hc t.after⟩
  cases hactive : c.stamp_active with
  | true =>
    have hread : t.last c = t.path_read := if_pos hactive
    have hopen : c.make_active_path t.path_read = c.stamped_path (make_stamp c.stamp_format t.path_read) :=
      if_pos hactive
    have hclosed : s.open_path = c.stamped_path (make_stamp c.stamp_format cur) := h.active.trans
      (if_pos hactive)
    have hne := hsteady.apart hactive hst
    rw [hopen, hclosed, ne_eq, stamped_path_eq_iff hc] at hne
    rw [hread] at hlast ⊢
    exact hbefore.stamped hc hactive (by omega) _
  | false =>
    have hread : t.last c = t.stamp_read := if_neg (by rw [hactive]; simp)
    rw [h.stamp hactive, make_stamp_eq_iff hc] at hst
    have hkept := hbefore.renamed hc hactive (by omega : c.second cur < c.second t.stamp_read)
    have hsame : c.make_active_path t.path_read = c.make_active_path t.stamp_read := by
      unfold Roller.make_active_path
      rw [hactive]
      rfl
    rw [hread, hsame]
    exact hkept

/-- Every state of a steady run. -/
theorem kept_of_reached (hc : c.ToSecond) {files : Files} (h : Reached c files (Steady c) s) :
    ∃ rs cur, Kept c s rs cur := by
  induction h with
  | @start stamp_read path_read h =>
    refine ⟨[], if c.stamp_active then path_read else stamp_read, rfl, List.pairwise_singleton _ _,
      le_refl _, ?_, fun hactive => ?_, content_update files _ _, rfl⟩
    · change c.make_active_path path_read =
        c.make_active_path (if c.stamp_active then path_read else stamp_read)
      cases hactive : c.stamp_active with
      | true => rfl
      | false =>
        unfold Roller.make_active_path
        rw [hactive]
        rfl
    · rw [hactive]
      rfl
  | record bytes h ih =>
    obtain ⟨rs, cur, hkept⟩ := ih
    exact ⟨rs, cur, hkept.write hc bytes⟩
  | tick h hnow hlast hok ih =>
    obtain ⟨rs, cur, hkept⟩ := ih
    have hsecond : ∀ r r' : Reading, r.unix ≤ r'.unix → (c.stamp_format = .YYYYMMDD_hhmmss →
      r.civil ≤ r'.civil) →
        c.second r ≤ c.second r' := by
      intro r r' hunix hcivil
      unfold Roller.second
      rcases hc with hc | hc
      · rw [hc]
        exact hunix
      · rw [hc]
        exact hcivil hc
    exact hkept.roll hc (hsecond _ _ hnow fun hf => (hok.forward hf).1) (hsecond _ _ hlast fun hf =>
      (hok.forward hf).2) hok

end kept

/-- In a run of steady ticks no record is lost. -/
theorem rolls_conserve (c : Roller) (hc : c.stamp_format = .epoch ∨ c.stamp_format = .YYYYMMDD_hhmmss)
    (files : Files) (s : State) (h : Reached c files (Steady c) s) : Conserved c s := by
  obtain ⟨rs, cur, hkept⟩ := kept_of_reached hc h
  exact ⟨⟨rs, hkept.names, (List.pairwise_append.mp hkept.increasing).1⟩, hkept.nodup hc, hkept.ordered,
    hkept.kept⟩

section runs

def empty : Files := fun _ => none

/-- A stamped active file, one stamp a second. -/
def stamped : Roller := ⟨"flowd".toList, .epoch, "log".toList, true, false⟩

/-- Two rolls, with a record before each of them. -/
theorem two_rolls_conserve :
    Conserved stamped
      (roll stamped ((roll stamped ((start stamped empty ⟨1, 1⟩ ⟨1, 1⟩).write [0]) ⟨⟨2, 2⟩, ⟨2, 2⟩, [], []⟩).write [1])
        ⟨⟨3, 3⟩, ⟨3, 3⟩, [], []⟩) :=
  have hfirst : Reached stamped empty (Steady stamped)
      (roll stamped ((start stamped empty ⟨1, 1⟩ ⟨1, 1⟩).write [0]) ⟨⟨2, 2⟩, ⟨2, 2⟩, [], []⟩) :=
    .tick (.record [0] (.start (by decide))) (by decide) (by decide) ⟨fun _ _ => by decide, fun h => by cases h⟩
  rolls_conserve stamped (.inl rfl) empty _
    (.tick (.record [1] hfirst) (by decide) (by decide) ⟨fun _ _ => by decide, fun h => by cases h⟩)

/-- The second goes by between the stamp and the path of a roll, and the next roll truncates the file. -/
theorem record_truncated : ¬ ∀ (c : Roller), c.stamp_format = .epoch ∨ c.stamp_format = .YYYYMMDD_hhmmss →
    ∀ (files : Files) (s : State), Reached c files (fun _ _ => True) s → Conserved c s := by
  intro h
  have hfirst : Reached stamped empty (fun _ _ => True)
      (roll stamped (start stamped empty ⟨1, 1⟩ ⟨1, 1⟩) ⟨⟨2, 2⟩, ⟨3, 3⟩, [], []⟩) :=
    .tick (.start (by decide)) (by decide) (by decide) trivial
  have hsecond : Reached stamped empty (fun _ _ => True)
      (roll stamped ((roll stamped (start stamped empty ⟨1, 1⟩ ⟨1, 1⟩) ⟨⟨2, 2⟩, ⟨3, 3⟩, [], []⟩).write [0])
        ⟨⟨3, 3⟩, ⟨3, 3⟩, [], []⟩) :=
    .tick (.record [0] hfirst) (by decide) (by decide) trivial
  have hkept := (h stamped (.inl rfl) empty _ hsecond).kept
  revert hkept
  decide

end runs

end Blobio.FileRolls
