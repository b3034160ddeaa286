import Blobio.RequestLines
import Blobio.TerminatedLines

/-! The map from the beginnings of digests to temporary directories, as `$BLOBIO_TMPDIR_MAP` has
it. -/
namespace Blobio.TmpMaps
open TerminatedLines

structure TmpMapEntry where
  digest_algorithm : Text
  digest_prefix : Text
  path : Text
  deriving DecidableEq

/-- An entry between the tabs, as the value of the variable has it. -/
def TmpMapEntry.fields (e : TmpMapEntry) : List Text :=
  [e.digest_algorithm ++ ':' :: e.digest_prefix, e.path]

/-- A panic, or a path that is written past its field. -/
inductive Failure
  | panic
  | overflow
  deriving DecidableEq

section make_map
variable (installed : Installed)

/-- The strings between the tabs two by two, the first of each cut at its colon and checked. -/
def check_map : List Text → Option (List TmpMapEntry)
  | [] => some []
  | [_] => none
  | p :: path :: rest =>
    let algorithm := p.takeWhile (· ≠ ':')
    let digest_prefix := p.drop (algorithm.length + 1)
    if ':' ∉ p then none
    else if 8 < algorithm.length then none
    else if module_get installed algorithm = none then none
    else if digest_prefix.length = 0 then none
    else if 128 < digest_prefix.length then none
    else if digest_prefix.any fun c => ¬ isgraph c then none
    else (check_map rest).map (⟨algorithm, digest_prefix, path⟩ :: ·)

/-- The copies into the table. The length that is checked is that of what the path's field holds
before, `junk`, not of the path. -/
def fill_map (junk : ℕ → ℕ) : ℕ → List TmpMapEntry → Except Failure (List TmpMapEntry)
  | _, [] => .ok []
  | i, e :: es =>
    if 96 < junk i then .error .panic
    else if 96 < e.path.length then .error .overflow
    else (fill_map junk (i + 1) es).map (e :: ·)

def make_map (junk : ℕ → ℕ) (value : Text) : Except Failure (List TmpMapEntry) :=
  if 4096 ≤ value.length then .error .panic
  else if value.count '\t' = 0 then .error .panic
  else if value.count '\t' % 2 = 0 then .error .panic
  else
    match check_map installed (value.splitOn '\t') with
    | none => .error .panic
    | some entries => fill_map junk 0 entries

end make_map

/-- `strncmp` of two strings is 0. -/
def strncmp_eq : ℕ → Text → Text → Bool
  | 0, _, _ => true
  | _ + 1, [], [] => true
  | n + 1, a :: as, b :: bs => a = b ∧ strncmp_eq n as bs
  | _ + 1, _, _ => false

def tmp_cmp (tm : TmpMapEntry) (digest_algorithm digest_prefix : Text) : Bool :=
  digest_algorithm = tm.digest_algorithm ∧ strncmp_eq tm.digest_prefix.length digest_prefix tm.digest_prefix

/-- An empty algorithm ends the table. -/
def tmp_get (default_path digest_algorithm digest_prefix : Text) : List TmpMapEntry → Text
  | [] => default_path
  | tm :: tmp_map =>
    if tm.digest_algorithm = [] then default_path
    else if tmp_cmp tm digest_algorithm digest_prefix then tm.path
    else tmp_get default_path digest_algorithm digest_prefix tmp_map

/-! ### What the map stands for -/

/-- An entry that the checks let through, whatever its path is. -/
structure EntryChecked (installed : Installed) (e : TmpMapEntry) : Prop where
  algorithm : ∃ m ∈ installed.modules, e.digest_algorithm = m.name
  prefix_length : 1 ≤ e.digest_prefix.length ∧ e.digest_prefix.length ≤ 128
  prefix_graph : ∀ c ∈ e.digest_prefix, isgraph c

/-- The value of the environment variable for these entries. -/
structure Spells (installed : Installed) (value : Text) (entries : List TmpMapEntry) : Prop where
  fields : value.splitOn '\t' = entries.flatMap TmpMapEntry.fields
  ne_nil : entries ≠ []
  checked : ∀ e ∈ entries, EntryChecked installed e
  length_lt : value.length < 4096

/-- Every value that is accepted yields its entries, in their fields, and the directory of a
digest is that of the first entry that is about it. -/
def MapRight (installed : Installed) (value : Text) : Prop :=
  ∀ junk, make_map installed junk value ≠ .error .panic → ∃ entries,
    make_map installed junk value = .ok entries ∧
    Spells installed value entries ∧
    (∀ e ∈ entries, e.digest_algorithm.length ≤ 8 ∧ e.digest_prefix.length ≤ 128 ∧ e.path.length ≤ 96) ∧
    ∀ default_path algorithm digest, tmp_get default_path algorithm digest entries =
      ((entries.find? fun e => e.digest_algorithm = algorithm ∧ e.digest_prefix <+: digest).map
        TmpMapEntry.path).getD default_path

variable {installed : Installed} {value : Text} {entries : List TmpMapEntry}

theorem strncmp_eq_iff (p d : Text) : strncmp_eq p.length d p ↔ p <+: d := by
  induction p generalizing d with
  | nil => simp [strncmp_eq]
  | cons a p ih =>
    cases d with
    | nil => simp [strncmp_eq]
    | cons b d =>
      simp only [List.length_cons, strncmp_eq, Bool.decide_and, Bool.and_eq_true,
        decide_eq_true_eq, ih, List.cons_prefix_cons]
      exact and_congr_left' eq_comm

theorem EntryChecked.algorithm_ne_nil {e : TmpMapEntry} (h : EntryChecked installed e) :
    e.digest_algorithm ≠ [] := by
  obtain ⟨m, -, hm⟩ := h.algorithm
  rw [hm]
  cases m <;> decide

theorem tmp_get_eq (hchecked : ∀ e ∈ entries, EntryChecked installed e)
    (default_path algorithm digest : Text) :
    tmp_get default_path algorithm digest entries =
      ((entries.find? fun e => e.digest_algorithm = algorithm ∧ e.digest_prefix <+: digest).map
        TmpMapEntry.path).getD default_path := by
  induction entries with
  | nil => rfl
  | cons e entries ih =>
    have hrest := ih fun e' he' => hchecked e' (List.mem_cons_of_mem _ he')
    have hne := (hchecked e List.mem_cons_self).algorithm_ne_nil
    have hcmp : tmp_cmp e algorithm digest ↔ e.digest_algorithm = algorithm ∧ e.digest_prefix <+: digest :=
      by
      simp only [tmp_cmp, strncmp_eq_iff, decide_eq_true_eq]
      exact and_congr_left' eq_comm
    rw [tmp_get, if_neg hne, List.find?_cons]
    by_cases h : e.digest_algorithm = algorithm ∧ e.digest_prefix <+: digest
    · rw [if_pos (hcmp.mpr h)]
      simp [h]
    · rw [if_neg (fun hc => h (hcmp.mp hc)), hrest]
      simp [h]

/-! ### The checks and the copies -/

theorem name_colon (m : DigestModule) : ':' ∉ m.name := by cases m <;> decide

theorem name_length (m : DigestModule) : m.name.length ≤ 8 := by cases m <;> decide

theorem check_map_cons {a d path : Text} {rest : List Text} (ha : ':' ∉ a) :
    check_map installed ((a ++ ':' :: d) :: path :: rest) = some entries ↔
      EntryChecked installed ⟨a, d, path⟩ ∧
        ∃ es, check_map installed rest = some es ∧ ⟨a, d, path⟩ :: es = entries := by
  have hdrop : (a ++ ':' :: d).drop (a.length + 1) = d := by
    rw [List.drop_append, List.drop_eq_nil_of_le (Nat.le_succ _), Nat.add_sub_cancel_left]
    rfl
  rw [check_map, takeWhile_ne ha, hdrop, if_neg (by simp)]
  constructor
  · intro h
    split_ifs at h with hlong hmodule hempty hpath hgraph
    obtain ⟨m, hm⟩ := Option.ne_none_iff_exists'.mp hmodule
    obtain ⟨hmem, hname⟩ := module_get_eq_some.mp hm
    refine ⟨⟨⟨m, hmem, hname.symm⟩, ⟨?_, ?_⟩, ?_⟩, ?_⟩
    · exact Nat.one_le_iff_ne_zero.mpr hempty
    · exact not_lt.mp hpath
    · simpa using hgraph
    · exact Option.map_eq_some_iff.mp h
  · rintro ⟨he, hes⟩
    obtain ⟨m, hmem, hname⟩ := he.algorithm
    have hmodule : module_get installed a = some m := module_get_eq_some.mpr ⟨hmem, hname.symm⟩
    have hlong : ¬ 8 < a.length := by
      rw [not_lt, show a = m.name from hname]
      exact name_length m
    have hempty : d.length ≠ 0 := Nat.one_le_iff_ne_zero.mp he.prefix_length.1
    have hgraph : ¬ d.any fun c => ¬ isgraph c := by
      simpa using he.prefix_graph
    rw [if_neg hlong, if_neg (by simp [hmodule]), if_neg hempty, if_neg (not_lt.mpr he.prefix_length.2),
      if_neg hgraph]
    exact Option.map_eq_some_iff.mpr hes

theorem check_map_eq_some {fields : List Text} : check_map installed fields = some entries ↔
    fields = entries.flatMap TmpMapEntry.fields ∧ ∀ e ∈ entries, EntryChecked installed e := by
  induction fields using List.twoStepInduction generalizing entries with
  | nil => cases entries <;> simp [check_map, TmpMapEntry.fields]
  | singleton p => cases entries <;> simp [check_map, TmpMapEntry.fields]
  | cons_cons p path rest ih _ =>
    constructor
    · intro h
      have hcolon : ':' ∈ p := by
        by_contra hcolon
        simp [check_map, hcolon] at h
      obtain ⟨a, d, rfl, ha⟩ := List.eq_append_cons_of_mem hcolon
      obtain ⟨he, es, hes, rfl⟩ := (check_map_cons ha).mp h
      obtain ⟨hrest, hchecked⟩ := ih.mp hes
      exact ⟨by rw [hrest]; rfl, List.forall_mem_cons.mpr ⟨he, hchecked⟩⟩
    · rintro ⟨hfields, hchecked⟩
      cases entries with
      | nil => cases hfields
      | cons e es =>
        rw [List.forall_mem_cons] at hchecked
        obtain ⟨he, hes⟩ := hchecked
        rw [List.flatMap_cons, TmpMapEntry.fields, List.cons_append, List.cons_append, List.nil_append,
          List.cons.injEq, List.cons.injEq] at hfields
        obtain ⟨rfl, rfl, hrest⟩ := hfields
        obtain ⟨m, -, hm⟩ := he.algorithm
        have ha : ':' ∉ e.digest_algorithm := hm ▸ name_colon m
        exact (check_map_cons ha).mpr ⟨he, es, ih.mpr ⟨hrest, hes⟩, rfl⟩

theorem fill_map_of_short {junk : ℕ → ℕ} (h : ∀ e ∈ entries, e.path.length ≤ 96) (i : ℕ) :
    fill_map junk i entries = .ok entries ∨ fill_map junk i entries = .error .panic := by
  induction entries generalizing i with
  | nil => exact .inl rfl
  | cons e es ih =>
    rw [List.forall_mem_cons] at h
    rw [fill_map, if_neg (not_lt.mpr h.1)]
    split_ifs
    · exact .inr rfl
    · rcases ih h.2 (i + 1) with hok | hpanic
      · exact .inl (by rw [hok]; rfl)
      · exact .inr (by rw [hpanic]; rfl)

theorem fill_map_of_long {e : TmpMapEntry} (he : e ∈ entries) (hlong : 96 < e.path.length) (i : ℕ) :
    fill_map (fun _ => 0) i entries = .error .overflow := by
  induction entries generalizing i with
  | nil => cases he
  | cons e' es ih =>
    rw [fill_map, if_neg (by decide)]
    split_ifs with hlong'
    · rfl
    · rcases List.mem_cons.mp he with rfl | hmem
      · exact absurd hlong hlong'
      · rw [ih hmem (i + 1)]
        rfl

theorem length_fields (entries : List TmpMapEntry) :
    (entries.flatMap TmpMapEntry.fields).length = 2 * entries.length := by
  induction entries with
  | nil => rfl
  | cons e es ih =>
    rw [List.flatMap_cons, List.length_append, ih, List.length_cons, Nat.mul_succ, Nat.add_comm]
    rfl

/-- A value with two fields for each of some entries has an odd number of tabs. -/
theorem count_tabs (h : value.splitOn '\t' = entries.flatMap TmpMapEntry.fields) :
    value.count '\t' + 1 = 2 * entries.length := by
  rw [← length_splitOn, h, length_fields]

theorem make_map_of_spells (h : Spells installed value entries) (junk : ℕ → ℕ) :
    make_map installed junk value = fill_map junk 0 entries := by
  have hcount := count_tabs h.fields
  have hpos := List.length_pos_iff.mpr h.ne_nil
  rw [make_map, if_neg (not_le.mpr h.length_lt), if_neg (by omega), if_neg (by omega),
    check_map_eq_some.mpr ⟨h.fields, h.checked⟩]

theorem spells_of_make_map {junk : ℕ → ℕ} (h : make_map installed junk value ≠ .error .panic) :
    ∃ entries, Spells installed value entries := by
  unfold make_map at h
  split_ifs at h with hlong hnone heven
  · exact absurd rfl h
  · exact absurd rfl h
  · exact absurd rfl h
  · cases hcheck : check_map installed (value.splitOn '\t') with
    | none =>
      rw [hcheck] at h
      exact absurd rfl h
    | some entries =>
      obtain ⟨hfields, hchecked⟩ := check_map_eq_some.mp hcheck
      refine ⟨entries, hfields, ?_, hchecked, not_le.mp hlong⟩
      rintro rfl
      have hcount := count_tabs hfields
      simp at hcount

/-- What is accepted is right, but the length of a path is never checked. -/
theorem map_right_iff (installed : Installed) (value : Text) : MapRight installed value ↔
    ∀ entries, Spells installed value entries → ∀ e ∈ entries, e.path.length ≤ 96 := by
  constructor
  · intro hright entries h e he
    by_contra hlong
    have hover : make_map installed (fun _ => 0) value = .error .overflow := by
      rw [make_map_of_spells h]
      exact fill_map_of_long he (not_le.mp hlong) 0
    obtain ⟨_, hok, -⟩ := hright (fun _ => 0) (by rw [hover]; nofun)
    rw [hover] at hok
    cases hok
  · intro hshort junk hjunk
    obtain ⟨entries, h⟩ := spells_of_make_map hjunk
    have hpaths := hshort entries h
    rw [make_map_of_spells h] at hjunk ⊢
    have hok := (fill_map_of_short hpaths 0).resolve_right hjunk
    refine ⟨entries, hok, h, ?_, tmp_get_eq h.checked⟩
    intro e he
    obtain ⟨m, -, hm⟩ := (h.checked e he).algorithm
    exact ⟨hm ▸ name_length m, (h.checked e he).prefix_length.2, hpaths e he⟩

/-- A path of 97 characters. -/
def long_path : Text := '/' :: List.replicate 96 'a'

def long_value : Text := "sha:a\t".toList ++ long_path

theorem long_path_overflows : ¬ ∀ (installed : Installed) (value : Text), MapRight installed value := by
  intro h
  obtain ⟨_, hok, -⟩ := h every_module long_value (fun _ => 0) (by decide +kernel)
  have hover : make_map every_module (fun _ => 0) long_value = .error .overflow := by decide +kernel
  rw [hover] at hok
  cases hok

end Blobio.TmpMaps
