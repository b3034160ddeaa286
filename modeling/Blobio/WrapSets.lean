import Blobio.BlobPaths
import Blobio.RequestChild
import Blobio.TerminatedLines
import Mathlib.Data.Set.List

/-! The sets of a wrap: the blob in which a wrap lists the frozen logs of `spool/wrap`, and the
lines of such a blob as the parser of a roll reads them. A byte of a blob is the character of its
code. -/
namespace Blobio.WrapSets
open RequestChild TerminatedLines

def MAX_UDIG_SIZE : ℕ := MAX_DIGEST_SIZE + MAX_ALGORITHM_SIZE + 1

/-! ### The directory -/

inductive FileType
  | DT_REG
  | other
  deriving DecidableEq

structure Dirent where
  d_name : Text
  d_type : FileType
  deriving DecidableEq

/-- The entries of `spool/wrap` in the order of `readdir`. -/
structure SpoolWrap where
  entries : List Dirent
  nodup_names : (entries.map Dirent.d_name).Nodup

section logs
variable (installed : Installed)

/-- The udig in front of `.brr`. -/
def extract_wrap_udig (name : Text) : Option Text :=
  if name.length < 4 ∨ MAX_UDIG_SIZE + 4 ≤ name.length ∨ name.drop
    (name.length - 4) ≠ ".brr".toList then none
  else if ':' ∉ name then none
  else
    let algorithm := name.takeWhile (· ≠ ':')
    if MAX_ALGORITHM_SIZE < algorithm.length then none
    else
      match module_get installed algorithm with
      | none => none
      | some mp =>
        let udig := name.take (name.length - 4)
        if 0 < mp.is_digest (udig.drop (algorithm.length + 1)) then some udig else none

/-- The tests at the head of the loops over the directory, of a wrap and of a roll alike. -/
def wrapped_udig (dp : Dirent) : Option Text :=
  if dp.d_name = ".".toList ∨ dp.d_name = "..".toList then none
  else if dp.d_type ≠ .DT_REG then none
  else extract_wrap_udig installed dp.d_name

def put_wrap_set (udig : Text) : Text :=
  udig ++ ['\n']

/-- The blob that a wrap digests for its answer. -/
def wrap_set (frozen_udig : Text) (entries : List Dirent) : Text :=
  put_wrap_set frozen_udig ++ entries.flatMap fun dp =>
    match wrapped_udig installed dp with
    | none => []
    | some udig => if udig = frozen_udig then [] else put_wrap_set udig

end logs

/-! ### The parse of a set -/

inductive SetState
  | NEW_UDIG
  | IN_ALGORITHM (udig : Text)
  | IN_DIGEST (algorithm udig : Text)

structure UdigSets where
  udig_set : List Text := []
  algo_set : List Text := []

/-- Does nothing for an element that the set has. -/
def blob_set_put (set : List Text) (element : Text) : List Text :=
  if element ∈ set then set else set ++ [element]

/-- `PUT_UDIG`, where a second udig of the same text is an error. -/
def put_udig (sets : UdigSets) (algorithm udig : Text) : Option UdigSets :=
  if udig ∈ sets.udig_set then none
  else some ⟨blob_set_put sets.udig_set udig, blob_set_put sets.algo_set algorithm⟩

/-- What the loop in `blob2udig_set` makes of a character, on the text that it has read. The newline
behind a digest is overwritten with the null that ends the udig and read once more, in the state
`PUT_UDIG`. The start of the digest is one off, and its own length is not what is compared. -/
def parse_set (s : SetState × UdigSets) (c : Char) : Option (SetState × UdigSets) :=
  match s.1 with
  | .NEW_UDIG =>
    if c = '\n' then none
    else if c = ':' then none
    else if 'a' ≤ c ∧ c < 'z' then some (.IN_ALGORITHM [c], s.2)
    else none
  | .IN_ALGORITHM udig =>
    if MAX_ALGORITHM_SIZE < udig.length + 1 then none
    else if c = ':' then some (.IN_DIGEST udig (udig ++ [c]), s.2)
    else if isgraph c then some (.IN_ALGORITHM (udig ++ [c]), s.2)
    else none
  | .IN_DIGEST algorithm udig =>
    if MAX_DIGEST_SIZE < algorithm.length + 2 then none
    else if c = '\n' then (put_udig s.2 algorithm udig).map (.NEW_UDIG, ·)
    else if isgraph c then some (.IN_DIGEST algorithm (udig ++ [c]), s.2)
    else none

/-! ### The lines of a set -/

/-- What the parser takes for a line of a set, with the length of its digest left open. -/
structure ReadAs (l algorithm digest : Text) : Prop where
  text : l = algorithm ++ ':' :: digest
  first : ∃ c rest, algorithm = c :: rest ∧ 'a' ≤ c ∧ c < 'z'
  graphic : ∀ c ∈ algorithm, isgraph c ∧ c ≠ ':'
  short : algorithm.length < MAX_ALGORITHM_SIZE
  graphic_digest : ∀ c ∈ digest, isgraph c

section parses
variable {sets : UdigSets} {t : SetState × UdigSets} {rest algorithm udig l : Text} {c : Char}

theorem not_isgraph_newline : isgraph '\n' = false := by decide

/-- From the colon to the newline. -/
theorem in_digest_run (hshort : algorithm.length + 2 ≤ MAX_DIGEST_SIZE) (hrest : '\n' ∉ rest) :
    (rest ++ ['\n']).foldlM parse_set (.IN_DIGEST algorithm udig, sets) = some t ↔
      (∀ c ∈ rest, isgraph c) ∧
        ∃ sets', put_udig sets algorithm (udig ++ rest) = some sets' ∧ t = (.NEW_UDIG, sets') := by
  induction rest generalizing udig with
  | nil =>
    have hstep : parse_set (.IN_DIGEST algorithm udig, sets) '\n' =
        (put_udig sets algorithm udig).map (.NEW_UDIG, ·) := by
      simp only [parse_set, if_neg (Nat.not_lt.mpr hshort), if_pos]
    rw [List.nil_append, List.foldlM_cons, hstep, List.append_nil, Option.bind_eq_bind]
    simp only [List.foldlM_nil, List.not_mem_nil, false_imp_iff, implies_true, true_and]
    cases put_udig sets algorithm udig <;> simp [eq_comm]
  | cons c rest ih =>
    rw [List.mem_cons, not_or] at hrest
    rw [List.cons_append, List.foldlM_cons, List.forall_mem_cons]
    by_cases hgraph : isgraph c
    · have hstep : parse_set (.IN_DIGEST algorithm udig, sets) c =
          some (.IN_DIGEST algorithm (udig ++ [c]), sets) := by
        simp [parse_set, Nat.not_lt.mpr hshort, Ne.symm hrest.1, hgraph]
      rw [hstep, Option.bind_eq_bind, Option.bind_some, ih hrest.2, List.append_assoc,
        List.singleton_append]
      simp [hgraph]
    · have hstep : parse_set (.IN_DIGEST algorithm udig, sets) c = none := by
        simp [parse_set, Ne.symm hrest.1, hgraph]
      rw [hstep]
      simp [hgraph]

/-- From behind the first character on. -/
theorem in_algorithm_run (hrest : '\n' ∉ rest) :
    (rest ++ ['\n']).foldlM parse_set (.IN_ALGORITHM udig, sets) = some t ↔
      ∃ a d, rest = a ++ ':' :: d ∧ (∀ c ∈ a, isgraph c ∧ c ≠ ':') ∧
        udig.length + a.length < MAX_ALGORITHM_SIZE ∧ (∀ c ∈ d, isgraph c) ∧
        ∃ sets', put_udig sets (udig ++ a) (udig ++ rest) = some sets' ∧ t = (.NEW_UDIG, sets') := by
  induction rest generalizing udig with
  | nil =>
    have hstep : parse_set (.IN_ALGORITHM udig, sets) '\n' = none := by
      simp [parse_set, not_isgraph_newline]
    rw [List.nil_append, List.foldlM_cons, hstep]
    simp
  | cons c rest ih =>
    rw [List.mem_cons, not_or] at hrest
    rw [List.cons_append, List.foldlM_cons]
    by_cases hlong : MAX_ALGORITHM_SIZE < udig.length + 1
    · have hstep : parse_set (.IN_ALGORITHM udig, sets) c = none := by
        simp [parse_set, hlong]
      rw [hstep]
      refine iff_of_false nofun ?_
      rintro ⟨a, d, -, -, hlen, -⟩
      omega
    · by_cases hcolon : c = ':'
      · subst hcolon
        have hstep : parse_set (.IN_ALGORITHM udig, sets) ':' =
            some (.IN_DIGEST udig (udig ++ [':']), sets) := by
          simp [parse_set, hlong]
        have hshort : udig.length + 2 ≤ MAX_DIGEST_SIZE := by
          have hsizes : MAX_ALGORITHM_SIZE + 1 ≤ MAX_DIGEST_SIZE := by decide
          omega
        rw [hstep, Option.bind_eq_bind, Option.bind_some, in_digest_run hshort hrest.2, List.append_assoc,
          List.singleton_append]
        constructor
        · rintro ⟨hd, sets', hput, rfl⟩
          exact ⟨[], rest, rfl, nofun, Nat.not_lt.mp hlong, hd, sets', by simpa using hput, rfl⟩
        · rintro ⟨a, d, heq, ha, -, hd, sets', hput, rfl⟩
          cases a with
          | nil =>
            cases heq
            exact ⟨hd, sets', by simpa using hput, rfl⟩
          | cons c' a =>
            cases heq
            exact absurd rfl (ha ':' List.mem_cons_self).2
      · by_cases hgraph : isgraph c
        · have hstep : parse_set (.IN_ALGORITHM udig, sets) c = some (.IN_ALGORITHM (udig ++ [c]), sets) :=
          by
            simp [parse_set, hlong, hcolon, hgraph]
          rw [hstep, Option.bind_eq_bind, Option.bind_some, ih hrest.2]
          constructor
          · rintro ⟨a, d, rfl, ha, hlen, hd, sets', hput, rfl⟩
            refine ⟨c :: a, d, rfl, List.forall_mem_cons.mpr ⟨⟨hgraph, hcolon⟩, ha⟩, ?_, hd, sets', ?_, rfl⟩
            · rw [List.length_append, List.length_singleton] at hlen
              rw [List.length_cons]
              omega
            · simpa using hput
          · rintro ⟨a, d, heq, ha, hlen, hd, sets', hput, rfl⟩
            cases a with
            | nil =>
              cases heq
              exact absurd rfl hcolon
            | cons c' a =>
              cases heq
              refine ⟨a, d, rfl, (List.forall_mem_cons.mp ha).2, ?_, hd, sets', ?_, rfl⟩
              · rw [List.length_cons] at hlen
                rw [List.length_append, List.length_singleton]
                omega
              · simpa using hput
        · have hstep : parse_set (.IN_ALGORITHM udig, sets) c = none := by
            simp [parse_set, hcolon, hgraph]
          rw [hstep]
          refine iff_of_false nofun ?_
          rintro ⟨a, d, heq, ha, -⟩
          cases a with
          | nil =>
            cases heq
            exact hcolon rfl
          | cons c' a =>
            cases heq
            exact hgraph (ha c List.mem_cons_self).1

theorem parse_line (hl : '\n' ∉ l) : (l ++ ['\n']).foldlM parse_set (.NEW_UDIG, sets) = some t ↔
    ∃ a d, ReadAs l a d ∧ ∃ sets', put_udig sets a l = some sets' ∧ t = (.NEW_UDIG, sets') := by
  cases l with
  | nil =>
    refine iff_of_false nofun ?_
    rintro ⟨a, d, hread, -⟩
    exact absurd hread.text (by simp)
  | cons c l =>
    rw [List.mem_cons, not_or] at hl
    rw [List.cons_append, List.foldlM_cons]
    by_cases hfirst : 'a' ≤ c ∧ c < 'z'
    · have hne : c ≠ ':' := by
        rintro rfl
        exact absurd hfirst (by decide)
      have hgraph : isgraph c := by
        rw [isgraph, between, Bool.and_eq_true, decide_eq_true_eq, decide_eq_true_eq]
        exact ⟨Char.le_trans (by decide : '!' ≤ 'a') hfirst.1,
          Char.le_trans (Char.not_lt.mp (Char.lt_asymm hfirst.2)) (by decide : 'z' ≤ '~')⟩
      have hstep : parse_set (.NEW_UDIG, sets) c = some (.IN_ALGORITHM [c], sets) := by
        simp [parse_set, Ne.symm hl.1, hne, hfirst]
      rw [hstep, Option.bind_eq_bind, Option.bind_some, in_algorithm_run hl.2]
      constructor
      · rintro ⟨a, d, rfl, ha, hlen, hd, sets', hput, rfl⟩
        refine ⟨c :: a, d, ⟨rfl, ⟨c, a, rfl, hfirst⟩, ?_, ?_, hd⟩, sets', hput, rfl⟩
        · exact List.forall_mem_cons.mpr ⟨⟨hgraph, hne⟩, ha⟩
        · rw [List.length_cons, Nat.add_comm]
          exact hlen
      · rintro ⟨a, d, ⟨heq, ⟨c', a', rfl, -⟩, ha, hlen, hd⟩, sets', hput, rfl⟩
        cases heq
        refine ⟨a', d, rfl, (List.forall_mem_cons.mp ha).2, ?_, hd, sets', hput, rfl⟩
        rw [List.length_cons, Nat.add_comm] at hlen
        exact hlen
    · have hstep : parse_set (.NEW_UDIG, sets) c = none := by
        simp [parse_set, hfirst]
      rw [hstep]
      refine iff_of_false nofun ?_
      rintro ⟨a, d, ⟨heq, ⟨c', a', rfl, hc'⟩, -⟩, -⟩
      cases heq
      exact hfirst hc'

theorem put_udig_eq_some {sets' : UdigSets} : put_udig sets algorithm udig = some sets' ↔
    udig ∉ sets.udig_set ∧ sets' = ⟨sets.udig_set ++ [udig], blob_set_put sets.algo_set algorithm⟩ := by
  unfold put_udig blob_set_put
  by_cases h : udig ∈ sets.udig_set
  · simp [h]
  · simp [h, eq_comm]

/-- The lines that have been parsed are udigs, distinct, and make up the set. -/
theorem parse_lines {lines : List Text} (hlines : ∀ l ∈ lines, '\n' ∉ l) (hnodup : sets.udig_set.Nodup)
    (h : (terminated '\n' lines).foldlM parse_set (.NEW_UDIG, sets) = some t) :
    t.1 = .NEW_UDIG ∧ t.2.udig_set = sets.udig_set ++ lines ∧ t.2.udig_set.Nodup ∧
      ∀ l ∈ lines, ∃ a d, ReadAs l a d := by
  induction lines generalizing sets with
  | nil =>
    cases h
    exact ⟨rfl, (List.append_nil _).symm, hnodup, nofun⟩
  | cons l lines ih =>
    rw [List.forall_mem_cons] at hlines
    rw [terminated_cons, List.foldlM_append] at h
    obtain ⟨m, hline, hrest⟩ := Option.bind_eq_some_iff.mp h
    obtain ⟨a, d, hread, sets', hput, rfl⟩ := (parse_line hlines.1).mp hline
    obtain ⟨hnew, rfl⟩ := put_udig_eq_some.mp hput
    have hnodup' : (sets.udig_set ++ [l]).Nodup :=
      List.nodup_append_comm.mp (List.nodup_cons.mpr ⟨hnew, hnodup⟩)
    obtain ⟨hstate, hset, hdistinct, hreads⟩ := ih hlines.2 hnodup' hrest
    refine ⟨hstate, ?_, hdistinct, List.forall_mem_cons.mpr ⟨⟨a, d, hread⟩, hreads⟩⟩
    rw [hset, List.append_assoc, List.singleton_append]

theorem exists_parse (sets : UdigSets) {lines : List Text} (hlines : ∀ l ∈ lines, '\n' ∉ l)
    (hreads : ∀ l ∈ lines, ∃ a d, ReadAs l a d) (hnodup : (sets.udig_set ++ lines).Nodup) :
    ∃ t, (terminated '\n' lines).foldlM parse_set (.NEW_UDIG, sets) = some t := by
  induction lines generalizing sets with
  | nil => exact ⟨_, rfl⟩
  | cons l lines ih =>
    rw [List.forall_mem_cons] at hlines hreads
    obtain ⟨⟨a, d, hread⟩, hreads⟩ := hreads
    have hnew : l ∉ sets.udig_set := by
      intro hmem
      exact (List.nodup_append.mp hnodup).2.2 l hmem l List.mem_cons_self rfl
    have hline := (parse_line hlines.1).mpr
      ⟨a, d, hread, _, put_udig_eq_some.mpr ⟨hnew, rfl⟩, rfl⟩
    rw [List.append_cons] at hnodup
    obtain ⟨t, hrest⟩ := ih ⟨sets.udig_set ++ [l], blob_set_put sets.algo_set a⟩ hlines.2 hreads hnodup
    rw [terminated_cons, List.foldlM_append]
    exact ⟨t, Option.bind_eq_some_iff.mpr ⟨_, hline, hrest⟩⟩

end parses

/-! ### What is read as a set -/

/-- `algorithm{1,8}:digest{28,128}` -/
structure UdigLine (l algorithm digest : Text) : Prop where
  text : l = algorithm ++ ':' :: digest
  first : ∃ c rest, algorithm = c :: rest ∧ between 'a' 'z' c
  graphic : ∀ c ∈ algorithm, isgraph c ∧ c ≠ ':'
  short : algorithm.length ≤ MAX_ALGORITHM_SIZE
  graphic_digest : ∀ c ∈ digest, isgraph c
  length : 28 ≤ digest.length ∧ digest.length ≤ MAX_DIGEST_SIZE

/-- The blob is a set as the comment over the parser has it. -/
def WellFormed (blob : Text) : Prop :=
  ∃ lines, blob = terminated '\n' lines ∧ lines.Nodup ∧ ∀ l ∈ lines, ∃ a d, UdigLine l a d

/-- Different lines that the parser takes, with a digest among them that is too short or
too long. -/
def Overlooked (blob : Text) : Prop :=
  ∃ lines, blob = terminated '\n' lines ∧ lines.Nodup ∧ (∀ l ∈ lines, ∃ a d, ReadAs l a d) ∧
    ∃ l ∈ lines, ∃ a d, ReadAs l a d ∧ (d.length < 28 ∨ MAX_DIGEST_SIZE < d.length)

section sets
variable {l a d : Text} {lines : List Text}

theorem not_newline_of_graphic (ha : ∀ c ∈ a, isgraph c ∧ c ≠ ':') (hd : ∀ c ∈ d, isgraph c) :
    '\n' ∉ a ++ ':' :: d := by
  have hnot : ∀ c, isgraph c → c ≠ '\n' := by
    rintro c hc rfl
    exact absurd hc (by decide)
  rw [List.mem_append, List.mem_cons, not_or, not_or]
  exact ⟨fun hc => hnot _ (ha _ hc).1 rfl, by decide, fun hc => hnot _ (hd _ hc) rfl⟩

theorem ReadAs.udigLine (h : ReadAs l a d) (hlen : 28 ≤ d.length ∧ d.length ≤ MAX_DIGEST_SIZE) :
    UdigLine l a d := by
  obtain ⟨c, rest, ha, hlower, hupper⟩ := h.first
  refine ⟨h.text, ⟨c, rest, ha, ?_⟩, h.graphic, h.short.le, h.graphic_digest, hlen⟩
  rw [between, Bool.and_eq_true, decide_eq_true_eq, decide_eq_true_eq]
  exact ⟨hlower, Char.not_lt.mp (Char.lt_asymm hupper)⟩

theorem not_newline_of_reads (h : ∀ l ∈ lines, ∃ a d, ReadAs l a d) : ∀ l ∈ lines, '\n' ∉ l := by
  intro l hl
  obtain ⟨a, d, hread⟩ := h l hl
  rw [hread.text]
  exact not_newline_of_graphic hread.graphic hread.graphic_digest

/-- The parser lets pass what is no set. -/
theorem not_wellFormed_of_overlooked {blob : Text} (h : Overlooked blob) : ¬ WellFormed blob := by
  obtain ⟨lines, rfl, -, hreads, l, hl, a, d, hread, hlen⟩ := h
  rintro ⟨lines', heq, -, hudigs⟩
  have hnewline : ∀ l ∈ lines', '\n' ∉ l := by
    intro l hl
    obtain ⟨a, d, hline⟩ := hudigs l hl
    rw [hline.text]
    exact not_newline_of_graphic hline.graphic hline.graphic_digest
  cases terminated_injective (not_newline_of_reads hreads) hnewline heq
  obtain ⟨a', d', hline⟩ := hudigs l hl
  have hcolon : ':' ∉ a := fun hmem => (hread.graphic _ hmem).2 rfl
  have hcolon' : ':' ∉ a' := fun hmem => (hline.graphic _ hmem).2 rfl
  have htext := hread.text.symm.trans hline.text
  have halgorithm : a = a' := by
    rw [← takeWhile_ne hcolon d, htext, takeWhile_ne hcolon' d']
  subst halgorithm
  cases List.append_cancel_left htext
  have hlength := hline.length
  omega

theorem terminated_ne_nil (h : lines ≠ []) : terminated '\n' lines ≠ [] := by
  intro hnil
  have hlast : (terminated '\n' lines).getLast? = some '\n' := getLast?_terminated h
  rw [hnil] at hlast
  cases hlast

end sets

/-! ### The logs of the directory -/

/-- `<udig>.brr` -/
def log_entry (u : Udig) : Dirent :=
  ⟨u.text ++ ".brr".toList, .DT_REG⟩

def SpoolWrap.HasLog (installed : Installed) (dir : SpoolWrap) (u : Udig) : Prop :=
  u.algorithm ∈ installed.modules ∧ log_entry u ∈ dir.entries

section logs
variable {installed : Installed}

theorem name_chars (m : DigestModule) : ':' ∉ m.name ∧ m.name.length ≤ 5 := by
  cases m <;> decide

/-- A name with its suffix, taken apart at the first colon. -/
theorem extract_wrap_udig_append {a d : Text} (ha : ':' ∉ a)
    (hlen : (a ++ ':' :: d).length < MAX_UDIG_SIZE) :
    extract_wrap_udig installed (a ++ ':' :: d ++ ".brr".toList) =
      if MAX_ALGORITHM_SIZE < a.length then none
      else match module_get installed a with
        | none => none
        | some mp => if 0 < mp.is_digest d then some (a ++ ':' :: d) else none := by
  have hbrr : ".brr".toList.length = 4 := by decide
  have hname : (a ++ ':' :: d ++ ".brr".toList).length - 4 = (a ++ ':' :: d).length := by
    rw [List.length_append, hbrr, Nat.add_sub_cancel]
  have htest : ¬ ((a ++ ':' :: d ++ ".brr".toList).length < 4 ∨
      MAX_UDIG_SIZE + 4 ≤ (a ++ ':' :: d ++ ".brr".toList).length ∨
      (a ++ ':' :: d ++ ".brr".toList).drop
        ((a ++ ':' :: d ++ ".brr".toList).length - 4) ≠ ".brr".toList) := by
    rw [hname, List.drop_left, @List.length_append _ (a ++ ':' :: d), hbrr]
    simp only [ne_eq, not_true_eq_false, or_false]
    omega
  have hcolon : ':' ∈ a ++ ':' :: d ++ ".brr".toList := by simp
  have halgorithm : (a ++ ':' :: d ++ ".brr".toList).takeWhile (· ≠ ':') = a := by
    rw [List.append_assoc]
    exact takeWhile_ne ha _
  have hdigest : (a ++ ':' :: d).drop (a.length + 1) = d := by
    simp [List.drop_append]
  rw [extract_wrap_udig, if_neg htest, if_neg (not_not.mpr hcolon)]
  dsimp only
  rw [halgorithm, hname, List.take_left, hdigest]

theorem extract_wrap_udig_eq_some {name t : Text} : extract_wrap_udig installed name = some t ↔
    ∃ u : Udig, u.algorithm ∈ installed.modules ∧ t = u.text ∧ name = u.text ++ ".brr".toList := by
  constructor
  · intro h
    have htest : ¬ (name.length < 4 ∨ MAX_UDIG_SIZE + 4 ≤ name.length ∨
        name.drop (name.length - 4) ≠ ".brr".toList) := by
      intro htest
      rw [extract_wrap_udig, if_pos htest] at h
      cases h
    have hcolon : ':' ∈ name := by
      by_contra hno
      rw [extract_wrap_udig, if_neg htest, if_pos hno] at h
      cases h
    rw [not_or, not_or, not_not] at htest
    obtain ⟨hshort, hlong, hsuffix⟩ := htest
    have hname : name = name.take (name.length - 4) ++ ".brr".toList := by
      rw [← hsuffix, List.take_append_drop]
    have hfront : ':' ∈ name.take (name.length - 4) := by
      rw [hname, List.mem_append] at hcolon
      exact hcolon.resolve_right (by decide)
    obtain ⟨a, d, heq, ha⟩ := List.eq_append_cons_of_mem hfront
    have hlen : (a ++ ':' :: d).length < MAX_UDIG_SIZE := by
      rw [← heq, List.length_take]
      omega
    rw [hname, heq, extract_wrap_udig_append ha hlen] at h
    split at h
    · cases h
    · split at h
      · cases h
      · rename_i mp hmp
        obtain ⟨hmem, rfl⟩ := module_get_eq_some.mp hmp
        split at h
        · rename_i hdigest
          cases h
          obtain ⟨hlength, hhex⟩ := (is_digest_ne_zero mp d).mp (Nat.ne_of_gt hdigest)
          exact ⟨⟨mp, d, hlength, hhex⟩, hmem, rfl, by rw [hname, heq]; rfl⟩
        · cases h
  · rintro ⟨u, hu, rfl, rfl⟩
    obtain ⟨hcolon, hname⟩ := name_chars u.algorithm
    have hlength := u.digest.length_chars
    have hsizes : 5 + 41 < MAX_UDIG_SIZE ∧ 5 ≤ MAX_ALGORITHM_SIZE := by decide
    have hlen : (u.algorithm.name ++ ':' :: u.digest.chars).length < MAX_UDIG_SIZE := by
      rw [List.length_append, List.length_cons]
      omega
    have hdigest : u.algorithm.is_digest u.digest.chars ≠ 0 :=
      (is_digest_ne_zero _ _).mpr ⟨hlength, u.digest.hex_chars⟩
    rw [Udig.text, extract_wrap_udig_append hcolon hlen, if_neg (by omega),
      module_get_eq_some.mpr ⟨hu, rfl⟩]
    exact if_pos (Nat.pos_of_ne_zero hdigest)

theorem wrapped_udig_eq_some {dp : Dirent} {t : Text} : wrapped_udig installed dp = some t ↔
    ∃ u : Udig, u.algorithm ∈ installed.modules ∧ t = u.text ∧ dp = log_entry u := by
  have hdots : ∀ u, ¬ ((log_entry u).d_name = ".".toList ∨ (log_entry u).d_name = "..".toList) := by
    intro u
    have hlen : 3 < (log_entry u).d_name.length := by
      rw [log_entry, List.length_append]
      exact Nat.lt_add_left _ (by decide)
    rintro (heq | heq) <;> exact absurd (heq ▸ hlen) (by decide)
  constructor
  · intro h
    unfold wrapped_udig at h
    split at h
    · cases h
    · split at h
      · cases h
      · rename_i htype
        obtain ⟨u, hu, ht, hname⟩ := extract_wrap_udig_eq_some.mp h
        exact ⟨u, hu, ht, by rw [log_entry, ← hname, ← not_not.mp htype]⟩
  · rintro ⟨u, hu, rfl, rfl⟩
    have htype : ¬ (log_entry u).d_type ≠ .DT_REG := fun hne => hne rfl
    rw [wrapped_udig, if_neg (hdots u), if_neg htype]
    exact extract_wrap_udig_eq_some.mpr ⟨u, hu, rfl, rfl⟩

variable {dir : SpoolWrap}

/-- The udigs of the logs, in the order of the directory. -/
def SpoolWrap.udigs (installed : Installed) (dir : SpoolWrap) : List Text :=
  dir.entries.filterMap (wrapped_udig installed)

theorem mem_udigs {t : Text} : t ∈ dir.udigs installed ↔ ∃ u, t = u.text ∧ dir.HasLog installed u := by
  rw [SpoolWrap.udigs, List.mem_filterMap]
  constructor
  · rintro ⟨dp, hmem, h⟩
    obtain ⟨u, hu, rfl, rfl⟩ := wrapped_udig_eq_some.mp h
    exact ⟨u, rfl, hu, hmem⟩
  · rintro ⟨u, rfl, hu, hmem⟩
    exact ⟨_, hmem, wrapped_udig_eq_some.mpr ⟨u, hu, rfl, rfl⟩⟩

/-- A log is listed once, under its one name. -/
theorem nodup_udigs (installed : Installed) (dir : SpoolWrap) : (dir.udigs installed).Nodup := by
  refine (List.Nodup.of_map _ dir.nodup_names).filterMap ?_
  intro dp dp' t h h'
  obtain ⟨u, -, rfl, rfl⟩ := wrapped_udig_eq_some.mp h
  obtain ⟨u', -, ht, rfl⟩ := wrapped_udig_eq_some.mp h'
  rw [Udig.text_injective ht]

theorem wrap_set_eq (frozen_udig : Text) (entries : List Dirent) :
    wrap_set installed frozen_udig entries = terminated '\n'
      (frozen_udig :: (entries.filterMap (wrapped_udig installed)).filter (· ≠ frozen_udig)) := by
  have hscan : (entries.flatMap fun dp =>
      match wrapped_udig installed dp with
      | none => []
      | some udig => if udig = frozen_udig then [] else put_wrap_set udig) =
      terminated '\n' ((entries.filterMap (wrapped_udig installed)).filter (· ≠ frozen_udig)) := by
    induction entries with
    | nil => rfl
    | cons dp entries ih =>
      rw [List.flatMap_cons, ih]
      cases hdp : wrapped_udig installed dp with
      | none => rw [List.filterMap_cons_none hdp, List.nil_append]
      | some udig =>
        rw [List.filterMap_cons_some hdp]
        dsimp only
        by_cases heq : udig = frozen_udig
        · rw [List.filter_cons_of_neg (by simpa using heq), if_pos heq, List.nil_append]
        · rw [List.filter_cons_of_pos (by simpa using heq), if_neg heq]
          rfl
  rw [wrap_set, hscan]
  rfl

/-- The set has the frozen log first and each log once. -/
theorem wrap_set_lists (frozen : Udig) (h : dir.HasLog installed frozen) :
    ∃ us : List Udig, us.head? = some frozen ∧ us.Nodup ∧ (∀ u, u ∈ us ↔ dir.HasLog installed u) ∧
      wrap_set installed frozen.text dir.entries = terminated '\n' (us.map Udig.text) := by
  obtain ⟨us, hus⟩ : ∃ us : List Udig,
      us.map Udig.text = (dir.udigs installed).filter (· ≠ frozen.text) := by
    rw [← Set.mem_range, Set.range_list_map]
    intro t ht
    obtain ⟨u, rfl, -⟩ := mem_udigs.mp (List.mem_of_mem_filter ht)
    exact ⟨u, rfl⟩
  have hmem : ∀ u, u ∈ us ↔ dir.HasLog installed u ∧ u ≠ frozen := by
    intro u
    have hu : u ∈ us ↔ u.text ∈ (dir.udigs installed).filter (· ≠ frozen.text) := by
      rw [← hus, List.mem_map_of_injective fun _ _ => Udig.text_injective]
    rw [hu, List.mem_filter, mem_udigs, decide_eq_true_eq]
    constructor
    · rintro ⟨⟨v, hv, hlog⟩, hne⟩
      cases Udig.text_injective hv
      exact ⟨hlog, fun heq => hne (heq ▸ rfl)⟩
    · rintro ⟨hlog, hne⟩
      exact ⟨⟨u, rfl, hlog⟩, fun heq => hne (Udig.text_injective heq)⟩
  refine ⟨frozen :: us, rfl, List.nodup_cons.mpr ⟨?_, ?_⟩, ?_, ?_⟩
  · exact fun hfrozen => ((hmem frozen).mp hfrozen).2 rfl
  · refine List.Nodup.of_map Udig.text ?_
    rw [hus]
    exact (nodup_udigs installed dir).filter _
  · intro u
    rw [List.mem_cons, hmem]
    constructor
    · rintro (rfl | ⟨hlog, -⟩)
      · exact h
      · exact hlog
    · intro hlog
      by_cases heq : u = frozen
      · exact .inl heq
      · exact .inr ⟨hlog, heq⟩
  · rw [wrap_set_eq, List.map_cons, hus]
    rfl

end logs

/-- The udig of a digest module is a line that the parser takes. -/
theorem readAs_text (u : Udig) : ReadAs u.text u.algorithm.name u.digest.chars := by
  have hname : (∃ c rest, u.algorithm.name = c :: rest ∧ 'a' ≤ c ∧ c < 'z') ∧
      (∀ c ∈ u.algorithm.name, isgraph c ∧ c ≠ ':') ∧ u.algorithm.name.length < MAX_ALGORITHM_SIZE := by
    cases u.algorithm
    · exact ⟨⟨'b', "c160".toList, by decide⟩, by decide⟩
    · exact ⟨⟨'b', "tc20".toList, by decide⟩, by decide⟩
    · exact ⟨⟨'s', "ha".toList, by decide⟩, by decide⟩
  have hhex : ∀ c ∈ nib2hex, isgraph c := by decide
  exact ⟨rfl, hname.1, hname.2.1, hname.2.2, fun c hc => hhex c (u.digest.hex_chars c hc)⟩

/-- The log without a record. -/
def empty_log : Udig :=
  ⟨.sha, DigestModule.sha.empty⟩

end Blobio.WrapSets
