import Blobio.CharArrays
import Blobio.WrapSets

/-! The names of the logs in `spool/wrap`, taken apart in the arrays of `extract_wrap_udig`. -/
namespace Blobio.WrapNames
open CharArrays RequestChild WrapSets

/-- The array of the caller and the local one, with what happens to be in them. -/
structure Arrays where
  udig : List Char
  algorithm : List Char
  length_udig : udig.length = MAX_UDIG_SIZE
  length_algorithm : algorithm.length = MAX_ALGORITHM_SIZE

section extract
variable (installed : Installed) (name : CString) (a : Arrays)

/-- The status and the udig behind the call; none where it writes behind an array. -/
def extract_wrap_udig : Option (ℤ × List Char) :=
  let len := name.val.length
  let offset := (name.val.takeWhile (· ≠ ':')).length
  if len < 4 ∨ MAX_UDIG_SIZE + 4 ≤ len ∨ name.val.drop (len - 4) ≠ ".brr".toList then some (-1, a.udig)
  else if ':' ∉ name.val then some (-1, a.udig)
  else if MAX_ALGORITHM_SIZE < offset then some (-1, a.udig)
  else
    (write a.algorithm 0 (name.val.take offset)).bind fun algorithm =>
      (write algorithm offset [null]).bind fun algorithm =>
        match module_get installed (text algorithm) with
        | none => some (-1, a.udig)
        | some mp =>
          (write a.udig 0 (name.val.take (len - 4))).bind fun udig =>
            (write udig (len - 4) [null]).map fun udig =>
              (if 0 < mp.is_digest ((text udig).drop (offset + 1)) then 0 else -1, udig)

/-- `<algorithm>:<digest>.brr`, the algorithm installed and the digest one of its own. -/
def IsWrapName (name : Text) : Prop :=
  ∃ mp ∈ installed.modules, ∃ digest, mp.is_digest digest ≠ 0 ∧ name = mp.name ++ ':' :: digest ++ ".brr".toList

/-- Nothing is written behind an array, the names of logs are told from others, and of such a name the
suffix is taken off. -/
def ExtractsRight : Prop :=
  ∀ a, ∃ status udig, extract_wrap_udig installed name a = some (status, udig) ∧
    (status = 0 ↔ IsWrapName installed name.val) ∧
    (status = 0 → text udig = name.val.take (name.val.length - 4))

end extract

/-- The name gets past the checks with its first colon right behind the room for an algorithm. -/
def FillsAlgorithm (name : Text) : Prop :=
  name.length < MAX_UDIG_SIZE + 4 ∧ ".brr".toList <:+ name ∧
    ∃ algorithm rest, name = algorithm ++ ':' :: rest ∧ ':' ∉ algorithm ∧
      algorithm.length = MAX_ALGORITHM_SIZE

variable {installed : Installed} {name : CString} {a : Arrays}

/-- Two writes, of a string and of its null. -/
theorem write_string {arr s : List Char} (hs : null ∉ s) (hroom : s.length < arr.length) :
    ∃ arr', (write arr 0 s).bind (fun arr => write arr s.length [null]) = some arr' ∧ text arr' = s := by
  have hfits : 0 + s.length ≤ arr.length := by omega
  obtain ⟨arr₁, harr₁⟩ := write_isSome.mpr hfits
  have hlen := write_length harr₁
  have hfits' : s.length + [null].length ≤ arr₁.length := by
    rw [List.length_singleton]
    omega
  obtain ⟨arr₂, harr₂⟩ := write_isSome.mpr hfits'
  refine ⟨arr₂, by rw [harr₁, Option.bind_some, harr₂], ?_⟩
  obtain rfl := Option.some.inj ((if_pos hfits).symm.trans harr₁)
  obtain rfl := Option.some.inj ((if_pos hfits').symm.trans harr₂)
  rw [List.take_zero, List.nil_append, List.take_left, List.append_assoc, List.singleton_append,
    text_null hs]

theorem isWrapName_iff {n : Text} : IsWrapName installed n ↔ ∃ t,
    WrapSets.extract_wrap_udig installed n = some t := by
  simp only [extract_wrap_udig_eq_some]
  constructor
  · rintro ⟨mp, hmp, digest, hdigest, rfl⟩
    obtain ⟨hlength, hhex⟩ := (is_digest_ne_zero mp digest).mp hdigest
    exact ⟨_, ⟨mp, digest, hlength, hhex⟩, hmp, rfl, rfl⟩
  · rintro ⟨t, u, hu, rfl, rfl⟩
    refine ⟨u.algorithm, hu, u.digest.chars, ?_, rfl⟩
    exact (is_digest_ne_zero _ _).mpr ⟨u.digest.length_chars, u.digest.hex_chars⟩

theorem fills_of_offset {n : Text} (hlong : ¬ (n.length < 4 ∨ MAX_UDIG_SIZE + 4 ≤ n.length ∨
    n.drop (n.length - 4) ≠ ".brr".toList)) (hcolon : ':' ∈ n)
    (hoffset : (n.takeWhile (· ≠ ':')).length = MAX_ALGORITHM_SIZE) : FillsAlgorithm n := by
  rw [not_or, not_or, not_not, Nat.not_le] at hlong
  obtain ⟨-, hlength, hsuffix⟩ := hlong
  obtain ⟨algorithm, rest, rfl, halgorithm⟩ := List.eq_append_cons_of_mem hcolon
  rw [takeWhile_ne halgorithm] at hoffset
  exact ⟨hlength, hsuffix ▸ List.drop_suffix _ _, algorithm, rest, rfl, halgorithm, hoffset⟩

/-- With room for its null, the algorithm is looked up, and what comes of it is what the name says. -/
theorem extract_agrees (h : ¬ FillsAlgorithm name.val) : ∃ status udig,
    extract_wrap_udig installed name a = some (status, udig) ∧
      WrapSets.extract_wrap_udig installed name.val = if status = 0 then some (text udig) else none := by
  unfold extract_wrap_udig WrapSets.extract_wrap_udig
  by_cases hlong : name.val.length < 4 ∨ MAX_UDIG_SIZE + 4 ≤ name.val.length ∨
      name.val.drop (name.val.length - 4) ≠ ".brr".toList
  · exact ⟨-1, a.udig, if_pos hlong, if_pos hlong⟩
  by_cases hcolon : ':' ∈ name.val
  · by_cases hover : MAX_ALGORITHM_SIZE < (name.val.takeWhile (· ≠ ':')).length
    · refine ⟨-1, a.udig, ?_, ?_⟩
      · dsimp only
        rw [if_neg hlong, if_neg (not_not_intro hcolon), if_pos hover]
      · dsimp only
        rw [if_neg hlong, if_neg (not_not_intro hcolon), if_pos hover]
        rfl
    · have hroom : (name.val.takeWhile (· ≠ ':')).length < a.algorithm.length := by
        rw [a.length_algorithm]
        refine lt_of_le_of_ne (Nat.not_lt.mp hover) fun heq => h (fills_of_offset hlong hcolon heq)
      have htake : name.val.take (name.val.takeWhile (· ≠ ':')).length = name.val.takeWhile (· ≠ ':') :=
        (List.prefix_iff_eq_take.mp (List.takeWhile_prefix _)).symm
      have hnull : null ∉ name.val.takeWhile (· ≠ ':') := fun hmem =>
        name.2 ((List.takeWhile_prefix _).subset hmem)
      obtain ⟨algorithm, hwrite, htext⟩ := write_string hnull hroom
      have hudig : null ∉ name.val.take (name.val.length - 4) := fun hmem => name.2
        (List.mem_of_mem_take hmem)
      have hlength : (name.val.take (name.val.length - 4)).length = name.val.length - 4 := by
        rw [List.length_take]
        omega
      have hfits : (name.val.take (name.val.length - 4)).length < a.udig.length := by
        rw [a.length_udig, hlength]
        omega
      obtain ⟨udig, hwrite', htext'⟩ := write_string hudig hfits
      rw [hlength] at hwrite'
      dsimp only
      simp only [if_neg hlong, if_neg (not_not_intro hcolon), if_neg hover]
      rw [htake, ← Option.bind_assoc, hwrite, Option.bind_some, htext]
      cases module_get installed (name.val.takeWhile (· ≠ ':')) with
      | none => exact ⟨-1, a.udig, rfl, rfl⟩
      | some mp =>
        obtain ⟨udig₁, hcopied, hended⟩ := Option.bind_eq_some_iff.mp hwrite'
        dsimp only
        rw [hcopied, Option.bind_some, hended, Option.map_some, htext']
        by_cases hdigest : 0 < mp.is_digest ((name.val.take (name.val.length - 4)).drop
            ((name.val.takeWhile (· ≠ ':')).length + 1))
        · exact ⟨0, udig, by rw [if_pos hdigest], by rw [if_pos hdigest, if_pos rfl, htext']⟩
        · exact ⟨-1, udig, by rw [if_neg hdigest], if_neg hdigest⟩
  · refine ⟨-1, a.udig, ?_, ?_⟩
    · dsimp only
      rw [if_neg hlong, if_pos hcolon]
    · dsimp only
      rw [if_neg hlong, if_pos hcolon]
      rfl

theorem extract_overruns (h : FillsAlgorithm name.val) : extract_wrap_udig installed name a = none := by
  obtain ⟨hlength, hsuffix, algorithm, rest, hname, halgorithm, hfull⟩ := h
  have hoffset : (name.val.takeWhile (· ≠ ':')).length = MAX_ALGORITHM_SIZE := by
    rw [hname, takeWhile_ne halgorithm, hfull]
  have hbrr : ".brr".toList.length = 4 := rfl
  have hlong : ¬ (name.val.length < 4 ∨ MAX_UDIG_SIZE + 4 ≤ name.val.length ∨
      name.val.drop (name.val.length - 4) ≠ ".brr".toList) := by
    have hle := hsuffix.length_le
    rw [not_or, not_or, not_not, ← hbrr]
    exact ⟨by omega, by omega, (List.suffix_iff_eq_drop.mp hsuffix).symm⟩
  have hcolon : ':' ∈ name.val := by
    rw [hname]
    exact List.mem_append_right _ List.mem_cons_self
  have htake : (name.val.take MAX_ALGORITHM_SIZE).length = MAX_ALGORITHM_SIZE := by
    rw [List.length_take, hname, List.length_append, hfull]
    exact Nat.min_eq_left (Nat.le_add_right _ _)
  unfold extract_wrap_udig
  simp only [if_neg hlong, if_neg (not_not_intro hcolon), hoffset, lt_irrefl, if_false]
  rw [Option.bind_eq_none_iff]
  intro arr harr
  have hlen := write_length harr
  have hroom : ¬ MAX_ALGORITHM_SIZE + [null].length ≤ arr.length := by
    rw [hlen, a.length_algorithm, List.length_singleton]
    omega
  rw [write, if_neg hroom, Option.bind_none]

/-- The one name that is not taken apart right has its colon where the null behind the algorithm
should be. -/
theorem extracts_right_iff (installed : Installed) (name : CString) :
    ExtractsRight installed name ↔ ¬ FillsAlgorithm name.val := by
  constructor
  · intro h hfills
    obtain ⟨status, udig, hextract, -⟩ := h
      ⟨List.replicate MAX_UDIG_SIZE null, List.replicate MAX_ALGORITHM_SIZE null, List.length_replicate,
        List.length_replicate⟩
    rw [extract_overruns hfills] at hextract
    cases hextract
  · intro h a
    obtain ⟨status, udig, hextract, hpure⟩ := @extract_agrees installed name a h
    refine ⟨status, udig, hextract, ?_, ?_⟩
    · rw [isWrapName_iff, hpure]
      by_cases hstatus : status = 0
      · simp [hstatus]
      · simp [hstatus]
    · intro hstatus
      rw [if_pos hstatus] at hpure
      obtain ⟨u, -, htext, hname⟩ := extract_wrap_udig_eq_some.mp hpure
      have hbrr : ".brr".toList.length = 4 := rfl
      rw [htext, hname, List.length_append, hbrr, Nat.add_sub_cancel, List.take_left]

def long_algorithm : CString := ⟨"abcdefgh:x.brr".toList, by decide⟩

/-- Eight characters in front of the colon, and the null goes behind the array. -/
theorem algorithm_overruns : ¬ ∀ installed name, ExtractsRight installed name := by
  intro h
  obtain ⟨status, udig, hextract, -⟩ := h every_module long_algorithm
    ⟨List.replicate MAX_UDIG_SIZE null, List.replicate MAX_ALGORITHM_SIZE null, List.length_replicate,
      List.length_replicate⟩
  have hnone : extract_wrap_udig every_module long_algorithm
      ⟨List.replicate MAX_UDIG_SIZE null, List.replicate MAX_ALGORITHM_SIZE null, List.length_replicate,
        List.length_replicate⟩ = none := by decide
  rw [hnone] at hextract
  cases hextract

end Blobio.WrapNames
