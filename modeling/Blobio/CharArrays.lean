import Mathlib.Data.List.Basic
import Mathlib.Data.List.TakeWhile

/-! Arrays of characters as the string functions of C read and write them. A string ends at the
first null of its array; an access behind the array has no result. -/
namespace CharArrays

def null : Char := '\x00'

/-- A string of C, without its null. -/
abbrev CString := { s : List Char // null ∉ s }

/-- The string in an array, or the whole array if none ends in it. -/
def text (a : List Char) : List Char :=
  a.takeWhile (· ≠ null)

def strlen (a : List Char) : Option ℕ :=
  if null ∈ a then some (text a).length else none

/-- Characters written from an index on, as `memcpy` and single assignments do. -/
def write (a : List Char) (i : ℕ) (xs : List Char) : Option (List Char) :=
  if i + xs.length ≤ a.length then some (a.take i ++ xs ++ a.drop (i + xs.length)) else none

/-- The rest of the `n` characters are nulls, and there is no null where the string is as long. -/
def strncpy (a : List Char) (src : CString) (n : ℕ) : Option (List Char) :=
  write a 0 (src.val.take n ++ List.replicate (n - src.val.length) null)

/-- At most `n` characters of the string go behind the string in the array, and a null. -/
def strncat (a : List Char) (src : CString) (n : ℕ) : Option (List Char) :=
  (strlen a).bind fun len => write a len (src.val.take n ++ [null])

variable {a a' xs s rest : List Char} {i n : ℕ} {src : CString}

@[simp] theorem text_null (h : null ∉ s) (rest : List Char) : text (s ++ null :: rest) = s := by
  rw [text, List.takeWhile_append_of_pos, List.takeWhile_cons_of_neg (by simp), List.append_nil]
  intro c hc
  rw [decide_eq_true_eq]
  rintro rfl
  exact h hc

theorem not_mem_text (a : List Char) : null ∉ text a := by
  intro hmem
  simpa using List.mem_takeWhile_imp hmem

/-- An array that holds a string has a null behind it. -/
theorem text_append (h : null ∈ a) : ∃ rest, a = text a ++ null :: rest := by
  obtain ⟨s, rest, rfl, hs⟩ := List.eq_append_cons_of_mem h
  exact ⟨rest, by rw [text_null hs]⟩

theorem length_text_lt (h : null ∈ a) : (text a).length < a.length := by
  obtain ⟨rest, hrest⟩ := text_append h
  have hlen := congrArg List.length hrest
  rw [List.length_append, List.length_cons] at hlen
  omega

theorem strlen_of_mem (h : null ∈ a) : strlen a = some (text a).length := if_pos h

theorem strlen_of_not_mem (h : null ∉ a) : strlen a = none := if_neg h

theorem write_length (h : write a i xs = some a') : a'.length = a.length := by
  obtain ⟨hroom, heq⟩ := Option.ite_none_right_eq_some.mp h
  obtain rfl := Option.some.inj heq
  rw [List.length_append, List.length_append, List.length_take, List.length_drop]
  omega

theorem write_isSome : (∃ a', write a i xs = some a') ↔ i + xs.length ≤ a.length := by
  constructor
  · rintro ⟨a', h⟩
    exact (Option.ite_none_right_eq_some.mp h).1
  · exact fun h => ⟨_, if_pos h⟩

/-- A string written at the front. -/
theorem write_front (hs : null ∉ s) (hroom : s.length < a.length) :
    ∃ a', write a 0 (s ++ [null]) = some a' ∧ a'.length = a.length ∧ null ∈ a' ∧ text a' = s := by
  have hfits : 0 + (s ++ [null]).length ≤ a.length := by
    rw [List.length_append, List.length_singleton]
    omega
  refine ⟨_, if_pos hfits, write_length (if_pos hfits), ?_, ?_⟩
  · simp
  · rw [List.take_zero, List.nil_append, List.append_assoc, List.singleton_append, text_null hs]

/-- A string written behind the one that is there. -/
theorem write_behind (hs : null ∉ s) (hroom : (text a).length + s.length < a.length) :
    ∃ a', write a (text a).length (s ++ [null]) = some a' ∧ a'.length = a.length ∧ null ∈ a' ∧
      text a' = text a ++ s := by
  have hfits : (text a).length + (s ++ [null]).length ≤ a.length := by
    rw [List.length_append, List.length_singleton]
    omega
  refine ⟨_, if_pos hfits, write_length (if_pos hfits), ?_, ?_⟩
  · simp
  · have htake : a.take (text a).length = text a :=
      (List.prefix_iff_eq_take.mp (List.takeWhile_prefix _)).symm
    have hnot : null ∉ text a ++ s := by
      rw [List.mem_append, not_or]
      exact ⟨not_mem_text a, hs⟩
    rw [htake, ← List.append_assoc, List.append_assoc (text a ++ s), List.singleton_append, text_null hnot]

/-- A string that is shorter than the array ends in it. -/
theorem strncpy_short (h : src.val.length < a.length) :
    ∃ a', strncpy a src a.length = some a' ∧ a'.length = a.length ∧ null ∈ a' ∧ text a' = src.val := by
  have htake : src.val.take a.length = src.val := List.take_of_length_le h.le
  obtain ⟨k, hk⟩ : ∃ k, a.length - src.val.length = k + 1 := ⟨a.length - src.val.length - 1, by omega⟩
  have hfits : 0 + (src.val ++ List.replicate (k + 1) null).length ≤ a.length := by
    rw [List.length_append, List.length_replicate]
    omega
  rw [strncpy, htake, hk]
  refine ⟨_, if_pos hfits, write_length (if_pos hfits), ?_, ?_⟩
  · simp [List.replicate_succ]
  · rw [List.take_zero, List.nil_append, List.replicate_succ, List.append_assoc, List.cons_append,
      text_null src.2]

/-- Of one that is not, as much as there is room for is copied, without a null. -/
theorem strncpy_long (h : a.length ≤ src.val.length) :
    ∃ a', strncpy a src a.length = some a' ∧ null ∉ a' := by
  have hfill : src.val.take a.length ++ List.replicate (a.length - src.val.length) null =
      src.val.take a.length := by
    rw [Nat.sub_eq_zero_of_le h, List.replicate_zero, List.append_nil]
  have hlen : (src.val.take a.length).length = a.length := by rw [List.length_take, Nat.min_eq_left h]
  have hfits : 0 + (src.val.take a.length).length ≤ a.length := by omega
  rw [strncpy, hfill]
  refine ⟨_, if_pos hfits, ?_⟩
  rw [List.take_zero, List.nil_append, Nat.zero_add, hlen, List.drop_length, List.append_nil]
  exact fun hmem => src.2 (List.mem_of_mem_take hmem)

/-- With the room that is left, the string is cut at the end of the array. -/
theorem strncat_cut (ha : null ∈ a) (src : CString) :
    ∃ a', strncat a src (a.length - ((text a).length + 1)) = some a' ∧ a'.length = a.length ∧ null ∈ a' ∧
      text a' = (text a ++ src.val).take (a.length - 1) := by
  have hlt := length_text_lt ha
  have hcut : null ∉ src.val.take (a.length - ((text a).length + 1)) :=
    fun hmem => src.2 (List.mem_of_mem_take hmem)
  have hroom : (text a).length + (src.val.take (a.length - ((text a).length + 1))).length < a.length := by
    rw [List.length_take]
    omega
  obtain ⟨a', hwrite, hlen, hnull, htext⟩ := write_behind hcut hroom
  refine ⟨a', ?_, hlen, hnull, ?_⟩
  · rw [strncat, strlen_of_mem ha, Option.bind_some, hwrite]
  · rw [htext, List.take_append, List.take_of_length_le (by omega : (text a).length ≤ a.length - 1)]
    congr 2
    omega

end CharArrays
