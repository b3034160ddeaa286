import Mathlib.Data.List.Basic
import Mathlib.Data.List.Induction

/-! Texts of lines, each with its terminator behind it. -/
namespace TerminatedLines

variable {α : Type*} {sep : α} {lines lines' : List (List α)} {xs : List α}

def terminated (sep : α) (lines : List (List α)) : List α :=
  lines.flatMap (· ++ [sep])

@[simp] theorem terminated_nil : terminated sep [] = [] := rfl

theorem terminated_cons (l : List α) : terminated sep (l :: lines) = l ++ [sep] ++ terminated sep lines :=
    rfl

theorem length_splitOn [DecidableEq α] (sep : α) (xs : List α) :
    (xs.splitOn sep).length = xs.count sep + 1 := by
  induction xs with
  | nil => rfl
  | cons x xs ih =>
    rw [List.splitOn_cons_eq_if_modifyHead, List.count_cons]
    split <;> simp [ih]

theorem splitOn_terminated [DecidableEq α] (h : ∀ l ∈ lines, sep ∉ l) :
    (terminated sep lines).splitOn sep = lines ++ [[]] := by
  induction lines with
  | nil => rfl
  | cons l lines ih =>
    rw [List.forall_mem_cons] at h
    rw [terminated_cons, List.append_assoc, List.singleton_append,
      List.splitOn_append_cons_self_of_not_mem h.1, ih h.2]
    rfl

theorem terminated_injective [DecidableEq α] (h : ∀ l ∈ lines, sep ∉ l) (h' : ∀ l ∈ lines', sep ∉ l)
    (heq : terminated sep lines = terminated sep lines') : lines = lines' := by
  have hsplit := congrArg (List.splitOn sep) heq
  rw [splitOn_terminated h, splitOn_terminated h'] at hsplit
  exact List.append_cancel_right hsplit

/-- A text that ends with a terminator is made of lines. -/
theorem exists_terminated [DecidableEq α] (h : xs.getLast? = some sep) :
    ∃ lines, lines ≠ [] ∧ (∀ l ∈ lines, sep ∉ l) ∧ xs = terminated sep lines := by
  induction xs with
  | nil => cases h
  | cons x xs ih =>
    by_cases hnil : xs = []
    · subst hnil
      obtain rfl : x = sep := Option.some.inj h
      exact ⟨[[]], List.cons_ne_nil _ _, by simp, rfl⟩
    · rw [List.getLast?_cons_of_ne_nil hnil] at h
      obtain ⟨lines, hne, hlines, rfl⟩ := ih h
      by_cases hx : x = sep
      · subst hx
        exact ⟨[] :: lines, List.cons_ne_nil _ _, by simpa using hlines, rfl⟩
      · obtain ⟨l, lines, rfl⟩ := List.exists_cons_of_ne_nil hne
        rw [List.forall_mem_cons] at hlines
        refine ⟨(x :: l) :: lines, List.cons_ne_nil _ _, ?_, rfl⟩
        rw [List.forall_mem_cons, List.mem_cons, not_or]
        exact ⟨⟨Ne.symm hx, hlines.1⟩, hlines.2⟩

/-- A text whose last terminator is taken off has its terminators between the lines. -/
theorem dropLast_terminated (h : lines ≠ []) :
    (terminated sep lines).dropLast = [sep].intercalate lines := by
  induction lines with
  | nil => exact absurd rfl h
  | cons l lines ih =>
    cases lines with
    | nil => simp [terminated]
    | cons l' lines =>
      have hne : terminated sep (l' :: lines) ≠ [] := by simp [terminated]
      rw [terminated_cons, List.dropLast_append_of_ne_nil hne, ih (List.cons_ne_nil _ _),
        List.intercalate_cons_cons]

theorem splitOn_dropLast_terminated [DecidableEq α] (hne : lines ≠ []) (h : ∀ l ∈ lines, sep ∉ l) :
    (terminated sep lines).dropLast.splitOn sep = lines := by
  rw [dropLast_terminated hne, List.splitOn_intercalate sep h hne]

theorem getLast?_terminated (h : lines ≠ []) : (terminated sep lines).getLast? = some sep := by
  rw [← List.dropLast_append_getLast h]
  simp [terminated]

/-! ### The lines of a text that grows -/

variable [DecidableEq α] {acc : List (List α)} {u : List α}

/-- A symbol ends the line, or goes on with it. -/
def feed (sep : α) (s : List (List α) × List α) (x : α) : List (List α) × List α :=
  if x = sep then (s.1 ++ [s.2], []) else (s.1, s.2 ++ [x])

/-- The lines of a text, each with its terminator in the text. -/
def complete (sep : α) (xs : List α) : List (List α) := (xs.foldl (feed sep) ([], [])).1

/-- What lies behind the last terminator. -/
def unfinished (sep : α) (xs : List α) : List α := (xs.foldl (feed sep) ([], [])).2

@[simp] theorem complete_nil : complete sep [] = [] := rfl

@[simp] theorem unfinished_nil : unfinished sep [] = [] := rfl

theorem foldl_feed_of_not_mem (h : sep ∉ xs) : xs.foldl (feed sep) (acc, u) = (acc, u ++ xs) := by
  induction xs generalizing u with
  | nil => rw [List.append_nil]; rfl
  | cons x xs ih =>
    rw [List.mem_cons, not_or] at h
    rw [List.foldl_cons, feed, if_neg (Ne.symm h.1), ih h.2, List.append_assoc]
    rfl

theorem foldl_feed_acc : xs.foldl (feed sep) (acc, u) =
    (acc ++ (xs.foldl (feed sep) ([], u)).1, (xs.foldl (feed sep) ([], u)).2) := by
  induction xs generalizing acc u with
  | nil => rw [List.foldl_nil, List.foldl_nil, List.append_nil]
  | cons x xs ih =>
    rw [List.foldl_cons, List.foldl_cons]
    by_cases hx : x = sep
    · rw [feed, feed, if_pos hx, if_pos hx, ih, @ih ([] ++ [u]), List.append_assoc, List.nil_append]
    · rw [feed, feed, if_neg hx, if_neg hx, ih]

/-- Only the first line depends on what was there before. -/
theorem foldl_feed_of_mem (h : sep ∈ xs) : ∃ l ls v, ∀ acc u,
    xs.foldl (feed sep) (acc, u) = (acc ++ (u ++ l) :: ls, v) := by
  obtain ⟨l, rest, rfl, hl⟩ := List.eq_append_cons_of_mem h
  refine ⟨l, (rest.foldl (feed sep) ([], [])).1, (rest.foldl (feed sep) ([], [])).2, fun acc u => ?_⟩
  rw [List.foldl_append, foldl_feed_of_not_mem hl, List.foldl_cons, feed, if_pos rfl, foldl_feed_acc,
    List.append_assoc, List.singleton_append]

theorem complete_append (xs ys : List α) : complete sep (xs ++ ys) =
    (ys.foldl (feed sep) (complete sep xs, unfinished sep xs)).1 := by
  simp only [complete, unfinished, List.foldl_append]

theorem unfinished_append (xs ys : List α) : unfinished sep (xs ++ ys) =
    (ys.foldl (feed sep) (complete sep xs, unfinished sep xs)).2 := by
  simp only [complete, unfinished, List.foldl_append]

theorem complete_terminated (h : ∀ l ∈ lines, sep ∉ l) :
    complete sep (terminated sep lines) = lines ∧ unfinished sep (terminated sep lines) = [] := by
  induction lines using List.reverseRecOn with
  | nil => exact ⟨rfl, rfl⟩
  | append_singleton lines l ih =>
    obtain ⟨hlines, hl⟩ := List.forall_mem_append.mp h
    obtain ⟨hcomplete, hrest⟩ := ih hlines
    have hlast : terminated sep (lines ++ [l]) = terminated sep lines ++ (l ++ [sep]) := by
      simp [terminated]
    rw [hlast, complete_append, unfinished_append, hcomplete, hrest, List.foldl_append,
      foldl_feed_of_not_mem (hl l (List.mem_singleton_self l)), List.foldl_cons, List.foldl_nil, feed,
      if_pos rfl]
    exact ⟨rfl, rfl⟩

/-- The complete lines and the rest make up the text. -/
theorem terminated_complete (sep : α) (xs : List α) :
    terminated sep (complete sep xs) ++ unfinished sep xs = xs ∧ (∀ l ∈ complete sep xs, sep ∉ l) ∧
      sep ∉ unfinished sep xs := by
  induction xs using List.reverseRecOn with
  | nil => simp
  | append_singleton xs x ih =>
    obtain ⟨htext, hlines, hrest⟩ := ih
    rw [complete_append, unfinished_append, List.foldl_cons, List.foldl_nil, feed]
    by_cases hx : x = sep
    · rw [if_pos hx]
      refine ⟨?_, ?_, List.not_mem_nil⟩
      · rw [terminated, List.flatMap_append, List.append_nil, ← terminated, List.flatMap_singleton,
          ← List.append_assoc, htext, hx]
      · intro l hl
        rcases List.mem_append.mp hl with hl | hl
        · exact hlines l hl
        · rw [List.mem_singleton.mp hl]
          exact hrest
    · rw [if_neg hx, ← List.append_assoc, htext]
      refine ⟨rfl, hlines, ?_⟩
      simpa [List.mem_append, not_or] using ⟨hrest, Ne.symm hx⟩

end TerminatedLines
