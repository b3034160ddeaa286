import Mathlib.Data.Finset.Insert
import Mathlib.Data.Set.Basic
import Mathlib.Data.Finset.Disjoint

/-! Events that say of a key whether it is there. The last one to say so counts, and a scan that starts at the
last event needs no more than the keys that it has decided. -/
namespace LastVerdicts

variable {ε κ : Type*} [DecidableEq κ] (key : ε → κ) (verdict : ε → Option Bool)

/-- What the events, the first one first, have said of a key in the end. -/
def last (es : List ε) (k : κ) : Option Bool :=
  match es with
  | [] => none
  | e :: es => (last es k).or (if key e = k then verdict e else none)

/-- The keys that are there and those that are not, as far as a scan has come. -/
structure Decided (κ : Type*) where
  yes : Finset κ
  no : Finset κ

def judge (e : ε) (d : Decided κ) : Decided κ :=
  match verdict e with
  | none => d
  | some true => if key e ∈ d.no then d else { d with yes := insert (key e) d.yes }
  | some false => if key e ∈ d.yes then d else { d with no := insert (key e) d.no }

/-- A scan of the events from the last one to the first. -/
def scan (d : Decided κ) (es : List ε) : Decided κ := es.reverse.foldl (fun d e => judge key verdict e d) d

variable {key verdict} {es es' : List ε} {e : ε} {k : κ} {d : Decided κ}

theorem last_append : last key verdict (es ++ es') k = (last key verdict es' k).or (last key verdict es k) := by
  induction es with
  | nil => exact (Option.or_none).symm
  | cons e es ih =>
    rw [List.cons_append, last, ih, last, Option.or_assoc]

theorem last_cons : last key verdict (e :: es) k =
    (last key verdict es k).or (if key e = k then verdict e else none) := rfl

theorem last_eq_none : last key verdict es k = none ↔ ∀ e ∈ es, key e = k → verdict e = none := by
  induction es with
  | nil => simp [last]
  | cons e es ih =>
    rw [last_cons, Option.or_eq_none_iff, ih, List.forall_mem_cons, and_comm]
    refine and_congr_left fun _ => ?_
    split_ifs with h
    · simp [h]
    · simp [h]

theorem scan_cons : scan key verdict d (e :: es) = judge key verdict e (scan key verdict d es) := by
  rw [scan, List.reverse_cons, List.foldl_append]
  rfl

theorem mem_judge_yes : k ∈ (judge key verdict e d).yes ↔
    k ∈ d.yes ∨ (key e = k ∧ verdict e = some true ∧ k ∉ d.no) := by
  unfold judge
  split
  · rename_i hv
    simp [hv]
  · rename_i hv
    split_ifs with hno
    · refine (or_iff_left ?_).symm
      rintro ⟨rfl, -, hnot⟩
      exact hnot hno
    · rw [Finset.mem_insert]
      constructor
      · rintro (rfl | hyes)
        · exact .inr ⟨rfl, hv, hno⟩
        · exact .inl hyes
      · rintro (hyes | ⟨rfl, -, -⟩)
        · exact .inr hyes
        · exact .inl rfl
  · rename_i hv
    split_ifs <;> simp [hv]

theorem mem_judge_no : k ∈ (judge key verdict e d).no ↔
    k ∈ d.no ∨ (key e = k ∧ verdict e = some false ∧ k ∉ d.yes) := by
  unfold judge
  split
  · rename_i hv
    simp [hv]
  · rename_i hv
    split_ifs <;> simp [hv]
  · rename_i hv
    split_ifs with hyes
    · refine (or_iff_left ?_).symm
      rintro ⟨rfl, -, hnot⟩
      exact hnot hyes
    · rw [Finset.mem_insert]
      constructor
      · rintro (rfl | hno)
        · exact .inr ⟨rfl, hv, hyes⟩
        · exact .inl hno
      · rintro (hno | ⟨rfl, -, -⟩)
        · exact .inr hno
        · exact .inl rfl

/-- A scan decides by the last verdict what it did not start with, and never both ways. -/
structure Decides (d d' : Decided κ) (last : κ → Option Bool) : Prop where
  disjoint : Disjoint d'.yes d'.no
  yes : ∀ k, k ∈ d'.yes ↔ k ∈ d.yes ∨ (k ∉ d.no ∧ last k = some true)
  no : ∀ k, k ∈ d'.no ↔ k ∈ d.no ∨ (k ∉ d.yes ∧ last k = some false)

/-- What a scan has not decided no event has told. -/
theorem Decides.undecided {d' : Decided κ} (h : Decides d d' (last key verdict es)) (hyes : k ∉ d'.yes)
    (hno : k ∉ d'.no) : ∀ e ∈ es, key e = k → verdict e = none := by
  rw [h.yes, not_or, not_and] at hyes
  rw [h.no, not_or, not_and] at hno
  refine last_eq_none.mp ?_
  cases hl : last key verdict es k with
  | none => rfl
  | some b => cases b with
    | true => exact absurd hl (hyes.2 hno.1)
    | false => exact absurd hl (hno.2 hyes.1)

theorem Decides.judge {d' : Decided κ} {l : κ → Option Bool} (h : Decides d d' l) (e : ε) :
    Decides d (judge key verdict e d') fun k => (l k).or (if key e = k then verdict e else none) := by
  have hboth : ∀ k, ¬ (k ∈ d'.yes ∧ k ∈ d'.no) := fun k hk => Finset.disjoint_left.mp h.disjoint hk.1 hk.2
  constructor
  · rw [Finset.disjoint_left]
    intro k
    have hk := hboth k
    rw [mem_judge_yes, mem_judge_no]
    rintro (hyes | ⟨-, htrue, hno⟩) (hno' | ⟨-, hfalse, hyes'⟩)
    · exact hk ⟨hyes, hno'⟩
    · exact hyes' hyes
    · exact hno hno'
    · cases htrue.symm.trans hfalse
  all_goals
    intro k
    have hk := hboth k
    have hyes := h.yes k
    have hno := h.no k
    simp only [mem_judge_yes, mem_judge_no]
    by_cases hkey : key e = k
    · cases hl : l k with
      | some b =>
        -- the key has been decided by a later event
        cases b
        all_goals
          simp only [hl, Option.some.injEq, reduceCtorEq, and_false, and_true, or_false] at hyes hno
          simp only [hkey, Option.some_or, Option.some.injEq, reduceCtorEq, and_false, and_true, or_false]
          tauto
      | none =>
        simp only [hl, reduceCtorEq, and_false, or_false] at hyes hno
        simp only [hkey, if_pos, Option.none_or]
        tauto
    · simp only [hkey, if_false, Option.or_none, false_and, or_false]
      assumption

theorem scan_decides (h : Disjoint d.yes d.no) (es : List ε) :
    Decides d (scan key verdict d es) (last key verdict es) := by
  induction es with
  | nil => exact ⟨h, fun k => by simp [scan, last], fun k => by simp [scan, last]⟩
  | cons e es ih =>
    rw [scan_cons]
    exact ih.judge e

/-! ### Events that tell of a set -/

/-- What an event may do to a set: to put in or take out the key that it tells of. -/
structure Tells (key : ε → κ) (verdict : ε → Option Bool) (e : ε) (s s' : Set κ) : Prop where
  told : ∀ b, verdict e = some b → (key e ∈ s' ↔ b = true)
  silent : verdict e = none → ∀ k, k ∈ s' ↔ k ∈ s
  others : ∀ k ≠ key e, k ∈ s' ↔ k ∈ s

/-- A set after events that tell of it. -/
inductive History (key : ε → κ) (verdict : ε → Option Bool) (s : Set κ) : List ε → Set κ → Prop
  | nil : History key verdict s [] s
  | concat {es s' e s''} (h : History key verdict s es s') (htells : Tells key verdict e s' s'') :
      History key verdict s (es ++ [e]) s''

/-- The last verdict on a key is right, and a key without one is where it was. -/
theorem History.mem_iff {s s' : Set κ} (h : History key verdict s es s') (k : κ) :
    k ∈ s' ↔ last key verdict es k = some true ∨ (last key verdict es k = none ∧ k ∈ s) := by
  induction h with
  | nil => simp [last]
  | @concat es s' e s'' h htells ih =>
    rw [last_append, last_cons]
    by_cases hk : key e = k
    · rw [if_pos hk]
      cases hv : verdict e with
      | none =>
        rw [htells.silent hv, ih]
        rfl
      | some b =>
        rw [← hk, htells.told b hv]
        simp [last]
    · rw [if_neg hk, htells.others k (Ne.symm hk), ih]
      rfl

end LastVerdicts
