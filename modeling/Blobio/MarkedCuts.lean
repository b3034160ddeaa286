import Mathlib.Data.List.Basic

/-! Streams of messages, some of which cut the stream into segments. -/
namespace MarkedCuts

variable {μ : Type*} (cut mark : μ → Bool)

/-- A cut may come behind the messages: a mark has come since the last cut, or `may` held
in front of them and there was no cut. -/
def may_cut : Bool → List μ → Bool
  | may, [] => may
  | may, m :: ms => may_cut (!cut m && (may || mark m)) ms

/-- Each cut among the messages comes when it may. -/
def Marked : Bool → List μ → Prop
  | _, [] => True
  | may, m :: ms => (cut m = true → may = true) ∧ Marked (!cut m && (may || mark m)) ms

variable {cut mark} {may : Bool} {ms ns : List μ}

theorem marked_append : Marked cut mark may (ms ++ ns) ↔
    Marked cut mark may ms ∧ Marked cut mark (may_cut cut mark may ms) ns := by
  induction ms generalizing may with
  | nil => exact (iff_of_eq (true_and _)).symm
  | cons m ms ih =>
    exact (and_congr_right fun _ => ih).trans and_assoc.symm

theorem marked_concat {m : μ} : Marked cut mark may (ms ++ [m]) ↔
    Marked cut mark may ms ∧ (cut m = true → may_cut cut mark may ms = true) := by
  rw [marked_append]
  exact and_congr_right fun _ => iff_of_eq (and_true _)

end MarkedCuts
