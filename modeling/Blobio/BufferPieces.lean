import Mathlib.Algebra.BigOperators.Group.List.Basic
import Mathlib.Algebra.Order.Ring.Nat
import Mathlib.Data.List.Basic
import Mathlib.Data.List.Range

/-! A buffer that goes out in pieces: which of its positions have gone, and in which order. -/
namespace BufferPieces

structure Piece where
  offset : ℕ
  length : ℕ
  deriving DecidableEq

/-- The positions of the buffer in the order in which they have gone out. -/
def positions (pieces : List Piece) : List ℕ :=
  pieces.flatMap fun p => List.range' p.offset p.length

def total (pieces : List Piece) : ℕ :=
  (pieces.map Piece.length).sum

/-- What has gone out of a buffer. -/
def bytes {α : Type*} (buf : List α) (pieces : List Piece) : List α :=
  pieces.flatMap fun p => (buf.drop p.offset).take p.length

/-- A piece that is not empty begins where those before it have ended. -/
def Chained : ℕ → List Piece → Prop
  | _, [] => True
  | o, p :: ps => (p.length = 0 ∨ p.offset = o) ∧ Chained (o + p.length) ps

variable {o : ℕ} {ps : List Piece}

@[simp] theorem total_nil : total [] = 0 := rfl

@[simp] theorem total_cons (p : Piece) (ps : List Piece) : total (p :: ps) = p.length + total ps := by
  simp [total]

theorem range'_eq_iff {a n : ℕ} : List.range' a n = List.range' o n ↔ n = 0 ∨ a = o := by
  cases n with
  | zero => simp
  | succ n =>
    constructor
    · intro h
      exact Or.inr (List.cons.inj h).1
    · intro h
      rw [h.resolve_left (Nat.succ_ne_zero n)]

/-- Every position once and in order, whatever the pieces are. -/
theorem positions_eq_iff : positions ps = List.range' o (total ps) ↔ Chained o ps := by
  induction ps generalizing o with
  | nil => exact iff_of_true rfl trivial
  | cons p ps ih =>
    rw [total_cons, ← List.range'_append_1, positions, List.flatMap_cons]
    constructor
    · intro h
      obtain ⟨hfirst, hrest⟩ := List.append_inj h (by simp)
      exact ⟨range'_eq_iff.mp hfirst, ih.mp hrest⟩
    · intro ⟨hfirst, hrest⟩
      rw [range'_eq_iff.mpr hfirst]
      exact congrArg _ (ih.mpr hrest)

theorem bytes_of_chained {α : Type*} (buf : List α) (h : Chained o ps) :
    bytes buf ps = (buf.drop o).take (total ps) := by
  induction ps generalizing o with
  | nil => simp [bytes]
  | cons p ps ih =>
    have hrest := ih h.2
    have hpiece : (buf.drop p.offset).take p.length = (buf.drop o).take p.length := by
      rcases h.1 with h0 | ho
      · rw [h0, List.take_zero, List.take_zero]
      · rw [ho]
    rw [bytes, List.flatMap_cons, hpiece, total_cons, List.take_add, List.drop_drop]
    exact congrArg _ hrest

end BufferPieces
