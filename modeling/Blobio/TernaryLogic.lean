import Mathlib.Order.BoundedOrder.Lattice
import Mathlib.Order.Lattice
import Mathlib.Order.Nat

/-! The logic of true, false and null: its values as a chain, on which `and` and `or` are the
lesser and the greater of two values, and expressions over it. -/
namespace TernaryLogic

inductive Truth
  | no
  | null
  | yes
  deriving DecidableEq, Repr

namespace Truth

def rank : Truth → ℕ
  | no => 0
  | null => 1
  | yes => 2

theorem rank_injective : Function.Injective rank := by
  intro a b h
  cases a <;> cases b <;> first | rfl | cases h

/-- False is below null, and null below true. -/
instance : LinearOrder Truth := LinearOrder.lift' rank rank_injective

instance : BoundedOrder Truth where
  top := yes
  le_top := by intro a; cases a <;> decide
  bot := no
  bot_le := by intro a; cases a <;> decide

end Truth

inductive Op
  | and
  | or
  deriving DecidableEq, Repr

namespace Op

/-- The lesser value for `and`, the greater for `or`. -/
def apply : Op → Truth → Truth → Truth
  | and, a, b => a ⊓ b
  | or, a, b => a ⊔ b

/-- The value that an operator leaves other values as they are with. -/
def unit : Op → Truth
  | and => ⊤
  | or => ⊥

@[simp] theorem unit_apply (o : Op) (a : Truth) : o.apply o.unit a = a := by
  cases o with
  | and => exact top_inf_eq a
  | or => exact bot_sup_eq a

@[simp] theorem apply_unit (o : Op) (a : Truth) : o.apply a o.unit = a := by
  cases o with
  | and => exact inf_top_eq a
  | or => exact sup_bot_eq a

@[simp] theorem apply_self (o : Op) (a : Truth) : o.apply a a = a := by
  cases o with
  | and => exact inf_idem a
  | or => exact sup_idem a

end Op

/-- An expression over named values. -/
inductive Expr (α : Type*)
  | leaf (a : α)
  | node (o : Op) (left right : Expr α)
  deriving DecidableEq

namespace Expr

variable {α : Type*}

def eval (v : α → Truth) : Expr α → Truth
  | leaf a => v a
  | node o left right => o.apply (left.eval v) (right.eval v)

def leaves : Expr α → List α
  | leaf a => [a]
  | node _ left right => left.leaves ++ right.leaves

theorem eval_congr {v w : α → Truth} (e : Expr α) (h : ∀ a ∈ e.leaves, v a = w a) :
    e.eval v = e.eval w := by
  induction e with
  | leaf a => exact h a List.mem_cons_self
  | node o left right ihl ihr =>
    rw [eval, eval, ihl fun a ha => h a (List.mem_append_left _ ha),
      ihr fun a ha => h a (List.mem_append_right _ ha)]

/-- An expression has the value that all its leaves have. -/
theorem eval_const (t : Truth) (e : Expr α) : e.eval (fun _ => t) = t := by
  induction e with
  | leaf a => rfl
  | node o left right ihl ihr => rw [eval, ihl, ihr, Op.apply_self]

end Expr

end TernaryLogic
