import Mathlib.Data.Char
import Mathlib.Data.List.Lex
import Mathlib.Order.Compare
import Mathlib.Algebra.Order.Ring.Int

/-! Byte-wise comparison: the signs of `memcmp` and `strcmp` in the order of lists, and maps
of lists by blocks that keep the order. -/
namespace LexicographicOrders

scoped instance byteOrder : LinearOrder UInt8 where
  le_refl := UInt8.le_refl
  le_trans _ _ _ := UInt8.le_trans
  le_antisymm _ _ := UInt8.le_antisymm
  le_total := UInt8.le_total
  lt_iff_le_not_ge a b := by
    rw [UInt8.lt_iff_toNat_lt, UInt8.le_iff_toNat_le, UInt8.le_iff_toNat_le]
    omega
  toDecidableLE := inferInstance
  toDecidableLT := inferInstance
  toDecidableEq := inferInstance

/-- How two elements stand in their order. -/
def order {α : Type*} [LinearOrder α] (a b : α) : Ordering := cmp a b

/-- What a caller may read of a comparison's result. -/
def sign (z : ℤ) : Ordering := order z 0

/-- The first two bytes that differ decide. -/
def memcmp : List UInt8 → List UInt8 → ℤ
  | x :: a, y :: b => if x = y then memcmp a b else x.toNat - y.toNat
  | _, _ => 0

/-- The text that ends first meets its null with the other's byte. -/
def strcmp : List Char → List Char → ℤ
  | x :: a, y :: b => if x = y then strcmp a b else x.toNat - y.toNat
  | x :: _, [] => x.toNat
  | [], y :: _ => -y.toNat
  | [], [] => 0

section order
variable {α β : Type*} [LinearOrder α] [LinearOrder β]

theorem order_lt {a b : α} : order a b = .lt ↔ a < b :=
  cmp_eq_lt_iff a b

theorem order_eq {a b : α} : order a b = .eq ↔ a = b :=
  cmp_eq_eq_iff a b

theorem order_gt {a b : α} : order a b = .gt ↔ b < a :=
  cmp_eq_gt_iff a b

theorem order_map {f : α → β} (hf : StrictMono f) (a b : α) : order (f a) (f b) = order a b :=
  hf.cmp_map_eq a b

theorem order_cons (a : α) (as bs : List α) : order (a :: as) (a :: bs) = order as bs :=
  order_map (fun _ _ h => List.cons_lt_cons_iff.mpr (.inr ⟨rfl, h⟩)) as bs

theorem order_append (p as bs : List α) : order (p ++ as) (p ++ bs) = order as bs := by
  induction p with
  | nil => rfl
  | cons a p ih => exact (order_cons a _ _).trans ih

theorem order_of_lt {a b : α} (h : a < b) (as bs : List α) : order (a :: as) (b :: bs) = .lt :=
  order_lt.mpr (List.cons_lt_cons_iff.mpr (.inl h))

theorem order_of_gt {a b : α} (h : b < a) (as bs : List α) : order (a :: as) (b :: bs) = .gt :=
  order_gt.mpr (List.cons_lt_cons_iff.mpr (.inl h))

theorem lt_append_of_lt {p q : List α} (h : p < q) (hlen : p.length = q.length) (as bs : List α) :
    p ++ as < q ++ bs := by
  induction p generalizing q with
  | nil =>
    rw [List.length_eq_zero_iff.mp hlen.symm] at h
    exact absurd h (lt_irrefl _)
  | cons a p ih =>
    cases q with
    | nil => cases hlen
    | cons b q =>
      refine List.cons_lt_cons_iff.mpr ((List.cons_lt_cons_iff.mp h).imp id ?_)
      rintro ⟨hab, hpq⟩
      exact ⟨hab, ih hpq (Nat.succ.inj hlen)⟩

/-- Blocks of one length in the order of what they stand for keep the order of lists. -/
theorem strictMono_flatMap {f : α → List β} (hf : StrictMono f)
    (hlen : ∀ a b, (f a).length = (f b).length) (hne : ∀ a, f a ≠ []) :
    StrictMono fun as : List α => as.flatMap f := by
  intro as
  induction as with
  | nil =>
    intro bs h
    cases bs with
    | nil => exact absurd h (lt_irrefl _)
    | cons b bs =>
      obtain ⟨c, cs, hblock⟩ := List.exists_cons_of_ne_nil (hne b)
      change [] < f b ++ bs.flatMap f
      exact hblock ▸ List.nil_lt_cons c _
  | cons a as ih =>
    intro bs h
    cases bs with
    | nil => exact absurd h (List.not_lt_nil _)
    | cons b bs =>
      rcases List.cons_lt_cons_iff.mp h with hab | ⟨rfl, hlt⟩
      · exact lt_append_of_lt (hf hab) (hlen a b) _ _
      · exact List.append_left_lt (ih hlt)

end order

theorem sign_of_lt {m n : ℕ} (h : m < n) : sign (m - n) = .lt :=
  order_lt.mpr (by omega)

theorem sign_of_gt {m n : ℕ} (h : n < m) : sign (m - n) = .gt :=
  order_gt.mpr (by omega)

theorem sign_memcmp {a b : List UInt8} (h : a.length = b.length) : sign (memcmp a b) = order a b := by
  induction a generalizing b with
  | nil =>
    rw [List.length_eq_zero_iff.mp h.symm]
    exact (order_eq.mpr rfl).symm
  | cons x a ih =>
    cases b with
    | nil => cases h
    | cons y b =>
      rw [memcmp]
      split_ifs with hxy
      · rw [ih (Nat.succ.inj h), hxy, order_cons]
      · rcases lt_or_gt_of_ne hxy with hlt | hgt
        · rw [order_of_lt hlt]
          exact sign_of_lt (UInt8.lt_iff_toNat_lt.mp hlt)
        · rw [order_of_gt hgt]
          exact sign_of_gt (UInt8.lt_iff_toNat_lt.mp hgt)

theorem toNat_pos {c : Char} (h : c ≠ '\x00') : 0 < c.toNat := by
  refine Nat.pos_of_ne_zero fun hzero => h ?_
  rw [← Char.ofNat_toNat c, hzero]

theorem sign_strcmp {a b : List Char} (ha : '\x00' ∉ a) (hb : '\x00' ∉ b) :
    sign (strcmp a b) = order a b := by
  induction a generalizing b with
  | nil =>
    cases b with
    | nil => exact (order_eq.mpr rfl).symm
    | cons y b =>
      rw [order_lt.mpr (List.nil_lt_cons y b)]
      have hpos := toNat_pos (List.ne_of_not_mem_cons hb).symm
      exact order_lt.mpr (by rw [strcmp]; omega)
  | cons x a ih =>
    cases b with
    | nil =>
      rw [order_gt.mpr (List.nil_lt_cons x a)]
      have hpos := toNat_pos (List.ne_of_not_mem_cons ha).symm
      exact order_gt.mpr (by rw [strcmp]; omega)
    | cons y b =>
      rw [strcmp]
      split_ifs with hxy
      · rw [ih (List.not_mem_of_not_mem_cons ha) (List.not_mem_of_not_mem_cons hb), hxy, order_cons]
      · rcases lt_or_gt_of_ne hxy with hlt | hgt
        · rw [order_of_lt hlt]
          exact sign_of_lt hlt
        · rw [order_of_gt hgt]
          exact sign_of_gt hgt

end LexicographicOrders
