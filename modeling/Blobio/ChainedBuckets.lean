import Mathlib.Data.List.FinRange
import Mathlib.Data.Set.Insert
import Mathlib.Logic.Function.Basic

/-! A table of chains, one for each value of a hash, that holds a set without repetition. -/
namespace ChainedBuckets

variable {α : Type*} {n : ℕ} {hash : α → Fin n} {chains : Fin n → List α} {S : Set α} {a : α}

/-- The elements in the order of a walk over the buckets. -/
def elements (chains : Fin n → List α) : List α :=
  (List.finRange n).flatMap chains

/-- Every element of `S` stands once, in the bucket of its hash, and nothing else does. -/
structure Holds (hash : α → Fin n) (chains : Fin n → List α) (S : Set α) : Prop where
  hashed : ∀ i, ∀ a ∈ chains i, hash a = i
  nodup : ∀ i, (chains i).Nodup
  mem : ∀ a, a ∈ chains (hash a) ↔ a ∈ S

theorem holds_empty : Holds hash (fun _ => []) ∅ :=
  ⟨by simp, by simp, by simp⟩

theorem Holds.cons (h : Holds hash chains S) (ha : a ∉ S) :
    Holds hash (Function.update chains (hash a) (a :: chains (hash a))) (insert a S) where
  hashed i b hb := by
    by_cases hi : i = hash a
    · subst hi
      rw [Function.update_self] at hb
      rcases List.mem_cons.mp hb with rfl | hb
      · rfl
      · exact h.hashed _ b hb
    · rw [Function.update_of_ne hi] at hb
      exact h.hashed i b hb
  nodup i := by
    by_cases hi : i = hash a
    · subst hi
      rw [Function.update_self]
      exact List.nodup_cons.mpr ⟨fun hmem => ha ((h.mem a).mp hmem), h.nodup _⟩
    · rw [Function.update_of_ne hi]
      exact h.nodup i
  mem b := by
    by_cases hi : hash b = hash a
    · have hb := h.mem b
      rw [hi] at hb
      rw [hi, Function.update_self, List.mem_cons, Set.mem_insert_iff, hb]
    · have hne : b ≠ a := fun e => hi (e ▸ rfl)
      rw [Function.update_of_ne hi, h.mem, Set.mem_insert_iff]
      exact ⟨Or.inr, fun hb => hb.resolve_left hne⟩

theorem Holds.mem_elements (h : Holds hash chains S) : a ∈ elements chains ↔ a ∈ S := by
  rw [elements, List.mem_flatMap, ← h.mem]
  constructor
  · intro ⟨i, _, ha⟩
    exact (h.hashed i a ha).symm ▸ ha
  · intro ha
    exact ⟨hash a, List.mem_finRange _, ha⟩

/-- The chains of different buckets have no element in common. -/
theorem Holds.nodup_elements (h : Holds hash chains S) : (elements chains).Nodup := by
  apply List.nodup_flatMap.mpr
  refine ⟨fun i _ => h.nodup i, (List.nodup_finRange n).imp ?_⟩
  intro i j hij b hi hj
  exact hij ((h.hashed i b hi).symm.trans (h.hashed j b hj))

end ChainedBuckets
