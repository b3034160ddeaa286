import Mathlib.Data.Fintype.Card
import Mathlib.Data.Fintype.EquivFin
import Mathlib.Data.Fintype.Sets
import Mathlib.Data.List.Nodup
import Mathlib.Logic.Relation

/-! Orders of the nodes of a finite graph that put the source of every arc before its target.
Arcs may repeat, and an arc from a node to itself only names the node. -/
namespace ArcOrders

variable {V : Type*} {arcs : List (V × V)} {order : List V} {a b v : V}

def Arc (arcs : List (V × V)) (a b : V) : Prop := (a, b) ∈ arcs ∧ a ≠ b

def Cyclic (arcs : List (V × V)) : Prop := ∃ v, Relation.TransGen (Arc arcs) v v

def IsNode (arcs : List (V × V)) (v : V) : Prop := ∃ e ∈ arcs, v = e.1 ∨ v = e.2

theorem Arc.source (h : Arc arcs a b) : IsNode arcs a := ⟨(a, b), h.1, .inl rfl⟩

theorem Arc.target (h : Arc arcs a b) : IsNode arcs b := ⟨(a, b), h.1, .inr rfl⟩

/-- All nodes once, sources before targets. -/
structure IsOrder [DecidableEq V] (arcs : List (V × V)) (order : List V) : Prop where
  nodup : order.Nodup
  mem_iff : ∀ v, v ∈ order ↔ IsNode arcs v
  before : ∀ a b, Arc arcs a b → order.idxOf a < order.idxOf b

/-- The sources of all arcs to a node of the list stand before the node. -/
def Closed (arcs : List (V × V)) (order : List V) : Prop :=
  ∀ pre v post, order = pre ++ v :: post → ∀ a, Arc arcs a v → a ∈ pre

theorem closed_nil : Closed arcs [] := by
  intro pre v post h
  simp at h

theorem Closed.concat (h : Closed arcs order) (hv : ∀ a, Arc arcs a v → a ∈ order) :
    Closed arcs (order ++ [v]) := by
  intro pre w post heq a ha
  rcases List.eq_nil_or_concat post with rfl | ⟨post, z, rfl⟩
  · obtain ⟨rfl, hw⟩ := List.append_inj' heq rfl
    obtain rfl := List.singleton_inj.mp hw
    exact hv a ha
  · rw [List.concat_eq_append, ← List.cons_append, ← List.append_assoc] at heq
    exact h pre w post (List.append_inj' heq rfl).1 a ha

theorem Closed.append_of_sources {q : List V} (h : Closed arcs order) (hq : ∀ v ∈ q, ∀ a, Arc arcs a v → a ∈ order) :
    Closed arcs (order ++ q) := by
  induction q using List.reverseRecOn with
  | nil => rwa [List.append_nil]
  | append_singleton q v ih =>
    rw [← List.append_assoc]
    refine (ih fun v hv => hq v (List.mem_append_left _ hv)).concat fun a ha => ?_
    exact List.mem_append_left _ (hq v (by simp) a ha)

/-- Where no arc goes on there is no cycle. -/
theorem not_cyclic_of_flat (h : ∀ a b c, Arc arcs a b → ¬ Arc arcs b c) : ¬ Cyclic arcs := by
  rintro ⟨v, hv⟩
  obtain ⟨b, hvb, -⟩ := Relation.TransGen.head'_iff.mp hv
  obtain ⟨a, -, hav⟩ := Relation.TransGen.tail'_iff.mp hv
  exact h a v b hav hvb

section orders
variable [DecidableEq V]

theorem Closed.before (h : Closed arcs order) (hnodup : order.Nodup) (hb : b ∈ order) (hab : Arc arcs a b) :
    order.idxOf a < order.idxOf b := by
  obtain ⟨pre, post, rfl⟩ := List.append_of_mem hb
  have ha := h pre b post rfl a hab
  have hnot : b ∉ pre := fun hmem => (List.disjoint_of_nodup_append hnodup) hmem List.mem_cons_self
  rw [List.idxOf_append_of_mem ha, List.idxOf_append_of_notMem hnot]
  exact (List.idxOf_lt_length_of_mem ha).trans_le (Nat.le_add_right _ _)

theorem Closed.isOrder (h : Closed arcs order) (hnodup : order.Nodup) (hmem : ∀ v, v ∈ order ↔ IsNode arcs v) :
    IsOrder arcs order :=
  ⟨hnodup, hmem, fun _ b hab => h.before hnodup ((hmem b).mpr hab.target) hab⟩

/-- The target of an arc stands behind its source. -/
theorem IsOrder.mem_behind {xs ys : List V} (h : IsOrder arcs (xs ++ a :: ys)) (hab : Arc arcs a b) : b ∈ ys := by
  have hnot : a ∉ xs := fun hmem => (List.disjoint_of_nodup_append h.nodup) hmem List.mem_cons_self
  have hbefore := h.before a b hab
  rw [List.idxOf_append_of_notMem hnot, List.idxOf_cons_self, Nat.add_zero] at hbefore
  rcases List.mem_append.mp ((h.mem_iff b).mpr hab.target) with hb | hb
  · rw [List.idxOf_append_of_mem hb] at hbefore
    exact absurd (List.idxOf_lt_length_of_mem hb) (Nat.lt_asymm hbefore)
  · exact List.mem_of_ne_of_mem (Ne.symm hab.2) hb

theorem IsOrder.before_of_path (h : IsOrder arcs order) (hab : Relation.TransGen (Arc arcs) a b) :
    order.idxOf a < order.idxOf b := by
  induction hab with
  | single hab => exact h.before _ _ hab
  | tail _ hbc ih => exact ih.trans (h.before _ _ hbc)

theorem IsOrder.not_cyclic (h : IsOrder arcs order) : ¬ Cyclic arcs := by
  rintro ⟨v, hv⟩
  exact (h.before_of_path hv).false

theorem IsOrder.closed (h : IsOrder arcs order) : Closed arcs order := by
  rintro pre v post rfl a ha
  have hv : v ∉ pre := fun hmem => (List.disjoint_of_nodup_append h.nodup) hmem List.mem_cons_self
  have hbefore := h.before a v ha
  rw [List.idxOf_append_of_notMem hv, List.idxOf_cons_self, Nat.add_zero] at hbefore
  by_contra hnot
  rw [List.idxOf_append_of_notMem hnot] at hbefore
  omega

/-- Nodes that no arc leaves may come last, in any order among themselves. -/
theorem IsOrder.sinks_last {sink : V → Bool} (h : IsOrder arcs order) (hsink : ∀ a b, Arc arcs a b → sink a = false)
    {q : List V} (hq : q.Perm (order.filter sink)) : IsOrder arcs (order.filter (!sink ·) ++ q) := by
  have hclosed : Closed arcs (order.filter (!sink ·)) := by
    intro pre v post heq a ha
    obtain ⟨pre', rest, rfl, rfl, hrest⟩ := List.filter_eq_append_iff.mp heq
    obtain ⟨skipped, post', rfl, hskipped, -, -⟩ := List.filter_eq_cons_iff.mp hrest
    have hmem := h.closed (pre' ++ skipped) v post' (by rw [List.append_assoc]) a ha
    have hkept : (!sink a) = true := by rw [hsink a v ha]; rfl
    rcases List.mem_append.mp hmem with hmem | hmem
    · exact List.mem_filter.mpr ⟨hmem, hkept⟩
    · exact absurd hkept (hskipped a hmem)
  have hmem : ∀ v, v ∈ order.filter (!sink ·) ++ q ↔ v ∈ order := by
    intro v
    rw [List.mem_append, hq.mem_iff, List.mem_filter, List.mem_filter]
    cases sink v <;> simp
  have hnodup : (order.filter (!sink ·) ++ q).Nodup := by
    refine List.nodup_append'.mpr ⟨h.nodup.filter _, hq.nodup_iff.mpr (h.nodup.filter _), ?_⟩
    intro v hv hv'
    have hfalse := (List.mem_filter.mp hv).2
    rw [(List.mem_filter.mp (hq.subset hv')).2] at hfalse
    cases hfalse
  refine (hclosed.append_of_sources fun v _ a ha => ?_).isOrder hnodup fun v => (hmem v).trans (h.mem_iff v)
  refine List.mem_filter.mpr ⟨(h.mem_iff a).mpr ha.source, ?_⟩
  rw [hsink a v ha]
  rfl

end orders

/-- A finite set of nodes in which every one is the target of another holds a cycle. -/
theorem cyclic_of_sources {S : Finset V} (hne : S.Nonempty) (h : ∀ v ∈ S, ∃ a ∈ S, Arc arcs a v) :
    Cyclic arcs := by
  by_contra hacyclic
  let path (a b : S) : Prop := Relation.TransGen (Arc arcs) a b
  have : IsTrans S path := ⟨fun _ _ _ => Relation.TransGen.trans⟩
  have : Std.Irrefl path := ⟨fun v hv => hacyclic ⟨v, hv⟩⟩
  -- below every node of the set lies another
  have hnone (v : S) : False := by
    induction v using (Finite.wellFounded_of_trans_of_irrefl path).induction with
    | _ v ih =>
      obtain ⟨a, ha, hav⟩ := h v v.2
      exact ih ⟨a, ha⟩ (Relation.TransGen.single hav)
  obtain ⟨v, hv⟩ := hne
  exact hnone ⟨v, hv⟩

end ArcOrders
