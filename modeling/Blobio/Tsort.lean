import Blobio.ArcOrders
import Blobio.HexDigests
import Mathlib.Data.Finset.Card
import Mathlib.Data.List.Count
import Mathlib.Data.UInt

/-! The topological sort of the flow compiler. Maps of the program are functions that give the
zero value for a missing key, and their ranges come in any order. -/
namespace Blobio.Flowd.Tsort
open ArcOrders

variable {V : Type*} [DecidableEq V]

/-- The arcs, each a text with a space between its nodes. No list of the program is longer than
its integers count. -/
structure Graph where
  edges : List Text
  spaced : ∀ e ∈ edges, ' ' ∈ e
  length_lt : edges.length < 2 ^ 63

/-- `pair[0]` and `pair[1]` of a split at the spaces. -/
def pair (e : Text) : Text × Text :=
  ((e.splitOn ' ').getD 0 [], (e.splitOn ' ').getD 1 [])

def Graph.arcs (g : Graph) : List (Text × Text) := g.edges.map pair

structure Maps (V : Type*) where
  node : Finset V
  edge : V → List V
  inbound : V → UInt64

def Maps.add (m : Maps V) (e : V × V) : Maps V :=
  let source := e.1
  let target := e.2
  let node := insert target (insert source m.node)
  if source ≠ target then
    ⟨node, Function.update m.edge source (m.edge source ++ [target]),
      Function.update m.inbound target (m.inbound target + 1)⟩
  else
    ⟨node, m.edge, m.inbound⟩

def build (arcs : List (V × V)) : Maps V :=
  arcs.foldl Maps.add ⟨∅, fun _ => [], fun _ => 0⟩

/-- The variables of the loop over the roots. -/
structure State (V : Type*) where
  inbound : V → UInt64
  root : Finset V
  order : List V
  visited : ℕ

def start (m : Maps V) : State V :=
  ⟨m.inbound, m.node.filter (m.inbound · = 0), [], 0⟩

/-- A target loses an arc, and may become a root. -/
def visit_target (s : (V → UInt64) × Finset V) (tN : V) : (V → UInt64) × Finset V :=
  let inbound := Function.update s.1 tN (s.1 tN - 1)
  (inbound, if inbound tN ≤ 0 then insert tN s.2 else s.2)

def visit (edge : V → List V) (r1 : V) (s : State V) : State V :=
  let visited := (edge r1).foldl visit_target (s.inbound, s.root.erase r1)
  ⟨visited.1, visited.2, s.order ++ [r1], s.visited + 1⟩

/-- The key that a range over the map gives first, which may be another one in every run. -/
structure MapOrder (V : Type*) where
  first : List V → Finset V → V
  first_mem : ∀ order root, root.Nonempty → first order root ∈ root

instance [Inhabited V] : Nonempty (MapOrder V) :=
  ⟨⟨fun _ root => if h : root.Nonempty then h.choose else default, fun _ root h => by
    rw [dif_pos h]
    exact h.choose_spec⟩⟩

/-- The loop, for at most so many turns. -/
def loop (o : MapOrder V) (edge : V → List V) : ℕ → State V → State V
  | 0, s => s
  | n + 1, s =>
    if s.root.Nonempty then loop o edge n (visit edge (o.first s.order s.root) s) else s

/-- There are no more turns than nodes. -/
def sort (o : MapOrder V) (m : Maps V) : State V :=
  loop o m.edge m.node.card (start m)

def tsort (o : MapOrder Text) (g : Graph) : Option (List Text) :=
  let m := build g.arcs
  let s := sort o m
  if s.visited = m.node.card then some s.order else none

/-! ### The maps -/

section maps
variable {arcs : List (V × V)} {order : List V} {r v w : V}

theorem build_concat (arcs : List (V × V)) (e : V × V) : build (arcs ++ [e]) = (build arcs).add e := by
  rw [build, List.foldl_append]
  rfl

theorem mem_node : v ∈ (build arcs).node ↔ IsNode arcs v := by
  induction arcs using List.reverseRecOn with
  | nil => simp [build, IsNode]
  | append_singleton arcs e ih =>
    have hadd : ((build arcs).add e).node = insert e.2 (insert e.1 (build arcs).node) := by
      rw [Maps.add]
      split_ifs <;> rfl
    rw [build_concat, hadd]
    simp only [Finset.mem_insert, ih, IsNode, List.mem_append, List.mem_singleton, or_and_right, exists_or,
      exists_eq_left]
    grind

/-- The number of arcs from one node to another. -/
def arcs_between (arcs : List (V × V)) (r v : V) : ℕ :=
  arcs.countP fun e => e.1 = r ∧ e.2 = v ∧ e.1 ≠ e.2

/-- The arcs to a node whose sources are not in the order. -/
def remaining (arcs : List (V × V)) (order : List V) (v : V) : ℕ :=
  arcs.countP fun e => e.2 = v ∧ e.1 ≠ e.2 ∧ e.1 ∉ order

theorem count_edge (r v : V) : ((build arcs).edge r).count v = arcs_between arcs r v := by
  induction arcs using List.reverseRecOn with
  | nil => rfl
  | append_singleton arcs e ih =>
    rw [build_concat, arcs_between, List.countP_append, ← arcs_between, ← ih, Maps.add]
    by_cases hne : e.1 = e.2
    · simp [hne]
    · by_cases hr : r = e.1
      · subst hr
        simp [hne, List.count_singleton]
      · simp [hne, Function.update_of_ne hr, Ne.symm hr]

theorem remaining_concat_arc (arcs : List (V × V)) (e : V × V) (order : List V) (v : V) :
    remaining (arcs ++ [e]) order v =
      remaining arcs order v + if e.2 = v ∧ e.1 ≠ e.2 ∧ e.1 ∉ order then 1 else 0 := by
  rw [remaining, List.countP_append, ← remaining, List.countP_singleton]
  simp only [decide_eq_true_eq]

theorem inbound_build (v : V) : (build arcs).inbound v = UInt64.ofNat (remaining arcs [] v) := by
  induction arcs using List.reverseRecOn with
  | nil => rfl
  | append_singleton arcs e ih =>
    rw [build_concat, remaining_concat_arc, Maps.add]
    by_cases hne : e.1 = e.2
    · simp [hne, ih]
    · by_cases hv : v = e.2
      · subst hv
        simp [hne, ih]
      · simp [hne, Function.update_of_ne hv, Ne.symm hv, ih]

/-- A node that goes into the order takes its arcs with it. -/
theorem remaining_concat (arcs : List (V × V)) (hr : r ∉ order) (v : V) :
    remaining arcs order v = remaining arcs (order ++ [r]) v + arcs_between arcs r v := by
  induction arcs with
  | nil => rfl
  | cons e arcs ih =>
    simp only [remaining, arcs_between, List.countP_cons, decide_eq_true_eq] at ih ⊢
    rw [ih]
    by_cases hr' : e.1 = r
    · subst hr'
      simp [hr]
      omega
    · simp [hr']
      omega

theorem remaining_lt (hlen : arcs.length < 2 ^ 64) (order : List V) (v : V) : remaining arcs order v < 2 ^ 64 :=
  List.countP_le_length.trans_lt hlen

theorem remaining_eq_zero : remaining arcs order v = 0 ↔ ∀ a, Arc arcs a v → a ∈ order := by
  rw [remaining, List.countP_eq_zero]
  constructor
  · rintro h a ⟨hmem, hne⟩
    by_contra ha
    exact h _ hmem (by simp [hne, ha])
  · rintro h ⟨a, b⟩ hmem harc
    simp only [decide_eq_true_eq] at harc
    obtain ⟨rfl, hne, ha⟩ := harc
    exact ha (h a ⟨hmem, hne⟩)

theorem arcs_between_pos (h : arcs_between arcs r v ≠ 0) : Arc arcs r v := by
  obtain ⟨⟨a, b⟩, hmem, harc⟩ := List.countP_pos_iff.mp (Nat.pos_of_ne_zero h)
  simp only [decide_eq_true_eq] at harc
  obtain ⟨rfl, rfl, hne⟩ := harc
  exact ⟨hmem, hne⟩

end maps

/-! ### A turn of the loop -/

section turn
variable {arcs : List (V × V)} {s : State V} {r v : V}

theorem ofNat_le_zero_iff {n : ℕ} (h : n < 2 ^ 64) : UInt64.ofNat n ≤ 0 ↔ n = 0 := by
  rw [UInt64.le_iff_toNat_le, UInt64.toNat_ofNat_of_lt' h]
  exact Nat.le_zero

theorem ofNat_eq_zero_iff {n : ℕ} (h : n < 2 ^ 64) : UInt64.ofNat n = 0 ↔ n = 0 := by
  rw [← UInt64.toNat_inj, UInt64.toNat_ofNat_of_lt' h]
  rfl

/-- The counts go down by the arcs of the list, and a target becomes a root with its last one. -/
theorem foldl_visit_target (ts : List V) {count : V → ℕ} (root : Finset V) (hlt : ∀ v, count v < 2 ^ 64)
    (hle : ∀ v, ts.count v ≤ count v) :
    (∀ v, (ts.foldl visit_target (fun v => UInt64.ofNat (count v), root)).1 v =
        UInt64.ofNat (count v - ts.count v)) ∧
      ∀ v, v ∈ (ts.foldl visit_target (fun v => UInt64.ofNat (count v), root)).2 ↔
        v ∈ root ∨ v ∈ ts ∧ count v = ts.count v := by
  induction ts generalizing count root with
  | nil => simp
  | cons t ts ih =>
    have hcount (v : V) : (t :: ts).count v = ts.count v + if t = v then 1 else 0 := by
      simp [List.count_cons]
    have hpos : ts.count t + 1 ≤ count t := by simpa using hle t
    let count' := Function.update count t (count t - 1)
    have hself : count' t = count t - 1 := Function.update_self ..
    have hother {v : V} (hv : v ≠ t) : count' v = count v := Function.update_of_ne hv ..
    have hlt' (v : V) : count' v < 2 ^ 64 := by
      by_cases hv : v = t
      · rw [hv, hself]
        exact (Nat.sub_le _ _).trans_lt (hlt t)
      · rw [hother hv]
        exact hlt v
    have hle' (v : V) : ts.count v ≤ count' v := by
      by_cases hv : v = t
      · rw [hv, hself]
        omega
      · rw [hother hv]
        exact (Nat.le_add_right _ _).trans (hcount v ▸ hle v)
    have hinbound : Function.update (fun v => UInt64.ofNat (count v)) t (UInt64.ofNat (count t) - 1) =
        fun v => UInt64.ofNat (count' v) := by
      funext v
      by_cases hv : v = t
      · rw [hv, Function.update_self, hself, UInt64.ofNat_sub (by omega)]
        rfl
      · rw [Function.update_of_ne hv, hother hv]
    have hturn : visit_target (fun v => UInt64.ofNat (count v), root) t =
        (fun v => UInt64.ofNat (count' v), if count' t = 0 then insert t root else root) := by
      simp only [visit_target, hinbound, ofNat_le_zero_iff (hlt' t)]
    obtain ⟨hleft, hroot⟩ := ih (if count' t = 0 then insert t root else root) hlt' hle'
    rw [List.foldl_cons, hturn]
    refine ⟨fun v => ?_, fun v => ?_⟩
    · rw [hleft, hcount]
      by_cases hv : v = t
      · rw [hv, hself, if_pos rfl]
        congr 1
        omega
      · rw [hother hv, if_neg (Ne.symm hv), Nat.add_zero]
    · rw [hroot, hcount]
      by_cases hv : v = t
      · subst hv
        rw [hself, if_pos rfl]
        by_cases hmem : v ∈ ts
        · have := List.count_pos_iff.mpr hmem
          rw [if_neg (by omega)]
          simp only [hmem, List.mem_cons_self, true_and]
          exact or_congr_right (by omega)
        · rw [List.count_eq_zero_of_not_mem hmem] at hpos ⊢
          split_ifs with hzero
          · simp only [Finset.mem_insert_self, true_or, List.mem_cons_self, true_and, true_iff]
            exact .inr (by omega)
          · simp only [hmem, false_and, or_false, List.mem_cons_self, true_and]
            exact (or_iff_left (by omega)).symm
      · rw [hother hv, if_neg (Ne.symm hv), Nat.add_zero, List.mem_cons, or_iff_right hv]
        split_ifs
        · rw [Finset.mem_insert, or_iff_right hv]
        · rfl

/-- What holds before every turn: the nodes of the order have taken their arcs with them, and the
roots are the other nodes without an arc left. -/
structure Invariant (arcs : List (V × V)) (s : State V) : Prop where
  nodup : s.order.Nodup
  visited : s.visited = s.order.length
  isNode : ∀ v ∈ s.order, IsNode arcs v
  inbound : ∀ v, s.inbound v = UInt64.ofNat (remaining arcs s.order v)
  root : ∀ v, v ∈ s.root ↔ IsNode arcs v ∧ v ∉ s.order ∧ remaining arcs s.order v = 0
  closed : Closed arcs s.order

theorem invariant_start (hlen : arcs.length < 2 ^ 64) : Invariant arcs (start (build arcs)) where
  nodup := List.nodup_nil
  visited := rfl
  isNode := by simp [start]
  inbound := inbound_build
  root v := by
    rw [start, Finset.mem_filter, mem_node, inbound_build, ofNat_eq_zero_iff (remaining_lt hlen [] v)]
    simp
  closed := closed_nil

theorem Invariant.visit (h : Invariant arcs s) (hlen : arcs.length < 2 ^ 64) (hr : r ∈ s.root) :
    Invariant arcs (visit (build arcs).edge r s) := by
  obtain ⟨hnode, hnot, hzero⟩ := (h.root r).mp hr
  have hsplit := remaining_concat arcs hnot
  have hinbound : s.inbound = fun v => UInt64.ofNat (remaining arcs s.order v) := funext h.inbound
  obtain ⟨hleft, hroot⟩ := foldl_visit_target ((build arcs).edge r) (s.root.erase r)
    (remaining_lt hlen s.order) fun v => by rw [count_edge, hsplit]; exact Nat.le_add_left _ _
  rw [← hinbound] at hleft hroot
  constructor
  · have hconcat := List.Nodup.concat hnot h.nodup
    rwa [List.concat_eq_append] at hconcat
  · simp [Tsort.visit, h.visited]
  · intro v hv
    rcases List.mem_append.mp hv with hv | hv
    · exact h.isNode v hv
    · exact List.mem_singleton.mp hv ▸ hnode
  · intro v
    refine (hleft v).trans ?_
    rw [count_edge, hsplit, Nat.add_sub_cancel]
    rfl
  · intro v
    have hsplit_v := hsplit v
    refine (hroot v).trans ?_
    simp only [Tsort.visit, Finset.mem_erase, h.root, count_edge, List.mem_append, List.mem_singleton, not_or]
    constructor
    · rintro (⟨hne, hv, hv', hzero'⟩ | ⟨hv, hlast⟩)
      · exact ⟨hv, ⟨hv', hne⟩, by omega⟩
      · have harc : Arc arcs r v := arcs_between_pos (by
          rw [← count_edge]
          exact (List.count_pos_iff.mpr hv).ne')
        -- a target in the order would have its source there, which is only now taken
        have hv' : v ∉ s.order := fun hmem => by
          obtain ⟨pre, post, heq⟩ := List.append_of_mem hmem
          exact hnot (heq ▸ List.mem_append_left _ (h.closed pre v post heq r harc))
        exact ⟨harc.target, ⟨hv', harc.2.symm⟩, by omega⟩
    · rintro ⟨hv, ⟨hv', hne⟩, hzero'⟩
      by_cases hcount : arcs_between arcs r v = 0
      · exact .inl ⟨hne, hv, hv', by omega⟩
      · refine .inr ⟨?_, by omega⟩
        rw [← List.count_pos_iff, count_edge]
        exact Nat.pos_of_ne_zero hcount
  · exact h.closed.concat (remaining_eq_zero.mp hzero)

end turn

/-! ### The order -/

section orders
variable {arcs : List (V × V)} {s : State V}

theorem Invariant.subset_node (h : Invariant arcs s) : s.order.toFinset ⊆ (build arcs).node := by
  intro v hv
  exact mem_node.mpr (h.isNode v (List.mem_toFinset.mp hv))

theorem Invariant.card_order (h : Invariant arcs s) : s.order.toFinset.card = s.visited := by
  rw [List.toFinset_card_of_nodup h.nodup, h.visited]

/-- As many turns as there are nodes come to an end. -/
theorem invariant_loop (o : MapOrder V) (hlen : arcs.length < 2 ^ 64) (n : ℕ) (h : Invariant arcs s)
    (hn : (build arcs).node.card ≤ s.visited + n) :
    Invariant arcs (loop o (build arcs).edge n s) ∧ (loop o (build arcs).edge n s).root = ∅ := by
  induction n generalizing s with
  | zero =>
    refine ⟨h, Finset.eq_empty_of_forall_notMem fun v hv => ?_⟩
    have hall : s.order.toFinset = (build arcs).node :=
      Finset.eq_of_subset_of_card_le h.subset_node (h.card_order ▸ hn)
    obtain ⟨hnode, hnot, -⟩ := (h.root v).mp hv
    exact hnot (List.mem_toFinset.mp (hall ▸ mem_node.mpr hnode))
  | succ n ih =>
    rw [loop]
    split_ifs with hroot
    · have hvisit := h.visit hlen (o.first_mem s.order s.root hroot)
      exact ih hvisit (by rw [visit]; simp only; omega)
    · exact ⟨h, Finset.not_nonempty_iff_eq_empty.mp hroot⟩

/-- Without a root left, either all nodes are in order or some of the others run in a circle. -/
theorem Invariant.ended (h : Invariant arcs s) (hroot : s.root = ∅) :
    s.visited = (build arcs).node.card ∧ IsOrder arcs s.order ∨
      s.visited ≠ (build arcs).node.card ∧ Cyclic arcs := by
  by_cases hall : (build arcs).node ⊆ s.order.toFinset
  · refine .inl ⟨?_, h.closed.isOrder h.nodup fun v => ⟨h.isNode v, fun hv => ?_⟩⟩
    · rw [← h.card_order, Finset.Subset.antisymm h.subset_node hall]
    · exact List.mem_toFinset.mp (hall (mem_node.mpr hv))
  · refine .inr ⟨fun hcard => hall ?_, ?_⟩
    · exact (Finset.eq_of_subset_of_card_le h.subset_node (by rw [h.card_order, hcard])).ge
    · refine cyclic_of_sources (Finset.sdiff_nonempty.mpr hall) fun v hv => ?_
      rw [Finset.mem_sdiff, mem_node, List.mem_toFinset] at hv
      have hsources : ¬ remaining arcs s.order v = 0 := fun hzero => by
        have hmem := (h.root v).mpr ⟨hv.1, hv.2, hzero⟩
        rw [hroot] at hmem
        exact Finset.notMem_empty v hmem
      rw [remaining_eq_zero] at hsources
      push Not at hsources
      obtain ⟨a, harc, ha⟩ := hsources
      refine ⟨a, ?_, harc⟩
      rw [Finset.mem_sdiff, mem_node, List.mem_toFinset]
      exact ⟨harc.source, ha⟩

end orders

theorem Graph.length_arcs_lt (g : Graph) : g.arcs.length < 2 ^ 64 := by
  have hlen := g.length_lt
  rw [Graph.arcs, List.length_map]
  omega

/-- Whatever order the maps are ranged in, the loop ends, and the sort returns nil just for a
cycle and an order of all nodes otherwise. -/
theorem tsort_order (o : MapOrder Text) (g : Graph) :
    (sort o (build g.arcs)).root = ∅ ∧ (tsort o g = none ↔ Cyclic g.arcs) ∧
      ∀ order, tsort o g = some order → IsOrder g.arcs order := by
  obtain ⟨hinv, hroot⟩ := invariant_loop o g.length_arcs_lt (build g.arcs).node.card
    (invariant_start g.length_arcs_lt) (Nat.le_add_left _ _)
  refine ⟨hroot, ?_⟩
  rw [tsort, sort]
  rcases hinv.ended hroot with ⟨hcard, horder⟩ | ⟨hcard, hcyclic⟩
  · simp only [if_pos hcard, reduceCtorEq, false_iff, Option.some.injEq, forall_eq']
    exact ⟨horder.not_cyclic, horder⟩
  · simp only [if_neg hcard, true_iff, reduceCtorEq, false_imp_iff, implies_true, and_true]
    exact hcyclic

end Blobio.Flowd.Tsort
