import Blobio.FlowCalm

/-! The networks of bool2: an expression of `and` and `or` over channels that carry any truth
values, as compile() builds it. -/
namespace Blobio.Flowd
open LockStep TernaryLogic EventRuns

variable {α : Type*} {short typed : Prop}

/-- The channel of an expression. A leaf is a goroutine that sends its value of each flow. -/
def build (v : α → ℕ → Option Bool) : Expr α → Build → ℕ × Build
  | .leaf x, b =>
    let (c, b) := b.go [] (source fun flow => .bool_value (v x flow))
    (c, b.confluing 1)
  | .node o left right, b =>
    let (c, b) := build v left b
    let (d, b) := build v right b
    let (e, b) := b.go [⟨c, true⟩, ⟨d, true⟩] (bool2 (table o))
    (e, b.confluing 1)

def bool_network (v : α → ℕ → Option Bool) (e : Expr α) : Network Value :=
  let (c, b) := build v e {}
  { nodes := b.nodes, channels := b.channels, last := c, confluent := b.confluent_count }

section build
variable (v : α → ℕ → Option Bool) (e : Expr α)

theorem build_wires {b : Build} {P : List ℕ} (h : Wires short typed b 0 P) :
    Wires short typed (build v e b).2 0 ((build v e b).1 :: P) := by
  induction e generalizing b P with
  | leaf x =>
    have hleaf := h.go [] (fun _ => keeps_source fun flow => .bool_value (v x flow))
      fun _ _ hno => absurd hno List.not_mem_nil
    exact hleaf.confluing
  | node o left right ihl ihr =>
    have hboth := (ihr (ihl h)).perm (List.Perm.swap ..)
    have hnode := hboth.go [⟨(build v left b).1, true⟩, ⟨(build v right (build v left b).2).1, true⟩]
      (fun _ => keeps_bool2 o) fun _ port hport => by
        rcases List.mem_cons.mp hport with rfl | hport
        · rfl
        · exact List.mem_singleton.mp hport ▸ rfl
    exact hnode.confluing

theorem build_calm {b : Build} (h : b.Calm) : (build v e b).2.Calm := by
  induction e generalizing b with
  | leaf x => exact h.go _ (calm_source _)
  | node o left right ihl ihr => exact (ihr (ihl h)).go _ (calm_bool2 _)

theorem build_nodes (b : Build) : b.nodes ⊆ (build v e b).2.nodes := by
  induction e generalizing b with
  | leaf x => exact List.subset_append_left _ _
  | node o left right ihl ihr =>
    exact List.Subset.trans (List.Subset.trans (ihl b) (ihr _)) (List.subset_append_left _ _)

/-- When every goroutine sends what it makes of the flow, the channel of an expression
carries the value of SQL. -/
theorem build_value {sent : ℕ → List Value} {b : Build}
    (h : ∀ nd ∈ (build v e b).2.nodes, Told Value.flow nd sent) {j : ℕ} {u : Value}
    (hu : (sent (build v e b).1)[j]? = some u) :
    u.flow = j + 1 ∧ truth u.data.bool = e.eval fun x => truth (v x (j + 1)) := by
  induction e generalizing b u with
  | leaf x =>
    have hlast := h _ (List.mem_append_right _ List.mem_cons_self) _ List.mem_cons_self j u hu
    obtain rfl := produced_source rfl hlast.2
    exact ⟨rfl, rfl⟩
  | node o left right ihl ihr =>
    have hright := fun nd hnd => h nd (List.mem_append_left _ hnd)
    have hleft := fun nd hnd => hright nd (build_nodes v right _ hnd)
    have hlast := h _ (List.mem_append_right _ List.mem_cons_self) _ List.mem_cons_self j u hu
    obtain ⟨a, c, t, ha, hc, rfl, htruth⟩ := produced_bool2 rfl rfl hlast.2 fun d hd u' hu' => by
      rcases List.mem_cons.mp hd with rfl | hd
      · exact (ihl hleft hu').1
      · obtain rfl := List.mem_singleton.mp hd
        exact (ihr hright hu').1
    refine ⟨rfl, ?_⟩
    rw [Expr.eval, ← (ihl hleft ha).2, ← (ihr hright hc).2, ← htruth]
    rfl

theorem bool_network_wires : ∃ b, Wires True True b 0 [(bool_network v e).last] ∧
    bool_network v e = ⟨b.nodes, b.channels, (bool_network v e).last, b.confluent_count⟩ := by
  have hempty : Wires True True {} 0 [] :=
    ⟨rfl, List.Perm.refl _, fun _ hno => absurd hno List.not_mem_nil,
      fun _ hno => absurd hno List.not_mem_nil, rfl⟩
  exact ⟨_, build_wires v e hempty, rfl⟩

end build

/-- For every assignment of values to the leaves and every order of the steps: the network of an
expression sends the value of SQL, once for each flow, for one value of each leaf. Nothing
panics, no flow is stuck, and none takes more than so many steps. -/
theorem bool_network_kleene (v : α → ℕ → Option Bool) (e : Expr α) {es : List LockStep.Event}
    {s : LockStep.State Value}
    (hrun : exec (LockStep.step Value.flow (bool_network v e)) (start (bool_network v e)) es = some s) :
    s.crashed = false ∧ s.aborted = false ∧
      (∀ j u, (s.sent (bool_network v e).last)[j]? = some u →
        u.flow = j + 1 ∧ truth u.data.bool = e.eval fun x => truth (v x (j + 1))) ∧
      (∀ c < (bool_network v e).channels, (s.sent c).length ≤ s.round ∧
        s.round ≤ (s.sent c).length + 1 ∧ (s.busy = false → (s.sent c).length = s.round)) ∧
      (s.busy = true →
        ∃ f s', f ≠ .begin ∧ LockStep.step Value.flow (bool_network v e) s f = some s') ∧
      es.countP (fun f => f != .begin) ≤
        ((bool_network v e).channels + 2 * (bool_network v e).nodes.length) * s.round + 1 := by
  obtain ⟨b, hwires, hN⟩ := bool_network_wires v e
  have hs : Standing Value.flow (bool_network v e) := hN ▸ hwires.standing trivial
  have hlive : ∀ nd ∈ (bool_network v e).nodes, ∀ port ∈ nd.ins, port.live = true := by
    rw [hN]
    exact fun nd hnd => (hwires.sound nd hnd).live trivial
  have hcalm : ∀ nd ∈ (bool_network v e).nodes, Calm nd.turn :=
    build_calm v e (b := {}) fun _ hno => absurd hno List.not_mem_nil
  have hlock := Lockstep.run hs hrun
  have hon := never_aborts hcalm hrun
  exact ⟨hlock.alive, hon, fun j u hu => build_value v e hlock.told hu,
    fun c hc => hlock.sent_bounds hs.wired hc, fun hbusy => hlock.not_stuck hs hon hlive hbusy,
    steps_bounded hs hrun⟩

/-- Null or true. -/
def null_or_true : Network Value :=
  bool_network (fun x _ => if x = 0 then none else some true) (.node .or (.leaf 0) (.leaf 1))

/-- One flow of it, in which the right leaf comes first. -/
def right_first : List LockStep.Event :=
  [.begin, .hand 0, .hand 1, .hand 2, .decide 0, .decide 1, .pass 1 2 1, .pass 0 2 0, .decide 2,
    .finish 2]

theorem null_or_true_sent :
    ∃ s, exec (LockStep.step Value.flow null_or_true) (start null_or_true) right_first = some s ∧
      (s.sent 2).length = 1 ∧ ∀ u, (s.sent 2)[0]? = some u → truth u.data.bool = .yes := by
  have hend : ((exec (LockStep.step Value.flow null_or_true) (start null_or_true) right_first).map fun s =>
      (s.round, s.busy)) = some (1, false) := by decide +kernel
  obtain ⟨s, hrun, hstate⟩ := Option.map_eq_some_iff.mp hend
  obtain ⟨hround, hbusy⟩ := Prod.mk.inj hstate
  obtain ⟨-, -, hvalue, hchannels, -, -⟩ := bool_network_kleene _ _ hrun
  refine ⟨s, hrun, ((hchannels 2 (by decide)).2.2 hbusy).trans hround, fun u hu => ?_⟩
  exact (hvalue 0 u hu).2

end Blobio.Flowd
