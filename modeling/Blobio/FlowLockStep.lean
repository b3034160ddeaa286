import Blobio.FlowHandOvers

/-! The lock step of a compiled network: in every run each channel carries one value for each
flow, and none of the goroutines finds its streams out of step. -/
namespace Blobio.Flowd
open LockStep TernaryLogic EventRuns

/-- Where every operator is given a channel of its type and no argument list has 256 arguments
or more, the channels carry one value for each flow, which belongs to it, and nothing panics
for values that are out of sync. No flow is stuck, and none takes more than so many steps. -/
theorem network_in_lock_step {w : World} {par : Parse} {N : Network Value}
    (h : compile_parse w par = some N)
    (hrules : ∀ r, par.Reached r → r.args.length < 256 ∧ r.typed = true) {es : List LockStep.Event}
    {s : LockStep.State Value} (hrun : exec (LockStep.step Value.flow N) (start N) es = some s) :
    s.crashed = false ∧
      (∀ c < N.channels, (s.sent c).length ≤ s.round ∧ s.round ≤ (s.sent c).length + 1 ∧
        (s.busy = false → (s.sent c).length = s.round) ∧
        ∀ j v, (s.sent c)[j]? = some v → v.flow = j + 1) ∧
      (s.busy = true → s.aborted = false →
        ∃ e s', e ≠ .begin ∧ LockStep.step Value.flow N s e = some s') ∧
      es.countP (fun e => e != .begin) ≤ (N.channels + 2 * N.nodes.length) * s.round + 1 := by
  have hs := compile_parse_standing h fun r hr => (hrules r hr).1
  have hlive := compile_parse_live h fun r hr => (hrules r hr).2
  have hlock := Lockstep.run hs hrun
  refine ⟨hlock.alive, fun c hc => ?_, fun hbusy hon => ?_, steps_bounded hs hrun⟩
  · obtain ⟨hle, hge, hrest⟩ := hlock.sent_bounds hs.wired hc
    exact ⟨hle, hge, hrest, fun j v hv => hlock.stamped hs.wired hc hv⟩
  · exact hlock.not_stuck hs hon hlive hbusy

section strings

/-- The first flow of a call of two strings, in one order of its steps. -/
def strings_flow : List LockStep.Event :=
  .begin :: [0, 1, 4, 5, 6, 7, 8, 11, 12].map .hand ++
    [.decide 0, .pass 0 2 0, .decide 2, .pass 2 4 0, .decide 1, .pass 1 3 0, .decide 3, .pass 3 4 1,
      .decide 4, .pass 4 6 0, .decide 5, .pass 5 6 1, .decide 6, .pass 6 7 0, .decide 7, .pass 7 8 0,
      .decide 8, .pass 8 9 0, .decide 9, .pass 9 10 0, .decide 10, .pass 10 11 0, .decide 11,
      .pass 11 12 0, .decide 12, .finish 12]

theorem strings_flow_ends : ((exec (LockStep.step Value.flow (calls_network plain_world 2))
    (start (calls_network plain_world 2)) strings_flow).map fun s => (s.round, s.busy)) = some (1, false) := by
  decide +kernel

end strings

/-- At its end each of the thirteen channels has carried the value of this flow. -/
theorem two_strings_in_lock_step :
    ∃ s, exec (LockStep.step Value.flow (calls_network plain_world 2)) (start (calls_network plain_world 2))
        strings_flow = some s ∧ s.crashed = false ∧
      ∀ c < 13, (s.sent c).length = 1 ∧ ∀ v, (s.sent c)[0]? = some v → v.flow = 1 := by
  obtain ⟨s, hrun, hstate⟩ := Option.map_eq_some_iff.mp strings_flow_ends
  obtain ⟨hround, hidle⟩ := Prod.mk.inj hstate
  obtain ⟨halive, hchannels, -, -⟩ := network_in_lock_step
    (calls_compiled plain_world le_rfl) (fun r hr => by
      rw [calls_reached hr]
      exact ⟨by decide, by decide⟩) hrun
  refine ⟨s, hrun, halive, fun c hc => ?_⟩
  obtain ⟨-, -, hrest, hstamps⟩ := hchannels c hc
  exact ⟨(hrest hidle).trans hround, hstamps 0⟩

section sized

/-- A call that is fired for blobs of five bytes: the tree of its when-clause as it comes from
wire_rel_op, without the cast. -/
def sized_call : Parse where
  tail := "t"
  sync_map := []
  depend_order := ["c"]
  call2ast := [⟨.CALL, "c", 0, [], .EQ_UINT64 5 (.PROJECT_BRR .BLOB_SIZE)⟩]
  query2ast := []
  order_nodup := List.nodup_singleton "c"

def sized_network (w : World) : Network Value :=
  (compile_parse w sized_call).getD ⟨[], 0, 0, 0⟩

theorem sized_compiled (w : World) : compile_parse w sized_call = some (sized_network w) := rfl

/-- The first flow, as far as it gets. -/
def sized_flow : List LockStep.Event :=
  .begin :: [0, 1, 2, 3, 4, 5, 8, 9].map .hand ++ [.decide 0, .decide 1, .pass 0 3 0]

/-- Whether none of the ten nodes can go on. -/
def sized_at_rest (s : LockStep.State Value) : Bool :=
  (List.range 10).all fun p =>
    (LockStep.step Value.flow (sized_network plain_world) s (.decide p)).isNone &&
      (LockStep.step Value.flow (sized_network plain_world) s (.finish p)).isNone &&
      (List.range 10).all fun r => (List.range 2).all fun i =>
        (LockStep.step Value.flow (sized_network plain_world) s (.pass p r i)).isNone

theorem sized_flow_ends : ((exec (LockStep.step Value.flow (sized_network plain_world))
    (start (sized_network plain_world)) sized_flow).map fun s =>
      (s.round, s.left, [s.busy, s.crashed, s.aborted, (s.sent 2).isEmpty, sized_at_rest s])) =
        some (1, 0, [true, false, false, true, true]) := by
  decide +kernel

end sized

/-- With a comparison of the blob size in its when-clause, a call never gets a flow done: the
first one stops with nothing sent over the channel of the comparison. -/
theorem network_not_always_in_lock_step : ∃ N, compile_parse plain_world sized_call = some N ∧
    ∃ es s, exec (LockStep.step Value.flow N) (start N) es = some s ∧
      (s.round = 1 ∧ s.busy = true ∧ s.crashed = false ∧ s.aborted = false) ∧ s.sent 2 = [] ∧
      ∀ e, LockStep.step Value.flow N s e = none := by
  obtain ⟨s, hrun, hstate⟩ := Option.map_eq_some_iff.mp sized_flow_ends
  simp only [Prod.mk.injEq, List.cons.injEq, and_true] at hstate
  obtain ⟨hround, hleft, hbusy, hcrashed, haborted, hsent, hrest⟩ := hstate
  refine ⟨_, sized_compiled plain_world, sized_flow, s, hrun,
    ⟨hround, hbusy, hcrashed, haborted⟩, List.isEmpty_iff.mp hsent, fun e => ?_⟩
  have hlength : (sized_network plain_world).nodes.length = 10 := rfl
  have hports : ∀ nd ∈ (sized_network plain_world).nodes, nd.ins.length ≤ 2 := by
    have hall : ((sized_network plain_world).nodes.all fun nd => nd.ins.length ≤ 2) = true := rfl
    simpa using hall
  have hquiet : ∀ q c v, (s.procs q).puts.lookup c = some v → q < 10 := by
    intro q c v hput
    by_contra hge
    have hnear : ∀ e ∈ sized_flow, ∀ p ∈ e.nodes, p < 10 := by decide
    rw [exec_procs hrun fun e he hin => hge (hnear e he q hin)] at hput
    cases hput
  have hchecks := List.all_eq_true.mp hrest
  by_contra hsome
  obtain ⟨t, ht⟩ := Option.ne_none_iff_exists'.mp hsome
  have hdecide : ∀ {p : ℕ}, p < 10 → LockStep.step Value.flow (sized_network plain_world) s (.decide p) =
      none := fun hp => by
    have hp := hchecks _ (List.mem_range.mpr hp)
    simp only [Bool.and_eq_true] at hp
    exact Option.isNone_iff_eq_none.mp hp.1.1
  cases (step_moved ht).2 with
  | begin hno _ => cases hbusy.symm.trans hno
  | hand _ _ hno => omega
  | decide hnd => cases (hdecide (hlength ▸ nodes_lt hnd)).symm.trans ht
  | crash hnd => cases (hdecide (hlength ▸ nodes_lt hnd)).symm.trans ht
  | abort hnd => cases (hdecide (hlength ▸ nodes_lt hnd)).symm.trans ht
  | pass hnd hport hput =>
    have hq := hchecks _ (List.mem_range.mpr (hquiet _ _ _ hput))
    simp only [Bool.and_eq_true] at hq
    have hr := List.all_eq_true.mp hq.2 _ (List.mem_range.mpr (hlength ▸ nodes_lt hnd))
    have hi := (List.getElem?_eq_some_iff.mp hport).1.trans_le (hports _ (List.mem_of_getElem? hnd))
    have hnone := List.all_eq_true.mp hr _ (List.mem_range.mpr hi)
    cases (Option.isNone_iff_eq_none.mp hnone).symm.trans ht
  | finish hput =>
    have hq := hchecks _ (List.mem_range.mpr (hquiet _ _ _ hput))
    simp only [Bool.and_eq_true] at hq
    cases (Option.isNone_iff_eq_none.mp hq.1.2).symm.trans ht

end Blobio.Flowd
