import Blobio.FlowNetworks
import Blobio.LockStepStalls

/-! The hand-over of a flow to the goroutines of a compiled network, by the count that
compile() has kept of them. -/
namespace Blobio.Flowd
open LockStep TernaryLogic EventRuns

/-- Records without text, and commands that succeed. -/
def plain_world : World where
  seq := fun flow => flow
  brr := fun _ _ => ""
  MatchString := fun _ _ => false
  LoadOrStore := fun _ _ _ => false
  call := fun _ _ _ => some ⟨.OK, 0⟩
  query := fun _ _ _ => none

section wide

/-- A tail, a command and a call of it with `k` strings. -/
def calls (k : ℕ) : Parse where
  tail := "t"
  sync_map := []
  depend_order := ["c"]
  call2ast := [⟨.CALL, "c", 0, List.replicate k (.STRING "a"), .yy_TRUE⟩]
  query2ast := []
  order_nodup := List.nodup_singleton "c"

/-- The goroutines behind the arguments of a call with `k` of them. -/
def calls_rest (w : World) (k : ℕ) : List (Node Value) :=
  [Node.mk true false ((List.range' k k).map (⟨·, true⟩)) [k + k] (argv k),
    Node.mk true false [] [k + k + 1] (const_bool true),
    Node.mk true false [⟨k + k, true⟩, ⟨k + k + 1, true⟩] [k + k + 2] (call w "c"),
    Node.mk true true [⟨k + k + 2, true⟩] [k + k + 3] forward,
    Node.mk true false [⟨k + k + 3, true⟩] [k + k + 4] forward,
    Node.mk false false [⟨k + k + 4, true⟩] [k + k + 5] forward,
    Node.mk false false [⟨k + k + 5, true⟩] [k + k + 6] forward,
    Node.mk true false [⟨k + k + 6, true⟩] [k + k + 7] (reduce w 1),
    Node.mk true false [⟨k + k + 7, true⟩] [k + k + 8] forward]

/-- The network of a call with `k` arguments, two or more. -/
def calls_network (w : World) (k : ℕ) : Network Value where
  nodes := (List.range' 0 k).map (fun c => Node.mk true false [] [c] (const_string "a")) ++
    (List.range' k k).map (fun c => Node.mk false false [⟨c - k, true⟩] [c] forward) ++
    calls_rest w k
  channels := k + k + 9
  last := k + k + 8
  confluent := k + 7

section nodes
variable (w : World) {k p : ℕ}

theorem calls_source (hp : p < k) : (calls_network w k).nodes[p]? =
    some (Node.mk true false [] [p] (const_string "a")) := by
  simp only [calls_network]
  rw [List.getElem?_append_left (by simp; omega), List.getElem?_append_left (by simpa using hp),
    List.getElem?_map, List.getElem?_range' hp]
  simp

theorem calls_relay (hp : p < k) : (calls_network w k).nodes[k + p]? =
    some (Node.mk false false [⟨p, true⟩] [k + p] forward) := by
  simp only [calls_network]
  rw [List.getElem?_append_left (by simp; omega), List.getElem?_append_right (by simp),
    List.length_map, List.length_range', Nat.add_sub_cancel_left, List.getElem?_map,
    List.getElem?_range' hp]
  simp

theorem calls_back (i : ℕ) :
    (calls_network w k).nodes[k + k + i]? = (calls_rest w k)[i]? := by
  simp only [calls_network]
  rw [List.getElem?_append_right (by simp), List.length_append, List.length_map, List.length_map,
    List.length_range', List.length_range', Nat.add_sub_cancel_left]

end nodes

theorem compile_all_strings (w : World) (s : String) (k : ℕ) (b : Build) :
    ∃ a2, compile_all w (List.replicate k (.STRING s)) b =
      some ((List.range' b.channels k).map (⟨·, true⟩), { b with
        nodes := b.nodes ++
          (List.range' b.channels k).map fun c => Node.mk true false [] [c] (const_string s)
        channels := b.channels + k
        confluent_count := b.confluent_count + k
        a2 := a2 }) := by
  induction k generalizing b with
  | zero => exact ⟨b.a2, by simp [compile_all]⟩
  | succ k ih =>
    obtain ⟨a2, hrest⟩ := ih (Build.done (.STRING s) 1 (b.go [] (const_string s))).2
    refine ⟨a2, ?_⟩
    rw [List.replicate_succ, compile_all, compile]
    simp only [Option.bind_some, hrest, Option.map_some]
    simp [Build.done, Build.go, Build.confluing, List.range'_succ, Ast.port, Ast.kind, Nat.add_assoc,
      Nat.add_comm 1]

theorem merge_ports (m n k : ℕ) (b : Build) (hb : b.channels = n + m) :
    b.merge ((List.range' n k).map (⟨·, true⟩)) =
      ((List.range' (n + m) k).map (⟨·, true⟩), { b with
        nodes := b.nodes ++ (List.range' (n + m) k).map fun c =>
          Node.mk false false [⟨c - m, true⟩] [c] forward
        channels := n + m + k }) := by
  induction k generalizing b n with
  | zero => simp [Build.merge, ← hb]
  | succ k ih =>
    have hnext : (b.copy ⟨n, true⟩).2.channels = n + 1 + m := by
      change b.channels + 1 = _
      omega
    rw [List.range'_succ, List.map_cons, Build.merge]
    simp only [ih (n + 1) _ hnext]
    simp [Build.copy, hb, List.range'_succ, Nat.add_assoc, Nat.add_comm 1]

theorem vector_many (b : Build) {ports : List Port} (h : 2 ≤ ports.length) :
    b.vector ports = (b.merge ports).2.go (b.merge ports).1 (argv ports.length) := by
  match ports with
  | [] => cases h
  | [_] => exact absurd h (Nat.not_succ_le_self 1)
  | _ :: _ :: _ => rfl

theorem calls_compiled (w : World) {k : ℕ} (hk : 2 ≤ k) :
    compile_parse w (calls k) = some (calls_network w k) := by
  obtain ⟨a2, hall⟩ := compile_all_strings w "a" k {}
  have hlen : 2 ≤ ((List.range' 0 k).map fun c => (⟨c, true⟩ : Port)).length := by simpa using hk
  have hargv : ∃ b, compile_argv w (List.replicate k (.STRING "a")) {} = some (k + k, b) ∧
      b = { nodes := (List.range' 0 k).map (fun c => Node.mk true false [] [c] (const_string "a")) ++
              (List.range' k k).map (fun c => Node.mk false false [⟨c - k, true⟩] [c] forward) ++
              [Node.mk true false ((List.range' k k).map (⟨·, true⟩)) [k + k] (argv k)]
            channels := k + k + 1
            confluent_count := k + 1
            a2 := a2 } := by
    refine ⟨_, ?_, rfl⟩
    rw [compile_argv, hall]
    simp only [Option.map_some]
    rw [vector_many _ hlen, merge_ports k 0 k _ rfl]
    simp [Build.go, Build.confluing]
  obtain ⟨b, hcompile, hb⟩ := hargv
  have horder : compile_order w (calls k) (calls k).depend_order {} =
      (compile_rule w ⟨.CALL, "c", 0, List.replicate k (.STRING "a"), .yy_TRUE⟩ {}).bind some := rfl
  have hnodes : (calls_network w k).nodes = b.nodes ++ [Node.mk true false [] [k + k + 1]
      (const_bool true)] ++ [Node.mk true false [⟨k + k, true⟩, ⟨k + k + 1, true⟩] [k + k + 2]
      (call w "c")] ++ [Node.mk true true [⟨k + k + 2, true⟩] [k + k + 3] forward] ++
      [Node.mk true false [⟨k + k + 3, true⟩] [k + k + 4] forward] ++
      [Node.mk false false [⟨k + k + 4, true⟩] [k + k + 5] forward] ++
      [Node.mk false false [⟨k + k + 5, true⟩] [k + k + 6] forward] ++
      [Node.mk true false [⟨k + k + 6, true⟩] [k + k + 7] (reduce w 1)] ++
      [Node.mk true false [⟨k + k + 7, true⟩] [k + k + 8] forward] := by
    simp [hb, calls_network, calls_rest]
  have hnetwork : calls_network w k =
      ⟨(calls_network w k).nodes, k + k + 9, k + k + 8, k + 7⟩ := rfl
  rw [hnodes] at hnetwork
  rw [compile_parse, horder, compile_rule, hnetwork]
  simp only [hcompile]
  rw [hb]
  rfl

theorem calls_reached {k : ℕ} {r : Rule} (h : (calls k).Reached r) :
    r = ⟨.CALL, "c", 0, List.replicate k (.STRING "a"), .yy_TRUE⟩ := by
  obtain ⟨n, hn, -, hroot⟩ := h
  obtain rfl := List.mem_singleton.mp hn
  exact (Option.some.inj hroot).symm

/-- The wide call: 256 arguments, which the byte that counts them takes for none. -/
theorem wide_compiled (w : World) :
    compile_parse w (calls 256) = some (calls_network w 256) := calls_compiled w (by decide)

theorem argv_wide (flow : ℕ) (l : Arrivals) : (argv 256 flow l).ports = [] := by
  unfold argv argv_loop
  rfl

/-- The first string of the wide call is never asked for its third value. -/
theorem first_string_stalls {w : World} {es : List LockStep.Event} {s : LockStep.State Value}
    (hrun : exec (LockStep.step Value.flow (calls_network w 256)) (start
      (calls_network w 256)) es = some s) :
    (s.procs 0).round ≤ 2 := by
  have hw := compile_parse_wired (wide_compiled w)
  have hfirst := calls_source w (k := 256) (p := 0) (by decide)
  have hsecond := calls_relay w (k := 256) (p := 0) (by decide)
  have hone : ∀ k l, l ≠ [] → (forward k l).ports = [] := by
    intro k l hl
    cases l with
    | nil => exact absurd rfl hl
    | cons => rfl
  have hmem : 256 ∈ ((List.range' 256 256).map fun c => (⟨c, true⟩ : Port)).map Port.chan := by
    simp
  have hunread := unread_run hw (calls_back w 0) argv_wide hmem hrun
  have hrelay := backlog_run hsecond rfl List.mem_cons_self hrun
  have htaken := uptake_run (c := 0) hw hsecond rfl hone List.mem_cons_self hrun
  have hsource := backlog_run hfirst rfl List.mem_cons_self hrun
  rw [hunread] at hrelay
  simp only [List.length_nil] at hrelay
  omega

/-- The hand-over of a third flow to the wide network never ends. -/
theorem third_flow_stalls {w : World} {es : List LockStep.Event} {s : LockStep.State Value}
    (hrun : exec (LockStep.step Value.flow (calls_network w 256)) (start (calls_network w 256)) es = some s)
    (hround : s.round = 3) (hbusy : s.busy = true) : 0 < s.left := by
  have hfirst := first_string_stalls hrun
  have hcounted := compile_parse_counted (wide_compiled w)
  refine (Tally.run hcounted hrun).left_pos hbusy
    ((mem_askers (calls_source w (by decide))).mpr rfl) (p := 0) ?_
  omega

/-- What becomes of a flow of the wide network once its strings have it, up to the next one. -/
def wide_flow : List LockStep.Event :=
  [512, 513, 514, 515, 516, 519, 520].map .hand ++
    [.decide 512, .pass 512 514 0, .decide 513, .pass 513 514 1, .decide 514, .pass 514 515 0,
      .decide 515, .pass 515 516 0, .decide 516, .pass 516 517 0, .decide 517, .pass 517 518 0,
      .decide 518, .pass 518 519 0, .decide 519, .pass 519 520 0, .decide 520, .finish 520, .begin]

/-- The first flow, when `n` of the strings have gone to those that merge them. -/
def first_strings (n : ℕ) : LockStep.State Value where
  round := 1
  busy := true
  left := 263 - n
  given := n
  procs := fun p =>
    if p < n then { round := 1 }
    else if 256 ≤ p ∧ p < 256 + n then
      { round := 1, got := some [(0, ⟨1, .string_value (some "a")⟩)] }
    else {}
  sent := fun c => if c < n then [⟨1, .string_value (some "a")⟩] else []

theorem first_strings_step {n : ℕ} (hn : n < 256) :
    exec (LockStep.step Value.flow (calls_network plain_world 256)) (first_strings n)
      [.hand n, .decide n, .pass n (256 + n) 0] = some (first_strings (n + 1)) := by
  have hidle : (first_strings n).procs n = {} := by
    simp only [first_strings]
    rw [if_neg (by omega), if_neg (by omega)]
  have hempty : (first_strings n).procs (256 + n) = {} := by
    simp only [first_strings]
    rw [if_neg (by omega), if_neg (by omega)]
  have hleft : 0 < (first_strings n).left := by
    simp only [first_strings]
    omega
  let given : LockStep.State Value := { (first_strings n).set n { round := 1, got := some [] } with
    left := (first_strings n).left - 1, given := (first_strings n).given + 1 }
  let sending : LockStep.State Value := given.set n
    { round := 1, puts := [(n, ⟨1, .string_value (some "a")⟩)] }
  have hgiven : given.procs n = { round := 1, got := some [] } := set_procs_self ..
  have hsending : sending.procs n = { round := 1, puts := [(n, ⟨1, .string_value (some "a")⟩)] } :=
    set_procs_self ..
  have hwaiting : sending.procs (256 + n) = {} :=
    (set_procs_of_ne _ _ (by omega)).trans ((set_procs_of_ne _ _ (by omega)).trans hempty)
  have hhand : LockStep.step Value.flow (calls_network plain_world 256) (first_strings n) (.hand n) =
      some given := by
    refine step_of_moved rfl rfl (.hand (calls_source plain_world hn) rfl hleft rfl ?_ ?_ ?_)
    · rw [hidle]
      rfl
    · rw [hidle]
      rfl
    · rw [hidle]
      rfl
  have hdecide : LockStep.step Value.flow (calls_network plain_world 256) given (.decide n) =
      some sending := by
    refine step_of_moved rfl rfl (.decide (l := []) (v := ⟨1, .string_value (some "a")⟩)
      (calls_source plain_world hn) ?_ ?_ ?_)
    · rw [hgiven]
    · rw [hgiven]
      rfl
    · rw [hgiven]
      rfl
  refine exec_cons.mpr ⟨given, hhand, exec_cons.mpr ⟨sending, hdecide, exec_cons.mpr ⟨_, ?_, rfl⟩⟩⟩
  refine step_of_moved rfl rfl (.pass (v := ⟨1, .string_value (some "a")⟩)
    (calls_relay plain_world hn) rfl ?_ rfl ?_ ?_)
  · rw [hsending]
    simp
  · rw [hwaiting]
    simp [Node.awaits, forward, LockStep.Turn.ports]
  · rw [hsending, set_procs_of_ne _ _ (show 256 + n ≠ n by omega), hwaiting]
    ext1
    · rfl
    · rfl
    · change 263 - (n + 1) = 263 - n - 1
      omega
    · rfl
    · funext p
      change _ = LockStep.State.procs (LockStep.State.set _ _ _) p
      by_cases hrelay : p = 256 + n
      · subst hrelay
        rw [set_procs_self]
        simp only [first_strings]
        rw [if_neg (by omega), if_pos (by omega)]
        rfl
      · rw [set_procs_of_ne _ _ hrelay]
        by_cases hsource : p = n
        · subst hsource
          rw [set_procs_self]
          simp only [first_strings]
          rw [if_pos (by omega)]
          simp [Proc.drop]
        · have hsame : sending.procs p = (first_strings n).procs p :=
            (set_procs_of_ne _ _ hsource).trans (set_procs_of_ne _ _ hsource)
          have hbelow : p < n + 1 ↔ p < n := by omega
          have hwithin : 256 ≤ p ∧ p < 256 + (n + 1) ↔ 256 ≤ p ∧ p < 256 + n := by omega
          rw [set_procs_of_ne _ _ hsource, hsame]
          simp only [first_strings, hbelow, hwithin]
    · funext c
      change _ = push (first_strings n).sent n _ c
      by_cases hc : c = n
      · subst hc
        rw [push_self]
        simp [first_strings]
      · have hbelow : c < n + 1 ↔ c < n := by omega
        rw [push_of_ne _ _ hc]
        simp only [first_strings, hbelow]
    · rfl
    · rfl

/-- The second flow begins. -/
theorem second_flow_begins : ∃ s,
    exec (LockStep.step Value.flow (calls_network plain_world 256)) (first_strings 256) wide_flow = some s ∧
      (s.round = 2 ∧ s.busy = true ∧ s.left = 263 ∧ s.given = 0 ∧ s.crashed = false ∧
        s.aborted = false) ∧ ∀ p < 256, s.procs p = { round := 1 } := by
  have hend : ((exec (LockStep.step Value.flow (calls_network plain_world 256)) (first_strings 256)
      wide_flow).map fun s => (s.round, s.busy, s.left, s.given, s.crashed, s.aborted)) =
        some (2, true, 263, 0, false, false) := by decide +kernel
  obtain ⟨s, hs, hstate⟩ := Option.map_eq_some_iff.mp hend
  simp only [Prod.mk.injEq] at hstate
  refine ⟨s, hs, hstate, fun p hp => ?_⟩
  have hfar : ∀ e ∈ wide_flow, ∀ q ∈ e.nodes, 256 ≤ q := by decide
  have hsame := exec_procs hs fun e he hin => by
    have hge := hfar e he p hin
    omega
  rw [hsame]
  simp only [first_strings]
  rw [if_pos hp]

/-- The second flow, when `n` of the strings have been handed it. -/
def second_strings (s : LockStep.State Value) (n : ℕ) : LockStep.State Value :=
  { s with
    left := 263 - n
    given := n
    procs := fun p => if p < n then { round := 2, got := some [] } else s.procs p }

theorem second_strings_step {s : LockStep.State Value} (hround : s.round = 2) (hbusy : s.busy = true)
    (hcrashed : s.crashed = false) (haborted : s.aborted = false)
    (hstrings : ∀ p < 256, s.procs p = { round := 1 }) {n : ℕ} (hn : n < 256) :
    exec (LockStep.step Value.flow (calls_network plain_world 256)) (second_strings s n) [.hand n] =
      some (second_strings s (n + 1)) := by
  have hidle : (second_strings s n).procs n = { round := 1 } := by
    simp only [second_strings]
    rw [if_neg (Nat.lt_irrefl n)]
    exact hstrings n hn
  refine exec_cons.mpr ⟨_, step_of_moved hcrashed haborted (.hand (calls_source plain_world hn)
    hbusy ?_ rfl ?_ ?_ rfl), congrArg some ?_⟩
  · simp only [second_strings]
    omega
  · rw [hidle]
    rfl
  · rw [hidle]
    exact hround.symm
  · rw [hidle]
    ext1
    · rfl
    · rfl
    · change 263 - n - 1 = 263 - (n + 1)
      omega
    · rfl
    · funext p
      change LockStep.State.procs (LockStep.State.set _ _ _) p = _
      by_cases hp : p = n
      · subst hp
        rw [set_procs_self]
        simp only [second_strings, hround]
        rw [if_pos (Nat.lt_succ_self p)]
      · have hbelow : p < n + 1 ↔ p < n := by omega
        rw [set_procs_of_ne _ _ hp]
        simp only [second_strings, hbelow]
    · rfl
    · rfl
    · rfl

theorem third_flow_begins : ∃ es s,
    exec (LockStep.step Value.flow (calls_network plain_world 256)) (start (calls_network plain_world 256))
      es = some s ∧ s.round = 3 ∧ s.busy = true ∧ s.crashed = false ∧ s.aborted = false := by
  have hbegin : exec (LockStep.step Value.flow (calls_network plain_world 256))
      (start (calls_network plain_world 256)) [.begin] = some (first_strings 0) := by
    refine congrArg some ?_
    ext1
    · rfl
    · rfl
    · rfl
    · rfl
    · funext p
      simp [first_strings, start]
    · funext c
      simp [first_strings, start]
    · rfl
    · rfl
  obtain ⟨t, ht, ⟨hround, hbusy, hleft, hgiven, hcrashed, haborted⟩, hstrings⟩ := second_flow_begins
  have hzero : t = second_strings t 0 := by
    ext1
    · rfl
    · rfl
    · exact hleft
    · exact hgiven
    · funext p
      simp [second_strings]
    · rfl
    · rfl
    · rfl
  have hend : ((exec (LockStep.step Value.flow (calls_network plain_world 256)) (first_strings 256)
      wide_flow).bind fun t => (exec (LockStep.step Value.flow (calls_network plain_world 256))
        (second_strings t 256) wide_flow).map fun s => (s.round, s.busy, s.crashed, s.aborted)) =
          some (3, true, false, false) := by decide +kernel
  rw [ht, Option.bind_some] at hend
  obtain ⟨s, hs, hstate⟩ := Option.map_eq_some_iff.mp hend
  simp only [Prod.mk.injEq] at hstate
  have hfirst := exec_append.mpr ⟨_, hbegin, exec_stretches fun n hn => first_strings_step hn⟩
  have hsecond := exec_append.mpr ⟨_, hfirst, ht⟩
  rw [hzero] at hsecond
  have hstretch := exec_stretches fun n hn =>
    second_strings_step hround hbusy hcrashed haborted hstrings (n := n) hn
  have hall := exec_append.mpr ⟨_, hsecond, hstretch⟩
  exact ⟨_, s, exec_append.mpr ⟨_, hall, hs⟩, hstate⟩

end wide

/-- The count is the number of the goroutines that ask for flows. Where no argument list has
256 arguments or more, the hand-over of a flow can always go on to its end: from any moment of
it, the goroutines that do not have the flow yet can be given it, each once and in any order. -/
theorem hand_over_ends {w : World} {par : Parse} {N : Network Value}
    (h : compile_parse w par = some N) :
    N.confluent = N.askers.length ∧
      ((∀ r, par.Reached r → r.args.length < 256) → ∀ es s,
        exec (LockStep.step Value.flow N) (start N) es = some s → s.aborted = false → s.busy = true →
        ∀ ps : List ℕ, ps.Nodup → (∀ p, p ∈ ps ↔ p ∈ N.askers ∧ (s.procs p).round ≠ s.round) →
        ∃ s', exec (LockStep.step Value.flow N) s (ps.map .hand) = some s' ∧ s'.left = 0 ∧
          ∀ p ∈ N.askers, (s'.procs p).round = s.round) := by
  refine ⟨compile_parse_counted h, fun hshort es s hrun hon hbusy ps hnodup hps => ?_⟩
  have hs := compile_parse_standing h hshort
  exact (Lockstep.run hs hrun).hands_over hs hon hbusy hnodup hps

/-- A call of two strings: its first flow is handed to the nine goroutines that ask. -/
theorem two_strings_handed :
    (calls_network plain_world 2).confluent = (calls_network plain_world 2).askers.length ∧
      ∃ s, exec (LockStep.step Value.flow (calls_network plain_world 2))
        { start (calls_network plain_world 2) with round := 1, busy := true }
        ([0, 1, 4, 5, 6, 7, 8, 11, 12].map .hand) = some s ∧ s.left = 0 := by
  have haskers : (calls_network plain_world 2).askers = [0, 1, 4, 5, 6, 7, 8, 11, 12] := by rfl
  obtain ⟨hcounted, hends⟩ := hand_over_ends (calls_compiled plain_world le_rfl)
  obtain ⟨s, hs, hleft, -⟩ := hends (fun r hr => by rw [calls_reached hr]; decide) [.begin] _ rfl
    rfl rfl [0, 1, 4, 5, 6, 7, 8, 11, 12] (by decide) fun p => by
      rw [haskers]
      exact (and_iff_left (show (start (calls_network plain_world 2)).round ≠ 1 by decide)).symm
  exact ⟨hcounted, s, hs, hleft⟩

/-- With 256 arguments, a third flow begins and no step of the network ends its hand-over. -/
theorem hand_over_not_always_ends : ∃ N, compile_parse plain_world (calls 256) = some N ∧
    ∃ es s, exec (LockStep.step Value.flow N) (start N) es = some s ∧
      (s.round = 3 ∧ s.busy = true ∧ s.crashed = false ∧ s.aborted = false) ∧
      ∀ fs t, exec (LockStep.step Value.flow N) s fs = some t →
        t.round = 3 ∧ t.busy = true ∧ 0 < t.left := by
  obtain ⟨es, s, hrun, hstate⟩ := third_flow_begins
  refine ⟨_, wide_compiled plain_world, es, s, hrun, hstate, fun fs t hfs => ?_⟩
  have hstays : t.round = 3 ∧ t.busy = true := by
    induction fs using List.reverseRecOn generalizing t with
    | nil =>
      obtain rfl := Option.some.inj hfs
      exact ⟨hstate.1, hstate.2.1⟩
    | append_singleton fs e ih =>
      obtain ⟨m, hm, hstep⟩ := exec_concat.mp hfs
      obtain ⟨hround, hbusy⟩ := ih m hm
      have hleft := third_flow_stalls (exec_append.mpr ⟨s, hrun, hm⟩) hround hbusy
      cases (step_moved hstep).2 with
      | begin hno heq => cases hbusy.symm.trans hno
      | finish hput _ hno heq => omega
      | hand _ _ _ _ _ _ heq => exact heq ▸ ⟨hround, hbusy⟩
      | decide _ _ _ heq => exact heq ▸ ⟨hround, hbusy⟩
      | crash _ _ _ heq => exact heq ▸ ⟨hround, hbusy⟩
      | abort _ _ _ heq => exact heq ▸ ⟨hround, hbusy⟩
      | pass _ _ _ _ _ heq => exact heq ▸ ⟨hround, hbusy⟩
  have hreached := exec_append.mpr ⟨s, hrun, hfs⟩
  exact ⟨hstays.1, hstays.2, third_flow_stalls hreached hstays.1 hstays.2⟩

end Blobio.Flowd
