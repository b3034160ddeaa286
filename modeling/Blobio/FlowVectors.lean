import Blobio.FlowCalm
import Blobio.FlowHandOvers

/-! The argument vectors of calls and queries: argv() over the channels of the arguments, flow by
flow and in any order of arrival. -/
namespace Blobio.Flowd
open LockStep TernaryLogic EventRuns

/-- The types of the channels of arguments; the parser casts numbers to strings. -/
inductive ArgType
  | string
  | bool
  deriving DecidableEq

/-- An argument by its value in each flow, `none` for null. -/
inductive Arg
  | string (value : ℕ → Option String)
  | bool (value : ℕ → Option Bool)

namespace Arg

def type : Arg → ArgType
  | string _ => .string
  | bool _ => .bool

def data : Arg → ℕ → Data
  | string value, flow => .string_value (value flow)
  | bool value, flow => .bool_value (value flow)

/-- The value as it would stand in a vector. -/
def text : Arg → ℕ → Option String
  | string value, flow => value flow
  | bool value, flow => (value flow).map toString

end Arg

/-- The goroutines of some arguments, and what the map of strings gives for each of them. -/
def Build.arguments (b : Build) : List Arg → List Port × Build
  | [] => ([], b)
  | a :: args =>
    let (c, b) := b.go [] (source a.data)
    let (ports, b) := (b.confluing 1).arguments args
    (⟨c, a.type = .string⟩ :: ports, b)

/-- A call or query as far as its arguments and their vector, which goes to the parent. -/
def vector_network (args : List Arg) : Network Value :=
  let (ports, b) := ({} : Build).arguments args
  let (c, b) := b.vector ports
  { nodes := b.nodes, channels := b.channels, last := c, confluent := (b.confluing 1).confluent_count }

/-- The vector of some values: null when any of them is. -/
def vector (vs : List (Option String)) : Option (List String) :=
  if vs.all Option.isSome then some (vs.map (·.getD "")) else none

/-- In every run, whatever the arguments send and whichever comes first, nothing panics, one vector
is sent for each flow, with the value of each argument in its place, and the next flow is waited
for: no flow is stuck, and none takes more than so many steps. -/
def VectorsRight (types : List ArgType) : Prop :=
  ∀ args : List Arg, args.map Arg.type = types → ∀ es s,
    exec (LockStep.step Value.flow (vector_network args)) (start (vector_network args)) es = some s →
    (s.crashed = false ∧ s.aborted = false) ∧
      (∀ j (v : Value), (s.sent (vector_network args).last)[j]? = some v →
        v = ⟨j + 1, .argv_value (vector (args.map fun a => a.text (j + 1)))⟩) ∧
      ((s.sent (vector_network args).last).length ≤ s.round ∧
        s.round ≤ (s.sent (vector_network args).last).length + 1 ∧
        (s.busy = false → (s.sent (vector_network args).last).length = s.round)) ∧
      (s.busy = true → ∃ e s', e ≠ .begin ∧ LockStep.step Value.flow (vector_network args) s e = some s') ∧
      es.countP (fun e => e != .begin) ≤
        ((vector_network args).channels + 2 * (vector_network args).nodes.length) * s.round + 1

/-! ### The loop over the merged arguments -/

section loop
variable {n flow ac : ℕ} {l : Arrivals} {av : List String} {is_null : Bool} {v : Value}

theorem argv_loop_full (hac : n % 256 ≤ ac) : argv_loop n flow av is_null ac l =
    .send ⟨flow, .argv_value (if is_null then none else some av)⟩ := by
  unfold argv_loop
  exact if_pos hac

/-- A vector has as many places as the byte counts. -/
theorem argv_loop_length (hav : av.length = n % 256) (h : argv_loop n flow av is_null ac l = .send v) :
    ∃ x, v.data = .argv_value x ∧ ∀ vs, x = some vs → vs.length = n % 256 := by
  have hsent : ∀ {ac av is_null l}, av.length = n % 256 → n % 256 ≤ ac →
      argv_loop n flow av is_null ac l = .send v →
      ∃ x, v.data = .argv_value x ∧ ∀ vs, x = some vs → vs.length = n % 256 := by
    intro ac av is_null l hav hac h
    rw [argv_loop_full hac] at h
    obtain rfl := LockStep.Turn.send.inj h
    refine ⟨_, rfl, fun vs hvs => ?_⟩
    cases is_null with
    | true => cases hvs
    | false => exact Option.some.inj hvs ▸ hav
  induction l generalizing av is_null ac with
  | nil =>
    by_cases hac : n % 256 ≤ ac
    · exact hsent hav hac h
    · rw [argv_loop, if_neg hac] at h
      cases h
  | cons m l ih =>
    obtain ⟨i, u⟩ := m
    by_cases hac : n % 256 ≤ ac
    · exact hsent hav hac h
    rw [argv_loop, if_neg hac] at h
    cases hplace : av[i % 256]? with
    | none =>
      rw [hplace] at h
      cases h
    | some t =>
      rw [hplace] at h
      by_cases ht : t ≠ ""
      · simp only [if_pos ht] at h
        cases h
      · simp only [if_neg ht] at h
        exact ih (by rw [List.length_set, hav]) h

/-- The place of every argument that has come holds its value, and the others are empty. -/
structure Filled (vs : List (Option String)) (before : List ℕ) (av : List String) (is_null : Bool) : Prop where
  length : av.length = vs.length
  there : ∀ i ∈ before, ∀ x, vs[i]? = some x → av[i]? = some (x.getD "")
  empty : ∀ i < vs.length, i ∉ before → av[i]? = some ""
  null : is_null = before.any fun i => (vs[i]?.getD none).isNone

theorem Filled.set {vs : List (Option String)} {before : List ℕ} {i : ℕ} {x : Option String}
    (h : Filled vs before av is_null) (hi : vs[i]? = some x) :
    Filled vs (before ++ [i]) (av.set i (x.getD "")) (is_null || x.isNone) where
  length := by rw [List.length_set, h.length]
  there := fun k hk y hy => by
    by_cases hki : k = i
    · subst hki
      obtain rfl := Option.some.inj (hi.symm.trans hy)
      have hlt := (List.getElem?_eq_some_iff.mp hi).1
      rw [List.getElem?_set_self (h.length ▸ hlt)]
    · rw [List.getElem?_set_ne (Ne.symm hki)]
      rw [List.mem_append, List.mem_singleton] at hk
      exact h.there k (hk.resolve_right hki) y hy
  empty := fun k hk hnot => by
    rw [List.mem_append, not_or, List.mem_singleton] at hnot
    rw [List.getElem?_set_ne (Ne.symm hnot.2)]
    exact h.empty k hk hnot.1
  null := by rw [h.null, List.any_append, List.any_cons, List.any_nil, hi, Option.getD_some, Bool.or_false]

/-- When all have come, the vector is that of their values. -/
theorem Filled.vector {vs : List (Option String)} {before : List ℕ} (h : Filled vs before av is_null)
    (hall : ∀ i < vs.length, i ∈ before) (hlt : ∀ i ∈ before, i < vs.length) :
    (if is_null then none else some av) = vector vs := by
  have hav : av = vs.map (·.getD "") := by
    refine List.ext_getElem? fun i => ?_
    by_cases hi : i < vs.length
    · have hx := List.getElem?_eq_getElem hi
      rw [h.there i (hall i hi) _ hx, List.getElem?_map, hx, Option.map_some]
    · rw [List.getElem?_eq_none (by rw [h.length]; omega), List.getElem?_eq_none (by simpa using hi)]
  have hnull : is_null = !vs.all Option.isSome := by
    rw [h.null, Bool.eq_iff_iff, List.any_eq_true, Bool.not_eq_true', List.all_eq_false]
    constructor
    · rintro ⟨i, hi, hnone⟩
      have hx := List.getElem?_eq_getElem (hlt i hi)
      rw [hx, Option.getD_some] at hnone
      exact ⟨vs.get ⟨i, hlt i hi⟩, List.getElem_mem _, by simpa using hnone⟩
    · rintro ⟨x, hx, hnone⟩
      obtain ⟨i, hi, rfl⟩ := List.getElem_of_mem hx
      exact ⟨i, hall i hi, by simpa [hi] using hnone⟩
  unfold Flowd.vector
  rw [hnull, hav]
  cases vs.all Option.isSome <;> rfl

/-- Whatever order the arguments come in, the vector is that of their values. -/
theorem argv_loop_filled {vs : List (Option String)} {before : List ℕ} (flow : ℕ) (hn : vs.length < 256)
    (h : Filled vs before av is_null) (hnodup : (before ++ l.map Prod.fst).Nodup)
    (hbefore : ∀ i ∈ before, i < vs.length) (hvalues : ∀ m ∈ l, vs[m.1]? = some m.2.data.string)
    (hall : ∀ i < vs.length, i ∈ before ++ l.map Prod.fst) :
    argv_loop vs.length flow av is_null before.length l = .send ⟨flow, .argv_value (vector vs)⟩ := by
  induction l generalizing av is_null before with
  | nil =>
    rw [List.map_nil, List.append_nil] at hall
    have hfull : vs.length ≤ before.length := by
      have hsub : List.range vs.length ⊆ before := fun i hi => hall i (List.mem_range.mp hi)
      simpa using (List.nodup_range.subperm hsub).length_le
    rw [argv_loop_full (by rwa [Nat.mod_eq_of_lt hn]), h.vector hall hbefore]
  | cons m l ih =>
    obtain ⟨i, u⟩ := m
    have hi : vs[i]? = some u.data.string := hvalues _ List.mem_cons_self
    have hlt : i < vs.length := (List.getElem?_eq_some_iff.mp hi).1
    rw [List.map_cons, List.append_cons] at hnodup hall
    have hbefore' : ∀ k ∈ before ++ [i], k < vs.length := fun k hk => by
      rcases List.mem_append.mp hk with hk | hk
      · exact hbefore k hk
      · exact List.mem_singleton.mp hk ▸ hlt
    have hfirst := List.nodup_append.mp hnodup
    have hroom : before.length < vs.length := by
      have hsub : before ++ [i] ⊆ List.range vs.length := fun k hk => List.mem_range.mpr (hbefore' k hk)
      have hle := (hfirst.1.subperm hsub).length_le
      rwa [List.length_append, List.length_singleton, List.length_range] at hle
    have hfresh : i ∉ before := fun hin =>
      (List.nodup_append.mp hfirst.1).2.2 i hin i (List.mem_singleton_self i) rfl
    rw [argv_loop, Nat.mod_eq_of_lt hn, if_neg (Nat.not_le.mpr hroom)]
    simp only [Nat.mod_eq_of_lt (hlt.trans hn), h.empty i hlt hfresh]
    rw [if_neg (fun hne => hne rfl)]
    have hrest := ih (h.set hi) hnodup hbefore' (fun m hm => hvalues m (List.mem_cons_of_mem _ hm)) hall
    rwa [List.length_append, List.length_singleton] at hrest

end loop

/-! ### The network -/

section network
variable {N : Network Value} {s : LockStep.State Value} {j : ℕ} {v : Value}

theorem arguments_sources (b : Build) (args : List Arg) :
    b.arguments args = ((args.zipIdx b.channels).map fun ac => ⟨ac.2, ac.1.type = .string⟩, { b with
      nodes := b.nodes ++ (args.zipIdx b.channels).map fun ac => Node.mk true false [] [ac.2] (source ac.1.data)
      channels := b.channels + args.length
      confluent_count := b.confluent_count + args.length }) := by
  induction args generalizing b with
  | nil => simp [Build.arguments]
  | cons a args ih =>
    simp only [Build.arguments, ih]
    simp [Build.go, Build.confluing, Nat.add_assoc, Nat.add_comm 1]

/-- What has gone over the channel of a vector, in lock step: the vectors of what has gone over the
channels of the arguments. -/
theorem vector_sent {b : Build} {ports : List Port} {vs : List (Option String)} (h : Lockstep Value.flow N s)
    (hsub : ∀ nd ∈ (b.vector ports).2.nodes, nd ∈ N.nodes) (hn : ports.length < 256)
    (hlen : vs.length = ports.length)
    (hvs : ∀ (i : ℕ) port u, ports[i]? = some port → (s.sent port.chan)[j]? = some u → vs[i]? = some u.data.string)
    (hv : (s.sent (b.vector ports).1)[j]? = some v) :
    v = ⟨j + 1, .argv_value (vector vs)⟩ ∧ ∀ port ∈ ports, ∃ u, (s.sent port.chan)[j]? = some u := by
  by_cases hmany : 2 ≤ ports.length
  · rw [vector_many b hmany] at hsub hv
    have hcopies := merge_copies b ports
    have hnode : Node.mk true false (b.merge ports).1 [(b.merge ports).2.channels] (argv ports.length) ∈ N.nodes :=
      hsub _ (List.mem_append_right _ (List.mem_singleton_self _))
    obtain ⟨-, l, harrived, hall, hturn⟩ := h.told _ hnode _ (List.mem_singleton_self _) j v hv
    -- an argument comes by its copy
    have hmerged : ∀ nd ∈ (b.merge ports).2.nodes, nd ∈ N.nodes := fun nd hnd => hsub nd (List.mem_append_left _ hnd)
    have hports : (b.merge ports).1.length = ports.length := by rw [hcopies, List.length_map, List.length_range']
    simp only [hports] at hall
    refine ⟨?_, fun port hport => ?_⟩
    · have hvalues : ∀ m ∈ l, vs[m.1]? = some m.2.data.string := fun m hm => by
        obtain ⟨port, hport, hu⟩ := harrived.values m hm
        obtain ⟨arg, harg, hu⟩ := merge_sent h hmerged hport hu
        exact hvs _ _ _ harg hu
      have hfilled := argv_loop_filled (j + 1) (hlen ▸ hn)
        { length := by rw [List.length_replicate, Nat.mod_eq_of_lt hn, hlen]
          there := fun i hi => absurd hi List.not_mem_nil
          empty := fun i hi _ => by
            rw [List.getElem?_replicate, if_pos (by rw [Nat.mod_eq_of_lt hn]; exact hlen ▸ hi)]
          null := rfl : Filled vs [] (List.replicate (ports.length % 256) "") false } harrived.distinct (fun i hi => absurd hi List.not_mem_nil) hvalues
        fun i hi => hall i (hlen ▸ hi)
      rw [hlen] at hfilled
      exact LockStep.Turn.send.inj (hturn.symm.trans hfilled)
    · obtain ⟨i, hi, rfl⟩ := List.getElem_of_mem hport
      obtain ⟨m, hm, rfl⟩ := List.mem_map.mp (hall i hi)
      obtain ⟨port, hport, hu⟩ := harrived.values m hm
      obtain ⟨arg, harg, hu⟩ := merge_sent h hmerged hport hu
      rw [List.getElem?_eq_getElem hi] at harg
      exact ⟨m.2, Option.some.inj harg ▸ hu⟩
  · match ports, hlen with
    | [], hlen =>
      obtain rfl := List.length_eq_zero_iff.mp hlen
      have hnode : Node.mk true false [] [b.channels] argv0 ∈ N.nodes :=
        hsub _ (List.mem_append_right _ (List.mem_singleton_self _))
      have htold := h.told _ hnode _ (List.mem_singleton_self _) j v hv
      exact ⟨produced_source rfl htold.2, fun port hport => absurd hport List.not_mem_nil⟩
    | [port], hlen =>
      obtain ⟨x, rfl⟩ := List.length_eq_one_iff.mp hlen
      have hnode : Node.mk true false [port] [b.channels] argv1 ∈ N.nodes :=
        hsub _ (List.mem_append_right _ (List.mem_singleton_self _))
      have htold := h.told _ hnode _ (List.mem_singleton_self _) j v hv
      obtain ⟨u, hu, rfl⟩ := produced_convert (f := fun _ v => .argv_value (v.string.map fun s => [s])) rfl rfl htold.2
      obtain rfl := Option.some.inj (hvs 0 port u rfl hu)
      refine ⟨?_, fun port' hport => ⟨u, List.mem_singleton.mp hport ▸ hu⟩⟩
      cases hx : u.data.string <;> simp [vector]
    | _ :: _ :: ports, _ => exact absurd (Nat.le_add_left 2 ports.length) hmany

theorem arguments_wires {short typed : Prop} {b : Build} {d : ℕ} {P : List ℕ} (args : List Arg)
    (h : Wires short typed b d P) :
    Wires short typed (b.arguments args).2 d ((b.arguments args).1.map Port.chan ++ P) := by
  induction args generalizing b P with
  | nil => exact h
  | cons a args ih =>
    have hfirst := h.go [] (fun _ => keeps_source a.data) fun _ _ hno => absurd hno List.not_mem_nil
    exact (ih hfirst.confluing).perm List.perm_middle

variable {args : List Arg}

theorem vector_network_wires (short typed : Prop) (hshort : short → args.length < 256)
    (htyped : typed → ∀ a ∈ args, a.type = .string) :
    ∃ b, Wires short typed b 0 [(vector_network args).last] ∧ vector_network args =
      { nodes := b.nodes, channels := b.channels, last := (vector_network args).last, confluent := b.confluent_count } := by
  have hempty : Wires short typed {} 0 [] :=
    ⟨rfl, List.Perm.refl _, fun _ hno => absurd hno List.not_mem_nil,
      fun _ hno => absurd hno List.not_mem_nil, rfl⟩
  have hports : (({} : Build).arguments args).1.length = args.length := by
    rw [arguments_sources, List.length_map, List.length_zipIdx]
  have hlive : typed → ∀ port ∈ (({} : Build).arguments args).1, port.live = true := by
    intro ht port hport
    rw [arguments_sources] at hport
    obtain ⟨ac, hac, rfl⟩ := List.mem_map.mp hport
    exact decide_eq_true (htyped ht _ (List.fst_mem_of_mem_zipIdx hac))
  have hvector := (arguments_wires args hempty).vector (fun hs => hports ▸ hshort hs) hlive
  exact ⟨_, hvector.confluing, rfl⟩

theorem vector_network_standing (h : args.length < 256) : Standing Value.flow (vector_network args) := by
  obtain ⟨b, hwires, heq⟩ := vector_network_wires True False (fun _ => h) False.elim
  rw [heq]
  exact hwires.standing trivial

theorem vector_network_wired (args : List Arg) : Wired (vector_network args) := by
  obtain ⟨b, hwires, heq⟩ := @vector_network_wires args False False False.elim False.elim
  rw [heq]
  exact hwires.wired

theorem vector_network_live (h : ∀ a ∈ args, a.type = .string) :
    ∀ nd ∈ (vector_network args).nodes, ∀ port ∈ nd.ins, port.live = true := by
  obtain ⟨b, hwires, heq⟩ := vector_network_wires False True False.elim fun _ => h
  rw [heq]
  exact fun nd hnd => (hwires.sound nd hnd).live trivial

/-- The goroutines behind the channel of a vector by their turns. -/
theorem vector_turns {b : Build} {ports : List Port} {nd : Node Value} (h : nd ∈ (b.vector ports).2.nodes) :
    nd ∈ b.nodes ∨ nd.turn = forward ∨ nd.turn = argv0 ∨ nd.turn = argv1 ∨ nd.turn = argv ports.length := by
  by_cases hmany : 2 ≤ ports.length
  · rw [vector_many b hmany, merge_copies] at h
    rcases List.mem_append.mp h with h | h
    · rcases List.mem_append.mp h with h | h
      · exact .inl h
      · obtain ⟨pc, -, rfl⟩ := List.mem_map.mp h
        exact .inr (.inl rfl)
    · obtain rfl := List.mem_singleton.mp h
      exact .inr (.inr (.inr (.inr rfl)))
  · match ports with
    | [] =>
      rcases List.mem_append.mp h with h | h
      · exact .inl h
      · obtain rfl := List.mem_singleton.mp h
        exact .inr (.inr (.inl rfl))
    | [port] =>
      rcases List.mem_append.mp h with h | h
      · exact .inl h
      · obtain rfl := List.mem_singleton.mp h
        exact .inr (.inr (.inr (.inl rfl)))
    | _ :: _ :: ports => exact absurd (Nat.le_add_left 2 ports.length) hmany

theorem arguments_length (b : Build) (args : List Arg) : (b.arguments args).1.length = args.length := by
  rw [arguments_sources, List.length_map, List.length_zipIdx]

theorem vector_network_calm {nd : Node Value} (h : nd ∈ (vector_network args).nodes) : Calm nd.turn := by
  rcases vector_turns h with hmem | hturn | hturn | hturn | hturn
  · rw [arguments_sources] at hmem
    obtain ⟨ac, -, rfl⟩ := List.mem_map.mp hmem
    exact calm_source _
  · rw [hturn]
    exact calm_forward
  · rw [hturn]
    exact calm_source _
  · rw [hturn]
    exact calm_convert _
  · rw [hturn]
    exact calm_argv _

/-- The network up to the vector of its arguments. -/
theorem vector_nodes_mem {nd : Node Value} (b : Build) (ports : List Port) (h : nd ∈ b.nodes) :
    nd ∈ (b.vector ports).2.nodes := by
  by_cases hmany : 2 ≤ ports.length
  · rw [vector_many b hmany, merge_copies]
    exact List.mem_append_left _ (List.mem_append_left _ h)
  · match ports with
    | [] => exact List.mem_append_left _ h
    | [port] => exact List.mem_append_left _ h
    | _ :: _ :: ports => exact absurd (Nat.le_add_left 2 ports.length) hmany

theorem vector_reads (b : Build) {ports : List Port} {port : Port} (h : port ∈ ports) :
    ∃ nd ∈ (b.vector ports).2.nodes, port ∈ nd.ins := by
  by_cases hmany : 2 ≤ ports.length
  · rw [vector_many b hmany, merge_copies]
    obtain ⟨i, hi, rfl⟩ := List.getElem_of_mem h
    have hpair : (ports[i], b.channels + i) ∈ ports.zipIdx b.channels :=
      List.mem_of_getElem? (i := i) (by rw [List.getElem?_zipIdx, List.getElem?_eq_getElem hi]; rfl)
    refine ⟨_, List.mem_append_left _ (List.mem_append_right _ (List.mem_map.mpr ⟨_, hpair, rfl⟩)), ?_⟩
    exact List.mem_singleton_self _
  · match ports with
    | [] => exact absurd h List.not_mem_nil
    | [_] => exact ⟨_, List.mem_append_right _ (List.mem_singleton_self _), h⟩
    | _ :: _ :: ports => exact absurd (Nat.le_add_left 2 ports.length) hmany

/-- What an argument has sent. -/
theorem argument_sent (h : Lockstep Value.flow (vector_network args) s) {i : ℕ} {port : Port}
    (hport : (({} : Build).arguments args).1[i]? = some port) (hv : (s.sent port.chan)[j]? = some v) :
    ∃ a, args[i]? = some a ∧ v = ⟨j + 1, a.data (j + 1)⟩ := by
  rw [arguments_sources, List.getElem?_map, List.getElem?_zipIdx] at hport
  obtain ⟨ac, hac, rfl⟩ := Option.map_eq_some_iff.mp hport
  obtain ⟨a, ha, rfl⟩ := Option.map_eq_some_iff.mp hac
  have hpair : (a, ({} : Build).channels + i) ∈ args.zipIdx ({} : Build).channels :=
    List.mem_of_getElem? (i := i) (by rw [List.getElem?_zipIdx, ha]; rfl)
  have hmem : Node.mk true false [] [({} : Build).channels + i] (source a.data) ∈
      (({} : Build).arguments args).2.nodes := by
    rw [arguments_sources]
    exact List.mem_append_right _ (List.mem_map.mpr ⟨_, hpair, rfl⟩)
  have htold := h.told _ (vector_nodes_mem _ _ hmem) _ (List.mem_singleton_self _) j v hv
  exact ⟨a, ha, produced_source rfl htold.2⟩

/-- A vector for more arguments than a byte counts has not a place for each of them. -/
theorem vector_too_short (hn : 256 ≤ args.length) {es : List LockStep.Event}
    (hrun : exec (LockStep.step Value.flow (vector_network args)) (start (vector_network args)) es = some s)
    (hv : v ∈ s.sent (vector_network args).last) :
    ∃ x, v.data = .argv_value x ∧ ∀ vs, x = some vs → vs.length = args.length % 256 := by
  have hmany : 2 ≤ (({} : Build).arguments args).1.length := by
    rw [arguments_length]
    omega
  have hvector := vector_many (({} : Build).arguments args).2 hmany
  have hlast : (vector_network args).last =
      ((({} : Build).arguments args).2.merge (({} : Build).arguments args).1).2.channels := congrArg Prod.fst hvector
  have hnode : Node.mk true false ((({} : Build).arguments args).2.merge (({} : Build).arguments args).1).1
      [(vector_network args).last] (argv (({} : Build).arguments args).1.length) ∈ (vector_network args).nodes := by
    change _ ∈ ((({} : Build).arguments args).2.vector (({} : Build).arguments args).1).2.nodes
    rw [hlast, hvector]
    exact List.mem_append_right _ (List.mem_singleton_self _)
  rw [arguments_length] at hnode
  obtain ⟨p, hp⟩ := List.mem_iff_getElem?.mp hnode
  refine (Only.run (Q := fun c v => c = (vector_network args).last → ∃ x, v.data = .argv_value x ∧
    ∀ vs, x = some vs → vs.length = args.length % 256) ?_ hrun).sent _ v hv rfl
  rintro nd hnd flow l v hturn c hc rfl
  obtain ⟨q, hq⟩ := List.mem_iff_getElem?.mp hnd
  obtain rfl := (vector_network_wired args).feeder_unique hp (List.mem_singleton_self _) hq hc
  obtain rfl := Option.some.inj (hp.symm.trans hq)
  exact argv_loop_length (by rw [List.length_replicate]) hturn

theorem vectors_sent (h : Lockstep Value.flow (vector_network args) s) (hn : args.length < 256)
    (hv : (s.sent (vector_network args).last)[j]? = some v) :
    v = ⟨j + 1, .argv_value (vector (args.map fun a => (a.data (j + 1)).string))⟩ ∧
      ∀ port ∈ (({} : Build).arguments args).1, ∃ u, (s.sent port.chan)[j]? = some u := by
  refine vector_sent h (fun nd hnd => hnd) (by rwa [arguments_length]) (by rw [arguments_length, List.length_map]) ?_ hv
  intro i port u hport hu
  obtain ⟨a, ha, rfl⟩ := argument_sent h hport hu
  rw [List.getElem?_map, ha]
  rfl

/-- Without its channel of strings an argument never comes, and the flow does not end. -/
theorem vectors_unsent (hn : args.length < 256) {es : List LockStep.Event}
    (hrun : exec (LockStep.step Value.flow (vector_network args)) (start (vector_network args)) es = some s)
    {a : Arg} (ha : a ∈ args) (hbool : a.type ≠ .string) : (s.sent (vector_network args).last)[j]? = none := by
  by_contra hsome
  obtain ⟨v, hv⟩ := Option.ne_none_iff_exists'.mp hsome
  have hlock := Lockstep.run (vector_network_standing hn) hrun
  obtain ⟨i, hi, rfl⟩ := List.getElem_of_mem ha
  have hport : (⟨i, false⟩ : Port) ∈ (({} : Build).arguments args).1 := by
    rw [arguments_sources]
    refine List.mem_map.mpr ⟨(args[i], i), List.mem_of_getElem? (i := i) ?_, ?_⟩
    · rw [List.getElem?_zipIdx, List.getElem?_eq_getElem hi]
      exact congrArg some (Prod.ext rfl (Nat.zero_add i))
    · rw [Port.mk.injEq]
      exact ⟨rfl, decide_eq_false hbool⟩
  obtain ⟨u, hu⟩ := (vectors_sent hlock hn hv).2 _ hport
  obtain ⟨nd, hnd, hread⟩ := vector_reads (({} : Build).arguments args).2 hport
  obtain ⟨r, hr⟩ := List.mem_iff_getElem?.mp hnd
  obtain ⟨k, hk⟩ := List.mem_iff_getElem?.mp hread
  rw [dead_unsent (vector_network_wired args) hr hk rfl hrun] at hu
  cases hu

end network

/-- Some value of an argument that is not null. -/
def ArgType.sample : ArgType → Arg
  | string => .string fun _ => some ""
  | bool => .bool fun _ => some true

section right
variable {types : List ArgType}

theorem sample_types (types : List ArgType) : (types.map ArgType.sample).map Arg.type = types := by
  rw [List.map_map]
  exact (List.map_congr_left fun t _ => by cases t <;> rfl).trans (List.map_id types)

/-- Where the vectors are right, some run gets to the first of them. -/
theorem VectorsRight.first (h : VectorsRight types) :
    ∃ es s, exec (LockStep.step Value.flow (vector_network (types.map ArgType.sample)))
        (start (vector_network (types.map ArgType.sample))) es = some s ∧
      (s.sent (vector_network (types.map ArgType.sample)).last)[0]? =
        some ⟨1, .argv_value (vector ((types.map ArgType.sample).map fun a => a.text 1))⟩ := by
  have hright := h (types.map ArgType.sample) (sample_types types)
  obtain ⟨es, s, hrun, hround, hidle⟩ := @first_round_ends _ Value.flow
    (vector_network (types.map ArgType.sample)) _ fun es s hrun hround => by
      obtain ⟨-, -, -, hgoes, hbound⟩ := hright es s hrun
      rw [hround] at hbound
      exact ⟨hbound, hgoes⟩
  obtain ⟨-, hsent, ⟨-, -, hall⟩, -⟩ := hright es s hrun
  obtain ⟨v, hone⟩ := List.length_eq_one_iff.mp ((hall hidle).trans hround)
  have hfirst : (s.sent (vector_network (types.map ArgType.sample)).last)[0]? = some v := by
    rw [hone]
    rfl
  exact ⟨es, s, hrun, hsent 0 v hfirst ▸ hfirst⟩

theorem VectorsRight.length_lt (h : VectorsRight types) : types.length < 256 := by
  obtain ⟨es, s, hrun, hfirst⟩ := h.first
  by_contra hge
  obtain ⟨x, hx, hlen⟩ := vector_too_short (by rw [List.length_map]; omega) hrun (List.mem_of_getElem? hfirst)
  have hsample : ∀ t : ArgType, (t.sample.text 1).isSome := by rintro (_ | _) <;> rfl
  have hvector : vector ((types.map ArgType.sample).map fun a => a.text 1) =
      some (((types.map ArgType.sample).map fun a => a.text 1).map (·.getD "")) :=
    if_pos (by simp [hsample])
  rw [hvector, Data.argv_value.injEq] at hx
  have hcount := hlen _ hx.symm
  simp only [List.length_map] at hcount
  have hlt := Nat.mod_lt types.length (Nat.zero_lt_succ 255)
  omega

theorem VectorsRight.strings (h : VectorsRight types) : ∀ t ∈ types, t = .string := by
  obtain ⟨es, s, hrun, hfirst⟩ := h.first
  intro t ht
  by_contra hbool
  have hunsent := vectors_unsent (j := 0) (by rw [List.length_map]; exact h.length_lt) hrun
    (List.mem_map_of_mem ht) (by
      cases t with
      | string => exact absurd rfl hbool
      | bool => exact hbool)
  rw [hfirst] at hunsent
  cases hunsent

end right

/-- argv() assembles the vectors of as many arguments as a byte can count, when each of them has a
channel of strings. -/
theorem vectors_right_iff (types : List ArgType) :
    VectorsRight types ↔ types.length < 256 ∧ ∀ t ∈ types, t = .string := by
  refine ⟨fun h => ⟨h.length_lt, h.strings⟩, ?_⟩
  rintro ⟨hn, hstring⟩ args rfl es s hrun
  rw [List.length_map] at hn
  have hstring : ∀ a ∈ args, a.type = .string := fun a ha => hstring _ (List.mem_map_of_mem ha)
  have hs := vector_network_standing hn
  have hlock := Lockstep.run hs hrun
  have hon := never_aborts (fun _ => vector_network_calm) hrun
  obtain ⟨hle, hge, hrest⟩ := hlock.sent_bounds hs.wired hs.wired.last_lt
  refine ⟨⟨hlock.alive, hon⟩, fun j v hv => ?_, ⟨hle, hge, hrest⟩, fun hbusy => ?_, steps_bounded hs hrun⟩
  · have htexts : (args.map fun a => a.text (j + 1)) = args.map fun a => (a.data (j + 1)).string :=
      List.map_congr_left fun a ha => by
        have ha := hstring a ha
        cases a with
        | string value => rfl
        | bool value => cases ha
    rw [htexts]
    exact (vectors_sent hlock hn hv).1
  · exact hlock.not_stuck hs hon (vector_network_live hstring) hbusy

/-- The byte that counts 256 arguments counts none, and a boolean has no channel of strings. -/
theorem vectors_not_always_right : ¬ VectorsRight (List.replicate 256 .string) ∧
    argv 256 1 [] = .send ⟨1, .argv_value (some [])⟩ ∧ ¬ VectorsRight [.string, .bool] := by
  refine ⟨fun h => ?_, rfl, fun h => ?_⟩
  · have hlt := h.length_lt
    rw [List.length_replicate] at hlt
    exact Nat.lt_irrefl _ hlt
  · exact absurd (h.strings .bool (by simp)) (by simp)

end Blobio.Flowd
