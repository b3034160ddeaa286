import Blobio.FlowCalm
import Blobio.FlowHandOvers

/-! The counters of a flow detail record: reduce() over the records of all calls and queries, in
any order of arrival. -/
namespace Blobio.Flowd
open LockStep TernaryLogic EventRuns

/-- The calls and queries that compile() has come to, each with the channel of its records. -/
def compiled_rules (w : World) (par : Parse) : List (Rule × ℕ) :=
  ((compile_order w par par.depend_order {}).map Build.fired).getD []

/-- How a call or query has ended in a flow, unless its rule did not fire. -/
def outcome (s : LockStep.State Value) (j c : ℕ) : Option ExitClass :=
  (s.sent c)[j]?.bind fun v => record_class v.data

def is_ok (cls : Option ExitClass) : Bool := cls = some .OK

def is_fault (cls : Option ExitClass) : Bool := cls.isSome && cls ≠ some .OK

/-- What all calls and queries have come to in a flow. -/
def outcomes (w : World) (par : Parse) (s : LockStep.State Value) (j : ℕ) : List (Option ExitClass) :=
  (compiled_rules w par).map fun rc => outcome s j rc.2

/-- The counters add up to the number of calls and queries whose rule has fired, and there are no
faults in them just when none of these has failed. -/
def CountsRight (outcomes : List (Option ExitClass)) (ok_count fault_count : UInt8) : Prop :=
  ok_count.toNat + fault_count.toNat = outcomes.countP Option.isSome ∧
    (fault_count = 0 ↔ ∀ cls ∈ outcomes, is_fault cls = false)

/-- The goroutine of a rule over the channels of its vector and its when-clause. -/
def rule_node (w : World) (r : Rule) (argv when c : ℕ) : Node Value :=
  Node.mk true false [⟨argv, true⟩, r.when_clause.port .bool when] [c] (r.operator w)

/-- The rule of a call or query fires in a flow: none of its arguments is null, and its when-clause is
true. -/
def Fires (w : World) (N : Network Value) (s : LockStep.State Value) (j : ℕ) (rc : Rule × ℕ) : Prop :=
  ∃ argv when, rule_node w rc.1 argv when rc.2 ∈ N.nodes ∧ ∃ a b, (s.sent argv)[j]? = some a ∧
    (s.sent when)[j]? = some b ∧ a.data.argv.isSome ∧ b.data.bool = some true

/-! ### The loop over the merged records -/

section loop

/-- What the records of a flow add to its counters, whatever their order. -/
theorem stats_eq (outcomes : List (Option ExitClass)) (fdr : UInt8 × UInt8) :
    outcomes.foldl (fun fdr cls => stat cls fdr) fdr =
      (fdr.1 + UInt8.ofNat (outcomes.countP is_ok), fdr.2 + UInt8.ofNat (outcomes.countP is_fault)) := by
  induction outcomes generalizing fdr with
  | nil => simp
  | cons cls outcomes ih =>
    rw [List.foldl_cons, ih]
    cases cls with
    | none => simp [stat, is_ok, is_fault]
    | some cls =>
      cases cls <;> simp [stat, is_ok, is_fault, UInt8.ofNat_add, add_assoc] <;> exact UInt8.add_comm _ _

variable {w : World} {n flow i : ℕ} {l : Arrivals} {fdr : UInt8 × UInt8}

theorem reduce_loop_stats (hflow : ∀ m ∈ l, m.2.flow = flow) (hlen : i + l.length = n) :
    reduce_loop w n flow fdr i l =
      let stats := (l.map fun m => record_class m.2.data).foldl (fun fdr cls => stat cls fdr) fdr
      .send ⟨flow, .fdr_value stats.1 stats.2⟩ := by
  induction l generalizing fdr i with
  | nil =>
    unfold reduce_loop
    exact if_pos (by rw [← hlen]; exact le_rfl)
  | cons m l ih =>
    have hm : m.2.flow = flow := hflow m List.mem_cons_self
    have hrest : reduce_loop w n flow (stat (record_class m.2.data) fdr) (i + 1) l = _ :=
      ih (fun m hm => hflow m (List.mem_cons_of_mem _ hm)) (by rw [← hlen, List.length_cons]; omega)
    rw [List.length_cons] at hlen
    rw [reduce_loop, if_neg (by omega)]
    simpa [hm] using hrest

/-- The values that have come, each from its port, are those of the ports. -/
theorem arrived_perm {α : Type*} {vs : List α} {f : Value → α} (hnodup : (l.map Prod.fst).Nodup)
    (hvalues : ∀ m ∈ l, vs[m.1]? = some (f m.2)) (hall : ∀ i < vs.length, i ∈ l.map Prod.fst) :
    (l.map fun m => f m.2).Perm vs := by
  have hperm : (l.map Prod.fst).Perm (List.range vs.length) := by
    refine (List.perm_ext_iff_of_nodup hnodup List.nodup_range).mpr fun i => ?_
    rw [List.mem_range]
    refine ⟨fun hi => ?_, hall i⟩
    obtain ⟨m, hm, rfl⟩ := List.mem_map.mp hi
    exact (List.getElem?_eq_some_iff.mp (hvalues m hm)).1
  have hsome : (l.map fun m => some (f m.2)).Perm (vs.map some) := by
    have hgets := hperm.map fun i => vs[i]?
    have hcame : (l.map Prod.fst).map (fun i => vs[i]?) = l.map fun m => some (f m.2) := by
      rw [List.map_map]
      exact List.map_congr_left hvalues
    rw [hcame] at hgets
    have hvs : (List.range vs.length).map (fun i => vs[i]?) = vs.map some := by
      refine List.ext_getElem? fun i => ?_
      rw [List.getElem?_map, List.getElem?_map]
      by_cases hi : i < vs.length
      · rw [List.getElem?_range hi, Option.map_some, List.getElem?_eq_getElem hi, Option.map_some]
      · rw [List.getElem?_eq_none (by simpa using hi), List.getElem?_eq_none (by simpa using hi)]
        rfl
    rwa [hvs] at hgets
  have hback := hsome.filterMap id
  simpa [List.filterMap_map, Function.comp_def] using hback

end loop

/-! ### What compile() has started -/

/-- Goroutines are only added, and no calls or queries. -/
structure Grows (b b' : Build) : Prop where
  nodes : ∀ nd ∈ b.nodes, nd ∈ b'.nodes
  fired : b'.fired = b.fired

section grows
variable {w : World} {b b' : Build}

theorem Grows.refl (b : Build) : Grows b b := ⟨fun _ h => h, rfl⟩

theorem Grows.trans {b'' : Build} (h : Grows b b') (h' : Grows b' b'') : Grows b b'' :=
  ⟨fun nd hnd => h'.nodes nd (h.nodes nd hnd), h'.fired.trans h.fired⟩

theorem grows_go (b : Build) (ins : List Port) (turn : ℕ → Arrivals → LockStep.Turn Value) :
    Grows b (b.go ins turn).2 :=
  ⟨fun _ h => List.mem_append_left _ h, rfl⟩

theorem grows_copy (b : Build) (port : Port) : Grows b (b.copy port).2 := ⟨fun _ h => List.mem_append_left _ h, rfl⟩

theorem grows_merge (b : Build) (ports : List Port) : Grows b (b.merge ports).2 := by
  rw [merge_copies]
  exact ⟨fun _ h => List.mem_append_left _ h, rfl⟩

theorem grows_vector (b : Build) (ports : List Port) : Grows b (b.vector ports).2 := by
  match ports with
  | [] => exact grows_go b _ _
  | [_] => exact grows_go b _ _
  | port :: port' :: ports => exact (grows_merge b (port :: port' :: ports)).trans (grows_go _ _ _)

theorem grows_done {r : ℕ × Build} (a : Ast) (cc : ℕ) (h : Grows b r.2) : Grows b (Build.done a cc r).2 :=
  ⟨h.nodes, h.fired⟩

theorem Compiles.grows {a : Ast} {r : ℕ × Build} (h : Compiles w a b r) : Grows b r.2 := by
  induction h with
  | @leaf a b hops hproj => exact grows_done a 1 (grows_go b _ _)
  | @command a b s c m hops hproj hnext =>
    have hgo := grows_go { b with command2xdr := m } [⟨c, true⟩] (a.operator w b.channels)
    exact grows_done a 1 ⟨hgo.nodes, hgo.fired⟩
  | @query a b s c m hops hproj hnext =>
    have hgo := grows_go { b with query2qdr := m } [⟨c, true⟩] (a.operator w b.channels)
    exact grows_done a 1 ⟨hgo.nodes, hgo.fired⟩
  | @unary a left k b b₁ c hops hproj hleft ih => exact grows_done a 1 (ih.trans (grows_go b₁ _ _))
  | @binary a left right k l b b₁ b₂ c d hops hproj hleft hright ihl ihr =>
    exact grows_done a 1 ((ihl.trans ihr).trans (grows_go b₂ _ _))

theorem compile_all_grows {as : List Ast} {r : List Port × Build} (h : compile_all w as b = some r) : Grows b r.2 := by
  induction as generalizing b r with
  | nil =>
    obtain rfl := Option.some.inj h
    exact .refl b
  | cons a as ih =>
    obtain ⟨⟨c, b₁⟩, ha, hr⟩ := Option.bind_eq_some_iff.mp h
    obtain ⟨⟨ports, b₂⟩, has, rfl⟩ := Option.map_eq_some_iff.mp hr
    have hrest := ih has
    exact (compile_compiles w a ha).grows.trans hrest

theorem compile_argv_grows {args : List Ast} {r : ℕ × Build} (h : compile_argv w args b = some r) : Grows b r.2 := by
  obtain ⟨⟨ports, b₁⟩, hall, rfl⟩ := Option.map_eq_some_iff.mp h
  have hvector := (compile_all_grows hall).trans (grows_vector b₁ ports)
  exact ⟨hvector.nodes, hvector.fired⟩

theorem compile_logs_grows {m : List (String × Output)} {r : List Port × Build} (h : compile_logs m b = some r) :
    Grows b r.2 := by
  induction m generalizing b r with
  | nil =>
    obtain rfl := Option.some.inj h
    exact .refl b
  | cons e m ih =>
    obtain ⟨n, cx⟩ := e
    obtain ⟨c, ports, b₁, -, -, hrest, rfl⟩ := compile_logs_cons h
    have htail := ih hrest
    exact ((grows_go b _ _).trans (grows_copy _ _)).trans htail

end grows

/-- A call or query, the channel of its records and those that they are broadcast on, among some
goroutines. -/
structure Casts (w : World) (nodes : List (Node Value)) (x : Rule × ℕ × List ℕ) : Prop where
  rule : ∃ argv when b b₁ b₂, compile_argv w x.1.args b = some (argv, b₁) ∧
    compile w x.1.when_clause b₁ = some (when, b₂) ∧ (∀ nd ∈ b₂.nodes, nd ∈ nodes) ∧
    rule_node w x.1 argv when x.2.1 ∈ nodes
  cast : Node.mk true true [⟨x.2.1, true⟩] x.2.2 forward ∈ nodes

theorem Casts.mono {w : World} {nodes nodes' : List (Node Value)} {x : Rule × ℕ × List ℕ} (h : Casts w nodes x)
    (hsub : ∀ nd ∈ nodes, nd ∈ nodes') : Casts w nodes' x := by
  obtain ⟨argv, when, b, b₁, b₂, hargv, hwhen, hnodes, hrule⟩ := h.rule
  exact ⟨⟨argv, when, b, b₁, b₂, hargv, hwhen, fun nd hnd => hsub nd (hnodes nd hnd), hsub _ hrule⟩, hsub _ h.cast⟩

/-- All that compile() has come to is broadcast. -/
structure Heard (w : World) (b : Build) (L : List (Rule × ℕ × List ℕ)) : Prop where
  fired : b.fired = L.map fun x => (x.1, x.2.1)
  heard : (L.map fun x => (x.1.name, x.2.2)).Perm b.heard
  casts : ∀ x ∈ L, Casts w b.nodes x

section heard
variable {w : World} {par : Parse} {b b' : Build} {L : List (Rule × ℕ × List ℕ)} {r : Rule}

theorem rule_fired (b : Build) (w : World) (r : Rule) (argv when : ℕ) :
    (b.rule w r argv when).fired = (r, b.channels) :: b.fired := by
  unfold Build.rule Build.confluing Build.broadcast
  split <;> rfl

theorem rule_nodes (b : Build) (w : World) (r : Rule) (argv when : ℕ) : (b.rule w r argv when).nodes =
    b.nodes ++ [rule_node w r argv when b.channels,
      Node.mk true true [⟨b.channels, true⟩] (List.range' (b.channels + 1)
        (r.depend_ref_count + 1).toNat) forward] := by
  rw [← List.singleton_append, ← List.append_assoc]
  unfold Build.rule Build.confluing Build.broadcast
  split <;> rfl

theorem compile_rule_casts (h : compile_rule w r b = some b') (hfresh : r.name ∉ b.heard.map Prod.fst) :
    ∃ c out, b'.fired = (r, c) :: b.fired ∧ b'.heard.Perm ((r.name, out) :: b.heard) ∧
      (∀ nd ∈ b.nodes, nd ∈ b'.nodes) ∧ Casts w b'.nodes (r, c, out) := by
  obtain ⟨⟨argv, b₁⟩, hargv, hr⟩ := Option.bind_eq_some_iff.mp h
  obtain ⟨⟨when, b₂⟩, hwhen, rfl⟩ := Option.map_eq_some_iff.mp hr
  have hheard : b₂.heard = b.heard :=
    (compile_compiles w _ hwhen).heard.trans (compile_argv_heard hargv)
  have hgrows : Grows b b₂ := (compile_argv_grows hargv).trans (compile_compiles w _ hwhen).grows
  rw [← hheard] at hfresh ⊢
  let x := b₂.go [⟨argv, true⟩, r.when_clause.port .bool when] (r.operator w)
  let out := x.2.fanout ⟨x.1, true⟩ (r.depend_ref_count + 1)
  rw [rule_nodes, rule_fired, hgrows.fired]
  refine ⟨x.1, out.1, rfl, (broadcast_outputs
    (b := { out.2 with fired := (r, x.1) :: out.2.fired }) out.1 hfresh).map _,
    fun nd hnd => List.mem_append_left _ (hgrows.nodes nd hnd), ?_, ?_⟩
  · exact ⟨argv, when, b, b₁, b₂, hargv, hwhen, fun nd hnd => List.mem_append_left _ hnd,
      List.mem_append_right _ List.mem_cons_self⟩
  · exact List.mem_append_right _ (List.mem_cons_of_mem _ (List.mem_singleton_self _))

theorem compile_order_casts {order : List String} (h : compile_order w par order b = some b') (hnodup : order.Nodup)
    (hfresh : ∀ n ∈ order, n ∉ b.heard.map Prod.fst) (hb : Heard w b L) : ∃ L', Heard w b' L' := by
  induction order generalizing b L with
  | nil =>
    obtain rfl := Option.some.inj h
    exact ⟨L, hb⟩
  | cons n order ih =>
    have hrest := (List.nodup_cons.mp hnodup).2
    by_cases hn : n = par.tail
    · subst hn
      exact ih (compile_order_tail h) hrest (fun m hm => hfresh m (List.mem_cons_of_mem _ hm)) hb
    · obtain ⟨r, b₁, hroot, hrule, horder⟩ := compile_order_cons h hn
      have hname := hfresh n List.mem_cons_self
      rw [← root_name hroot] at hname
      obtain ⟨c, out, hfired, hheard, hsub, hcasts⟩ := compile_rule_casts hrule hname
      refine ih horder hrest (fresh_rest hroot hnodup hfresh hheard) (L := (r, c, out) :: L)
        { fired := by rw [hfired, hb.fired]; rfl
          heard := (hb.heard.cons _).trans hheard.symm
          casts := fun x hx => ?_ }
      rcases List.mem_cons.mp hx with rfl | hx
      · exact hcasts
      · exact (hb.casts x hx).mono hsub

/-- All calls and queries that are compiled, in the network as a whole. -/
theorem compile_parse_casts {N : Network Value} (h : compile_parse w par = some N) :
    ∃ b L, compile_order w par par.depend_order {} = some b ∧ Heard w b L ∧ ∀ nd ∈ b.nodes, nd ∈ N.nodes := by
  obtain ⟨b, xdr, qdr, ins, fdr, out, horder, hxdr, hqdr, rfl, rfl, rfl, rfl⟩ := compile_parse_cases h
  obtain ⟨L, hL⟩ := compile_order_casts horder par.order_nodup (fun _ _ => List.not_mem_nil)
    (L := []) ⟨rfl, List.Perm.refl _, fun _ hno => absurd hno List.not_mem_nil⟩
  have hlogs : Grows b qdr.2 :=
    (compile_logs_grows hxdr).trans ⟨(compile_logs_grows hqdr).nodes, (compile_logs_grows hqdr).fired⟩
  have hmerge := grows_merge (qdr.2.confluing qdr.1.length) (xdr.1 ++ qdr.1)
  exact ⟨b, L, horder, hL, fun nd hnd =>
    List.mem_append_left _ (List.mem_append_left _ (hmerge.nodes nd (hlogs.nodes nd hnd)))⟩

end heard

/-! ### What the records of a flow add up to -/

section counted
variable {w : World} {par : Parse} {N : Network Value} {s : LockStep.State Value} {j : ℕ} {v : Value}

/-- The last port of a log hands on what comes over the first channel of its output. -/
def HandsOn (s : LockStep.State Value) (j : ℕ) (port : Port) (e : String × Output) : Prop :=
  ∃ c, e.2.out_chans[0]? = some c ∧ ∀ u, (s.sent port.chan)[j]? = some u → (s.sent c)[j]? = some u

theorem logs_hand_on (hlock : Lockstep Value.flow N s) {m : List (String × Output)} {b : Build}
    {r : List Port × Build} (h : compile_logs m b = some r) (hsub : ∀ nd ∈ r.2.nodes, nd ∈ N.nodes) :
    List.Forall₂ (HandsOn s j) r.1 m := by
  induction m generalizing b r with
  | nil =>
    obtain rfl := Option.some.inj h
    exact .nil
  | cons e m ih =>
    obtain ⟨n, cx⟩ := e
    obtain ⟨c, ports, b₁, -, hzero, hrest, rfl⟩ := compile_logs_cons h
    refine .cons ⟨c, hzero, fun u hu => ?_⟩ (ih hrest hsub)
    have hgrows := compile_logs_grows hrest
    have hcopy := hlock.told (Node.mk false false [⟨b.channels, true⟩] [b.channels + 1] forward)
      (hsub _ (hgrows.nodes _ (List.mem_append_right _ (List.mem_singleton_self _)))) _
      (List.mem_singleton_self _) j u hu
    have hlog := hlock.told (Node.mk true false [⟨c, true⟩] [b.channels] forward)
      (hsub _ (hgrows.nodes _ (List.mem_append_left _ (List.mem_append_right _ (List.mem_singleton_self _))))) _
      (List.mem_singleton_self _) j u (produced_forward rfl rfl hcopy.2)
    exact produced_forward rfl rfl hlog.2

theorem outcome_of_sent {c : ℕ} {u : Value} (h : (s.sent c)[j]? = some u) : outcome s j c = record_class u.data := by
  rw [outcome, h, Option.bind_some]

/-- Where all ports have got their values, so have the outputs, and the same. -/
theorem handed_on {ports : List Port} {m : List (String × Output)} (h : List.Forall₂ (HandsOn s j) ports m)
    (hcame : ∀ port ∈ ports, ∃ u, (s.sent port.chan)[j]? = some u) :
    (ports.map fun port => outcome s j port.chan) = m.map (fun e => outcome s j (e.2.out_chans.headD 0)) ∧
      ∀ e ∈ m, e.2.out_chans ≠ [] ∧ ∃ u, (s.sent (e.2.out_chans.headD 0))[j]? = some u := by
  induction h with
  | nil => exact ⟨rfl, fun _ hno => absurd hno List.not_mem_nil⟩
  | @cons port e ports m hfirst hrest ih =>
    obtain ⟨hsame, hall⟩ := ih fun port hport => hcame port (List.mem_cons_of_mem _ hport)
    obtain ⟨u, hu⟩ := hcame port List.mem_cons_self
    obtain ⟨c, hc, hhand⟩ := hfirst
    have hhead : e.2.out_chans.headD 0 = c := by
      rw [← List.head?_eq_getElem?] at hc
      rw [List.headD_eq_head?_getD, hc, Option.getD_some]
    have hne : e.2.out_chans ≠ [] := List.ne_nil_of_mem (List.mem_of_getElem? hc)
    refine ⟨?_, fun e' he' => ?_⟩
    · rw [List.map_cons, List.map_cons, hsame, hhead, outcome_of_sent hu, outcome_of_sent (hhand u hu)]
    · rcases List.mem_cons.mp he' with rfl | he'
      · exact ⟨hne, u, by rw [hhead]; exact hhand u hu⟩
      · exact hall e' he'

/-- What the outputs have got is what the calls and queries have come to. -/
theorem casts_outcomes {b : Build} {L : List (Rule × ℕ × List ℕ)} (hlock : Lockstep Value.flow N s)
    (hL : Heard w b L) (hsub : ∀ nd ∈ b.nodes, nd ∈ N.nodes)
    (hcame : ∀ e ∈ b.outputs, e.2.out_chans ≠ [] ∧ ∃ u, (s.sent (e.2.out_chans.headD 0))[j]? = some u) :
    (b.outputs.map fun e => outcome s j (e.2.out_chans.headD 0)).Perm (L.map fun x => outcome s j x.2.1) ∧
      ∀ x ∈ L, ∃ u, (s.sent x.2.1)[j]? = some u := by
  have hcast : ∀ x ∈ L, ∃ u, (s.sent (x.2.2.headD 0))[j]? = some u ∧ (s.sent x.2.1)[j]? = some u := by
    intro x hx
    have hmem : (x.1.name, x.2.2) ∈ b.heard := hL.heard.subset (List.mem_map_of_mem hx)
    obtain ⟨e, he, heq⟩ := List.mem_map.mp hmem
    obtain ⟨-, hout⟩ := Prod.mk.inj heq
    obtain ⟨hne, u, hu⟩ := hcame e he
    rw [hout] at hne hu
    have hhead : x.2.2.headD 0 ∈ x.2.2 := by
      cases hcs : x.2.2 with
      | nil => exact absurd hcs hne
      | cons c cs => exact List.mem_cons_self
    have htold := hlock.told _ (hsub _ (hL.casts x hx).cast) _ hhead j u hu
    exact ⟨u, hu, produced_forward rfl rfl htold.2⟩
  refine ⟨?_, fun x hx => ?_⟩
  · have hheard : (b.outputs.map fun e => outcome s j (e.2.out_chans.headD 0)) =
        b.heard.map fun e => outcome s j (e.2.headD 0) := by
      rw [Build.heard, List.map_map]
      rfl
    have hnames := (hL.heard.map fun e => outcome s j (e.2.headD 0)).symm
    rw [List.map_map] at hnames
    have hsame : L.map ((fun e : String × List ℕ => outcome s j (e.2.headD 0)) ∘ fun x => (x.1.name, x.2.2)) =
        L.map fun x => outcome s j x.2.1 := by
      refine List.map_congr_left fun x hx => ?_
      obtain ⟨u, hu, hu'⟩ := hcast x hx
      exact (outcome_of_sent hu).trans (outcome_of_sent hu').symm
    rwa [hheard, ← hsame]
  · obtain ⟨u, -, hu⟩ := hcast x hx
    exact ⟨u, hu⟩

/-- What reduce() has sent for a flow are the counts of what its ports have got. -/
theorem reduced {ports : List Port} {b : Build} (hs : Standing Value.flow N) (hlock : Lockstep Value.flow N s)
    (hsub : ∀ nd ∈ ((b.merge ports).2.go (b.merge ports).1 (reduce w (b.merge ports).1.length)).2.nodes, nd ∈ N.nodes)
    (hv : (s.sent ((b.merge ports).2.go (b.merge ports).1 (reduce w (b.merge ports).1.length)).1)[j]? = some v) :
    v = ⟨j + 1, .fdr_value (UInt8.ofNat ((ports.map fun port => outcome s j port.chan).countP is_ok))
        (UInt8.ofNat ((ports.map fun port => outcome s j port.chan).countP is_fault))⟩ ∧
      ∀ port ∈ ports, ∃ u, (s.sent port.chan)[j]? = some u := by
  have hnode : Node.mk true false (b.merge ports).1 [(b.merge ports).2.channels] (reduce w (b.merge ports).1.length) ∈
      N.nodes := hsub _ (List.mem_append_right _ (List.mem_singleton_self _))
  have hmerged : ∀ nd ∈ (b.merge ports).2.nodes, nd ∈ N.nodes := fun nd hnd => hsub nd (List.mem_append_left _ hnd)
  obtain ⟨-, hproduced⟩ := hlock.told _ hnode _ (List.mem_singleton_self _) j v hv
  obtain ⟨l, hfair, hall, hvalues, hturn⟩ := produced_fair hproduced fun c hc u hu =>
    hlock.stamped hs.wired ((hs.wired.forward _ hnode c hc _ (List.mem_singleton_self _)).trans
      (hs.wired.out_lt hnode (List.mem_singleton_self _))) hu
  simp only [merge_length] at hall hturn
  have hcame : ∀ m ∈ l, ∃ port, ports[m.1]? = some port ∧ (s.sent port.chan)[j]? = some m.2 := fun m hm => by
    obtain ⟨port, hport, hu⟩ := hvalues m hm
    exact merge_sent hlock hmerged hport hu
  have hperm : (l.map fun m => record_class m.2.data).Perm (ports.map fun port => outcome s j port.chan) := by
    refine arrived_perm (f := fun v => record_class v.data) hfair.distinct (fun m hm => ?_) fun i hi => ?_
    · obtain ⟨port, hport, hu⟩ := hcame m hm
      rw [List.getElem?_map, hport, Option.map_some, outcome_of_sent hu]
    · exact hall i (by simpa using hi)
  have hlength : 0 + l.length = ports.length := by simpa using hperm.length_eq
  have hstats : reduce_loop w ports.length (j + 1) (0, 0) 0 l = _ := reduce_loop_stats hfair.stamps hlength
  rw [stats_eq] at hstats
  refine ⟨?_, fun port hport => ?_⟩
  · have hsent := LockStep.Turn.send.inj (hturn.symm.trans hstats)
    rw [hsent, hperm.countP_eq, hperm.countP_eq, UInt8.zero_add, UInt8.zero_add]
  · obtain ⟨i, hi, rfl⟩ := List.getElem_of_mem hport
    obtain ⟨m, hm, rfl⟩ := List.mem_map.mp (hall i hi)
    obtain ⟨port, hport, hu⟩ := hcame m hm
    rw [List.getElem?_eq_getElem hi] at hport
    exact ⟨m.2, Option.some.inj hport ▸ hu⟩

/-- The record of a flow has the counts of what the calls and queries have come to in it, by their
remainders for the width of a counter. -/
theorem flow_counted (h : compile_parse w par = some N) (hs : Standing Value.flow N)
    (hlock : Lockstep Value.flow N s) (hv : (s.sent N.last)[j]? = some v) :
    v = ⟨j + 1, .fdr_value
        (UInt8.ofNat ((outcomes w par s j).countP is_ok))
        (UInt8.ofNat ((outcomes w par s j).countP is_fault))⟩ ∧
      ∀ rc ∈ compiled_rules w par, ∃ u, (s.sent rc.2)[j]? = some u := by
  obtain ⟨b', L, horder', hL, hnodes⟩ := compile_parse_casts h
  obtain ⟨b, xdr, qdr, ins, fdr, out, horder, hxdr, hqdr, hins, hfdr, hout, hN⟩ := compile_parse_cases h
  obtain rfl := Option.some.inj (horder.symm.trans horder')
  have hrules : compiled_rules w par = L.map fun x => (x.1, x.2.1) := by
    rw [compiled_rules, horder]
    exact hL.fired
  have hall : ∀ nd ∈ out.2.nodes, nd ∈ N.nodes := fun nd hnd => by rwa [hN]
  have hreduce : ∀ nd ∈ fdr.2.nodes, nd ∈ N.nodes := fun nd hnd =>
    hall nd (hout ▸ List.mem_append_left _ hnd)
  have hqueries : ∀ nd ∈ qdr.2.nodes, nd ∈ N.nodes := fun nd hnd =>
    hreduce nd (hfdr ▸ List.mem_append_left _ (hins ▸ (grows_merge _ _).nodes nd hnd))
  have hcalls : ∀ nd ∈ xdr.2.nodes, nd ∈ N.nodes := fun nd hnd => hqueries nd ((compile_logs_grows hqdr).nodes nd hnd)
  have hlog : Node.mk true false [⟨fdr.1, true⟩] [N.last] forward ∈ N.nodes := by
    have hlast : N.last = fdr.2.channels := by rw [hN, hout]; rfl
    rw [hlast]
    exact hall _ (hout ▸ List.mem_append_right _ (List.mem_singleton_self _))
  have hrecord := produced_forward rfl rfl (hlock.told _ hlog _ (List.mem_singleton_self _) j v hv).2
  rw [hfdr, hins] at hrecord hreduce
  obtain ⟨hcount, hcame⟩ := reduced hs hlock hreduce hrecord
  have hhand : List.Forall₂ (HandsOn s j) (xdr.1 ++ qdr.1) (b.command2xdr ++ b.query2qdr) :=
    List.rel_append (logs_hand_on hlock hxdr hcalls) (logs_hand_on hlock hqdr hqueries)
  obtain ⟨hsame, hgot⟩ := handed_on hhand hcame
  obtain ⟨hperm, hrecords⟩ := casts_outcomes hlock hL hnodes hgot
  have houtcomes : ((xdr.1 ++ qdr.1).map fun port => outcome s j port.chan).Perm
      (outcomes w par s j) := by
    rw [hsame, outcomes, hrules, List.map_map]
    exact hperm
  refine ⟨?_, fun rc hrc => ?_⟩
  · rw [hcount, houtcomes.countP_eq, houtcomes.countP_eq]
  · rw [hrules] at hrc
    obtain ⟨x, hx, rfl⟩ := List.mem_map.mp hrc
    exact hrecords x hx

theorem fired_record {null idle : Data} {fire : ℕ → List String → Option Data} {flow : ℕ} {a b : Data}
    (h : fired null idle fire flow a b = .send v) (hnull : record_class null = none) (hidle : record_class idle = none)
    (hfire : ∀ argv d, fire flow argv = some d → (record_class d).isSome) :
    (record_class v.data).isSome ↔ a.argv.isSome ∧ b.bool = some true := by
  unfold fired at h
  split at h
  case h_1 argv hargv hbool =>
    split at h
    case h_1 d hd =>
      obtain rfl := LockStep.Turn.send.inj h
      exact iff_of_true (hfire argv d hd) ⟨by rw [hargv]; rfl, hbool⟩
    case h_2 => cases h
  case h_2 hargv hbool =>
    obtain rfl := LockStep.Turn.send.inj h
    simp [hidle, hbool]
  case h_3 hno _ =>
    obtain rfl := LockStep.Turn.send.inj h
    rw [hnull]
    refine iff_of_false Bool.false_ne_true fun hboth => ?_
    obtain ⟨argv, hargv⟩ := Option.isSome_iff_exists.mp hboth.1
    exact hno argv hargv hboth.2

/-- Calls and queries differ in what they do when they fire. -/
theorem operator_rule (w : World) (r : Rule) : ∃ null idle fire, r.operator w = rule w null idle fire ∧
    record_class null = none ∧ record_class idle = none ∧
      ∀ flow argv d, fire flow argv = some d → (record_class d).isSome := by
  unfold Rule.operator
  split
  · refine ⟨_, _, _, rfl, rfl, rfl, fun flow argv d hd => ?_⟩
    obtain rfl := Option.some.inj hd
    rfl
  · refine ⟨_, _, _, rfl, rfl, rfl, fun flow argv d hd => ?_⟩
    obtain ⟨xdr, -, rfl⟩ := Option.map_eq_some_iff.mp hd
    rfl
  all_goals
    refine ⟨_, _, _, rfl, rfl, rfl, fun flow argv d hd => ?_⟩
    obtain ⟨qdr, -, rfl⟩ := Option.map_eq_some_iff.mp hd
    rfl

/-- A record is there just when the rule has fired. -/
theorem rule_record {r : Rule} {argv when c : ℕ} (hs : Standing Value.flow N) (hlock : Lockstep Value.flow N s)
    (hnode : rule_node w r argv when c ∈ N.nodes) (hv : (s.sent c)[j]? = some v) :
    ∃ a b, (s.sent argv)[j]? = some a ∧ (s.sent when)[j]? = some b ∧
      ((record_class v.data).isSome ↔ a.data.argv.isSome ∧ b.data.bool = some true) := by
  obtain ⟨-, hproduced⟩ := hlock.told _ hnode c (List.mem_singleton_self c) j v hv
  have hstamps : ∀ d ∈ (rule_node w r argv when c).reads, ∀ u, (s.sent d)[j]? = some u → u.flow = j + 1 :=
    fun d hd u hu => hlock.stamped hs.wired ((hs.wired.forward _ hnode d hd _ (List.mem_singleton_self _)).trans
      (hs.wired.out_lt hnode (List.mem_singleton_self _))) hu
  obtain ⟨null, idle, fire, hturn, hnull, hidle, hfire⟩ := operator_rule w r
  obtain ⟨a, b, ha, hb, hsend⟩ := produced_rule hturn rfl hproduced hstamps
  exact ⟨a, b, ha, hb, fired_record hsend hnull hidle (hfire _)⟩

theorem outcome_iff_fires (h : compile_parse w par = some N) (hs : Standing Value.flow N)
    (hlock : Lockstep Value.flow N s) (hv : (s.sent N.last)[j]? = some v) {rc : Rule × ℕ}
    (hrc : rc ∈ compiled_rules w par) : (outcome s j rc.2).isSome ↔ Fires w N s j rc := by
  obtain ⟨u, hu⟩ := (flow_counted h hs hlock hv).2 rc hrc
  obtain ⟨b, L, horder, hL, hnodes⟩ := compile_parse_casts h
  rw [compiled_rules, horder] at hrc
  have hfired : rc ∈ b.fired := hrc
  rw [hL.fired] at hfired
  obtain ⟨x, hx, rfl⟩ := List.mem_map.mp hfired
  obtain ⟨argv, when, -, -, -, -, -, -, hnode⟩ := (hL.casts x hx).rule
  rw [outcome_of_sent hu]
  constructor
  · intro hsome
    obtain ⟨a, b, ha, hb, hiff⟩ := rule_record hs hlock (hnodes _ hnode) hu
    exact ⟨argv, when, hnodes _ hnode, a, b, ha, hb, hiff.mp hsome⟩
  · rintro ⟨argv, when, hnode, a, b, ha, hb, hboth⟩
    obtain ⟨a', b', ha', hb', hiff⟩ := rule_record hs hlock hnode hu
    obtain rfl := Option.some.inj (ha.symm.trans ha')
    obtain rfl := Option.some.inj (hb.symm.trans hb')
    exact hiff.mpr hboth

theorem count_outcomes (l : List (Option ExitClass)) : l.countP is_ok + l.countP is_fault = l.countP Option.isSome := by
  induction l with
  | nil => rfl
  | cons cls l ih =>
    rw [List.countP_cons, List.countP_cons, List.countP_cons, ← ih]
    rcases cls with _ | _ | _ | _ | _ <;> simp [is_ok, is_fault] <;> omega

/-- The counters are right while neither of them has overflown. -/
theorem counts_right_of_ofNat (l : List (Option ExitClass)) :
    CountsRight l (UInt8.ofNat (l.countP is_ok)) (UInt8.ofNat (l.countP is_fault)) ↔
      l.countP is_ok < 256 ∧ l.countP is_fault < 256 := by
  have hcount := count_outcomes l
  have hfaults : (∀ cls ∈ l, is_fault cls = false) ↔ l.countP is_fault = 0 := by
    rw [List.countP_eq_zero]
    exact forall₂_congr fun _ _ => (Bool.not_eq_true _).symm.to_iff
  rw [CountsRight, hfaults, ← hcount, ← UInt8.toNat_inj]
  simp only [UInt8.toNat_ofNat']
  have hzero : (0 : UInt8).toNat = 0 := rfl
  omega

end counted

/-- The record of every flow whose fdr is written counts each call and query once, among those that
have gone well or among those that have failed; its two counters, bytes both, are right just when
fewer than 256 calls and queries have gone well in the flow and fewer than 256 have failed. -/
theorem counts_right_iff {w : World} {par : Parse} {N : Network Value} (h : compile_parse w par = some N)
    (hshort : ∀ r, par.Reached r → r.args.length < 256) {es : List LockStep.Event} {s : LockStep.State Value}
    (hrun : exec (LockStep.step Value.flow N) (start N) es = some s) {j : ℕ} {v : Value}
    (hv : (s.sent N.last)[j]? = some v) :
    ∃ ok_count fault_count, v = ⟨j + 1, .fdr_value ok_count fault_count⟩ ∧
      (∀ rc ∈ compiled_rules w par, (outcome s j rc.2).isSome ↔ Fires w N s j rc) ∧
      (CountsRight (outcomes w par s j) ok_count fault_count ↔
        (outcomes w par s j).countP is_ok < 256 ∧ (outcomes w par s j).countP is_fault < 256) := by
  have hs := compile_parse_standing h hshort
  have hlock := Lockstep.run hs hrun
  exact ⟨_, _, (flow_counted h hs hlock hv).1, fun rc hrc => outcome_iff_fires h hs hlock hv hrc,
    counts_right_of_ofNat _⟩

section first
variable {w : World} {par : Parse} {N : Network Value}

/-- Where nothing gives up, some run gets to the record of the first flow. -/
theorem first_record (h : compile_parse w par = some N)
    (hrules : ∀ r, par.Reached r → r.args.length < 256 ∧ r.typed = true)
    (hcalm : ∀ r, par.Reached r → r.Calm w) :
    ∃ es s v, exec (LockStep.step Value.flow N) (start N) es = some s ∧ (s.sent N.last)[0]? = some v := by
  have hs := compile_parse_standing h fun r hr => (hrules r hr).1
  obtain ⟨es, s, hrun, hround, hidle⟩ := first_flow_ends h hrules hcalm
  obtain ⟨-, -, hrest⟩ := (Lockstep.run hs hrun).sent_bounds hs.wired hs.wired.last_lt
  obtain ⟨v, hone⟩ := List.length_eq_one_iff.mp ((hrest hidle).trans hround)
  exact ⟨es, s, v, hrun, by rw [hone]; rfl⟩

theorem compile_order_fired {order : List String} {b b' : Build} (h : compile_order w par order b = some b') :
    b'.fired.map Prod.fst = ((order.filter (· ≠ par.tail)).filterMap (root par)).reverse ++ b.fired.map Prod.fst := by
  induction order generalizing b with
  | nil =>
    obtain rfl := Option.some.inj h
    rfl
  | cons n order ih =>
    by_cases hn : n = par.tail
    · subst hn
      rw [ih (compile_order_tail h), List.filter_cons_of_neg (by simp)]
    · obtain ⟨r, b₁, hroot, hrule, horder⟩ := compile_order_cons h hn
      have hfired : b₁.fired.map Prod.fst = r :: b.fired.map Prod.fst := by
        obtain ⟨⟨argv, b₂⟩, hargv, hr⟩ := Option.bind_eq_some_iff.mp hrule
        obtain ⟨⟨when, b₃⟩, hwhen, rfl⟩ := Option.map_eq_some_iff.mp hr
        have hgrows : Grows b b₃ := (compile_argv_grows hargv).trans (compile_compiles w _ hwhen).grows
        rw [rule_fired, ← hgrows.fired]
        rfl
      rw [ih horder, hfired, List.filter_cons_of_pos (by simpa using hn), List.filterMap_cons_some hroot]
      simp

/-- The calls and queries that count are those of the order, each once. -/
theorem compiled_rules_eq (h : compile_parse w par = some N) : (compiled_rules w par).map Prod.fst =
    ((par.depend_order.filter (· ≠ par.tail)).filterMap (root par)).reverse := by
  obtain ⟨b, L, horder, hL, hnodes⟩ := compile_parse_casts h
  rw [compiled_rules, horder]
  simpa using compile_order_fired horder

end first

/-! ### Many calls -/

/-- A call without arguments that is always fired. -/
def plain_call (n : String) : Rule := ⟨.CALL, n, 0, [], .yy_TRUE⟩

/-- A configuration of such calls, one for each command. -/
def plain_calls (tail : String) (names : List String) (hnodup : names.Nodup) : Parse where
  tail := tail
  sync_map := []
  depend_order := names
  call2ast := names.map plain_call
  query2ast := []
  order_nodup := hnodup

section plain
variable {w : World} {tail : String} {names : List String} {hnodup : names.Nodup} {b : Build}

theorem filterMap_roots {f : String → Option Rule} {g : String → Rule} (h : ∀ n ∈ names, f n = some (g n)) :
    names.filterMap f = names.map g := by
  rw [List.filterMap_congr h, List.filterMap_eq_map']

theorem root_plain {n : String} (hn : n ∈ names) : root (plain_calls tail names hnodup) n = some (plain_call n) := by
  have hfind : (names.map plain_call).find? (fun r => r.name = n) = some (plain_call n) := by
    cases hf : (names.map plain_call).find? (fun r => r.name = n) with
    | none => simpa [plain_call] using List.find?_eq_none.mp hf (plain_call n) (List.mem_map_of_mem hn)
    | some r =>
      obtain ⟨m, -, rfl⟩ := List.mem_map.mp (List.mem_of_find?_eq_some hf)
      have hfound := List.find?_some hf
      have hname : m = n := of_decide_eq_true hfound
      rw [hname]
  rw [root]
  exact congrArg (Option.or · _) hfind

theorem plain_reached {r : Rule} (h : (plain_calls tail names hnodup).Reached r) : ∃ n ∈ names, r = plain_call n := by
  obtain ⟨n, hn, -, hroot⟩ := h
  exact ⟨n, hn, Option.some.inj (hroot.symm.trans (root_plain hn))⟩

/-- The goroutines of such a call. -/
theorem plain_compiled (w : World) (n : String) (b : Build) : ∃ b', compile_rule w (plain_call n) b = some b' ∧
    b'.nodes = b.nodes ++ [Node.mk true false [] [b.channels] argv0,
      Node.mk true false [] [b.channels + 1] (const_bool true),
      Node.mk true false [⟨b.channels, true⟩, ⟨b.channels + 1, true⟩] [b.channels + 2] (call w n),
      Node.mk true true [⟨b.channels + 2, true⟩] [b.channels + 3] forward] ∧
    b'.command2xdr = set_output b.command2xdr n ⟨[b.channels + 3], 1⟩ ∧ b'.query2qdr = b.query2qdr := by
  refine ⟨_, rfl, ?_, rfl, rfl⟩
  change (((b.nodes ++ [_]) ++ [_]) ++ [_]) ++ [_] = _
  simp only [List.append_assoc]
  rfl

theorem plain_calm {n : String} (hcalls : ∀ flow argv, w.call n flow argv ≠ none) : (plain_call n).Calm w where
  args := fun _ hno => absurd hno List.not_mem_nil
  when_clause := rfl
  operator := calm_call hcalls

/-- Every broadcast has its one channel for the log, and there is none of a query. -/
structure Plain (b : Build) : Prop where
  calls : ∀ e ∈ b.command2xdr, e.2.next_chan = 1 ∧ e.2.out_chans.length = 1
  queries : b.query2qdr = []

theorem Plain.compile_rule (h : Plain b) (w : World) (n : String) :
    ∃ b', compile_rule w (plain_call n) b = some b' ∧ Plain b' := by
  obtain ⟨b', hrule, -, hcommands, hqueries⟩ := plain_compiled w n b
  refine ⟨b', hrule, fun e he => ?_, hqueries.trans h.queries⟩
  rw [hcommands, set_output, List.mem_cons] at he
  rcases he with rfl | he
  · exact ⟨rfl, rfl⟩
  · exact h.calls e (List.mem_filter.mp he).1

theorem Plain.compile_order {order : List String} (horder : ∀ n ∈ order, n ∈ names) (h : Plain b) :
    ∃ b', compile_order w (plain_calls tail names hnodup) order b = some b' ∧ Plain b' := by
  induction order generalizing b with
  | nil => exact ⟨b, rfl, h⟩
  | cons n order ih =>
    rw [List.forall_mem_cons] at horder
    unfold Flowd.compile_order
    split_ifs with hn
    · exact ih horder.2 h
    · obtain ⟨b₁, hrule, hplain⟩ := h.compile_rule w n
      obtain ⟨b', hrest, hb'⟩ := ih horder.2 hplain
      exact ⟨b', by rw [root_plain horder.1, Option.bind_some, hrule, Option.bind_some, hrest], hb'⟩

theorem plain_parse (w : World) (tail : String) (hnodup : names.Nodup) :
    ∃ N, compile_parse w (plain_calls tail names hnodup) = some N := by
  have hempty : Plain {} := ⟨fun _ hno => absurd hno List.not_mem_nil, rfl⟩
  obtain ⟨b, horder, hb⟩ : ∃ b, compile_order w (plain_calls tail names hnodup) names {} = some b ∧ Plain b :=
    hempty.compile_order fun n hn => hn
  obtain ⟨xdr, hxdr⟩ := compile_logs_some b fun e he => by
    obtain ⟨hnext, hlen⟩ := hb.calls e he
    exact ⟨hnext ▸ Nat.zero_lt_one, hnext.trans hlen.symm⟩
  have hqueries : (xdr.2.confluing xdr.1.length).query2qdr = [] := (compile_logs_queries hxdr).trans hb.queries
  have hlogs : compile_logs (xdr.2.confluing xdr.1.length).query2qdr (xdr.2.confluing xdr.1.length) =
      some ([], xdr.2.confluing xdr.1.length) := by rw [hqueries]; rfl
  unfold compile_parse
  change ∃ N, (compile_order w (plain_calls tail names hnodup) names {}).bind _ = some N
  rw [horder, Option.bind_some, hxdr, Option.bind_some]
  exact ⟨_, Option.map_eq_some_iff.mpr ⟨_, hlogs, rfl⟩⟩

/-- What such a call comes to. -/
theorem plain_outcome {N : Network Value} {s : LockStep.State Value} {j : ℕ} {v : Value}
    (h : compile_parse w (plain_calls tail names hnodup) = some N) (hs : Standing Value.flow N)
    (hlock : Lockstep Value.flow N s) (hv : (s.sent N.last)[j]? = some v) {cls : String → ExitClass}
    (hcalls : ∀ n flow argv, ∃ status, w.call n flow argv = some ⟨cls n, status⟩)
    {rc : Rule × ℕ} (hrc : rc ∈ compiled_rules w (plain_calls tail names hnodup)) :
    outcome s j rc.2 = some (cls rc.1.name) := by
  obtain ⟨u, hu⟩ := (flow_counted h hs hlock hv).2 rc hrc
  have hrule : ∃ n, rc.1 = plain_call n := by
    have hmem : rc.1 ∈ (compiled_rules w (plain_calls tail names hnodup)).map Prod.fst := List.mem_map_of_mem hrc
    rw [compiled_rules_eq h, List.mem_reverse, List.mem_filterMap] at hmem
    obtain ⟨n, hn, hroot⟩ := hmem
    have hn : n ∈ names := (List.mem_filter.mp hn).1
    exact ⟨n, Option.some.inj (hroot.symm.trans (root_plain hn))⟩
  obtain ⟨b, L, horder, hL, hnodes⟩ := compile_parse_casts h
  rw [compiled_rules, horder] at hrc
  have hfired : rc ∈ b.fired := hrc
  rw [hL.fired] at hfired
  obtain ⟨x, hx, rfl⟩ := List.mem_map.mp hfired
  obtain ⟨n, hn⟩ := hrule
  obtain ⟨argv, when, b₀, b₁, b₂, hargv, hwhen, hsub, hnode⟩ := (hL.casts x hx).rule
  simp only at hn hu
  rw [hn] at hargv hwhen hnode
  obtain ⟨rfl, rfl⟩ := Prod.mk.inj (Option.some.inj hargv)
  obtain ⟨rfl, rfl⟩ := Prod.mk.inj (Option.some.inj hwhen)
  have hargs : Node.mk true false [] [b₀.channels] argv0 ∈ N.nodes :=
    hnodes _ (hsub _ (List.mem_append_left _ (List.mem_append_right _ (List.mem_singleton_self _))))
  have htrue : Node.mk true false [] [b₀.channels + 1] (const_bool true) ∈ N.nodes :=
    hnodes _ (hsub _ (List.mem_append_right _ (List.mem_singleton_self _)))
  have hstamps : ∀ d ∈ (rule_node w (plain_call n) b₀.channels (b₀.channels + 1) x.2.1).reads, ∀ u,
      (s.sent d)[j]? = some u → u.flow = j + 1 := fun d hd u hu =>
    hlock.stamped hs.wired ((hs.wired.forward _ (hnodes _ hnode) d hd _ (List.mem_singleton_self _)).trans
      (hs.wired.out_lt (hnodes _ hnode) (List.mem_singleton_self _))) hu
  have hproduced := (hlock.told _ (hnodes _ hnode) _ (List.mem_singleton_self _) j u hu).2
  obtain ⟨a, b, ha, hb, hsend⟩ := produced_rule rfl rfl hproduced hstamps
  obtain rfl := produced_source rfl (hlock.told _ hargs _ (List.mem_singleton_self _) j a ha).2
  obtain rfl := produced_source rfl (hlock.told _ htrue _ (List.mem_singleton_self _) j b hb).2
  obtain ⟨status, hcall⟩ := hcalls n (j + 1) []
  have hfired : fired (.xdr_value none) (.xdr_value (some none)) (fun flow argv =>
      (w.call n flow argv).map fun xdr => .xdr_value (some (some xdr))) (j + 1)
      (.argv_value (some [])) (.bool_value (some true)) = .send ⟨j + 1, .xdr_value (some (some ⟨cls n, status⟩))⟩ := by
    unfold fired
    simp [Data.argv, Data.bool, hcall]
  obtain rfl := LockStep.Turn.send.inj (hfired.symm.trans hsend)
  simp only [hn]
  exact outcome_of_sent hu

/-- The counters of the first flow, where each command ends in a way of its own. -/
theorem plain_counted (w : World) (hnodup : names.Nodup) (hrun : ∀ n ∈ names, n ≠ tail) {cls : String → ExitClass}
    (hcalls : ∀ n flow argv, ∃ status, w.call n flow argv = some ⟨cls n, status⟩) :
    ∃ N es s, compile_parse w (plain_calls tail names hnodup) = some N ∧
      exec (LockStep.step Value.flow N) (start N) es = some s ∧
      outcomes w (plain_calls tail names hnodup) s 0 = (names.map fun n => some (cls n)).reverse ∧
      (s.sent N.last)[0]? = some ⟨1, .fdr_value
        (UInt8.ofNat ((names.map fun n => some (cls n)).reverse.countP is_ok))
        (UInt8.ofNat ((names.map fun n => some (cls n)).reverse.countP is_fault))⟩ := by
  obtain ⟨N, hN⟩ := plain_parse w tail hnodup
  have hrules : ∀ r, (plain_calls tail names hnodup).Reached r → r.args.length < 256 ∧ r.typed = true := fun r hr => by
    obtain ⟨n, -, rfl⟩ := plain_reached hr
    exact ⟨Nat.zero_lt_succ _, rfl⟩
  have hcalm : ∀ r, (plain_calls tail names hnodup).Reached r → r.Calm w := fun r hr => by
    obtain ⟨n, -, rfl⟩ := plain_reached hr
    refine plain_calm fun flow argv hnone => ?_
    obtain ⟨status, hcall⟩ := hcalls n flow argv
    rw [hnone] at hcall
    cases hcall
  obtain ⟨es, s, v, hexec, hv⟩ := first_record hN hrules hcalm
  have hs := compile_parse_standing hN fun r hr => (hrules r hr).1
  have hlock := Lockstep.run hs hexec
  have hcompiled : (compiled_rules w (plain_calls tail names hnodup)).map Prod.fst = (names.map plain_call).reverse := by
    have hall : names.filter (fun n => n ≠ tail) = names := List.filter_eq_self.mpr fun n hn => decide_eq_true (hrun n hn)
    have hroots : names.filterMap (root (plain_calls tail names hnodup)) = names.map plain_call :=
      filterMap_roots fun n hn => root_plain hn
    rw [compiled_rules_eq hN]
    change ((names.filter fun n => n ≠ tail).filterMap _).reverse = _
    rw [hall, hroots]
  have houtcomes : outcomes w (plain_calls tail names hnodup) s 0 = (names.map fun n => some (cls n)).reverse := by
    calc outcomes w (plain_calls tail names hnodup) s 0
        = (compiled_rules w (plain_calls tail names hnodup)).map fun rc => some (cls rc.1.name) :=
          List.map_congr_left fun rc hrc => plain_outcome hN hs hlock hv hcalls hrc
      _ = ((names.map plain_call).reverse).map fun r => some (cls r.name) := by
          rw [← hcompiled, List.map_map]
          rfl
      _ = (names.map fun n => some (cls n)).reverse := by
          rw [List.map_reverse, List.map_map]
          rfl
  have hcount := (flow_counted hN hs hlock hv).1
  rw [houtcomes] at hcount
  exact ⟨N, es, s, hN, hexec, houtcomes, hcount ▸ hv⟩

end plain

/-- One command fails, all others go well. -/
def grumpy_world : World :=
  { plain_world with call := fun n _ _ => some ⟨if n = "d" then .ERR else .OK, if n = "d" then 1 else 0⟩ }

theorem two_names_nodup : ["c", "d"].Nodup := by decide

/-- Of two calls the one that goes well and the one that fails are counted, each in its own counter. -/
theorem counts_right_iff_plain : ∃ N es s ok_count fault_count,
    compile_parse grumpy_world (plain_calls "t" ["c", "d"] two_names_nodup) = some N ∧
      exec (LockStep.step Value.flow N) (start N) es = some s ∧
      (s.sent N.last)[0]? = some ⟨1, .fdr_value ok_count fault_count⟩ ∧
      outcomes grumpy_world (plain_calls "t" ["c", "d"] two_names_nodup) s 0 = [some .ERR, some .OK] ∧
      CountsRight (outcomes grumpy_world (plain_calls "t" ["c", "d"] two_names_nodup) s 0) ok_count fault_count := by
  obtain ⟨N, es, s, hN, hexec, houtcomes, hv⟩ := plain_counted grumpy_world two_names_nodup
    (show ∀ n ∈ ["c", "d"], n ≠ "t" by decide) fun n _ _ => ⟨if n = "d" then 1 else 0, rfl⟩
  obtain ⟨ok_count, fault_count, hrecord, -, hiff⟩ := counts_right_iff hN (fun r hr => by
    obtain ⟨n, -, rfl⟩ := plain_reached hr
    exact Nat.zero_lt_succ _) hexec hv
  have hboth : outcomes grumpy_world (plain_calls "t" ["c", "d"] two_names_nodup) s 0 = [some .ERR, some .OK] :=
    houtcomes.trans (by decide)
  have hcounts := hiff.mpr (by rw [hboth]; decide)
  exact ⟨N, es, s, ok_count, fault_count, hN, hexec, by rw [hv, hrecord], hboth, hcounts⟩

/-- Two letters for each number below 256. -/
def plain_name (i : ℕ) : String := String.ofList ['c', Char.ofNat (97 + i / 16), Char.ofNat (97 + i % 16)]

theorem plain_names_nodup : ((List.range 256).map plain_name).Nodup := by
  have hletters : ∀ i < 16, ∀ j < 16, Char.ofNat (97 + i) = Char.ofNat (97 + j) → i = j := by decide
  refine (List.nodup_map_iff_inj_on List.nodup_range).mpr fun i hi j hj hsame => ?_
  rw [List.mem_range] at hi hj
  have hchars := String.ofList_inj.mp hsame
  simp only [List.cons.injEq, and_true, true_and] at hchars
  have hhigh := hletters _ (by omega) _ (by omega) hchars.1
  have hlow := hletters _ (by omega) _ (by omega) hchars.2
  omega

/-- All commands fail. -/
def failing_world : World := { plain_world with call := fun _ _ _ => some ⟨.ERR, 1⟩ }

/-- A configuration of 256 calls, all of which fail, has no faults in its record. -/
theorem counts_not_always_right : ¬ ∀ (w : World) (par : Parse) (N : Network Value), compile_parse w par = some N →
    ∀ es s, exec (LockStep.step Value.flow N) (start N) es = some s → ∀ j v, (s.sent N.last)[j]? = some v →
      ∃ ok_count fault_count, v = ⟨j + 1, .fdr_value ok_count fault_count⟩ ∧
        CountsRight (outcomes w par s j) ok_count fault_count := by
  intro hclaim
  have hrun : ∀ n ∈ (List.range 256).map plain_name, n ≠ "t" := by
    intro n hn
    obtain ⟨i, -, rfl⟩ := List.mem_map.mp hn
    exact fun hsame => by
      have hchars := String.ofList_inj.mp (hsame.trans (show "t" = String.ofList ['t'] by decide))
      simp at hchars
  obtain ⟨N, es, s, hN, hexec, houtcomes, hv⟩ := plain_counted failing_world plain_names_nodup
    hrun fun _ _ _ => ⟨1, rfl⟩
  obtain ⟨ok_count, fault_count, hrecord, hright⟩ := hclaim _ _ N hN es s hexec 0 _ hv
  rw [houtcomes] at hright
  obtain ⟨hok, hfault⟩ := Data.fdr_value.inj (Value.mk.inj hrecord).2
  rw [← hok, ← hfault, counts_right_of_ofNat] at hright
  have hfaults := hright.2
  have hall : ∀ c ∈ ((List.range 256).map plain_name).map fun _ => some ExitClass.ERR, is_fault c = true := by
    intro c hc
    obtain ⟨n, -, rfl⟩ := List.mem_map.mp hc
    rfl
  rw [List.countP_reverse, List.countP_eq_length.mpr hall, List.length_map, List.length_map,
    List.length_range] at hfaults
  exact lt_irrefl _ hfaults

end Blobio.Flowd
