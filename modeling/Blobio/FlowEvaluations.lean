import Blobio.FlowCounts
import Blobio.FlowFanOuts
import Blobio.FlowLockStep

/-! Whether all calls and queries of a configuration are compiled, and so evaluated in each flow. -/
namespace Blobio.Flowd
open LockStep EventRuns Grammar

/-- compile() goes through, and every call and query is compiled once, behind those that it projects
from. The last one that has been compiled stands first. -/
structure CompiledOnce (w : World) (par : Parse) : Prop where
  compiles : ∃ N, compile_parse w par = some N
  once : ((compiled_rules w par).map Prod.fst).Perm par.rules
  behind : ∀ after rc before, compiled_rules w par = after ++ rc :: before → ∀ ref ∈ rc.1.references,
    ∃ x ∈ before, x.1.is_call = ref.1 ∧ x.1.name = ref.2

/-- The rules are evaluated at most once in a flow, and just once in a flow that is over or whose
record is written. The record has the counts of what they have come to, and the flow goes on to it
unless the process gives up. -/
structure EvaluatedOnce (w : World) (par : Parse) (N : Network Value)
    (s : LockStep.State Value) : Prop where
  at_most : ∀ rc ∈ compiled_rules w par, ∀ j, (s.sent rc.2).countP (fun v => v.flow = j + 1) ≤ 1
  ended : s.busy = false → ∀ rc ∈ compiled_rules w par, ∀ j < s.round,
    (s.sent rc.2).countP (fun v => v.flow = j + 1) = 1
  reduced : ∀ j v, (s.sent N.last)[j]? = some v →
    (∀ rc ∈ compiled_rules w par, (s.sent rc.2).countP (fun v => v.flow = j + 1) = 1) ∧
      v = ⟨j + 1, .fdr_value (UInt8.ofNat ((outcomes w par s j).countP is_ok))
        (UInt8.ofNat ((outcomes w par s j).countP is_fault))⟩
  goes_on : s.busy = true → s.aborted = false → ∃ e s', e ≠ .begin ∧
    LockStep.step Value.flow N s e = some s'

/-- compile() finds all that the configuration refers to, and a channel for each projection. -/
structure Compilable (par : Parse) : Prop where
  sync_maps : ∀ sm ∈ par.sync_map, sm.2 = true
  called : ∀ ref ∈ par.references, ∃ r ∈ par.rules, r.name = ref.2
  counted : ∀ r ∈ par.rules, par.projections r.name ≠ 255

/-- All of the order is the tail, a rule or projected from. -/
def Named (par : Parse) : Prop :=
  ∀ n ∈ par.depend_order, n = par.tail ∨ n ∈ par.rules.map Rule.name ∨ n ∈ par.references.map Prod.snd

section compiled
variable {w : World} {par : Parse} {N : Network Value}

theorem compile_order_isSome (h : Parsed par) (hnamed : Named par) (hc : Compilable par) (w : World)
    {pre post : List String}
    (heq : par.depend_order = pre ++ post) : ∃ b, compile_order w par pre {} = some b := by
  have hbyte : ∀ r ∈ par.rules, r.depend_ref_count ≠ 255 := by
    intro r hr hfull
    refine hc.counted r hr ?_
    rw [Parse.projections, ← h.counted r hr, hfull]
    rfl
  induction pre using List.reverseRecOn generalizing post with
  | nil => exact ⟨{}, rfl⟩
  | append_singleton pre n ih =>
    have heq' : par.depend_order = pre ++ n :: post := by rw [heq, List.append_assoc, List.singleton_append]
    obtain ⟨b, hb⟩ := ih heq'
    by_cases hn : n = par.tail
    · refine ⟨b, ?_⟩
      rw [compile_order_append, hb, Option.bind_some, compile_order, if_pos hn, compile_order]
    · have hmem : n ∈ par.depend_order := heq' ▸ List.mem_append_right _ List.mem_cons_self
      obtain ⟨r, hr, rfl⟩ : ∃ r ∈ par.rules, r.name = n := by
        rcases hnamed n hmem with htail | hname | href
        · exact absurd htail hn
        · exact List.mem_map.mp hname
        · obtain ⟨ref, href, heq⟩ := List.mem_map.mp href
          exact heq ▸ hc.called ref href
      obtain ⟨b', hrule⟩ := (h.fan_outs_right hbyte w).indexed pre r.name post heq' hn b hb r
        (h.root_name hr)
      refine ⟨b', ?_⟩
      rw [compile_order_append, hb, Option.bind_some, compile_order, if_neg hn, h.root_name hr,
        Option.bind_some, hrule]
      rfl

theorem compile_parse_isSome (h : Parsed par) (hnamed : Named par) (hc : Compilable par) (w : World) :
    ∃ N, compile_parse w par = some N := by
  have hbyte : ∀ r ∈ par.rules, r.depend_ref_count ≠ 255 := by
    intro r hr hfull
    refine hc.counted r hr ?_
    rw [Parse.projections, ← h.counted r hr, hfull]
    rfl
  obtain ⟨b, hb⟩ := compile_order_isSome h hnamed hc w (List.append_nil par.depend_order).symm
  obtain ⟨-, xdr, qdr, hxdr, hqdr⟩ := (h.fan_outs_right hbyte w).consumed b hb
  have hsync : ¬ (par.sync_map.any fun sm => !sm.2) = true := by
    rw [List.any_eq_true]
    rintro ⟨sm, hsm, hno⟩
    rw [hc.sync_maps sm hsm] at hno
    cases hno
  have hqueries : (xdr.2.confluing xdr.1.length).query2qdr = b.query2qdr := compile_logs_queries hxdr
  unfold compile_parse
  rw [if_neg hsync, hb, Option.bind_some, hxdr, Option.bind_some]
  change ∃ N, (compile_logs (xdr.2.confluing xdr.1.length).query2qdr _).map _ = some N
  rw [hqueries, hqdr]
  exact ⟨_, rfl⟩

theorem mem_order_of_reference (h : Parsed par) {ref : Bool × String} (href : ref ∈ par.references) :
    ref.2 ∈ par.depend_order := by
  obtain ⟨r, hr, hmem⟩ := List.mem_flatMap.mp href
  have hname : r.name ∈ par.depend_order := by
    refine (h.ordered r hr).mpr (.inl ?_)
    exact List.ne_nil_of_mem (depends_on_iff.mpr (.inr (List.mem_map_of_mem hmem)))
  obtain ⟨pre, post, heq⟩ := List.append_of_mem hname
  rw [heq]
  exact List.mem_append_left _ (h.ahead pre post r heq hr ref hmem)

theorem exists_root {b : Build} (hb : compile_order w par par.depend_order {} = some b) {n : String}
    (hn : n ∈ par.depend_order) (htail : n ≠ par.tail) : ∃ r, root par n = some r := by
  obtain ⟨-, hall⟩ := compile_order_heard hb par.order_nodup fun _ _ => List.not_mem_nil
  obtain ⟨r, out, hroot, -⟩ := hall n hn htail
  exact ⟨r, hroot⟩

theorem compilable_of_compiled (h : Parsed par) (hN : compile_parse w par = some N) : Compilable par := by
  obtain ⟨b, xdr, qdr, ins, fdr, out, horder, hxdr, hqdr, -⟩ := compile_parse_cases hN
  refine ⟨fun sm hsm => ?_, fun ref href => ?_, fun r hr hfull => ?_⟩
  · unfold compile_parse at hN
    have hsync := (Option.ite_none_left_eq_some.mp hN).1
    by_contra hno
    exact hsync (List.any_eq_true.mpr ⟨sm, hsm, by simpa using hno⟩)
  · obtain ⟨r, hroot⟩ := exists_root horder (mem_order_of_reference h href) (h.known ref href).1
    exact ⟨r, root_mem hroot, root_name hroot⟩
  · have hname : r.name ∈ par.references.map Prod.snd := by
      rw [← List.count_pos_iff, ← Parse.projections, hfull]
      decide
    have hreached : par.Reached r :=
      ⟨r.name, (h.ordered r hr).mpr (.inr (.inl hname)), h.apart r hr, h.root_name hr⟩
    refine hreached.spoken horder hxdr hqdr ?_
    have hbyte : r.depend_ref_count = 255 := UInt8.toNat_inj.mp ((h.counted r hr).trans hfull)
    rw [hbyte]
    rfl

/-- The rules that have been compiled, the first one at the end. -/
theorem compiled_eq (hN : compile_parse w par = some N) :
    (compiled_rules w par).map Prod.fst = (par.rules_of par.depend_order).reverse :=
  compiled_rules_eq hN

theorem compiled_once_of_parsed (h : Parsed par) (hN : compile_parse w par = some N) :
    ((compiled_rules w par).map Prod.fst).Perm par.rules ↔ ∀ r ∈ par.rules, par.Orders r := by
  rw [compiled_eq hN, (List.reverse_perm _).congr_left,
    List.perm_ext_iff_of_nodup (rules_of_nodup par par.order_nodup) (List.Nodup.of_map _ h.names)]
  constructor
  · intro hall r hr
    exact (h.ordered r hr).mp ((h.mem_rules_of hr).mp ((hall r).mpr hr))
  · intro hall r
    refine ⟨fun hr => ?_, fun hr => (h.mem_rules_of hr).mpr ((h.ordered r hr).mpr (hall r hr))⟩
    obtain ⟨n, -, -, hroot⟩ := mem_rules_of.mp hr
    exact root_mem hroot

theorem compiled_behind (h : Parsed par) (hN : compile_parse w par = some N) {after before : List
    (Rule × ℕ)}
    {rc : Rule × ℕ} (heq : compiled_rules w par = after ++ rc :: before) {ref : Bool × String}
    (href : ref ∈ rc.1.references) : ∃ x ∈ before, x.1.is_call = ref.1 ∧ x.1.name = ref.2 := by
  obtain ⟨b, xdr, qdr, ins, fdr, out, horder, -⟩ := compile_parse_cases hN
  have hrules : par.rules_of par.depend_order =
      (before.map Prod.fst).reverse ++ rc.1 :: (after.map Prod.fst).reverse := by
    have hreverse := congrArg List.reverse (compiled_eq hN)
    rw [List.reverse_reverse, heq] at hreverse
    rw [← hreverse]
    simp
  have hmem : rc.1 ∈ par.rules_of par.depend_order := by
    rw [hrules]
    exact List.mem_append_right _ List.mem_cons_self
  obtain ⟨n, hn, htail, hroot⟩ := mem_rules_of.mp hmem
  obtain rfl := root_name hroot
  have hr := root_mem hroot
  obtain ⟨pre, post, hsplit⟩ := List.append_of_mem hn
  have hnodup := rules_of_nodup par par.order_nodup
  have hparts : par.rules_of par.depend_order = par.rules_of pre ++ rc.1 :: par.rules_of post := by
    rw [hsplit, ← List.singleton_append, rules_of_append, rules_of_append, rules_of_singleton htail hroot,
      List.singleton_append]
  have hfront : par.rules_of pre = (before.map Prod.fst).reverse := by
    have hfresh : ∀ {xs ys : List Rule}, par.rules_of par.depend_order = xs ++ rc.1 :: ys → rc.1 ∉ xs := by
      intro xs ys hxs hin
      rw [hxs] at hnodup
      exact (List.disjoint_of_nodup_append hnodup) hin List.mem_cons_self
    have hbehind : ∀ {xs ys : List Rule}, par.rules_of par.depend_order = xs ++ rc.1 :: ys → rc.1 ∉ ys := by
      intro xs ys hxs hin
      rw [hxs] at hnodup
      exact (List.nodup_cons.mp (List.Nodup.of_append_right hnodup)).1 hin
    exact ((List.append_cons_inj_of_notMem (hfresh hparts) (hbehind hparts)).mp
      (hparts.symm.trans hrules)).1
  have hknown := h.known ref (List.mem_flatMap.mpr ⟨_, hr, href⟩)
  have hahead := h.ahead pre post rc.1 hsplit hr ref href
  have hin : ref.2 ∈ par.depend_order := by
    rw [hsplit]
    exact List.mem_append_left _ hahead
  obtain ⟨r', hroot'⟩ := exists_root horder hin hknown.1
  have hmem' : r' ∈ (before.map Prod.fst).reverse := by
    rw [← hfront]
    exact mem_rules_of.mpr ⟨ref.2, hahead, hknown.1, hroot'⟩
  obtain ⟨x, hx, rfl⟩ := List.mem_map.mp (List.mem_reverse.mp hmem')
  exact ⟨x, hx, hknown.2 _ (root_mem hroot') (root_name hroot'), root_name hroot'⟩

/-- compile() does its work exactly then. -/
theorem compiled_once_iff (h : Parsed par) (hnamed : Named par) (w : World) :
    CompiledOnce w par ↔ Compilable par ∧ ∀ r ∈ par.rules, par.Orders r := by
  constructor
  · rintro ⟨⟨N, hN⟩, honce, -⟩
    exact ⟨compilable_of_compiled h hN, (compiled_once_of_parsed h hN).mp honce⟩
  · rintro ⟨hc, hall⟩
    obtain ⟨N, hN⟩ := compile_parse_isSome h hnamed hc w
    exact ⟨⟨N, hN⟩, (compiled_once_of_parsed h hN).mpr hall,
      fun _ _ _ heq _ href => compiled_behind h hN heq href⟩

end compiled

/-! ### In the flows -/

section evaluated
variable {w : World} {par : Parse} {N : Network Value} {s : LockStep.State Value}

/-- The values of a channel are those of the flows in turn. -/
theorem countP_stamped {vs : List Value} (h : ∀ i v, vs[i]? = some v → v.flow = i + 1) (j : ℕ) :
    vs.countP (fun v => v.flow = j + 1) = if j < vs.length then 1 else 0 := by
  induction vs using List.reverseRecOn with
  | nil => simp
  | append_singleton vs v ih =>
    have hlast : v.flow = vs.length + 1 := h vs.length v (by simp)
    have hfront : ∀ i u, vs[i]? = some u → u.flow = i + 1 := fun i u hu =>
      h i u ((List.getElem?_append_left (List.getElem?_eq_some_iff.mp hu).1).trans hu)
    rw [List.countP_append, ih hfront, List.countP_singleton, List.length_append, List.length_singleton,
      hlast]
    split_ifs <;> simp_all <;> omega

/-- The channels of the records belong to the network. -/
theorem record_channel (h : compile_parse w par = some N) (hs : Standing Value.flow N) {rc : Rule × ℕ}
    (hrc : rc ∈ compiled_rules w par) : rc.2 < N.channels := by
  obtain ⟨b, L, horder, hL, hnodes⟩ := compile_parse_casts h
  rw [compiled_rules, horder, Option.map_some, Option.getD_some, hL.fired] at hrc
  obtain ⟨x, hx, rfl⟩ := List.mem_map.mp hrc
  obtain ⟨argv, when, -, -, -, -, -, -, hrule⟩ := (hL.casts x hx).rule
  exact hs.wired.out_lt (hnodes _ hrule) (List.mem_singleton_self _)

theorem evaluated_once (h : compile_parse w par = some N)
    (hrules : ∀ r, par.Reached r → r.args.length < 256 ∧ r.typed = true) {es : List LockStep.Event}
    (hrun : exec (LockStep.step Value.flow N) (start N) es = some s) : EvaluatedOnce w par N s := by
  have hs := compile_parse_standing h fun r hr => (hrules r hr).1
  have hlock := Lockstep.run hs hrun
  obtain ⟨-, hchannels, hgoes, -⟩ := network_in_lock_step h hrules hrun
  have hcount : ∀ rc ∈ compiled_rules w par, ∀ j, (s.sent rc.2).countP (fun v => v.flow = j + 1) =
      if j < (s.sent rc.2).length then 1 else 0 := fun rc hrc j =>
    countP_stamped (hchannels rc.2 (record_channel h hs hrc)).2.2.2 j
  refine ⟨fun rc hrc j => ?_, fun hidle rc hrc j hj => ?_, fun j v hv => ⟨fun rc hrc => ?_, ?_⟩, hgoes⟩
  · rw [hcount rc hrc]
    split_ifs <;> omega
  · have hlength := (hchannels rc.2 (record_channel h hs hrc)).2.2.1 hidle
    rw [hcount rc hrc, if_pos (hlength ▸ hj)]
  · obtain ⟨u, hu⟩ := (flow_counted h hs hlock hv).2 rc hrc
    rw [hcount rc hrc, if_pos (List.getElem?_eq_some_iff.mp hu).1]
  · exact (flow_counted h hs hlock hv).1

end evaluated

/-- Exactly then all calls and queries are compiled once and behind what they project from. With the
arguments short and the operators typed as well, they are evaluated once in each flow of every run, and
appear in its record. -/
theorem calls_compiled_iff {regexp_Compile : String → Bool} {o : Tsort.MapOrder Text} {keys : KeyOrder}
    {conf : List Statement} {par : Parse} (h : config_parse regexp_Compile o keys conf = .ok par)
      (w : World) :
    (CompiledOnce w par ↔ Compilable par ∧ ∀ r ∈ par.rules, par.Orders r) ∧
      (CompiledOnce w par → (∀ r ∈ par.rules, r.args.length < 256 ∧ r.typed = true) →
        ∀ N, compile_parse w par = some N → ∀ es s,
          exec (LockStep.step Value.flow N) (start N) es = some s → EvaluatedOnce w par N s) := by
  refine ⟨compiled_once_iff (config_parse_parsed h) (fun n hn => config_parse_named h hn) w,
    fun _ hrules N hN es s hrun => evaluated_once hN (fun r hr => hrules r ?_) hrun⟩
  obtain ⟨n, -, -, hroot⟩ := hr
  exact root_mem hroot

/-- Two references to a call, and the first flow. -/
theorem two_references_compiled : ∃ (o : Tsort.MapOrder Text) (keys : KeyOrder) (par : Parse),
    config_parse (fun _ => true) o keys (references_conf 2) = .ok par ∧ CompiledOnce plain_world par ∧
      ∃ N es s, compile_parse plain_world par = some N ∧
        exec (LockStep.step Value.flow N) (start N) es = some s ∧ (s.round = 1 ∧ s.busy = false) ∧
        EvaluatedOnce plain_world par N s := by
  obtain ⟨o⟩ : Nonempty (Tsort.MapOrder Text) := inferInstance
  obtain ⟨par, hpar, hrules⟩ := references_accepted (fun _ => true) o ⟨id, fun _ => .refl _⟩
    (show 2 < 256 by decide)
  obtain ⟨l, -, -, hl, -, -, -, hsync, -⟩ := config_parse_cases hpar
  obtain rfl := Except.ok.inj ((statement_list_references (fun _ => true)
    (by decide : 2 < 256)).symm.trans hl)
  have hrefs : par.references = [(true, "c"), (true, "c")] := by
    rw [Parse.references, hrules]
    rfl
  have hplain : ∀ r ∈ par.rules, r.tok ≠ .CALLX0 := by
    rw [hrules]
    decide
  obtain ⟨hiff, hevaluated⟩ := calls_compiled_iff hpar plain_world
  have honce : CompiledOnce plain_world par := hiff.mpr
    ⟨⟨by rw [hsync]; exact fun _ hno => absurd hno List.not_mem_nil, by rw [hrefs, hrules]; decide,
      by unfold Parse.projections; rw [hrefs, hrules]; decide⟩, fun r hr => .inr (.inr (hplain r hr))⟩
  obtain ⟨N, hN⟩ := honce.compiles
  have htyped : ∀ r ∈ par.rules, r.args.length < 256 ∧ r.typed = true := by
    rw [hrules]
    decide
  have hcalm : ∀ r ∈ par.rules, r.Calm plain_world := by
    rw [hrules]
    exact List.forall_mem_cons.mpr ⟨⟨by decide, rfl, calm_call fun _ _ => nofun⟩,
      List.forall_mem_singleton.mpr ⟨by decide, rfl, calm_call fun _ _ => nofun⟩⟩
  obtain ⟨es, s, hrun, hround, hidle⟩ := first_flow_ends hN
    (fun r ⟨_, _, _, hroot⟩ => htyped r (root_mem hroot)) fun r ⟨_, _, _, hroot⟩ => hcalm r (root_mem hroot)
  exact ⟨o, _, par, hpar, honce, N, es, s, hN, hrun, ⟨hround, hidle⟩, hevaluated honce htyped N hN es s hrun⟩

/-- The builtin command that always succeeds, called for each record. -/
def true_conf : List Statement :=
  [.tail "t", .command "b" "true", .call "b" [] none]

/-- It is never compiled. -/
theorem builtin_never_compiled : ¬ ∀ (o : Tsort.MapOrder Text) (keys : KeyOrder) (conf : List Statement)
    (par : Parse),
    config_parse (fun _ => true) o keys conf = .ok par → CompiledOnce plain_world par := by
  intro hclaim
  obtain ⟨o⟩ : Nonempty (Tsort.MapOrder Text) := inferInstance
  let keys : KeyOrder := ⟨id, fun _ => .refl _⟩
  let l : yyLexState :=
    { tail := some "t", target := [⟨"b", .command "true", 0, true⟩], ast_root := [⟨.CALLX0, "b", [],
      .yy_TRUE⟩] }
  have hl : statement_list (fun _ => true) {} true_conf = .ok l := rfl
  have hdepends : depends keys l = [] := by decide
  have hlen : (depends keys l).length < 2 ^ 63 := by
    rw [hdepends]
    decide
  obtain ⟨par, hpar, -, hrules⟩ := config_parse_flat o (x := "b") (y := "t") hl rfl hlen (by decide)
    (by rw [hdepends]; exact nofun)
  have hall := ((compiled_once_iff (config_parse_parsed hpar)
    (fun n hn => config_parse_named hpar hn) plain_world).mp
    (hclaim o keys true_conf par hpar)).2
  have horders := hall _ (by rw [hrules]; exact List.mem_singleton_self _)
  rw [Parse.Orders, Parse.references, hrules] at horders
  rcases horders with hon | href | htok
  · exact hon rfl
  · exact absurd href (by decide)
  · exact htok rfl

end Blobio.Flowd
