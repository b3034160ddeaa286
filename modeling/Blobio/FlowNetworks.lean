import Blobio.FlowMeanings

/-! The networks that compile() accepts: their goroutines are counted, every channel has its
feeder and its reader, and the parent of the network hands every flow to each of them. -/
namespace Blobio.Flowd
open LockStep TernaryLogic

namespace Rule

theorem keeps_operator (w : World) (r : Rule) : Keeps Value.flow 2 (r.operator w) := by
  unfold operator
  split
  · exact keeps_rule ..
  · exact keeps_rule ..
  · exact keeps_rule ..
  · exact keeps_rule ..
  · exact keeps_rule ..

/-- The arguments are strings and the when-clause is a bool, with all below them typed. -/
def typed (r : Rule) : Bool :=
  r.args.all (fun a => a.kind = .string ∧ a.typed) ∧ r.when_clause.kind = .bool ∧
    r.when_clause.typed

end Rule

variable {short typed : Prop} {w : World} {b b' : Build} {d : ℕ} {P : List ℕ}

section outputs

/-- What merges some channels, one copy for each. -/
theorem merge_copies (b : Build) (ports : List Port) :
    b.merge ports = ((List.range' b.channels ports.length).map (⟨·, true⟩), { b with
      nodes := b.nodes ++ (ports.zipIdx b.channels).map fun pc => Node.mk false false [pc.1] [pc.2] forward
      channels := b.channels + ports.length }) := by
  induction ports generalizing b with
  | nil => simp [Build.merge]
  | cons port ports ih =>
    simp only [Build.merge, ih]
    simp [Build.copy, List.range'_succ, Nat.add_assoc, Nat.add_comm 1]

/-- What comes over a copy has come over its channel. -/
theorem merge_sent {N : Network Value} {s : LockStep.State Value} {j i : ℕ} {ports : List Port} {port : Port}
    {u : Value} (h : Lockstep Value.flow N s) (hsub : ∀ nd ∈ (b.merge ports).2.nodes, nd ∈ N.nodes)
    (hport : (b.merge ports).1[i]? = some port) (hu : (s.sent port.chan)[j]? = some u) :
    ∃ arg, ports[i]? = some arg ∧ (s.sent arg.chan)[j]? = some u := by
  have hcopies := merge_copies b ports
  rw [hcopies, List.getElem?_map] at hport
  obtain ⟨c, hc, rfl⟩ := Option.map_eq_some_iff.mp hport
  obtain ⟨hi, rfl⟩ := List.getElem?_eq_some_iff.mp hc
  rw [List.length_range'] at hi
  rw [List.getElem_range', Nat.one_mul] at hu
  have hpair : (ports[i], b.channels + i) ∈ ports.zipIdx b.channels :=
    List.mem_of_getElem? (i := i) (by rw [List.getElem?_zipIdx, List.getElem?_eq_getElem hi]; rfl)
  have hmem : Node.mk false false [ports[i]] [b.channels + i] forward ∈ (b.merge ports).2.nodes := by
    rw [hcopies]
    exact List.mem_append_right _ (List.mem_map.mpr ⟨_, hpair, rfl⟩)
  have hcopied := h.told _ (hsub _ hmem) _ (List.mem_singleton_self _) j u hu
  exact ⟨ports[i], List.getElem?_eq_getElem hi, produced_forward rfl rfl hcopied.2⟩

theorem merge_length (b : Build) (ports : List Port) :
    (b.merge ports).1.length = ports.length := by
  induction ports generalizing b with
  | nil => rfl
  | cons port ports ih => exact congrArg (· + 1) (ih (b.copy port).2)

theorem merge_live (b : Build) (ports : List Port) :
    ∀ port ∈ (b.merge ports).1, port.live = true := by
  induction ports generalizing b with
  | nil => exact fun _ hno => absurd hno List.not_mem_nil
  | cons port ports ih =>
    intro port' hmem
    rcases List.mem_cons.mp hmem with rfl | hmem
    · rfl
    · exact ih (b.copy port).2 port' hmem

theorem vector_maps (b : Build) (ports : List Port) :
    (b.vector ports).2.command2xdr = b.command2xdr ∧ (b.vector ports).2.query2qdr = b.query2qdr := by
  match ports with
  | [] => exact ⟨rfl, rfl⟩
  | [_] => exact ⟨rfl, rfl⟩
  | port :: port' :: ports =>
    unfold Build.vector
    simp only [merge_copies]
    exact ⟨rfl, rfl⟩

theorem vector_outputs (b : Build) (ports : List Port) : (b.vector ports).2.outputs = b.outputs := by
  obtain ⟨hcommands, hqueries⟩ := vector_maps b ports
  rw [Build.outputs, hcommands, hqueries]
  rfl

theorem compile_all_heard {as : List Ast} {r : List Port × Build} (h : compile_all w as b = some r) :
    r.2.heard = b.heard := by
  induction as generalizing b r with
  | nil =>
    obtain rfl := Option.some.inj h
    rfl
  | cons a as ih =>
    obtain ⟨⟨c, b₁⟩, ha, hr⟩ := Option.bind_eq_some_iff.mp h
    obtain ⟨⟨ports, b₂⟩, has, rfl⟩ := Option.map_eq_some_iff.mp hr
    exact (ih has).trans (compile_compiles w a ha).heard

theorem compile_argv_heard {args : List Ast} {r : ℕ × Build}
    (h : compile_argv w args b = some r) : r.2.heard = b.heard := by
  obtain ⟨⟨ports, b₁⟩, hall, rfl⟩ := Option.map_eq_some_iff.mp h
  have houtputs := vector_outputs b₁ ports
  have hheard := compile_all_heard hall
  unfold Build.heard at hheard ⊢
  rw [← hheard]
  exact congrArg _ houtputs

end outputs

theorem compile_all_wires {as : List Ast} {r : List Port × Build} (h : compile_all w as b = some r)
    (hb : Wires short typed b d (P ++ b.unread)) (ht : typed → ∀ a ∈ as, a.typed = true) :
    Wires short typed r.2 d (r.1.map Port.chan ++ P ++ r.2.unread) := by
  induction as generalizing b r P with
  | nil =>
    obtain rfl := Option.some.inj h
    exact hb
  | cons a as ih =>
    obtain ⟨⟨c, b₁⟩, ha, hr⟩ := Option.bind_eq_some_iff.mp h
    obtain ⟨⟨ports, b₂⟩, has, rfl⟩ := Option.map_eq_some_iff.mp hr
    have hfirst := (compile_compiles w a ha).wires hb fun h => ht h a List.mem_cons_self
    have hrest := ih (P := c :: P) has hfirst fun h a ha => ht h a (List.mem_cons_of_mem _ ha)
    exact hrest.perm (List.perm_middle.append_right _)

theorem compile_all_length {as : List Ast} {r : List Port × Build}
    (h : compile_all w as b = some r) : r.1.length = as.length := by
  induction as generalizing b r with
  | nil =>
    obtain rfl := Option.some.inj h
    rfl
  | cons a as ih =>
    obtain ⟨⟨c, b₁⟩, ha, hr⟩ := Option.bind_eq_some_iff.mp h
    obtain ⟨⟨ports, b₂⟩, has, rfl⟩ := Option.map_eq_some_iff.mp hr
    exact congrArg (· + 1) (ih has)

theorem compile_all_live {as : List Ast} {r : List Port × Build}
    (h : compile_all w as b = some r) (hkind : ∀ a ∈ as, a.kind = .string) :
    ∀ port ∈ r.1, port.live = true := by
  induction as generalizing b r with
  | nil =>
    obtain rfl := Option.some.inj h
    exact fun _ hno => absurd hno List.not_mem_nil
  | cons a as ih =>
    obtain ⟨⟨c, b₁⟩, ha, hr⟩ := Option.bind_eq_some_iff.mp h
    obtain ⟨⟨ports, b₂⟩, has, rfl⟩ := Option.map_eq_some_iff.mp hr
    intro port hmem
    rcases List.mem_cons.mp hmem with rfl | hmem
    · exact decide_eq_true (hkind a List.mem_cons_self)
    · exact ih has (fun a ha => hkind a (List.mem_cons_of_mem _ ha)) port hmem

theorem Wires.vector {ports : List Port} (h : Wires short typed b d (ports.map Port.chan ++ P))
    (hshort : short → ports.length < 256) (hlive : typed → ∀ port ∈ ports, port.live = true) :
    Wires short typed (b.vector ports).2 (d + 1) ((b.vector ports).1 :: P) := by
  match ports with
  | [] => exact h.go [] (fun _ => keeps_source _) hlive
  | [port] => exact h.go [port] (fun _ => by unfold argv1; exact keeps_convert _) hlive
  | port :: port' :: ports =>
    have hmerged := h.merge hlive
    refine hmerged.go _ (fun hs => ?_) fun _ => merge_live b _
    rw [merge_length]
    exact keeps_argv (hshort hs)

theorem compile_argv_wires {args : List Ast} {r : ℕ × Build} (h : compile_argv w args b = some r)
    (hb : Wires short typed b d (P ++ b.unread)) (hshort : short → args.length < 256)
    (ht : typed → ∀ a ∈ args, a.kind = .string ∧ a.typed = true) :
    Wires short typed r.2 d (r.1 :: P ++ r.2.unread) := by
  obtain ⟨⟨ports, b₁⟩, hall, rfl⟩ := Option.map_eq_some_iff.mp h
  have hports := compile_all_wires hall hb fun h a ha => (ht h a ha).2
  have hlength := compile_all_length hall
  rw [List.append_assoc] at hports
  have hvector := hports.vector (fun hs => hlength ▸ hshort hs) fun h =>
    compile_all_live hall fun a ha => (ht h a ha).1
  have hunread : (b₁.vector ports).2.unread = b₁.unread :=
    congrArg (List.flatMap _) (vector_outputs b₁ ports)
  rw [← hunread] at hvector
  exact hvector.confluing

theorem set_output_fresh {m : List (String × Output)} {name : String} (o : Output)
    (h : name ∉ m.map Prod.fst) : set_output m name o = (name, o) :: m := by
  have hself : m.filter (fun e => e.1 ≠ name) = m := by
    refine List.filter_eq_self.mpr fun e he => ?_
    have hne : e.1 ≠ name := fun heq => h (heq ▸ List.mem_map_of_mem he)
    simpa using hne
  rw [set_output, hself]

theorem names_heard (b : Build) : b.heard.map Prod.fst = b.outputs.map Prod.fst := by
  rw [Build.heard, List.map_map]
  rfl

theorem broadcast_outputs {r : Rule} (out : List ℕ) (h : r.name ∉ b.heard.map Prod.fst) :
    (b.broadcast r out).outputs.Perm ((r.name, ⟨out, 1⟩) :: b.outputs) := by
  rw [names_heard, Build.outputs, List.map_append, List.mem_append, not_or] at h
  unfold Build.broadcast
  split <;> simp only [Build.outputs]
  · rw [set_output_fresh _ h.1]
    exact List.Perm.refl _
  · rw [set_output_fresh _ h.1]
    exact List.Perm.refl _
  all_goals
    rw [set_output_fresh _ h.2]
    exact List.perm_middle

theorem broadcast_wires {r : Rule} {out : List ℕ} (hb : Wires short typed b d (out ++ b.unread))
    (h : r.name ∉ b.heard.map Prod.fst) :
    Wires short typed (b.broadcast r out) d (b.broadcast r out).unread := by
  have hunread : (b.broadcast r out).unread.Perm (out ++ b.unread) := by
    have hperm := (broadcast_outputs out h).flatMap_right fun e => e.2.unread
    have hout : (⟨out, 1⟩ : Output).unread = out := List.take_append_drop 1 out
    rw [List.flatMap_cons, hout] at hperm
    exact hperm
  have hnew := hb.perm hunread.symm
  have hsame : (b.broadcast r out).nodes = b.nodes ∧ (b.broadcast r out).channels = b.channels ∧
      (b.broadcast r out).confluent_count = b.confluent_count := by
    unfold Build.broadcast
    split <;> exact ⟨rfl, rfl, rfl⟩
  obtain ⟨hnodes, hchannels, hcount⟩ := hsame
  constructor
  · rw [hnodes, hchannels]
    exact hnew.fed
  · unfold Build.read
    rw [hnodes, hchannels]
    exact hnew.reading
  · rw [hnodes]
    exact hnew.forward
  · rw [hnodes]
    exact hnew.sound
  · rw [hnodes, hcount]
    exact hnew.counted

section rule
variable {r : Rule}

theorem compile_rule_heard (h : compile_rule w r b = some b')
    (hfresh : r.name ∉ b.heard.map Prod.fst) :
    ∃ out : List ℕ, out.length = (r.depend_ref_count + 1).toNat ∧
      b'.heard.Perm ((r.name, out) :: b.heard) := by
  obtain ⟨⟨argv, b₁⟩, hargv, hr⟩ := Option.bind_eq_some_iff.mp h
  obtain ⟨⟨when, b₂⟩, hwhen, rfl⟩ := Option.map_eq_some_iff.mp hr
  have hheard : b₂.heard = b.heard :=
    (compile_compiles w _ hwhen).heard.trans (compile_argv_heard hargv)
  rw [← hheard] at hfresh ⊢
  let x := b₂.go [⟨argv, true⟩, r.when_clause.port .bool when] (r.operator w)
  let out := x.2.fanout ⟨x.1, true⟩ (r.depend_ref_count + 1)
  exact ⟨out.1, List.length_range', (broadcast_outputs
    (b := { out.2 with fired := (r, x.1) :: out.2.fired }) out.1 hfresh).map _⟩

/-- A rule leaves its broadcast channels pending, and no others. -/
theorem compile_rule_wires (h : compile_rule w r b = some b')
    (hb : Wires short typed b d b.unread) (hfresh : r.name ∉ b.heard.map Prod.fst)
    (hcount : r.depend_ref_count + 1 ≠ 0) (hshort : short → r.args.length < 256)
    (ht : typed → r.typed = true) : Wires short typed b' d b'.unread := by
  obtain ⟨⟨argv, b₁⟩, hargv, hr⟩ := Option.bind_eq_some_iff.mp h
  obtain ⟨⟨when, b₂⟩, hwhen, rfl⟩ := Option.map_eq_some_iff.mp hr
  have hheard : b₂.heard = b.heard :=
    (compile_compiles w _ hwhen).heard.trans (compile_argv_heard hargv)
  have htyped : typed → (∀ a ∈ r.args, a.kind = .string ∧ a.typed = true) ∧
      r.when_clause.kind = .bool ∧ r.when_clause.typed = true := by
    intro h
    simpa [Rule.typed] using ht h
  have hfirst := compile_argv_wires (P := []) hargv hb hshort fun h => (htyped h).1
  have hboth := (compile_compiles w _ hwhen).wires (P := [argv]) hfirst fun h => (htyped h).2.2
  have hrule := (hboth.perm (List.Perm.swap ..)).go
    [⟨argv, true⟩, r.when_clause.port .bool when] (fun _ => r.keeps_operator w) fun h port hport => by
      rcases List.mem_cons.mp hport with rfl | hport
      · rfl
      · exact List.mem_singleton.mp hport ▸ decide_eq_true (htyped h).2.1
  have hout := hrule.fanout ⟨_, true⟩ (fun _ => rfl) hcount
  rw [← hheard] at hfresh
  let x := b₂.go [⟨argv, true⟩, r.when_clause.port .bool when] (r.operator w)
  let out := x.2.fanout ⟨x.1, true⟩ (r.depend_ref_count + 1)
  have hcast := broadcast_wires (b := { out.2 with fired := (r, x.1) :: out.2.fired }) (d := d + 2)
    ⟨hout.fed, hout.reading, hout.forward, hout.sound, hout.counted⟩ hfresh
  exact hcast.confluing

end rule

section order
variable {par : Parse} {order : List String}

theorem root_name {n : String} {r : Rule} (h : root par n = some r) : r.name = n := by
  rcases Option.or_eq_some_iff.mp h with hcall | ⟨-, hquery⟩
  · simpa using List.find?_some hcall
  · simpa using List.find?_some hquery

/-- What one name of the order does to the names and their channels. -/
theorem compile_order_cons {n : String} (h : compile_order w par (n :: order) b = some b')
    (hn : n ≠ par.tail) :
    ∃ r b₁, root par n = some r ∧ compile_rule w r b = some b₁ ∧
      compile_order w par order b₁ = some b' := by
  unfold compile_order at h
  rw [if_neg hn] at h
  obtain ⟨r, hroot, hr⟩ := Option.bind_eq_some_iff.mp h
  obtain ⟨b₁, hrule, hrest⟩ := Option.bind_eq_some_iff.mp hr
  exact ⟨r, b₁, hroot, hrule, hrest⟩

theorem compile_order_tail (h : compile_order w par (par.tail :: order) b = some b') :
    compile_order w par order b = some b' := by
  unfold compile_order at h
  rwa [if_pos rfl] at h

theorem fresh_rest {n : String} {r : Rule} {out : List ℕ} (hroot : root par n = some r)
    (hnodup : (n :: order).Nodup) (hfresh : ∀ m ∈ n :: order, m ∉ b.heard.map Prod.fst)
    (hheard : b'.heard.Perm ((r.name, out) :: b.heard)) :
    ∀ m ∈ order, m ∉ b'.heard.map Prod.fst := by
  intro m hm hin
  rcases List.mem_cons.mp ((hheard.map Prod.fst).subset hin) with heq | hin
  · have hmn : m = n := heq.trans (root_name hroot)
    exact (List.nodup_cons.mp hnodup).1 (hmn ▸ hm)
  · exact hfresh m (List.mem_cons_of_mem _ hm) hin

theorem compile_order_heard (h : compile_order w par order b = some b') (hnodup : order.Nodup)
    (hfresh : ∀ n ∈ order, n ∉ b.heard.map Prod.fst) :
    (∀ e ∈ b.heard, e ∈ b'.heard) ∧ ∀ n ∈ order, n ≠ par.tail → ∃ r out, root par n = some r ∧
      (n, out) ∈ b'.heard ∧ out.length = (r.depend_ref_count + 1).toNat := by
  induction order generalizing b with
  | nil =>
    obtain rfl := Option.some.inj h
    exact ⟨fun _ he => he, fun _ hno => absurd hno List.not_mem_nil⟩
  | cons n order ih =>
    have hrest := (List.nodup_cons.mp hnodup).2
    by_cases hn : n = par.tail
    · subst hn
      obtain ⟨hkeep, hall⟩ := ih (compile_order_tail h) hrest
        fun m hm => hfresh m (List.mem_cons_of_mem _ hm)
      refine ⟨hkeep, fun m hm hne => ?_⟩
      exact hall m (List.mem_of_ne_of_mem hne hm) hne
    · obtain ⟨r, b₁, hroot, hrule, horder⟩ := compile_order_cons h hn
      have hname := root_name hroot
      obtain ⟨out, hlen, hheard⟩ := compile_rule_heard hrule
        (hname ▸ hfresh n List.mem_cons_self)
      obtain ⟨hkeep, hall⟩ := ih horder hrest (fresh_rest hroot hnodup hfresh hheard)
      refine ⟨fun e he => hkeep e (hheard.symm.subset (List.mem_cons_of_mem _ he)),
        fun m hm hne => ?_⟩
      rcases List.mem_cons.mp hm with rfl | hm
      · exact ⟨r, out, hroot, hkeep _ (hheard.symm.subset (hname ▸ List.mem_cons_self)), hlen⟩
      · exact hall m hm hne

theorem compile_order_wires (h : compile_order w par order b = some b') (hnodup : order.Nodup)
    (hfresh : ∀ n ∈ order, n ∉ b.heard.map Prod.fst)
    (hrules : ∀ n ∈ order, n ≠ par.tail → ∀ r, root par n = some r →
      r.depend_ref_count + 1 ≠ 0 ∧ (short → r.args.length < 256) ∧ (typed → r.typed = true))
    (hb : Wires short typed b d b.unread) : Wires short typed b' d b'.unread := by
  induction order generalizing b with
  | nil =>
    obtain rfl := Option.some.inj h
    exact hb
  | cons n order ih =>
    have hrest := (List.nodup_cons.mp hnodup).2
    have hrules' := fun m hm => hrules m (List.mem_cons_of_mem n hm)
    by_cases hn : n = par.tail
    · subst hn
      exact ih (compile_order_tail h) hrest
        (fun m hm => hfresh m (List.mem_cons_of_mem _ hm)) hrules' hb
    · obtain ⟨r, b₁, hroot, hrule, horder⟩ := compile_order_cons h hn
      have hname := hfresh n List.mem_cons_self
      rw [← root_name hroot] at hname
      obtain ⟨out, hlen, hheard⟩ := compile_rule_heard hrule hname
      obtain ⟨hcount, hshort, ht⟩ := hrules n List.mem_cons_self hn r hroot
      exact ih horder hrest (fresh_rest hroot hnodup hfresh hheard) hrules'
        (compile_rule_wires hrule hb hname hcount hshort ht)

end order

section logs
variable {m : List (String × Output)} {r : List Port × Build}

theorem compile_logs_cons {n : String} {cx : Output} (h : compile_logs ((n, cx) :: m) b = some r) :
    ∃ c ports b₁, cx.next_chan = cx.out_chans.length ∧ cx.out_chans[0]? = some c ∧
      compile_logs m ((b.go [⟨c, true⟩] forward).2.copy ⟨b.channels, true⟩).2 = some (ports, b₁) ∧
      r = (⟨b.channels + 1, true⟩ :: ports, b₁) := by
  unfold compile_logs at h
  obtain ⟨hnext, hc⟩ := Option.ite_none_left_eq_some.mp h
  obtain ⟨c, hzero, hr⟩ := Option.bind_eq_some_iff.mp hc
  obtain ⟨⟨ports, b₁⟩, hrest, rfl⟩ := Option.map_eq_some_iff.mp hr
  exact ⟨c, ports, b₁, not_not.mp hnext, hzero, hrest, rfl⟩

theorem compile_logs_some (b : Build)
    (hm : ∀ e ∈ m, 0 < e.2.next_chan ∧ e.2.next_chan = e.2.out_chans.length) : ∃ r, compile_logs m b = some r := by
  induction m generalizing b with
  | nil => exact ⟨_, rfl⟩
  | cons e m ih =>
    obtain ⟨n, cx⟩ := e
    obtain ⟨⟨hfirst, hall⟩, hrest⟩ := List.forall_mem_cons.mp hm
    have hlt : 0 < cx.out_chans.length := hall ▸ hfirst
    obtain ⟨r, hr⟩ := ih ((b.go [⟨cx.out_chans[0], true⟩] forward).2.copy ⟨b.channels, true⟩).2 hrest
    refine ⟨(⟨b.channels + 1, true⟩ :: r.1, r.2), ?_⟩
    unfold compile_logs
    rw [if_neg (not_not_intro hall), List.getElem?_eq_getElem hlt]
    exact Option.map_eq_some_iff.mpr ⟨r, hr, rfl⟩

theorem compile_logs_spoken (h : compile_logs m b = some r) : ∀ e ∈ m, e.2.out_chans ≠ [] := by
  induction m generalizing b r with
  | nil => exact fun _ hno => absurd hno List.not_mem_nil
  | cons e m ih =>
    obtain ⟨n, cx⟩ := e
    obtain ⟨c, ports, b₁, -, hzero, hrest, -⟩ := compile_logs_cons h
    intro e he
    rcases List.mem_cons.mp he with rfl | he
    · exact List.ne_nil_of_mem (List.mem_of_getElem? hzero)
    · exact ih hrest e he

theorem compile_logs_live (h : compile_logs m b = some r) : ∀ port ∈ r.1, port.live = true := by
  induction m generalizing b r with
  | nil =>
    obtain rfl := Option.some.inj h
    exact fun _ hno => absurd hno List.not_mem_nil
  | cons e m ih =>
    obtain ⟨n, cx⟩ := e
    obtain ⟨c, ports, b₁, -, -, hrest, rfl⟩ := compile_logs_cons h
    intro port hport
    rcases List.mem_cons.mp hport with rfl | hport
    · rfl
    · exact ih hrest port hport

/-- When all other channels have a consumer, the logs read what is left. -/
theorem compile_logs_wires (h : compile_logs m b = some r)
    (hb : Wires short typed b d (P ++ m.flatMap fun e => e.2.unread)) :
    Wires short typed r.2 (d + r.1.length) (r.1.map Port.chan ++ P) := by
  induction m generalizing b d P r with
  | nil =>
    obtain rfl := Option.some.inj h
    exact hb.perm (by simp)
  | cons e m ih =>
    obtain ⟨n, cx⟩ := e
    obtain ⟨c, ports, b₁, hnext, hzero, hrest, rfl⟩ := compile_logs_cons h
    have hunread : cx.unread = [c] := by
      rw [Output.unread, hnext, List.drop_length, List.append_nil]
      cases hout : cx.out_chans with
      | nil => simp [hout] at hzero
      | cons c' out =>
        rw [hout] at hzero
        obtain rfl := Option.some.inj hzero
        rfl
    rw [List.flatMap_cons, hunread] at hb
    have hlog := (hb.perm List.perm_middle).go [⟨c, true⟩] (fun _ => keeps_forward)
      fun _ port hport => List.mem_singleton.mp hport ▸ rfl
    have herror := Wires.copy (b := (b.go [⟨c, true⟩] forward).2) ⟨b.channels, true⟩ hlog fun _ => rfl
    have hall := ih (P := (b.channels + 1) :: P) hrest herror
    rw [Nat.add_assoc, Nat.add_comm 1] at hall
    exact hall.perm List.perm_middle

theorem compile_logs_queries (h : compile_logs m b = some r) :
    r.2.query2qdr = b.query2qdr := by
  induction m generalizing b r with
  | nil =>
    obtain rfl := Option.some.inj h
    rfl
  | cons e m ih =>
    obtain ⟨n, cx⟩ := e
    obtain ⟨c, ports, b₁, -, -, hrest, rfl⟩ := compile_logs_cons h
    have hsame := ih hrest
    exact hsame

end logs

section parse
variable {par : Parse} {N : Network Value}

/-- A call or query that compile() reaches. -/
def Parse.Reached (par : Parse) (r : Rule) : Prop :=
  ∃ n ∈ par.depend_order, n ≠ par.tail ∧ root par n = some r

/-- The parts of compile() as a whole. -/
theorem compile_parse_cases (h : compile_parse w par = some N) :
    ∃ b xdr qdr ins fdr out, compile_order w par par.depend_order {} = some b ∧
      compile_logs b.command2xdr b = some xdr ∧
      compile_logs b.query2qdr (xdr.2.confluing xdr.1.length) = some qdr ∧
      ins = (qdr.2.confluing qdr.1.length).merge (xdr.1 ++ qdr.1) ∧
      fdr = ins.2.go ins.1 (reduce w ins.1.length) ∧ out = fdr.2.go [⟨fdr.1, true⟩] forward ∧
      N = { nodes := out.2.nodes, channels := out.2.channels, last := out.1,
            confluent := (out.2.confluing 2).confluent_count } := by
  unfold compile_parse at h
  obtain ⟨-, hr⟩ := Option.ite_none_left_eq_some.mp h
  obtain ⟨b, horder, hb⟩ := Option.bind_eq_some_iff.mp hr
  obtain ⟨xdr, hxdr, hx⟩ := Option.bind_eq_some_iff.mp hb
  obtain ⟨qdr, hqdr, rfl⟩ := Option.map_eq_some_iff.mp hx
  have hqueries : (xdr.2.confluing xdr.1.length).query2qdr = b.query2qdr := compile_logs_queries hxdr
  rw [hqueries] at hqdr
  exact ⟨b, xdr, qdr, _, _, _, horder, hxdr, hqdr, rfl, rfl, rfl, rfl⟩

/-- No rule that is reached has its broadcast wrapped to no channels: the logs would have
found none. -/
theorem Parse.Reached.spoken {r : Rule} (hr : par.Reached r) {xdr qdr : List Port × Build}
    (horder : compile_order w par par.depend_order {} = some b)
    (hxdr : compile_logs b.command2xdr b = some xdr)
    (hqdr : compile_logs b.query2qdr b' = some qdr) : r.depend_ref_count + 1 ≠ 0 := by
  obtain ⟨n, hn, htail, hroot⟩ := hr
  obtain ⟨-, hall⟩ := compile_order_heard horder par.order_nodup fun _ _ => List.not_mem_nil
  obtain ⟨r', out, hroot', hmem, hlen⟩ := hall n hn htail
  obtain rfl := Option.some.inj (hroot.symm.trans hroot')
  obtain ⟨e, he, heq⟩ := List.mem_map.mp hmem
  obtain ⟨-, rfl⟩ := Prod.mk.inj heq
  intro hzero
  rw [hzero] at hlen
  have hnil : e.2.out_chans = [] := List.length_eq_zero_iff.mp hlen
  rcases List.mem_append.mp he with hcall | hquery
  · exact compile_logs_spoken hxdr e hcall hnil
  · exact compile_logs_spoken hqdr e hquery hnil

theorem compile_parse_wires (short typed : Prop) (h : compile_parse w par = some N)
    (hshort : short → ∀ r, par.Reached r → r.args.length < 256)
    (ht : typed → ∀ r, par.Reached r → r.typed = true) :
    ∃ b, Wires short typed b 0 [N.last] ∧
      N = { nodes := b.nodes, channels := b.channels, last := N.last, confluent := b.confluent_count } := by
  obtain ⟨b, xdr, qdr, ins, fdr, out, horder, hxdr, hqdr, rfl, rfl, rfl, rfl⟩ := compile_parse_cases h
  have hempty : Wires short typed {} 0 (({} : Build).unread) :=
    ⟨rfl, List.Perm.refl _, fun _ hno => absurd hno List.not_mem_nil,
      fun _ hno => absurd hno List.not_mem_nil, rfl⟩
  have hrules := compile_order_wires horder par.order_nodup (fun _ _ => List.not_mem_nil)
    (fun n hn htail r hroot =>
      have hr : par.Reached r := ⟨n, hn, htail, hroot⟩
      ⟨hr.spoken horder hxdr hqdr, fun hs => hshort hs r hr, fun h => ht h r hr⟩) hempty
  rw [Build.unread, Build.outputs, List.flatMap_append] at hrules
  have hcalls := (compile_logs_wires hxdr (hrules.perm List.perm_append_comm)).confluing
  have hqueries := (compile_logs_wires (P := xdr.1.map Port.chan) hqdr hcalls).confluing
  have hin : Wires short typed (qdr.2.confluing qdr.1.length) 0
      ((xdr.1 ++ qdr.1).map Port.chan ++ []) := by
    refine hqueries.perm ?_
    rw [List.append_nil, List.map_append]
    exact List.perm_append_comm
  have hmerged := hin.merge fun _ port hport => by
    rcases List.mem_append.mp hport with hport | hport
    · exact compile_logs_live hxdr port hport
    · exact compile_logs_live hqdr port hport
  have hfdr := hmerged.go _ (fun _ => keeps_reduce w _) fun _ => merge_live _ _
  have hlast := hfdr.go [⟨_, true⟩] (fun _ => keeps_forward) fun _ port hport =>
    List.mem_singleton.mp hport ▸ rfl
  have hdone : Wires short typed (Build.confluing _ 2) 0 _ := Wires.confluing hlast
  exact ⟨_, hdone, rfl⟩

end parse

section network
variable {par : Parse} {N : Network Value}

theorem compile_parse_counted (h : compile_parse w par = some N) :
    N.confluent = N.askers.length := by
  obtain ⟨b, hwires, hN⟩ := compile_parse_wires False False h nofun nofun
  rw [hN]
  exact hwires.askers_counted

theorem compile_parse_wired (h : compile_parse w par = some N) : Wired N := by
  obtain ⟨b, hwires, hN⟩ := compile_parse_wires False False h nofun nofun
  rw [hN]
  exact hwires.wired

theorem compile_parse_standing (h : compile_parse w par = some N)
    (hshort : ∀ r, par.Reached r → r.args.length < 256) : Standing Value.flow N := by
  obtain ⟨b, hwires, hN⟩ := compile_parse_wires True False h (fun _ => hshort) nofun
  rw [hN]
  exact hwires.standing trivial

theorem compile_parse_live (h : compile_parse w par = some N)
    (ht : ∀ r, par.Reached r → r.typed = true) :
    ∀ nd ∈ N.nodes, ∀ port ∈ nd.ins, port.live = true := by
  obtain ⟨b, hwires, hN⟩ := compile_parse_wires False True h nofun fun _ => ht
  rw [hN]
  exact fun nd hnd => (hwires.sound nd hnd).live trivial

end network

end Blobio.Flowd
