import Blobio.FlowHandOvers
import Blobio.FlowReferences

/-! The fan-outs of the calls and queries: compile() hands the channels that the parser has counted to
the projections, one by one. -/
namespace Blobio.Flowd
open LockStep

/-! ### The channels that are left -/

/-- Outputs of commands or of queries, whose channels are left just for the projections to come. -/
structure Stock (command : Bool) (m : List (String × Output)) (refs : List (Bool × String)) : Prop where
  nodup : (m.map Prod.fst).Nodup
  first : ∀ e ∈ m, 0 < e.2.next_chan
  left : ∀ e ∈ m, e.2.next_chan + refs.count (command, e.1) = e.2.out_chans.length

section stock
variable {command : Bool} {m : List (String × Output)} {e : String × Output} {n : String} {refs : List (Bool × String)}

theorem Stock.tail (h : Stock command (e :: m) refs) : Stock command m refs where
  nodup := (List.nodup_cons.mp h.nodup).2
  first := fun e he => h.first e (List.mem_cons_of_mem _ he)
  left := fun e he => h.left e (List.mem_cons_of_mem _ he)

theorem Stock.cons (h : Stock command m refs) (hfresh : e.1 ∉ m.map Prod.fst) (hfirst : 0 < e.2.next_chan)
    (hleft : e.2.next_chan + refs.count (command, e.1) = e.2.out_chans.length) : Stock command (e :: m) refs where
  nodup := List.nodup_cons.mpr ⟨hfresh, h.nodup⟩
  first := List.forall_mem_cons.mpr ⟨hfirst, h.first⟩
  left := List.forall_mem_cons.mpr ⟨hleft, h.left⟩

/-- A projection from another output takes no channel. -/
theorem Stock.other (h : Stock command m ((!command, n) :: refs)) : Stock command m refs where
  nodup := h.nodup
  first := h.first
  left := fun e he => by
    have hleft := h.left e he
    rwa [List.count_cons_of_ne (fun heq => by simp at heq)] at hleft

theorem Stock.next_out (h : Stock command m ((command, n) :: refs)) (hn : n ∈ m.map Prod.fst) :
    ∃ c m', next_out n m = some (c, m') ∧ Stock command m' refs ∧ m'.map Prod.fst = m.map Prod.fst := by
  induction m with
  | nil => cases hn
  | cons e m ih =>
    obtain ⟨k, cx⟩ := e
    have hnodup := List.nodup_cons.mp h.nodup
    by_cases hk : k = n
    · subst hk
      have hleft : cx.next_chan + ((command, k) :: refs).count (command, k) = cx.out_chans.length :=
        h.left _ List.mem_cons_self
      rw [List.count_cons_self] at hleft
      have hlt : cx.next_chan < cx.out_chans.length := by omega
      have hrest : Stock command m refs :=
        { nodup := hnodup.2
          first := h.tail.first
          left := fun e he => by
            have hleft := h.tail.left e he
            have hne : e.1 ≠ k := fun heq => hnodup.1 (List.mem_map.mpr ⟨e, he, heq⟩)
            rwa [List.count_cons_of_ne fun heq => hne (Prod.mk.inj heq).2.symm] at hleft }
      refine ⟨cx.out_chans[cx.next_chan], (k, { cx with next_chan := cx.next_chan + 1 }) :: m, ?_,
        hrest.cons hnodup.1 (Nat.succ_pos _) ?_, rfl⟩
      · rw [Flowd.next_out, if_pos rfl, List.getElem?_eq_getElem hlt]
        rfl
      · change cx.next_chan + 1 + refs.count (command, k) = cx.out_chans.length
        omega
    · obtain ⟨c, m', hnext, hstock, hnames⟩ := ih h.tail (List.mem_of_ne_of_mem (Ne.symm hk) hn)
      have hleft : cx.next_chan + ((command, n) :: refs).count (command, k) = cx.out_chans.length :=
        h.left _ List.mem_cons_self
      rw [List.count_cons_of_ne fun heq => hk (Prod.mk.inj heq).2.symm] at hleft
      refine ⟨c, (k, cx) :: m', ?_, hstock.cons (hnames ▸ hnodup.1) (h.first _ List.mem_cons_self) hleft, ?_⟩
      · rw [Flowd.next_out, if_neg hk, hnext]
        rfl
      · rw [List.map_cons, List.map_cons, hnames]

end stock

/-- The channels that have no reader as yet are left just for the log and for the projections to come. -/
structure Stocked (b : Build) (refs : List (Bool × String)) : Prop where
  commands : Stock true b.command2xdr refs
  queries : Stock false b.query2qdr refs

/-- A command, or a query, that has been compiled. -/
def Build.Has (b : Build) (ref : Bool × String) : Prop :=
  ref.2 ∈ (if ref.1 then b.command2xdr else b.query2qdr).map Prod.fst

structure SameNames (b b' : Build) : Prop where
  commands : b'.command2xdr.map Prod.fst = b.command2xdr.map Prod.fst
  queries : b'.query2qdr.map Prod.fst = b.query2qdr.map Prod.fst

section compile
variable {w : World} {b b' b'' : Build} {rest : List (Bool × String)}

theorem SameNames.trans (h : SameNames b b') (h' : SameNames b' b'') : SameNames b b'' :=
  ⟨h'.commands.trans h.commands, h'.queries.trans h.queries⟩

theorem SameNames.has (h : SameNames b b') (ref : Bool × String) : b'.Has ref ↔ b.Has ref := by
  obtain ⟨command, n⟩ := ref
  cases command with
  | true =>
    change n ∈ b'.command2xdr.map Prod.fst ↔ n ∈ b.command2xdr.map Prod.fst
    rw [h.commands]
  | false =>
    change n ∈ b'.query2qdr.map Prod.fst ↔ n ∈ b.query2qdr.map Prod.fst
    rw [h.queries]

theorem Stocked.command_out {n : String} (h : Stocked b ((true, n) :: rest)) (hhas : b.Has (true, n)) :
    ∃ c m', next_out n b.command2xdr = some (c, m') ∧ Stocked { b with command2xdr := m' } rest ∧
      SameNames b { b with command2xdr := m' } := by
  obtain ⟨c, m', hnext, hstock, hnames⟩ := h.commands.next_out hhas
  exact ⟨c, m', hnext, ⟨hstock, h.queries.other⟩, ⟨hnames, rfl⟩⟩

theorem Stocked.query_out {n : String} (h : Stocked b ((false, n) :: rest)) (hhas : b.Has (false, n)) :
    ∃ c m', next_out n b.query2qdr = some (c, m') ∧ Stocked { b with query2qdr := m' } rest ∧
      SameNames b { b with query2qdr := m' } := by
  obtain ⟨c, m', hnext, hstock, hnames⟩ := h.queries.next_out hhas
  exact ⟨c, m', hnext, ⟨h.commands.other, hstock⟩, ⟨rfl, hnames⟩⟩

/-- Where the outputs have a channel for each projection, a tree compiles. -/
theorem compile_some (a : Ast) (h : Stocked b (references a.uses ++ rest)) (hhas : ∀ ref ∈ references a.uses, b.Has ref) :
    ∃ c b', compile w a b = some (c, b') ∧ Stocked b' rest ∧ SameNames b b' := by
  induction a generalizing b rest with
  | UINT64 | STRING | yy_TRUE | yy_FALSE | PROJECT_BRR =>
    exact ⟨_, _, rfl, ⟨h.commands, h.queries⟩, ⟨rfl, rfl⟩⟩
  | PROJECT_XDR_EXIT_STATUS s =>
    obtain ⟨c, m', hnext, hstock, hsame⟩ := h.command_out (hhas _ List.mem_cons_self)
    exact ⟨_, _, Option.map_eq_some_iff.mpr ⟨(c, m'), hnext, rfl⟩, ⟨hstock.commands, hstock.queries⟩,
      ⟨hsame.commands, hsame.queries⟩⟩
  | PROJECT_SQL_QUERY_ROW_BOOL s _ | PROJECT_QDR_ROWS_AFFECTED s | PROJECT_QDR_SQLSTATE s =>
    obtain ⟨c, m', hnext, hstock, hsame⟩ := h.query_out (hhas _ List.mem_cons_self)
    exact ⟨_, _, Option.map_eq_some_iff.mpr ⟨(c, m'), hnext, rfl⟩, ⟨hstock.commands, hstock.queries⟩,
      ⟨hsame.commands, hsame.queries⟩⟩
  | yy_OR left right ihl ihr | yy_AND left right ihl ihr =>
    simp only [Ast.uses, references_append, List.append_assoc, List.mem_append] at h hhas
    obtain ⟨c, b₁, hleft, hstock, hsame⟩ := ihl h fun ref href => hhas ref (.inl href)
    obtain ⟨d, b₂, hright, hstock', hsame'⟩ := ihr hstock fun ref href => (hsame.has ref).mpr (hhas ref (.inr href))
    have hboth := hsame.trans hsame'
    exact ⟨_, _, Option.bind_eq_some_iff.mpr ⟨(c, b₁), hleft, Option.map_eq_some_iff.mpr ⟨(d, b₂), hright, rfl⟩⟩,
      ⟨hstock'.commands, hstock'.queries⟩, ⟨hboth.commands, hboth.queries⟩⟩
  | PROJECT_SYNC_MAP_LOS_TRUE_LOADED n left ih =>
    have hnone : references [.sync_map n] = [] := rfl
    simp only [Ast.uses, references_append, hnone, List.append_nil] at h hhas
    obtain ⟨c, b₁, hleft, hstock, hsame⟩ := ih h hhas
    exact ⟨_, _, Option.map_eq_some_iff.mpr ⟨(c, b₁), hleft, rfl⟩, ⟨hstock.commands, hstock.queries⟩,
      ⟨hsame.commands, hsame.queries⟩⟩
  | CAST_UINT64 left ih | CAST_STRING left ih | EQ_UINT64 _ left ih | NEQ_UINT64 _ left ih | EQ_STRING _ left ih
  | NEQ_STRING _ left ih | MATCH_STRING _ left ih | NO_MATCH_STRING _ left ih | EQ_BOOL _ left ih
  | NEQ_BOOL _ left ih =>
    obtain ⟨c, b₁, hleft, hstock, hsame⟩ := ih h hhas
    exact ⟨_, _, Option.map_eq_some_iff.mpr ⟨(c, b₁), hleft, rfl⟩, ⟨hstock.commands, hstock.queries⟩,
      ⟨hsame.commands, hsame.queries⟩⟩

theorem compile_all_some {as : List Ast} (h : Stocked b (references (as.flatMap Ast.uses) ++ rest))
    (hhas : ∀ ref ∈ references (as.flatMap Ast.uses), b.Has ref) :
    ∃ ports b', compile_all w as b = some (ports, b') ∧ Stocked b' rest ∧ SameNames b b' := by
  induction as generalizing b with
  | nil => exact ⟨_, _, rfl, h, ⟨rfl, rfl⟩⟩
  | cons a as ih =>
    simp only [List.flatMap_cons, references_append, List.append_assoc, List.mem_append] at h hhas
    obtain ⟨c, b₁, ha, hstock, hsame⟩ := compile_some a h fun ref href => hhas ref (.inl href)
    obtain ⟨ports, b₂, has, hstock', hsame'⟩ := ih hstock fun ref href => (hsame.has ref).mpr (hhas ref (.inr href))
    exact ⟨_, _, Option.bind_eq_some_iff.mpr ⟨(c, b₁), ha, Option.map_eq_some_iff.mpr ⟨(ports, b₂), has, rfl⟩⟩,
      hstock', hsame.trans hsame'⟩

theorem compile_argv_some {args : List Ast} (h : Stocked b (references (args.flatMap Ast.uses) ++ rest))
    (hhas : ∀ ref ∈ references (args.flatMap Ast.uses), b.Has ref) :
    ∃ c b', compile_argv w args b = some (c, b') ∧ Stocked b' rest ∧ SameNames b b' := by
  obtain ⟨ports, b₁, hall, hstock, hsame⟩ := compile_all_some h hhas
  obtain ⟨hcommands, hqueries⟩ := vector_maps b₁ ports
  refine ⟨_, _, Option.map_eq_some_iff.mpr ⟨(ports, b₁), hall, rfl⟩, ⟨?_, ?_⟩, ⟨?_, ?_⟩⟩
  · exact hcommands.symm ▸ hstock.commands
  · exact hqueries.symm ▸ hstock.queries
  · exact (congrArg (List.map Prod.fst) hcommands).trans hsame.commands
  · exact (congrArg (List.map Prod.fst) hqueries).trans hsame.queries

/-- Where the fan-out is as wide as the projections to come and the log, a rule compiles. -/
theorem compile_rule_some {r : Rule} (h : Stocked b (r.references ++ rest)) (hhas : ∀ ref ∈ r.references, b.Has ref)
    (hfresh : ¬ b.Has (r.is_call, r.name))
    (hcount : (r.depend_ref_count + 1).toNat = rest.count (r.is_call, r.name) + 1) :
    ∃ b', compile_rule w r b = some b' ∧ Stocked b' rest ∧
      ∀ ref, b'.Has ref ↔ ref = (r.is_call, r.name) ∨ b.Has ref := by
  simp only [Rule.references, Rule.uses, references_append, List.append_assoc, List.mem_append] at h hhas
  obtain ⟨argv, b₁, hargv, hstock, hsame⟩ := compile_argv_some (w := w) h fun ref href => hhas ref (.inl href)
  obtain ⟨when, b₂, hwhen, hstock', hsame'⟩ :=
    compile_some (w := w) r.when_clause hstock fun ref href => (hsame.has ref).mpr (hhas ref (.inr href))
  have hboth := hsame.trans hsame'
  rw [← hboth.has] at hfresh
  let out := List.range' (b₂.channels + 1) (r.depend_ref_count + 1).toNat
  have hlength : 1 + rest.count (r.is_call, r.name) = out.length := by
    rw [List.length_range', hcount, Nat.add_comm]
  have hmaps : (b₂.rule w r argv when).command2xdr = (if r.is_call then (r.name, ⟨out, 1⟩) :: b₂.command2xdr else b₂.command2xdr) ∧
      (b₂.rule w r argv when).query2qdr = if r.is_call then b₂.query2qdr else (r.name, ⟨out, 1⟩) :: b₂.query2qdr := by
    unfold Build.rule Build.confluing Build.broadcast Rule.is_call
    unfold Build.Has Rule.is_call at hfresh
    cases htok : r.tok with
    | CALLX0 | CALL =>
      simp only [htok] at hfresh ⊢
      exact ⟨set_output_fresh _ hfresh, rfl⟩
    | QUERY_ROW | QUERY_EXEC | QUERY_EXEC_TXN =>
      simp only [htok] at hfresh ⊢
      exact ⟨rfl, set_output_fresh _ hfresh⟩
  obtain ⟨hcommands, hqueries⟩ := hmaps
  refine ⟨_, Option.bind_eq_some_iff.mpr ⟨_, hargv, Option.map_eq_some_iff.mpr ⟨_, hwhen, rfl⟩⟩, ?_, fun ref => ?_⟩
  · cases hcall : r.is_call with
    | true =>
      rw [hcall] at hfresh hlength
      simp only [hcall, if_true] at hcommands hqueries
      refine ⟨hcommands ▸ hstock'.commands.cons hfresh Nat.one_pos hlength, hqueries ▸ hstock'.queries⟩
    | false =>
      rw [hcall] at hfresh hlength
      simp only [hcall, Bool.false_eq_true, if_false] at hcommands hqueries
      refine ⟨hcommands ▸ hstock'.commands, hqueries ▸ hstock'.queries.cons hfresh Nat.one_pos hlength⟩
  · rw [← hboth.has]
    obtain ⟨command, n⟩ := ref
    unfold Build.Has
    cases hcall : r.is_call with
    | true =>
      simp only [hcall, if_true] at hcommands hqueries
      cases command <;> simp [hcommands, hqueries]
    | false =>
      simp only [hcall, Bool.false_eq_true, if_false] at hcommands hqueries
      cases command <;> simp [hcommands, hqueries]

end compile

/-! ### The rules in their order -/

/-- The calls and queries that some names stand for. -/
def Parse.rules_of (par : Parse) (names : List String) : List Rule :=
  (names.filter (· ≠ par.tail)).filterMap (root par)

section order
open Blobio.Flowd.Grammar
variable {w : World} {par : Parse} {pre post : List String} {n : String} {r : Rule}

theorem rules_of_append (par : Parse) (xs ys : List String) : par.rules_of (xs ++ ys) = par.rules_of xs ++ par.rules_of ys := by
  rw [Parse.rules_of, List.filter_append, List.filterMap_append]
  rfl

theorem root_mem (h : root par n = some r) : r ∈ par.rules := by
  rcases Option.or_eq_some_iff.mp h with hcall | ⟨-, hquery⟩
  · exact List.mem_append_left _ (List.mem_of_find?_eq_some hcall)
  · exact List.mem_append_right _ (List.mem_of_find?_eq_some hquery)

theorem mem_rules_of : r ∈ par.rules_of post ↔ ∃ n ∈ post, n ≠ par.tail ∧ root par n = some r := by
  rw [Parse.rules_of, List.mem_filterMap]
  refine exists_congr fun n => ?_
  rw [List.mem_filter, decide_eq_true_eq, and_assoc]

theorem Grammar.Parsed.root_name (h : Parsed par) (hr : r ∈ par.rules) : root par r.name = some r := by
  have hfind : ∀ {l : List Rule}, (∀ r' ∈ l, r' ∈ par.rules) → ∀ {r'}, l.find? (fun r' => r'.name = r.name) = some r' →
      r' = r := fun hsub r' hfound => by
    refine List.inj_on_of_nodup_map h.names (hsub r' (List.mem_of_find?_eq_some hfound)) hr ?_
    simpa using List.find?_some hfound
  have hcalls := @hfind par.call2ast fun r' hr' => List.mem_append_left _ hr'
  have hqueries := @hfind par.query2ast fun r' hr' => List.mem_append_right _ hr'
  unfold root
  cases hcall : par.call2ast.find? (fun r' => r'.name = r.name) with
  | some r' => rw [Option.some_or, hcalls hcall]
  | none =>
    rw [Option.none_or]
    cases hquery : par.query2ast.find? (fun r' => r'.name = r.name) with
    | some r' => rw [hqueries hquery]
    | none =>
      rcases List.mem_append.mp hr with hr | hr
      · exact absurd (decide_eq_true rfl) (List.find?_eq_none.mp hcall r hr)
      · exact absurd (decide_eq_true rfl) (List.find?_eq_none.mp hquery r hr)

theorem Grammar.Parsed.mem_rules_of (h : Parsed par) {names : List String} (hr : r ∈ par.rules) :
    r ∈ par.rules_of names ↔ r.name ∈ names := by
  rw [Flowd.mem_rules_of]
  constructor
  · rintro ⟨n, hn, -, hroot⟩
    exact Flowd.root_name hroot ▸ hn
  · exact fun hn => ⟨r.name, hn, h.apart r hr, h.root_name hr⟩

theorem rules_of_nodup (par : Parse) {names : List String} (hnodup : names.Nodup) : (par.rules_of names).Nodup :=
  (hnodup.filter _).filterMap fun _ _ _ hn hm => (root_name hn).symm.trans (root_name hm)

/-- The rules that are not in the order project from nothing. -/
theorem Grammar.Parsed.references_perm (h : Parsed par) :
    par.references.Perm ((par.rules_of par.depend_order).flatMap Rule.references) := by
  let ordered := par.rules.filter fun r => r.name ∈ par.depend_order
  have hnone : ∀ r ∈ par.rules, r.name ∉ par.depend_order → r.references = [] := fun r hr hno => by
    by_contra hne
    obtain ⟨ref, href⟩ := List.exists_mem_of_ne_nil _ hne
    refine hno ((h.ordered r hr).mpr (.inl ?_))
    exact List.ne_nil_of_mem (depends_on_iff.mpr (.inr (List.mem_map_of_mem href)))
  have hordered : par.references = ordered.flatMap Rule.references := by
    have hall : ∀ l : List Rule, (∀ r ∈ l, r ∈ par.rules) → l.flatMap Rule.references =
        (l.filter fun r => r.name ∈ par.depend_order).flatMap Rule.references := by
      intro l hl
      induction l with
      | nil => rfl
      | cons r l ih =>
        rw [List.forall_mem_cons] at hl
        rw [List.filter_cons]
        split_ifs with hr
        · rw [List.flatMap_cons, List.flatMap_cons, ih hl.2]
        · rw [List.flatMap_cons, hnone r hl.1 (by simpa using hr), List.nil_append, ih hl.2]
    exact hall par.rules fun _ hr => hr
  have hperm : ordered.Perm (par.rules_of par.depend_order) := by
    refine (List.perm_ext_iff_of_nodup (h.names.of_map.filter _) (rules_of_nodup par par.order_nodup)).mpr fun r => ?_
    rw [List.mem_filter, decide_eq_true_eq]
    constructor
    · exact fun ⟨hr, hn⟩ => (h.mem_rules_of hr).mpr hn
    · intro hr
      obtain ⟨n, hn, -, hroot⟩ := Flowd.mem_rules_of.mp hr
      exact ⟨root_mem hroot, Flowd.root_name hroot ▸ hn⟩
  rw [hordered]
  exact hperm.flatMap_right _

/-- The projections from a rule are all behind it. -/
theorem Grammar.Parsed.count_behind (h : Parsed par) (heq : par.depend_order = pre ++ r.name :: post) (hr : r ∈ par.rules) :
    ((par.rules_of post).flatMap Rule.references).count (r.is_call, r.name) =
      (par.references.map Prod.snd).count r.name := by
  have hnodup := heq ▸ par.order_nodup
  have hnot : r.name ∉ pre := fun hmem => (List.disjoint_of_nodup_append hnodup) hmem List.mem_cons_self
  -- what is in front of the rule, and the rule itself, projects from what is in front
  have hfront : ∀ r' ∈ par.rules_of (pre ++ [r.name]), ∀ ref ∈ r'.references, ref.2 ≠ r.name := by
    intro r' hr' ref href hsame
    obtain ⟨n, hn, -, hroot⟩ := Flowd.mem_rules_of.mp hr'
    have hmem := root_mem hroot
    have hname := Flowd.root_name hroot
    rcases List.mem_append.mp hn with hn | hn
    · obtain ⟨xs, ys, hsplit⟩ := List.append_of_mem hn
      have hahead := h.ahead xs (ys ++ r.name :: post) r' (by rw [heq, hsplit, hname]; simp) hmem ref href
      rw [hsame] at hahead
      exact hnot (hsplit ▸ List.mem_append_left _ hahead)
    · obtain rfl := List.mem_singleton.mp hn
      have hsame' : r' = r := List.inj_on_of_nodup_map h.names hmem hr hname
      exact hnot (hsame ▸ h.ahead pre post r heq hr ref (hsame' ▸ href))
  have hcount : ∀ l : List (Bool × String), (∀ ref ∈ l, ref ∈ par.references) →
      (l.map Prod.snd).count r.name = l.count (r.is_call, r.name) := by
    intro l hl
    rw [List.count, List.countP_map, List.count]
    refine List.countP_congr fun ref href => ?_
    have hkind := (h.known ref (hl ref href)).2 r hr
    obtain ⟨command, n⟩ := ref
    simp only [Function.comp_apply, beq_iff_eq, Prod.mk.injEq]
    exact ⟨fun hn => ⟨(hkind hn.symm).symm, hn⟩, And.right⟩
  rw [(h.references_perm.map Prod.snd).count_eq, hcount _ fun ref href => h.references_perm.mem_iff.mpr href, heq,
    List.append_cons, rules_of_append, List.flatMap_append, List.count_append]
  have hzero : ((par.rules_of (pre ++ [r.name])).flatMap Rule.references).count (r.is_call, r.name) = 0 := by
    refine List.count_eq_zero.mpr fun hmem => ?_
    obtain ⟨r', hr', href⟩ := List.mem_flatMap.mp hmem
    exact hfront r' hr' _ href rfl
  rw [hzero, Nat.zero_add]

theorem compile_order_append (w : World) (par : Parse) (xs ys : List String) (b : Build) :
    compile_order w par (xs ++ ys) b = (compile_order w par xs b).bind (compile_order w par ys) := by
  induction xs generalizing b with
  | nil => rfl
  | cons n xs ih =>
    rw [List.cons_append, compile_order, compile_order]
    split_ifs
    · exact ih b
    · cases root par n with
      | none => rfl
      | some r =>
        rw [Option.bind_some, Option.bind_some]
        cases compile_rule w r b with
        | none => rfl
        | some b' => exact ih b'

theorem succ_byte {c : UInt8} (hc : c ≠ 255) : (c + 1).toNat = c.toNat + 1 := by
  have hne : c.toNat ≠ 255 := fun hbyte => hc (UInt8.toNat_inj.mp hbyte)
  have hlt := c.toNat_lt
  rw [UInt8.toNat_add]
  change (c.toNat + 1) % 256 = _
  omega

/-- The next rule of the order compiles: what it projects from stands in front of it. -/
theorem compile_next (h : Parsed par) (hbyte : ∀ r ∈ par.rules, r.depend_ref_count ≠ 255)
    (heq : par.depend_order = pre ++ r.name :: post) (hr : r ∈ par.rules) {b : Build}
    (hb : compile_order w par pre {} = some b)
    (hstock : Stocked b (r.references ++ (par.rules_of post).flatMap Rule.references))
    (hhas : ∀ ref, b.Has ref ↔ ∃ r ∈ par.rules_of pre, ref = (r.is_call, r.name)) :
    ∃ b', compile_rule w r b = some b' ∧ Stocked b' ((par.rules_of post).flatMap Rule.references) ∧
      ∀ ref, b'.Has ref ↔ ref = (r.is_call, r.name) ∨ b.Has ref := by
  have hnodup := heq ▸ par.order_nodup
  refine compile_rule_some hstock (fun ref href => ?_) (fun hmem => ?_) ?_
  · have hahead := h.ahead pre post r heq hr ref href
    have hknown := h.known ref (List.mem_flatMap.mpr ⟨r, hr, href⟩)
    obtain ⟨xs, ys, hsplit⟩ := List.append_of_mem hahead
    rw [hsplit, compile_order_append] at hb
    obtain ⟨b₀, -, hrest⟩ := Option.bind_eq_some_iff.mp hb
    obtain ⟨r', -, hroot', -, -⟩ := compile_order_cons hrest hknown.1
    have hkind := hknown.2 r' (root_mem hroot') (root_name hroot')
    exact (hhas ref).mpr ⟨r', mem_rules_of.mpr ⟨ref.2, hahead, hknown.1, hroot'⟩,
      Prod.ext hkind.symm (root_name hroot').symm⟩
  · obtain ⟨r', hr', heq'⟩ := (hhas _).mp hmem
    obtain ⟨m, hm, -, hroot'⟩ := mem_rules_of.mp hr'
    have hsame : m = r.name := (root_name hroot').symm.trans (Prod.mk.inj heq').2.symm
    exact (List.disjoint_of_nodup_append hnodup) hm (hsame ▸ List.mem_cons_self)
  · rw [succ_byte (hbyte r hr), h.counted r hr, h.count_behind heq hr]

theorem rules_of_singleton (hn : n ≠ par.tail) (hroot : root par n = some r) : par.rules_of [n] = [r] := by
  rw [Parse.rules_of, List.filter_cons_of_pos (by simpa using hn), List.filter_nil,
    List.filterMap_cons_some hroot, List.filterMap_nil]

/-- Behind a part of the order, just the channels for the projections in the rest are left. -/
theorem compile_order_stocked (h : Parsed par) (hbyte : ∀ r ∈ par.rules, r.depend_ref_count ≠ 255)
    (heq : par.depend_order = pre ++ post) {b : Build} (hb : compile_order w par pre {} = some b) :
    Stocked b ((par.rules_of post).flatMap Rule.references) ∧
      ∀ ref, b.Has ref ↔ ∃ r ∈ par.rules_of pre, ref = (r.is_call, r.name) := by
  induction pre using List.reverseRecOn generalizing post b with
  | nil =>
    obtain rfl := Option.some.inj hb
    refine ⟨⟨⟨List.nodup_nil, ?_, ?_⟩, ⟨List.nodup_nil, ?_, ?_⟩⟩, fun ref => ?_⟩
    · exact fun _ hno => absurd hno List.not_mem_nil
    · exact fun _ hno => absurd hno List.not_mem_nil
    · exact fun _ hno => absurd hno List.not_mem_nil
    · exact fun _ hno => absurd hno List.not_mem_nil
    · refine iff_of_false (fun hmem => ?_) fun ⟨r, hr, _⟩ => absurd hr List.not_mem_nil
      unfold Build.Has at hmem
      split_ifs at hmem <;> exact absurd hmem List.not_mem_nil
  | append_singleton pre n ih =>
    rw [List.append_assoc, List.singleton_append] at heq
    rw [compile_order_append] at hb
    obtain ⟨b₁, hpre, hlast⟩ := Option.bind_eq_some_iff.mp hb
    obtain ⟨hstock, hhas⟩ := ih heq hpre
    rw [← List.singleton_append, rules_of_append] at hstock
    rw [rules_of_append]
    by_cases hn : n = par.tail
    · subst hn
      obtain rfl := Option.some.inj (compile_order_tail hlast)
      have hnone : par.rules_of [par.tail] = [] := by simp [Parse.rules_of]
      rw [hnone, List.nil_append] at hstock
      rw [hnone, List.append_nil]
      exact ⟨hstock, hhas⟩
    · obtain ⟨r, b', hroot, hrule, hend⟩ := compile_order_cons hlast hn
      obtain rfl := Option.some.inj hend
      rw [rules_of_singleton hn hroot, List.flatMap_append, List.flatMap_singleton] at hstock
      obtain rfl := root_name hroot
      obtain ⟨b'', hrule', hstock', hhas'⟩ := compile_next h hbyte heq (root_mem hroot) hpre hstock hhas
      obtain rfl := Option.some.inj (hrule.symm.trans hrule')
      refine ⟨hstock', fun ref => ?_⟩
      rw [hhas', hhas, rules_of_singleton hn hroot]
      constructor
      · rintro (rfl | ⟨r', hr', rfl⟩)
        · exact ⟨r, List.mem_append_right _ (List.mem_singleton_self r), rfl⟩
        · exact ⟨r', List.mem_append_left _ hr', rfl⟩
      · rintro ⟨r', hr', rfl⟩
        rcases List.mem_append.mp hr' with hr' | hr'
        · exact .inr ⟨r', hr', rfl⟩
        · obtain rfl := List.mem_singleton.mp hr'
          exact .inl rfl

end order

/-! ### The fan-outs -/

/-- The projections from a call or query in the whole configuration. -/
def Parse.projections (par : Parse) (n : String) : ℕ := (par.references.map Prod.snd).count n

/-- The fan-out of every rule is asked for a channel for each projection and one for the log; no
projection takes a channel that is not there, or one that is another goroutine's; and the logs find all
channels consumed. -/
structure FanOutsRight (w : World) (par : Parse) : Prop where
  asked : ∀ r ∈ par.rules, (r.depend_ref_count + 1).toNat = par.projections r.name + 1
  indexed : ∀ pre n post, par.depend_order = pre ++ n :: post → n ≠ par.tail →
    ∀ b, compile_order w par pre {} = some b → ∀ r, root par n = some r → ∃ b', compile_rule w r b = some b'
  own : ∀ b, compile_order w par par.depend_order {} = some b → b.read.Nodup
  consumed : ∀ b, compile_order w par par.depend_order {} = some b →
    (∀ e ∈ b.outputs, e.2.next_chan = e.2.out_chans.length) ∧ ∃ xdr qdr, compile_logs b.command2xdr b = some xdr ∧
      compile_logs b.query2qdr (xdr.2.confluing xdr.1.length) = some qdr

section right
open Blobio.Flowd.Grammar
variable {w : World} {par : Parse}

theorem Stock.consumed {command : Bool} {m : List (String × Output)} (h : Stock command m []) :
    ∀ e ∈ m, 0 < e.2.next_chan ∧ e.2.next_chan = e.2.out_chans.length :=
  fun e he => ⟨h.first e he, h.left e he⟩

theorem Grammar.Parsed.fan_outs_right (h : Parsed par) (hbyte : ∀ r ∈ par.rules, r.depend_ref_count ≠ 255) (w : World) :
    FanOutsRight w par where
  asked := fun r hr => by rw [succ_byte (hbyte r hr), h.counted r hr, Parse.projections]
  indexed := fun pre n post heq hn b hb r hroot => by
    obtain ⟨hstock, hhas⟩ := compile_order_stocked h hbyte heq hb
    rw [← List.singleton_append, rules_of_append, rules_of_singleton hn hroot, List.flatMap_append,
      List.flatMap_singleton] at hstock
    obtain rfl := Flowd.root_name hroot
    obtain ⟨b', hrule, -⟩ := compile_next (w := w) h hbyte heq (root_mem hroot) hb hstock hhas
    exact ⟨b', hrule⟩
  own := fun b hb => by
    have hempty : Wires False False {} 0 [] := ⟨rfl, List.Perm.refl _, fun _ hno => absurd hno List.not_mem_nil,
      fun _ hno => absurd hno List.not_mem_nil, rfl⟩
    have hwires := compile_order_wires hb par.order_nodup (fun _ _ => List.not_mem_nil) (fun n _ _ r hroot => by
      refine ⟨fun hzero => ?_, False.elim, False.elim⟩
      have hsucc := succ_byte (hbyte r (root_mem hroot))
      rw [hzero] at hsucc
      cases hsucc) hempty
    exact (hwires.reading.nodup_iff.mpr List.nodup_range).of_append_left
  consumed := fun b hb => by
    obtain ⟨hstock, -⟩ := compile_order_stocked h hbyte (List.append_nil _).symm hb
    have hnone : (par.rules_of []).flatMap Rule.references = [] := rfl
    rw [hnone] at hstock
    obtain ⟨xdr, hxdr⟩ := compile_logs_some b hstock.commands.consumed
    obtain ⟨qdr, hqdr⟩ := compile_logs_some (xdr.2.confluing xdr.1.length) hstock.queries.consumed
    refine ⟨fun e he => ?_, xdr, qdr, hxdr, hqdr⟩
    rcases List.mem_append.mp he with he | he
    · exact (hstock.commands.consumed e he).2
    · exact (hstock.queries.consumed e he).2

/-- The parser takes as many references as a byte can count, and compile() asks for one channel more:
the fan-outs are right just when no call or query has 255 projections. -/
theorem fan_outs_right_iff {regexp_Compile : String → Bool} {o : Tsort.MapOrder Text} {keys : KeyOrder}
    {conf : List Statement} (h : config_parse regexp_Compile o keys conf = .ok par) (w : World) :
    FanOutsRight w par ↔ ∀ r ∈ par.rules, par.projections r.name ≠ 255 := by
  have hparsed := config_parse_parsed h
  constructor
  · intro hright r hr hfull
    have hasked := hright.asked r hr
    have hbyte : r.depend_ref_count = 255 := UInt8.toNat_inj.mp ((hparsed.counted r hr).trans hfull)
    rw [hbyte, hfull] at hasked
    cases hasked
  · intro hno
    refine hparsed.fan_outs_right (fun r hr hbyte => hno r hr ?_) w
    rw [Parse.projections, ← hparsed.counted r hr, hbyte]
    rfl

end right

/-! ### Many references -/

namespace Grammar

theorem arg_call_project {l : yyLexState} {s : Subject} {c : Target} {ts : List Target} (hl : l.target = c :: ts)
    (hts : ∀ t ∈ ts, t.name ≠ c.name) (hcommand : c.object.is_command = true) (hs : s.name ≠ c.name)
    (hroom : c.depend_ref_count ≠ 255) : arg l s (.call_project c.name) = .ok (.PROJECT_XDR_EXIT_STATUS c.name,
      { l with target := { c with depend_ref_count := c.depend_ref_count + 1 } :: ts
               depends := l.depends ++ [(s.name, c.name)] }) := by
  have hlookup : l.lookup c.name = some c := by
    rw [yyLexState.lookup, hl, List.find?_cons_of_pos (by simp)]
  have hcmd : l.command c.name = .ok c := by
    rw [yyLexState.command, hlookup]
    exact if_pos hcommand
  have htarget : l.target.map (Target.refer c.name) = { c with depend_ref_count := c.depend_ref_count + 1 } :: ts := by
    rw [hl, List.map_cons, Target.refer, if_pos rfl]
    refine congrArg _ ((List.map_congr_left fun t ht => ?_).trans (List.map_id ts))
    exact if_neg (hts t ht)
  rw [arg, hcmd]
  change (refer l s _ c >>= _) = _
  rw [refer, if_neg hroom, if_neg hs, htarget]
  rfl

theorem arg_list_calls {l : yyLexState} {s : Subject} {c : Target} {ts : List Target} {k : ℕ} (hl : l.target = c :: ts)
    (hts : ∀ t ∈ ts, t.name ≠ c.name) (hcommand : c.object.is_command = true) (hs : s.name ≠ c.name)
    (hroom : c.depend_ref_count.toNat + k < 256) : arg_list l s (List.replicate k (.call_project c.name)) =
      .ok (List.replicate k (.PROJECT_XDR_EXIT_STATUS c.name),
        { l with target := { c with depend_ref_count := c.depend_ref_count + UInt8.ofNat k } :: ts
                 depends := l.depends ++ List.replicate k (s.name, c.name) }) := by
  induction k generalizing l c with
  | zero =>
    have hzero : c.depend_ref_count + UInt8.ofNat 0 = c.depend_ref_count := UInt8.add_zero _
    simp only [List.replicate_zero, List.append_nil, hzero, ← hl]
    rfl
  | succ k ih =>
    have hne : c.depend_ref_count ≠ 255 := fun hfull => by
      rw [hfull] at hroom
      exact absurd hroom (by change ¬ 255 + (k + 1) < 256; omega)
    have hsucc : (c.depend_ref_count + 1).toNat = c.depend_ref_count.toNat + 1 := by
      rw [UInt8.toNat_add]
      change (_ + 1) % 256 = _
      omega
    have hrest := @ih { l with target := { c with depend_ref_count := c.depend_ref_count + 1 } :: ts
                               depends := l.depends ++ [(s.name, c.name)] }
      { c with depend_ref_count := c.depend_ref_count + 1 } rfl hts hcommand hs (by rw [hsucc]; omega)
    have hcount : c.depend_ref_count + UInt8.ofNat (k + 1) = c.depend_ref_count + 1 + UInt8.ofNat k := by
      rw [Nat.add_comm, UInt8.ofNat_add, UInt8.add_assoc]
      rfl
    rw [List.replicate_succ, arg_list, arg_call_project hl hts hcommand hs hne]
    change (arg_list _ s _ >>= _) = _
    rw [hrest, hcount]
    simp only [List.append_assoc, List.singleton_append, ← List.replicate_succ]
    rfl

/-- A command that another one projects from so many times. -/
def references_conf (k : ℕ) : List Statement :=
  [.tail "t", .command "c" "/c", .command "d" "/d", .call "c" [] none,
    .call "d" (List.replicate k (.call_project "c")) none]

def called_lex : yyLexState where
  tail := some "t"
  target := [⟨"c", .command "/c", 0, true⟩, ⟨"d", .command "/d", 0, false⟩]
  ast_root := [⟨.CALL, "c", [], .yy_TRUE⟩]

def references_lex (k : ℕ) : yyLexState where
  tail := some "t"
  target := [⟨"c", .command "/c", UInt8.ofNat k, true⟩, ⟨"d", .command "/d", 0, true⟩]
  depends := List.replicate k ("d", "c")
  ast_root := [⟨.CALL, "c", [], .yy_TRUE⟩,
    ⟨.CALL, "d", List.replicate k (.CAST_STRING (.PROJECT_XDR_EXIT_STATUS "c")), .yy_TRUE⟩]

theorem called_conf (regexp_Compile : String → Bool) (st : Statement) : statement_list regexp_Compile {}
    [.tail "t", .command "c" "/c", .command "d" "/d", .call "c" [] none, st] =
      statement_list regexp_Compile called_lex [st] := rfl

theorem statement_list_references (regexp_Compile : String → Bool) {k : ℕ} (hk : k < 256) :
    statement_list regexp_Compile {} (references_conf k) = .ok (references_lex k) := by
  have hargs := @arg_list_calls called_lex ⟨"call", "d"⟩ ⟨"c", .command "/c", 0, true⟩
    [⟨"d", .command "/d", 0, false⟩] k rfl (by decide) rfl (by decide) (by simpa using hk)
  rw [references_conf, called_conf]
  change (fire regexp_Compile called_lex ⟨"call", "d"⟩ _ ⟨"d", .command "/d", 0, false⟩
    (if _ ∧ "/d" = "true" then _ else _) _ none >>= _) = _
  rw [if_neg fun h => absurd h.2 (by decide), fire, hargs]
  have hzero : (0 : UInt8) + UInt8.ofNat k = UInt8.ofNat k := UInt8.zero_add _
  have hcast : (List.replicate k (Ast.PROJECT_XDR_EXIT_STATUS "c")).map cast_argument =
      List.replicate k (.CAST_STRING (.PROJECT_XDR_EXIT_STATUS "c")) := List.map_replicate
  change Except.ok { references_lex k with
    target := [⟨"c", .command "/c", 0 + UInt8.ofNat k, true⟩, ⟨"d", .command "/d", 0, true⟩]
    ast_root := [⟨.CALL, "c", [], .yy_TRUE⟩,
      ⟨.CALL, "d", (List.replicate k (Ast.PROJECT_XDR_EXIT_STATUS "c")).map cast_argument, .yy_TRUE⟩] } = _
  rw [hzero, hcast]
  rfl

/-- The parser accepts up to 255 references. -/
theorem references_accepted (regexp_Compile : String → Bool) (o : Tsort.MapOrder Text) (keys : KeyOrder) {k : ℕ}
    (hk : k < 256) : ∃ par, config_parse regexp_Compile o keys (references_conf k) = .ok par ∧
      par.rules = [⟨.CALL, "c", UInt8.ofNat k, [], .yy_TRUE⟩,
        ⟨.CALL, "d", 0, List.replicate k (.CAST_STRING (.PROJECT_XDR_EXIT_STATUS "c")), .yy_TRUE⟩] := by
  have hroots : (keys.keys (root_depend (references_lex k))).length ≤ 2 := by
    rw [(keys.perm _).length_eq]
    refine (List.dedup_sublist _).length_le.trans ?_
    rw [List.length_map]
    exact List.length_filter_le _ _
  have hlen : (depends keys (references_lex k)).length < 2 ^ 63 := by
    have hrep : (references_lex k).depends.length = k := List.length_replicate
    rw [depends, List.length_append, List.length_map, hrep]
    omega
  have harcs : ∀ e ∈ depends keys (references_lex k), e = ("d", "c") ∨ e.1 = e.2 := by
    intro e he
    rcases List.mem_append.mp he with he | he
    · exact .inl (List.eq_of_mem_replicate he)
    · obtain ⟨n, -, rfl⟩ := List.mem_map.mp he
      exact .inr rfl
  obtain ⟨par, hpar, -, hrules⟩ := config_parse_flat o (statement_list_references regexp_Compile hk) rfl hlen
    (by decide) harcs
  exact ⟨par, hpar, hrules⟩

end Grammar

open Blobio.Flowd.Grammar

/-- With two references, all channels are asked for and consumed. -/
theorem fan_outs_right_iff_two : ∃ (o : Tsort.MapOrder Text) (keys : KeyOrder) (par : Parse),
    config_parse (fun _ => true) o keys (references_conf 2) = .ok par ∧ FanOutsRight plain_world par := by
  obtain ⟨o⟩ : Nonempty (Tsort.MapOrder Text) := inferInstance
  obtain ⟨par, hpar, hrules⟩ := references_accepted (fun _ => true) o ⟨id, fun _ => .refl _⟩ (show 2 < 256 by decide)
  refine ⟨o, ⟨id, fun _ => .refl _⟩, par, hpar, (fan_outs_right_iff hpar plain_world).mpr fun r hr => ?_⟩
  rw [Parse.projections, ← (config_parse_parsed hpar).counted r hr]
  rw [hrules] at hr
  rcases List.mem_cons.mp hr with rfl | hr
  · decide
  · obtain rfl := List.mem_singleton.mp hr
    change (0 : UInt8).toNat ≠ 255
    decide

/-- With 255 references the fan-out is asked for no channel. -/
theorem fan_outs_not_always_right : ¬ ∀ (o : Tsort.MapOrder Text) (keys : KeyOrder) (conf : List Statement) (par : Parse),
    config_parse (fun _ => true) o keys conf = .ok par → ∀ w, FanOutsRight w par := by
  intro hclaim
  obtain ⟨o⟩ : Nonempty (Tsort.MapOrder Text) := inferInstance
  obtain ⟨par, hpar, hrules⟩ := references_accepted (fun _ => true) o ⟨id, fun _ => .refl _⟩ (show 255 < 256 by decide)
  have hasked := (hclaim o _ _ par hpar plain_world).asked ⟨.CALL, "c", 255, [], .yy_TRUE⟩
    (by rw [hrules]; exact List.mem_cons_self)
  cases hasked

end Blobio.Flowd
