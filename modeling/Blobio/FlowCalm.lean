import Blobio.FlowNetworks
import Blobio.LockStepStalls

/-! Networks of compile() whose goroutines never give up, and the first flow of such a network. -/
namespace Blobio.Flowd
open LockStep TernaryLogic EventRuns

/-- A goroutine that never gives up. -/
def Calm (turn : ℕ → Arrivals → LockStep.Turn Value) : Prop := ∀ flow l, turn flow l ≠ .abort

/-! ### Operators -/

section operators
variable {w : World}

theorem calm_source (data : ℕ → Data) : Calm (source data) := fun _ _ => by simp [source]

theorem calm_forward : Calm forward := fun _ l => by cases l <;> simp [forward]

theorem calm_convert (f : ℕ → Data → Data) : Calm (convert f) := fun _ l => by cases l <;> simp [convert]

theorem calm_bool2 (op : List Rummy) : Calm (bool2 op) := by
  intro flow l
  have hdrain : ∀ next lv rv l, drain_bool2 next lv rv flow l ≠ .abort := by
    intro next lv rv l
    unfold drain_bool2
    split_ifs <;> simp
  have hwait : ∀ l lv rv, wait_bool2 op flow lv rv l ≠ .abort := by
    intro l
    induction l with
    | nil =>
      intro lv rv
      simp [wait_bool2]
    | cons m l ih =>
      intro lv rv
      unfold wait_bool2
      dsimp only
      split_ifs
      · simp
      · exact ih _ _
      · exact hdrain _ _ _ _
      · simp
      · exact ih _ _
      · exact hdrain _ _ _ _
  exact hwait l none none

theorem argv_loop_ne_abort {n flow ac : ℕ} {av : List String} {is_null : Bool} {l : Arrivals} :
    argv_loop n flow av is_null ac l ≠ .abort := by
  induction l generalizing av is_null ac with
  | nil =>
    unfold argv_loop
    split_ifs <;> simp
  | cons m l ih =>
    obtain ⟨i, u⟩ := m
    rw [argv_loop]
    split_ifs
    · simp
    · simp
    · cases av[i % 256]? with
      | none => simp
      | some t =>
        dsimp only
        split_ifs
        · simp
        · exact ih

theorem calm_argv (n : ℕ) : Calm (argv n) := fun _ _ => argv_loop_ne_abort

theorem fired_ne_abort {null idle : Data} {fire : ℕ → List String → Option Data} {flow : ℕ}
    (hfire : ∀ argv, fire flow argv ≠ none) (a b : Data) : fired null idle fire flow a b ≠ .abort := by
  unfold fired
  split
  case h_1 argv hargv hbool =>
    split
    case h_1 => simp
    case h_2 hnone => exact absurd hnone (hfire argv)
  case h_2 => simp
  case h_3 => simp

theorem wait_fire_ne_abort {flow : ℕ} {f : Data → Data → LockStep.Turn Value} (hf : ∀ a b, f a b ≠ .abort)
    {argv when : Option Data} {l : Arrivals} : wait_fire w flow f argv when l ≠ .abort := by
  induction l generalizing argv when with
  | nil => cases argv <;> cases when <;> simp [wait_fire, hf]
  | cons m l ih =>
    obtain ⟨i, v⟩ := m
    rcases argv with _ | argv <;> rcases when with _ | when
    case some.some => exact hf argv when
    all_goals
      unfold wait_fire
      split_ifs
      · simp
      · exact ih
      · exact ih

/-- A rule gives up only where firing it does. -/
theorem calm_rule {null idle : Data} {fire : ℕ → List String → Option Data}
    (hfire : ∀ flow argv, fire flow argv ≠ none) : Calm (rule w null idle fire) :=
  fun flow _ => wait_fire_ne_abort fun argv when => @fired_ne_abort null idle fire flow (hfire flow) argv when

theorem calm_call {n : String} (hcalls : ∀ flow argv, w.call n flow argv ≠ none) : Calm (call w n) :=
  calm_rule fun flow argv => by simpa using hcalls flow argv

theorem calm_reduce (n : ℕ) : Calm (reduce w n) := by
  intro flow l
  have hloop : ∀ l fdr i, reduce_loop w n flow fdr i l ≠ .abort := by
    intro l
    induction l with
    | nil =>
      intro fdr i
      unfold reduce_loop
      split_ifs <;> simp
    | cons m l ih =>
      intro fdr i
      unfold reduce_loop
      split_ifs
      · simp
      · dsimp only
        split_ifs
        · simp
        · simp
        · simp
        · exact ih _ _
  exact hloop l (0, 0) 0

end operators

/-! ### Syntax trees -/

namespace Ast

/-- A string is taken for a number somewhere, which makes the process panic where it is none. -/
def casts_uint64 : Ast → Bool
  | CAST_UINT64 _ => true
  | CAST_STRING left | PROJECT_SYNC_MAP_LOS_TRUE_LOADED _ left | EQ_UINT64 _ left | NEQ_UINT64 _ left
  | EQ_STRING _ left | NEQ_STRING _ left | MATCH_STRING _ left | NO_MATCH_STRING _ left | EQ_BOOL _ left
  | NEQ_BOOL _ left => left.casts_uint64
  | yy_OR left right | yy_AND left right => left.casts_uint64 || right.casts_uint64
  | _ => false

theorem casts_operands {a : Ast} (h : a.casts_uint64 = false) {left : Ast} {k : Kind}
    (hmem : (left, k) ∈ a.operands) : left.casts_uint64 = false := by
  cases a <;> simp [operands, casts_uint64] at h hmem
  case yy_AND | yy_OR =>
    rcases hmem with ⟨rfl, -⟩ | ⟨rfl, -⟩
    · exact h.1
    · exact h.2
  all_goals
    obtain ⟨rfl, -⟩ := hmem
    exact h

theorem calm_operator {a : Ast} (w : World) (chan : ℕ) (h : a.casts_uint64 = false) :
    Calm (a.operator w chan) := by
  cases a with
  | UINT64 | STRING | yy_TRUE | yy_FALSE | PROJECT_BRR => exact calm_source _
  | CAST_UINT64 => cases h
  | yy_OR | yy_AND => exact calm_bool2 _
  | CAST_STRING | PROJECT_XDR_EXIT_STATUS | PROJECT_SQL_QUERY_ROW_BOOL | PROJECT_QDR_ROWS_AFFECTED
  | PROJECT_QDR_SQLSTATE | PROJECT_SYNC_MAP_LOS_TRUE_LOADED | EQ_UINT64 | NEQ_UINT64 | EQ_STRING
  | NEQ_STRING | MATCH_STRING | NO_MATCH_STRING | EQ_BOOL | NEQ_BOOL =>
    unfold operator
    exact calm_convert _

end Ast

/-! ### What compile() starts -/

/-- Nothing that has been started gives up. -/
def Build.Calm (b : Build) : Prop := ∀ nd ∈ b.nodes, Flowd.Calm nd.turn

/-- A call or query that does not give up, nor what its arguments and its when-clause are made of. -/
structure Rule.Calm (w : World) (r : Rule) : Prop where
  args : ∀ a ∈ r.args, a.casts_uint64 = false
  when_clause : r.when_clause.casts_uint64 = false
  operator : Flowd.Calm (r.operator w)

section build
variable {w : World} {par : Parse} {b b' : Build} {order : List String}

theorem Build.Calm.start (hb : b.Calm) {nd : Node Value} (hnodes : b'.nodes = b.nodes ++ [nd])
    (hturn : Flowd.Calm nd.turn) : b'.Calm := by
  intro nd' hnd'
  rw [hnodes, List.mem_append, List.mem_singleton] at hnd'
  rcases hnd' with hold | rfl
  · exact hb nd' hold
  · exact hturn

theorem Build.Calm.go (hb : b.Calm) (ins : List Port) {turn : ℕ → Arrivals → LockStep.Turn Value}
    (hturn : Flowd.Calm turn) : (b.go ins turn).2.Calm :=
  hb.start rfl hturn

theorem Build.Calm.copy (hb : b.Calm) (port : Port) : (b.copy port).2.Calm :=
  hb.start rfl calm_forward

theorem Build.Calm.merge (hb : b.Calm) (ports : List Port) : (b.merge ports).2.Calm := by
  induction ports generalizing b with
  | nil => exact hb
  | cons port ports ih => exact ih (hb.copy port)

theorem Compiles.calm {a : Ast} {r : ℕ × Build} (h : Compiles w a b r) (ha : a.casts_uint64 = false)
    (hb : b.Calm) : r.2.Calm := by
  induction h with
  | leaf => exact hb.go _ (Ast.calm_operator w _ ha)
  | command | query => exact Build.Calm.start hb rfl (Ast.calm_operator w _ ha)
  | unary hops _ _ ih =>
    have hleft := Ast.casts_operands ha (by rw [hops]; exact List.mem_cons_self)
    exact (ih hleft hb).go _ (Ast.calm_operator w _ ha)
  | binary hops _ _ _ ihl ihr =>
    have hleft := Ast.casts_operands ha (by rw [hops]; exact List.mem_cons_self)
    have hright := Ast.casts_operands ha (by rw [hops]; exact List.mem_cons_of_mem _ List.mem_cons_self)
    exact (ihr hright (ihl hleft hb)).go _ (Ast.calm_operator w _ ha)

theorem compile_all_calm {as : List Ast} {r : List Port × Build} (h : compile_all w as b = some r)
    (has : ∀ a ∈ as, a.casts_uint64 = false) (hb : b.Calm) : r.2.Calm := by
  induction as generalizing b r with
  | nil =>
    obtain rfl := Option.some.inj h
    exact hb
  | cons a as ih =>
    obtain ⟨ha, has⟩ := List.forall_mem_cons.mp has
    obtain ⟨⟨c, b₁⟩, hfirst, hr⟩ := Option.bind_eq_some_iff.mp h
    obtain ⟨⟨ports, b₂⟩, hrest, rfl⟩ := Option.map_eq_some_iff.mp hr
    have hcalm := (compile_compiles w a hfirst).calm ha hb
    exact ih (r := (ports, b₂)) hrest has hcalm

theorem Build.Calm.vector (hb : b.Calm) (ports : List Port) : (b.vector ports).2.Calm := by
  match ports with
  | [] => exact hb.go _ (calm_source _)
  | [port] => exact hb.go _ (calm_convert _)
  | port :: port' :: ports => exact (hb.merge (port :: port' :: ports)).go _ (calm_argv _)

theorem compile_argv_calm {args : List Ast} {r : ℕ × Build} (h : compile_argv w args b = some r)
    (hargs : ∀ a ∈ args, a.casts_uint64 = false) (hb : b.Calm) : r.2.Calm := by
  obtain ⟨⟨ports, b₁⟩, hall, rfl⟩ := Option.map_eq_some_iff.mp h
  have hcalm : b₁.Calm := compile_all_calm hall hargs hb
  exact hcalm.vector ports

theorem broadcast_nodes (b : Build) (r : Rule) (out : List ℕ) : (b.broadcast r out).nodes = b.nodes := by
  unfold Build.broadcast
  split <;> rfl

theorem compile_rule_calm {r : Rule} (h : compile_rule w r b = some b') (hr : r.Calm w) (hb : b.Calm) :
    b'.Calm := by
  obtain ⟨⟨argv, b₁⟩, hargv, hrest⟩ := Option.bind_eq_some_iff.mp h
  obtain ⟨⟨when, b₂⟩, hwhen, rfl⟩ := Option.map_eq_some_iff.mp hrest
  have hvector : b₁.Calm := compile_argv_calm hargv hr.args hb
  have hclause : b₂.Calm := (compile_compiles w _ hwhen).calm hr.when_clause hvector
  have hfired := hclause.go [⟨argv, true⟩, r.when_clause.port .bool when] hr.operator
  exact hfired.start (broadcast_nodes _ r _) calm_forward

theorem compile_order_calm (h : compile_order w par order b = some b')
    (hrules : ∀ n ∈ order, n ≠ par.tail → ∀ r, root par n = some r → r.Calm w) (hb : b.Calm) : b'.Calm := by
  induction order generalizing b with
  | nil =>
    obtain rfl := Option.some.inj h
    exact hb
  | cons n order ih =>
    obtain ⟨hn, hrest⟩ := List.forall_mem_cons.mp hrules
    by_cases htail : n = par.tail
    · subst htail
      exact ih (compile_order_tail h) hrest hb
    · obtain ⟨r, b₁, hroot, hrule, horder⟩ := compile_order_cons h htail
      exact ih horder hrest (compile_rule_calm hrule (hn htail r hroot) hb)

theorem compile_logs_calm {m : List (String × Output)} {r : List Port × Build} (h : compile_logs m b = some r)
    (hb : b.Calm) : r.2.Calm := by
  induction m generalizing b r with
  | nil =>
    obtain rfl := Option.some.inj h
    exact hb
  | cons e m ih =>
    obtain ⟨n, cx⟩ := e
    obtain ⟨c, ports, b₁, -, -, hrest, rfl⟩ := compile_logs_cons h
    exact ih (r := (ports, b₁)) hrest ((hb.go _ calm_forward).copy _)

/-- Where no call and no query gives up and no string is taken for a number, nothing does. -/
theorem compile_parse_calm {N : Network Value} (h : compile_parse w par = some N)
    (hrules : ∀ r, par.Reached r → r.Calm w) : ∀ nd ∈ N.nodes, Calm nd.turn := by
  obtain ⟨b, xdr, qdr, ins, fdr, out, horder, hxdr, hqdr, rfl, rfl, rfl, rfl⟩ := compile_parse_cases h
  have hempty : ({} : Build).Calm := fun _ hno => absurd hno List.not_mem_nil
  have hb := compile_order_calm horder (fun n hn htail r hroot => hrules r ⟨n, hn, htail, hroot⟩) hempty
  have hx : (xdr.2.confluing xdr.1.length).Calm := compile_logs_calm hxdr hb
  have hq : (qdr.2.confluing qdr.1.length).Calm := compile_logs_calm hqdr hx
  exact ((hq.merge _).go _ (calm_reduce _)).go _ calm_forward

/-- Some run of such a network gets to the end of its first flow. -/
theorem first_flow_ends {N : Network Value} (h : compile_parse w par = some N)
    (hrules : ∀ r, par.Reached r → r.args.length < 256 ∧ r.typed = true)
    (hcalm : ∀ r, par.Reached r → r.Calm w) :
    ∃ es s, exec (LockStep.step Value.flow N) (start N) es = some s ∧ s.round = 1 ∧ s.busy = false := by
  have hs := compile_parse_standing h fun r hr => (hrules r hr).1
  have hlive := compile_parse_live h fun r hr => (hrules r hr).2
  refine @first_round_ends _ Value.flow N ((N.channels + 2 * N.nodes.length) * 1 + 1) fun es s hrun hround => ?_
  have hbound := steps_bounded hs hrun
  rw [hround] at hbound
  have hon := never_aborts (compile_parse_calm h hcalm) hrun
  exact ⟨hbound, (Lockstep.run hs hrun).not_stuck hs hon hlive⟩

end build

end Blobio.Flowd
