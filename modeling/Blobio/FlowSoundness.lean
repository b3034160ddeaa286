import Blobio.FlowComparisons
import Blobio.FlowEvaluations
import Blobio.FlowVectors

/-! The comparisons of a configuration against the network that compile() makes of it: whether each of
them has a channel, and whether the channel carries what is written. -/
namespace Blobio.Flowd
open LockStep TernaryLogic EventRuns Grammar

/-! ### What is written -/

/-- The type of a value. -/
def Data.kind : Data → Option Kind
  | bool_value _ => some .bool
  | string_value _ => some .string
  | uint64_value _ => some .uint64
  | _ => none

namespace Grammar

def Constant.data : Constant → Data
  | UINT64 ui64 => .uint64_value (some ui64)
  | STRING s => .string_value (some s)
  | yy_TRUE => .bool_value (some true)
  | yy_FALSE => .bool_value (some false)

/-- What is compared with a number: a number, or the digits of one. -/
def number : Data → Option UInt64
  | .uint64_value v => v
  | .string_value v => v.bind ParseUint
  | _ => none

/-- The truth value of an operator, where the regular expressions match texts. -/
def RelOp.holds {α : Type} [BEq α] (w : World) (text : α → String) (k v : α) : RelOp → Bool
  | EQ => v == k
  | NEQ => v != k
  | MATCH => w.MatchString (text k) (text v)
  | NO_MATCH => !w.MatchString (text k) (text v)

/-- The truth value of a comparison on a projected value: null when that is null. -/
def Comparison.truth (w : World) (x : Comparison) (v : Data) : Option Bool :=
  match x.right with
  | .UINT64 k => (number v).map fun n => x.op.holds w (fun n => Nat.repr n.toNat) k n
  | .STRING k => v.string.map fun s => x.op.holds w id k s
  | .yy_TRUE => v.bool.map fun b => x.op.holds w (fun b => if b then "true" else "false") true b
  | .yy_FALSE => v.bool.map fun b => x.op.holds w (fun b => if b then "true" else "false") false b

/-- The type of the values that come from a projection. -/
def Projection.kind : Projection → Kind
  | arg (.constant c) => c.kind
  | arg (.tail_project _ _) => .string
  | arg (.call_project _) => .uint64
  | arg (.project_sync_map _ _) => .bool
  | query (.query_row_bool _ _) => .bool
  | query (.rows_affected _) => .uint64
  | query (.sqlstate _) => .string

/-- Regular expressions for strings only. -/
def Comparison.Plain (x : Comparison) : Prop := x.op = .EQ ∨ x.op = .NEQ ∨ x.right.kind = .string

end Grammar

/-! ### Where it is in a network -/

section network
variable (w : World) (conf : List Statement) (par : Parse) (N : Network Value)

/-- A channel that the records of a call or query are broadcast on. -/
def Hears (name : String) (c : ℕ) : Prop :=
  ∃ rc ∈ compiled_rules w par, rc.1.name = name ∧
    ∃ out, c ∈ out ∧ Node.mk true true [⟨rc.2, true⟩] out forward ∈ N.nodes

/-- A channel that carries a projection. -/
inductive Projects : Projection → ℕ → Prop
  | constant {k : Constant} {d : ℕ} (h : Node.mk true false [] [d] (source fun _ => k.data) ∈ N.nodes) :
      Projects (.arg (.constant k)) d
  | tail_project {tail : String} {brr_field : BrrField} {d : ℕ}
      (h : Node.mk true false [] [d] (project_brr w brr_field) ∈ N.nodes) :
      Projects (.arg (.tail_project tail brr_field)) d
  | call_project {command : String} {c d : ℕ} (hears : Hears w par N command c)
      (h : Node.mk true false [⟨c, true⟩] [d] project_xdr_exit_status ∈ N.nodes) :
      Projects (.arg (.call_project command)) d
  | project_sync_map {sync_map : String} {p : Grammar.Arg} {c d : ℕ} (key : Projects (.arg p) c)
      (h : Node.mk true false [⟨c, true⟩] [d] (project_sync_map_los_true_loaded w d) ∈ N.nodes) :
      Projects (.arg (.project_sync_map sync_map p)) d
  | query_row_bool {query name : String} {offset c d : ℕ} (column : Column conf query name offset)
      (hears : Hears w par N query c)
      (h : Node.mk true false [⟨c, true⟩] [d] (project_sql_query_row_bool (UInt8.ofNat offset)) ∈ N.nodes) :
      Projects (.query (.query_row_bool query name)) d
  | rows_affected {query : String} {c d : ℕ} (hears : Hears w par N query c)
      (h : Node.mk true false [⟨c, true⟩] [d] project_qdr_rows_affected ∈ N.nodes) :
      Projects (.query (.rows_affected query)) d
  | sqlstate {query : String} {c d : ℕ} (hears : Hears w par N query c)
      (h : Node.mk true false [⟨c, true⟩] [d] project_qdr_sqlstate ∈ N.nodes) :
      Projects (.query (.sqlstate query)) d

/-- The channel of a comparison: its goroutine sends, for each value of the projection, the truth value
of what is written. -/
def Compared (x : Comparison) (c : ℕ) : Prop :=
  ∃ d f, Projects w conf par N x.left d ∧ Node.mk true false [⟨d, true⟩] [c] (convert f) ∈ N.nodes ∧
    ∀ flow v, v.kind = some x.left.kind → f flow v = .bool_value (x.truth w v)

/-- The channel of a when-clause, over those of its comparisons. -/
inductive Carries : Qualify → ℕ → Prop
  | projection {p : Grammar.Arg} {o : RelOp} {k : Constant} {c : ℕ}
      (h : Compared w conf par N ⟨.arg p, o, k⟩ c) : Carries (.projection p o k) c
  | query_project {p : QueryProject} {o : RelOp} {k : Constant} {c : ℕ}
      (h : Compared w conf par N ⟨.query p, o, k⟩ c) : Carries (.query_project p o k) c
  | yy_AND {p q : Qualify} {a b c : ℕ} (left : Carries p a) (right : Carries q b)
      (h : Node.mk true false [⟨a, true⟩, ⟨b, true⟩] [c] (bool2 Flowd.and) ∈ N.nodes) :
      Carries (.yy_AND p q) c
  | yy_OR {p q : Qualify} {a b c : ℕ} (left : Carries p a) (right : Carries q b)
      (h : Node.mk true false [⟨a, true⟩, ⟨b, true⟩] [c] (bool2 Flowd.or) ∈ N.nodes) :
      Carries (.yy_OR p q) c

/-- The rule of a statement, which reads its when-clause. -/
def Conditioned (st : Statement) (q : Qualify) : Prop :=
  ∃ rc ∈ compiled_rules w par, st.fires = some rc.1.name ∧ ∃ argv c turn,
    Node.mk true false [⟨argv, true⟩, ⟨c, true⟩] [rc.2] turn ∈ N.nodes ∧ Carries w conf par N q c

end network

/-- compile() goes through. Every operator has its channels, with the types that it consumes, and every
comparison a channel with what is written. -/
structure CompiledSoundly (w : World) (conf : List Statement) (par : Parse) (N : Network Value) : Prop where
  compiles : compile_parse w par = some N
  typed : ∀ nd ∈ N.nodes, ∀ port ∈ nd.ins, port.live = true ∧ port.chan < N.channels
  conditioned : ∀ st ∈ conf, ∀ q, st.when_clause = some q → Conditioned w conf par N st q

/-- The value of a projection in flow `j` of a run: of the blob request record, or of the record that a
call or query has come to in the same flow. -/
inductive Projected (w : World) (conf : List Statement) (par : Parse) (s : LockStep.State Value) (j : ℕ) :
    Projection → Data → Prop
  | constant {k : Constant} : Projected w conf par s j (.arg (.constant k)) k.data
  | tail_project {tail : String} {brr_field : BrrField} :
      Projected w conf par s j (.arg (.tail_project tail brr_field))
        (.string_value (some (w.brr (j + 1) brr_field)))
  | call_project {rc : Rule × ℕ} {u : Value} (hrc : rc ∈ compiled_rules w par)
      (hu : (s.sent rc.2)[j]? = some u) :
      Projected w conf par s j (.arg (.call_project rc.1.name))
        (.uint64_value (u.data.xdr.map fun xdr => xdr.exit_status.toUInt64))
  | project_sync_map {sync_map : String} {p : Grammar.Arg} {key : Data} {d : ℕ}
      (hkey : Projected w conf par s j (.arg p) key) :
      Projected w conf par s j (.arg (.project_sync_map sync_map p))
        (.bool_value (some (w.LoadOrStore d (j + 1) (key.string.getD ""))))
  | query_row_bool {name : String} {offset : ℕ} {rc : Rule × ℕ} {u : Value}
      (hrc : rc ∈ compiled_rules w par) (hu : (s.sent rc.2)[j]? = some u)
      (column : Column conf rc.1.name name offset) :
      Projected w conf par s j (.query (.query_row_bool rc.1.name name))
        (.bool_value (u.data.qdr.bind fun qdr =>
          if 0 < qdr.rows_affected then qdr.results[offset]?.join else none))
  | rows_affected {rc : Rule × ℕ} {u : Value} (hrc : rc ∈ compiled_rules w par)
      (hu : (s.sent rc.2)[j]? = some u) :
      Projected w conf par s j (.query (.rows_affected rc.1.name))
        (.uint64_value (u.data.qdr.map fun qdr => qdr.rows_affected.toUInt64))
  | sqlstate {rc : Rule × ℕ} {u : Value} (hrc : rc ∈ compiled_rules w par)
      (hu : (s.sent rc.2)[j]? = some u) :
      Projected w conf par s j (.query (.sqlstate rc.1.name)) (.string_value (u.data.qdr.map Qdr.sqlstate))

/-! ### Nodes -/

namespace Compiles
variable {w : World} {a left right : Ast} {k l : Kind} {b : Build} {r : ℕ × Build}

theorem leaf_node (h : Compiles w a b r) (hops : a.operands = []) (hproj : a.projects = none) :
    Node.mk true false [] [r.1] (a.operator w r.1) ∈ r.2.nodes := by
  cases h with
  | leaf => exact List.mem_append_right _ (List.mem_singleton_self _)
  | command _ hno => cases hproj.symm.trans hno
  | query _ hno => cases hproj.symm.trans hno
  | unary hno => cases hops.symm.trans hno
  | binary hno => cases hops.symm.trans hno

theorem unary_node (h : Compiles w a b r) (hops : a.operands = [(left, k)]) :
    ∃ c b₁, Compiles w left b (c, b₁) ∧ (∀ nd ∈ b₁.nodes, nd ∈ r.2.nodes) ∧
      Node.mk true false [left.port k c] [r.1] (a.operator w r.1) ∈ r.2.nodes := by
  cases h with
  | leaf hno => cases hops.symm.trans hno
  | command hno => cases hops.symm.trans hno
  | query hno => cases hops.symm.trans hno
  | @unary _ left' k' _ b₁ c hops' _ hleft =>
    obtain ⟨rfl, rfl⟩ : left' = left ∧ k' = k := by
      simpa using hops'.symm.trans hops
    exact ⟨c, b₁, hleft, fun nd hnd => List.mem_append_left _ hnd,
      List.mem_append_right _ (List.mem_singleton_self _)⟩
  | binary hno => cases hops.symm.trans hno

theorem binary_node (h : Compiles w a b r) (hops : a.operands = [(left, k), (right, l)]) :
    ∃ c d b₁ b₂, Compiles w left b (c, b₁) ∧ Compiles w right b₁ (d, b₂) ∧
      (∀ nd ∈ b₁.nodes, nd ∈ r.2.nodes) ∧
      (∀ nd ∈ b₂.nodes, nd ∈ r.2.nodes) ∧
      Node.mk true false [left.port k c, right.port l d] [r.1] (a.operator w r.1) ∈ r.2.nodes := by
  cases h with
  | leaf hno => cases hops.symm.trans hno
  | command hno => cases hops.symm.trans hno
  | query hno => cases hops.symm.trans hno
  | unary hno => cases hops.symm.trans hno
  | @binary _ left' right' k' l' _ b₁ b₂ c d hops' _ hleft hright =>
    obtain ⟨⟨rfl, rfl⟩, rfl, rfl⟩ : (left' = left ∧ k' = k) ∧ right' = right ∧ l' = l := by
      simpa using hops'.symm.trans hops
    exact ⟨c, d, b₁, b₂, hleft, hright,
      fun nd hnd => List.mem_append_left _ (hright.grows.nodes nd hnd),
      fun nd hnd => List.mem_append_left _ hnd, List.mem_append_right _ (List.mem_singleton_self _)⟩

end Compiles

theorem next_out_mem {s : String} {m m' : List (String × Output)} {c : ℕ}
    (h : next_out s m = some (c, m')) :
    ∃ cx, (s, cx) ∈ m ∧ c ∈ cx.out_chans := by
  induction m generalizing m' with
  | nil => cases h
  | cons e m ih =>
    obtain ⟨n, cx⟩ := e
    unfold next_out at h
    by_cases hn : n = s
    · subst hn
      rw [if_pos rfl] at h
      obtain ⟨c', hc, heq⟩ := Option.map_eq_some_iff.mp h
      obtain ⟨rfl, -⟩ := Prod.mk.inj heq
      exact ⟨cx, List.mem_cons_self, List.mem_of_getElem? hc⟩
    · rw [if_neg hn] at h
      obtain ⟨⟨c', m₁⟩, hc, heq⟩ := Option.map_eq_some_iff.mp h
      obtain ⟨rfl, -⟩ := Prod.mk.inj heq
      obtain ⟨cx', hmem, hin⟩ := ih hc
      exact ⟨cx', List.mem_cons_of_mem _ hmem, hin⟩

theorem Compiles.projected_node {w : World} {a : Ast} {b : Build} {r : ℕ × Build} {call : Bool} {s : String}
    (h : Compiles w a b r) (hproj : a.projects = some (call, s)) :
    ∃ c out, (s, out) ∈ b.heard ∧ c ∈ out ∧
      Node.mk true false [⟨c, true⟩] [r.1] (a.operator w r.1) ∈ r.2.nodes := by
  have hlast : ∀ {nd : Node Value} {nodes : List (Node Value)}, nd ∈ nodes ++ [nd] :=
    List.mem_append_right _ (List.mem_singleton_self _)
  cases h with
  | leaf _ hno => cases hproj.symm.trans hno
  | @command _ _ s' c m hops hproj' hnext =>
    obtain ⟨-, rfl⟩ := Prod.mk.inj (Option.some.inj (hproj.symm.trans hproj'))
    obtain ⟨cx, hmem, hc⟩ := next_out_mem hnext
    exact ⟨c, cx.out_chans, List.mem_map.mpr ⟨_, List.mem_append_left _ hmem, rfl⟩, hc, hlast⟩
  | @query _ _ s' c m hops hproj' hnext =>
    obtain ⟨-, rfl⟩ := Prod.mk.inj (Option.some.inj (hproj.symm.trans hproj'))
    obtain ⟨cx, hmem, hc⟩ := next_out_mem hnext
    exact ⟨c, cx.out_chans, List.mem_map.mpr ⟨_, List.mem_append_right _ hmem, rfl⟩, hc, hlast⟩
  | unary _ hno => cases hproj.symm.trans hno
  | binary _ hno => cases hproj.symm.trans hno

theorem node_unique {N : Network Value} (hw : Wired N) {nd nd' : Node Value} (h : nd ∈ N.nodes)
    (h' : nd' ∈ N.nodes)
    {c : ℕ} (hc : c ∈ nd.outs) (hc' : c ∈ nd'.outs) : nd = nd' := by
  obtain ⟨p, hp⟩ := List.mem_iff_getElem?.mp h
  obtain ⟨q, hq⟩ := List.mem_iff_getElem?.mp h'
  obtain rfl := hw.feeder_unique hp hc hq hc'
  exact Option.some.inj (hp.symm.trans hq)

/-! ### One comparison -/

section comparison
variable {w : World} {conf : List Statement} {x : Comparison}

/-- What the goroutine of a comparison makes of a value. -/
def Grammar.Comparison.sent (w : World) (x : Comparison) (v : Data) : Option Bool :=
  match x.right with
  | .UINT64 k => v.uint64.map fun n => if x.op = .EQ then k == n else k != n
  | .yy_TRUE => v.bool.map fun b => if x.op = .EQ then true == b else true != b
  | .yy_FALSE => v.bool.map fun b => if x.op = .EQ then false == b else false != b
  | .STRING k => v.string.map fun s =>
    match x.op with
    | .EQ => k == s
    | .NEQ => k != s
    | .MATCH => w.MatchString k s
    | .NO_MATCH => w.MatchString k s == false

theorem tree_operator (w : World) (c : ℕ) (x : Comparison) (left : Ast) :
    (x.op.tree left x.right).operator w c = convert fun _ v => .bool_value (x.sent w v) := by
  obtain ⟨p, o, k⟩ := x
  cases k <;> cases o <;> rfl

theorem tree_kind {p : Projection} {left : Ast} (h : p.Tree conf left) : left.kind = p.kind := by
  cases p with
  | arg p =>
    obtain rfl := h
    cases p with
    | constant k => cases k <;> rfl
    | tail_project | call_project | project_sync_map => rfl
  | query p => cases h <;> rfl

/-- Where the operator has a meaning of its own, it is what is written. -/
theorem sent_eq_truth (h : x.Plain) {v : Data} (hkind : v.kind = some x.right.kind) :
    x.sent w v = x.truth w v := by
  obtain ⟨p, o, k⟩ := x
  have hop : o ≠ .EQ → o ≠ .NEQ → k.kind = .string := fun heq hneq => (h.resolve_left heq).resolve_left hneq
  cases k with
  | UINT64 k =>
    have hnumber : number v = v.uint64 := by
      cases v <;> first | rfl | cases hkind
    change _ = (number v).map _
    rw [hnumber]
    cases o with
    | EQ => exact congrArg (Option.map · _) (funext fun n => Bool.beq_comm)
    | NEQ => exact congrArg (Option.map · _) (funext fun n => bne_comm)
    | MATCH | NO_MATCH => cases hop nofun nofun
  | yy_TRUE | yy_FALSE =>
    cases o with
    | EQ => exact congrArg (Option.map · _) (funext fun n => Bool.beq_comm)
    | NEQ => exact congrArg (Option.map · _) (funext fun n => bne_comm)
    | MATCH | NO_MATCH => cases hop nofun nofun
  | STRING k =>
    cases o with
    | EQ => exact congrArg (Option.map · _) (funext fun n => Bool.beq_comm)
    | NEQ => exact congrArg (Option.map · _) (funext fun n => bne_comm)
    | MATCH => rfl
    | NO_MATCH => exact congrArg (Option.map · _) (funext fun n => beq_false _)

/-- Outside of the operators for all types, regular expressions that match nothing, or everything, make a
difference. -/
theorem plain_of_sent (h : ∀ w v, v.kind = some x.right.kind → x.sent w v = x.truth w v) : x.Plain := by
  obtain ⟨p, o, k⟩ := x
  let matching (b : Bool) : World := { plain_world with MatchString := fun _ _ => b }
  have hnumber : ∀ k : UInt64, (k != k + 1) = true := fun k => by
    rw [bne_iff_ne]
    intro heq
    have hone : (1 : UInt64) = 0 := by
      rw [← add_right_inj k, add_zero]
      exact heq.symm
    cases hone
  cases o with
  | EQ => exact .inl rfl
  | NEQ => exact .inr (.inl rfl)
  | MATCH =>
    cases k with
    | STRING => exact .inr (.inr rfl)
    | UINT64 k =>
      have hwrong := Option.some.inj (h (matching false) (.uint64_value (some (k + 1))) rfl)
      exact absurd ((hnumber k).symm.trans hwrong) nofun
    | yy_TRUE => cases Option.some.inj (h (matching false) (.bool_value (some false)) rfl)
    | yy_FALSE => cases Option.some.inj (h (matching false) (.bool_value (some true)) rfl)
  | NO_MATCH =>
    cases k with
    | STRING => exact .inr (.inr rfl)
    | UINT64 k =>
      have hwrong := Option.some.inj (h (matching true) (.uint64_value (some (k + 1))) rfl)
      exact absurd ((hnumber k).symm.trans hwrong) nofun
    | yy_TRUE => cases Option.some.inj (h (matching true) (.bool_value (some false)) rfl)
    | yy_FALSE => cases Option.some.inj (h (matching true) (.bool_value (some true)) rfl)

end comparison

/-! ### From the trees to the network -/

/-- A rule that has been compiled with its vector and its when-clause, behind all that it can hear. -/
def Knows (w : World) (b : Build) (rc : Rule × ℕ) : Prop :=
  ∃ argv when b₀ b₁ b₂, compile_argv w rc.1.args b₀ = some (argv, b₁) ∧
    compile w rc.1.when_clause b₁ = some (when, b₂) ∧ (∀ nd ∈ b₂.nodes, nd ∈ b.nodes) ∧
    (∀ e ∈ b₀.heard, e ∈ b.heard) ∧ rule_node w rc.1 argv when rc.2 ∈ b.nodes

section compiled
variable {w : World} {par : Parse} {b b' : Build} {rc : Rule × ℕ}

theorem Knows.mono (h : Knows w b rc) (hnodes : ∀ nd ∈ b.nodes, nd ∈ b'.nodes)
    (hheard : ∀ e ∈ b.heard, e ∈ b'.heard) : Knows w b' rc := by
  obtain ⟨argv, when, b₀, b₁, b₂, hargv, hwhen, hsub, hknown, hnode⟩ := h
  exact ⟨argv, when, b₀, b₁, b₂, hargv, hwhen, fun nd hnd => hnodes nd (hsub nd hnd),
    fun e he => hheard e (hknown e he), hnodes _ hnode⟩

theorem compile_order_knows {order : List String} (h : compile_order w par order b = some b')
    (hnodup : order.Nodup)
    (hfresh : ∀ n ∈ order, n ∉ b.heard.map Prod.fst) (hb : ∀ rc ∈ b.fired, Knows w b rc) :
    ∀ rc ∈ b'.fired, Knows w b' rc := by
  induction order generalizing b with
  | nil =>
    obtain rfl := Option.some.inj h
    exact hb
  | cons n order ih =>
    have hrest := (List.nodup_cons.mp hnodup).2
    by_cases hn : n = par.tail
    · subst hn
      exact ih (compile_order_tail h) hrest (fun m hm => hfresh m (List.mem_cons_of_mem _ hm)) hb
    · obtain ⟨r, b₁, hroot, hrule, horder⟩ := compile_order_cons h hn
      have hname := hfresh n List.mem_cons_self
      rw [← root_name hroot] at hname
      obtain ⟨c, out, hfired, hheard, hsub, -⟩ := compile_rule_casts hrule hname
      have hkeep : ∀ e ∈ b.heard, e ∈ b₁.heard := fun e he => hheard.symm.subset (List.mem_cons_of_mem _ he)
      refine ih horder hrest (fresh_rest hroot hnodup hfresh hheard) fun rc hrc => ?_
      rw [hfired] at hrc
      rcases List.mem_cons.mp hrc with rfl | hrc
      · obtain ⟨⟨argv, b₂⟩, hargv, hr⟩ := Option.bind_eq_some_iff.mp hrule
        obtain ⟨⟨when, b₃⟩, hwhen, rfl⟩ := Option.map_eq_some_iff.mp hr
        obtain rfl : b₃.channels = c := by
          rw [rule_fired] at hfired
          exact (Prod.mk.inj (List.cons.inj hfired).1).2
        have hnodes := rule_nodes b₃ w r argv when
        refine ⟨argv, when, b, b₂, b₃, hargv, hwhen, fun nd hnd => ?_, hkeep, ?_⟩
        · rw [hnodes]
          exact List.mem_append_left _ hnd
        · rw [hnodes]
          exact List.mem_append_right _ List.mem_cons_self
      · exact (hb rc hrc).mono hsub hkeep

/-- The network over the rules that have been compiled. -/
theorem compile_parse_knows {N : Network Value} (h : compile_parse w par = some N) :
    ∃ b, (∀ nd ∈ b.nodes, nd ∈ N.nodes) ∧ (∀ rc ∈ compiled_rules w par, Knows w b rc) ∧
      ∀ name out, (name, out) ∈ b.heard → ∀ c ∈ out, Hears w par N name c := by
  obtain ⟨b, L, horder, hL, hnodes⟩ := compile_parse_casts h
  have hrules : compiled_rules w par = b.fired := by
    rw [compiled_rules, horder]
    rfl
  refine ⟨b, hnodes, ?_, fun name out hmem c hc => ?_⟩
  · rw [hrules]
    exact compile_order_knows horder par.order_nodup (fun _ _ => List.not_mem_nil)
      fun _ h => absurd h List.not_mem_nil
  · obtain ⟨x, hx, heq⟩ := List.mem_map.mp (hL.heard.symm.subset hmem)
    obtain ⟨rfl, rfl⟩ := Prod.mk.inj heq
    refine ⟨(x.1, x.2.1), ?_, rfl, x.2.2, hc, hnodes _ (hL.casts x hx).cast⟩
    rw [hrules, hL.fired]
    exact List.mem_map.mpr ⟨x, hx, rfl⟩

end compiled

section carried
variable {w : World} {conf : List Statement} {par : Parse} {N : Network Value} {b : Build} {r : ℕ × Build}

/-- The channel of the tree of an argument. -/
theorem arg_projects {p : Grammar.Arg} (h : Compiles w p.tree b r) (htyped : p.tree.typed = true)
    (hnodes : ∀ nd ∈ r.2.nodes, nd ∈ N.nodes)
    (hheard : ∀ name out, (name, out) ∈ b.heard → ∀ c ∈ out, Hears w par N name c) :
    Projects w conf par N (.arg p) r.1 := by
  induction p generalizing r with
  | constant k =>
    refine .constant ?_
    cases k with
    | UINT64 | STRING | yy_TRUE | yy_FALSE => exact hnodes _ (h.leaf_node rfl rfl)
  | tail_project => exact .tail_project (hnodes _ (h.leaf_node rfl rfl))
  | call_project command =>
    obtain ⟨c, out, hout, hc, hnode⟩ := h.projected_node rfl
    exact .call_project (hheard _ _ hout c hc) (hnodes _ hnode)
  | project_sync_map sync_map p ih =>
    obtain ⟨c, b₁, hleft, hsub, hnode⟩ := h.unary_node rfl
    obtain ⟨hkind, hkey⟩ := Ast.typed_operands htyped (List.mem_singleton_self _)
    rw [Ast.port, decide_eq_true hkind] at hnode
    exact .project_sync_map (ih (r := (c, b₁)) hleft hkey fun nd hnd => hnodes nd (hsub nd hnd))
      (hnodes _ hnode)

theorem projection_projects {p : Projection} {left : Ast} (hp : p.Tree conf left) (h : Compiles w left b r)
    (htyped : left.typed = true) (hnodes : ∀ nd ∈ r.2.nodes, nd ∈ N.nodes)
    (hheard : ∀ name out, (name, out) ∈ b.heard → ∀ c ∈ out, Hears w par N name c) :
    Projects w conf par N p r.1 := by
  cases p with
  | arg p =>
    obtain rfl := hp
    exact arg_projects h htyped hnodes hheard
  | query p =>
    cases hp with
    | query_row_bool column =>
      obtain ⟨c, out, hout, hc, hnode⟩ := h.projected_node rfl
      exact .query_row_bool column (hheard _ _ hout c hc) (hnodes _ hnode)
    | rows_affected =>
      obtain ⟨c, out, hout, hc, hnode⟩ := h.projected_node rfl
      exact .rows_affected (hheard _ _ hout c hc) (hnodes _ hnode)
    | sqlstate =>
      obtain ⟨c, out, hout, hc, hnode⟩ := h.projected_node rfl
      exact .sqlstate (hheard _ _ hout c hc) (hnodes _ hnode)

/-- The goroutine of a comparison with a constant of its type. -/
theorem comparison_compared {x : Comparison} {left : Ast} (hp : x.left.Tree conf left)
    (h : Compiles w (x.op.tree left x.right) b r) (hfits : Comparable left x.right) (hplain : x.Plain)
    (hnodes : ∀ nd ∈ r.2.nodes, nd ∈ N.nodes)
    (hheard : ∀ name out, (name, out) ∈ b.heard → ∀ c ∈ out, Hears w par N name c) :
    Compared w conf par N x r.1 := by
  obtain ⟨c, b₁, hleft, hsub, hnode⟩ := h.unary_node (tree_operands x.op left x.right).1
  rw [Ast.port, decide_eq_true hfits.1, tree_operator] at hnode
  refine ⟨c, _, projection_projects hp hleft hfits.2 (fun nd hnd => hnodes nd (hsub nd hnd)) hheard,
    hnodes _ hnode, fun flow v hkind => ?_⟩
  rw [← tree_kind hp, hfits.1] at hkind
  exact congrArg _ (sent_eq_truth hplain hkind)

/-- The goroutines of a when-clause without comparisons of blob sizes. -/
theorem qualify_carries {q : Qualify} {a : Ast} (hq : q.Tree conf a) (h : Compiles w a b r)
    (hright : ∀ x ∈ q.comparisons, x.left.on_blob_size = false ∧ x.Plain)
    (hnodes : ∀ nd ∈ r.2.nodes, nd ∈ N.nodes)
    (hheard : ∀ name out, (name, out) ∈ b.heard → ∀ c ∈ out, Hears w par N name c) :
    Carries w conf par N q r.1 := by
  induction hq generalizing b r with
  | @projection p o c hor =>
    obtain ⟨hsize, hplain⟩ := hright _ (List.mem_singleton_self _)
    rcases hor with ⟨hno, -⟩ | ⟨-, hfits⟩
    · cases hno.symm.trans hsize
    · exact .projection (comparison_compared (x := ⟨.arg p, o, c⟩) rfl h hfits hplain hnodes hheard)
  | @query_project p o c left hp hfits =>
    obtain ⟨-, hplain⟩ := hright _ (List.mem_singleton_self _)
    exact .query_project (comparison_compared (x := ⟨.query p, o, c⟩) hp h hfits hplain hnodes hheard)
  | @yy_AND p q left right hl hr ihl ihr | @yy_OR p q left right hl hr ihl ihr =>
    obtain ⟨c, d, b₁, b₂, hleft, hright', hsub, hsub', hnode⟩ := h.binary_node rfl
    rw [Ast.port, Ast.port, decide_eq_true hl.typed_iff.1, decide_eq_true hr.typed_iff.1] at hnode
    have hfirst := ihl hleft (fun x hx => hright x (List.mem_append_left _ hx))
      (fun nd hnd => hnodes nd (hsub nd hnd)) hheard
    have hsecond := ihr hright' (fun x hx => hright x (List.mem_append_right _ hx))
      (fun nd hnd => hnodes nd (hsub' nd hnd)) (by rw [hleft.heard]; exact hheard)
    constructor
    · exact hfirst
    · exact hsecond
    · exact hnodes _ hnode

/-- Nothing else sends over the channel of a comparison. -/
theorem compared_sent (hw : Wired N) {x : Comparison} {left : Ast}
    (h : Compiles w (x.op.tree left x.right) b r)
    (hnodes : ∀ nd ∈ r.2.nodes, nd ∈ N.nodes) (hcompared : Compared w conf par N x r.1) {v : Data}
    (hkind : v.kind = some x.left.kind) : x.sent w v = x.truth w v := by
  obtain ⟨d, f, -, hnode, hright⟩ := hcompared
  obtain ⟨c, b₁, -, -, hnode'⟩ := h.unary_node (tree_operands x.op left x.right).1
  have hsame := node_unique hw hnode (hnodes _ hnode') (List.mem_singleton_self _)
    (List.mem_singleton_self _)
  rw [tree_operator] at hsame
  have hturn := congrFun (congrFun (Node.mk.inj hsame).2.2.2.2 0) [(0, ⟨0, v⟩)]
  have hdata := (Value.mk.inj (LockStep.Turn.send.inj hturn)).2
  rw [hright 0 v hkind] at hdata
  exact (Data.bool_value.inj hdata).symm

/-- Where a channel carries a when-clause, what its comparisons send is what is written. -/
theorem carries_sent (hw : Wired N) {q : Qualify} {a : Ast} (hq : q.Tree conf a) (h : Compiles w a b r)
    (hnodes : ∀ nd ∈ r.2.nodes, nd ∈ N.nodes) (hcarries : Carries w conf par N q r.1) :
    ∀ x ∈ q.comparisons, ∀ v : Data, v.kind = some x.left.kind → x.sent w v = x.truth w v := by
  induction hq generalizing b r with
  | @projection p o c hor =>
    cases hcarries with
    | projection hcompared =>
      intro x hx v hkind
      obtain rfl := List.mem_singleton.mp hx
      exact compared_sent (x := ⟨.arg p, o, c⟩) hw h hnodes hcompared hkind
  | @query_project p o c left hp hfits =>
    cases hcarries with
    | query_project hcompared =>
      intro x hx v hkind
      obtain rfl := List.mem_singleton.mp hx
      exact compared_sent (x := ⟨.query p, o, c⟩) hw h hnodes hcompared hkind
  | @yy_AND p q left right hl hr ihl ihr | @yy_OR p q left right hl hr ihl ihr =>
    obtain ⟨c, d, b₁, b₂, hleft, hright, hsub, hsub', hnode⟩ := h.binary_node rfl
    cases hcarries
    rename_i hcl hcr hnode'
    have hsame := node_unique hw hnode' (hnodes _ hnode) (List.mem_singleton_self _)
      (List.mem_singleton_self _)
    obtain ⟨hfirst, hrest⟩ := List.cons.inj (Node.mk.inj hsame).2.2.1
    obtain rfl := (Port.mk.inj hfirst).1
    obtain rfl := (Port.mk.inj (List.cons.inj hrest).1).1
    intro x hx
    rcases List.mem_append.mp hx with hx | hx
    · exact ihl hleft (fun nd hnd => hnodes nd (hsub nd hnd)) hcl x hx
    · exact ihr hright (fun nd hnd => hnodes nd (hsub' nd hnd)) hcr x hx

end carried

/-! ### What the types of the channels say -/

theorem typed_of_operands {a : Ast} (h : ∀ e ∈ a.operands, e.1.kind = e.2 ∧ e.1.typed = true) :
    a.typed = true := by
  cases a with
  | CAST_UINT64 | CAST_STRING | PROJECT_SYNC_MAP_LOS_TRUE_LOADED | EQ_UINT64 | NEQ_UINT64 | EQ_STRING
  | NEQ_STRING | MATCH_STRING | NO_MATCH_STRING | EQ_BOOL | NEQ_BOOL =>
    exact decide_eq_true (h _ (List.mem_singleton_self _))
  | yy_AND | yy_OR =>
    obtain ⟨hleft, hright⟩ := List.forall_mem_cons.mp h
    exact decide_eq_true ⟨hleft, hright _ (List.mem_singleton_self _)⟩
  | _ => rfl

section live
variable {w : World} {b : Build}

/-- All goroutines have their channels. -/
def Live (nodes : List (Node Value)) : Prop := ∀ nd ∈ nodes, ∀ port ∈ nd.ins, port.live = true

theorem Compiles.typed_of_live {a : Ast} {r : ℕ × Build} (h : Compiles w a b r) (hlive : Live r.2.nodes) :
    a.typed = true := by
  induction h with
  | leaf hops | command hops | query hops =>
    exact typed_of_operands fun e he => absurd (hops ▸ he) List.not_mem_nil
  | @unary a left k b b₁ c hops hproj hleft ih =>
    refine typed_of_operands fun e he => ?_
    obtain rfl := List.mem_singleton.mp (hops ▸ he)
    exact ⟨of_decide_eq_true (hlive _ (List.mem_append_right _ (List.mem_singleton_self _)) _
      (List.mem_singleton_self _)), ih fun nd hnd => hlive nd (List.mem_append_left _ hnd)⟩
  | @binary a left right k l b b₁ b₂ c d hops hproj hleft hright ihl ihr =>
    have hports := hlive _ (List.mem_append_right _ (List.mem_singleton_self _))
    refine typed_of_operands fun e he => ?_
    rcases List.mem_cons.mp (hops ▸ he) with rfl | he
    · exact ⟨of_decide_eq_true (hports _ List.mem_cons_self),
        ihl fun nd hnd => hlive nd (List.mem_append_left _ (hright.grows.nodes nd hnd))⟩
    · obtain rfl := List.mem_singleton.mp he
      exact ⟨of_decide_eq_true (hports _ (List.mem_cons_of_mem _ (List.mem_singleton_self _))),
        ihr fun nd hnd => hlive nd (List.mem_append_left _ hnd)⟩

theorem compile_all_typed {as : List Ast} {r : List Port × Build} (h : compile_all w as b = some r)
    (hports : ∀ port ∈ r.1, port.live = true) (hlive : Live r.2.nodes) :
    ∀ a ∈ as, a.kind = .string ∧ a.typed = true := by
  induction as generalizing b r with
  | nil => exact fun _ hno => absurd hno List.not_mem_nil
  | cons a as ih =>
    obtain ⟨⟨c, b₁⟩, ha, hr⟩ := Option.bind_eq_some_iff.mp h
    obtain ⟨⟨ports, b₂⟩, has, rfl⟩ := Option.map_eq_some_iff.mp hr
    obtain ⟨hport, hports⟩ := List.forall_mem_cons.mp hports
    refine List.forall_mem_cons.mpr ⟨⟨of_decide_eq_true hport, ?_⟩, ih has hports hlive⟩
    exact (compile_compiles w a ha).typed_of_live fun nd hnd =>
      hlive nd ((compile_all_grows has).nodes nd hnd)

theorem Knows.typed {rc : Rule × ℕ} (h : Knows w b rc) (hlive : Live b.nodes) : rc.1.typed = true := by
  obtain ⟨argv, when, b₀, b₁, b₂, hargv, hwhen, hsub, -, hnode⟩ := h
  have hclause := compile_compiles w _ hwhen
  obtain ⟨⟨ports, b₃⟩, hall, hvector⟩ := Option.map_eq_some_iff.mp hargv
  obtain ⟨-, rfl⟩ := Prod.mk.inj hvector
  have hvectors : Live (b₃.vector ports).2.nodes := fun nd hnd =>
    hlive nd (hsub nd (hclause.grows.nodes nd hnd))
  have hports : ∀ port ∈ ports, port.live = true := fun port hport => by
    obtain ⟨nd, hnd, hin⟩ := vector_reads b₃ hport
    exact hvectors nd hnd port hin
  have hargs := compile_all_typed hall hports fun nd hnd =>
    hvectors nd ((grows_vector b₃ ports).nodes nd hnd)
  have hkind := hlive _ hnode _ (List.mem_cons_of_mem _ (List.mem_singleton_self _))
  refine decide_eq_true ⟨List.all_eq_true.mpr fun a ha => decide_eq_true (hargs a ha),
    of_decide_eq_true hkind, ?_⟩
  exact hclause.typed_of_live fun nd hnd => hlive nd (hsub nd hnd)

end live

/-! ### In the flows -/

section flows
variable {w : World} {conf : List Statement} {par : Parse} {N : Network Value} {s : LockStep.State Value}
  {j : ℕ}

/-- What is heard of a call or query in a flow is its record. -/
theorem hears_sent (hlock : Lockstep Value.flow N s) {name : String} {c : ℕ}
    (h : Hears w par N name c) {u : Value}
    (hu : (s.sent c)[j]? = some u) :
    ∃ rc ∈ compiled_rules w par, rc.1.name = name ∧ (s.sent rc.2)[j]? = some u := by
  obtain ⟨rc, hrc, hname, out, hc, hnode⟩ := h
  exact ⟨rc, hrc, hname, produced_forward rfl rfl (hlock.told _ hnode c hc j u hu).2⟩

theorem projects_sent (hlock : Lockstep Value.flow N s) {p : Projection} {d : ℕ}
    (h : Projects w conf par N p d)
    {v : Value} (hv : (s.sent d)[j]? = some v) :
    v.data.kind = some p.kind ∧ Projected w conf par s j p v.data := by
  have hsource : ∀ {data : ℕ → Data} {d : ℕ} {v : Value},
      Node.mk true false [] [d] (source data) ∈ N.nodes → (s.sent d)[j]? = some v →
      v = ⟨j + 1, data (j + 1)⟩ := fun h hv =>
    produced_source rfl (hlock.told _ h _ (List.mem_singleton_self _) j _ hv).2
  have hconvert : ∀ {f : ℕ → Data → Data} {c d : ℕ} {v : Value},
      Node.mk true false [⟨c, true⟩] [d] (convert f) ∈ N.nodes → (s.sent d)[j]? = some v →
      ∃ u, (s.sent c)[j]? = some u ∧ v = ⟨j + 1, f (j + 1) u.data⟩ := fun h hv =>
    produced_convert rfl rfl (hlock.told _ h _ (List.mem_singleton_self _) j _ hv).2
  induction h generalizing v with
  | @constant k d h =>
    obtain rfl := hsource h hv
    exact ⟨by cases k <;> rfl, .constant⟩
  | tail_project h =>
    obtain rfl := hsource h hv
    exact ⟨rfl, .tail_project⟩
  | call_project hears h =>
    obtain ⟨u, hu, rfl⟩ := hconvert h hv
    obtain ⟨rc, hrc, rfl, hrecord⟩ := hears_sent hlock hears hu
    exact ⟨rfl, .call_project hrc hrecord⟩
  | project_sync_map key h ih =>
    obtain ⟨u, hu, rfl⟩ := hconvert h hv
    exact ⟨rfl, .project_sync_map (ih hu).2⟩
  | @query_row_bool query name offset c d column hears h =>
    obtain ⟨u, hu, rfl⟩ := hconvert h hv
    obtain ⟨rc, hrc, rfl, hrecord⟩ := hears_sent hlock hears hu
    refine ⟨rfl, ?_⟩
    obtain ⟨-, -, -, hlt⟩ := id column
    have hoffset : (UInt8.ofNat offset).toNat = offset := Nat.mod_eq_of_lt hlt
    rw [hoffset]
    exact .query_row_bool hrc hrecord column
  | rows_affected hears h =>
    obtain ⟨u, hu, rfl⟩ := hconvert h hv
    obtain ⟨rc, hrc, rfl, hrecord⟩ := hears_sent hlock hears hu
    exact ⟨rfl, .rows_affected hrc hrecord⟩
  | sqlstate hears h =>
    obtain ⟨u, hu, rfl⟩ := hconvert h hv
    obtain ⟨rc, hrc, rfl, hrecord⟩ := hears_sent hlock hears hu
    exact ⟨rfl, .sqlstate hrc hrecord⟩

/-- What a comparison comes to in a flow. -/
theorem compared_runs (hw : Wired N) (hlock : Lockstep Value.flow N s) {x : Comparison} {c : ℕ}
    (h : Compared w conf par N x c) : (s.busy = false → (s.sent c).length = s.round) ∧
      ∀ j v, (s.sent c)[j]? = some v →
        ∃ u, Projected w conf par s j x.left u ∧ v = ⟨j + 1, .bool_value (x.truth w u)⟩ := by
  obtain ⟨d, f, hprojects, hnode, hright⟩ := h
  have hc : c < N.channels := hw.out_lt hnode (List.mem_singleton_self _)
  refine ⟨(hlock.sent_bounds hw hc).2.2, fun j v hv => ?_⟩
  obtain ⟨u, hu, rfl⟩ := produced_convert rfl rfl
    (hlock.told _ hnode _ (List.mem_singleton_self _) j v hv).2
  obtain ⟨hkind, hprojected⟩ := projects_sent hlock hprojects hu
  exact ⟨u.data, hprojected, by rw [hright (j + 1) u.data hkind]⟩

end flows

/-! ### The configurations for which it is so -/

/-- The arguments are texts, sizes of blobs are not compared, and regular expressions are compared with
strings only. -/
structure Grammar.Statement.Sound (st : Statement) : Prop where
  args : ∀ p ∈ st.args, p.is_text = true
  comparisons : ∀ x ∈ st.comparisons, x.left.on_blob_size = false ∧ x.Plain

theorem Grammar.Statement.Sound.of_nil {st : Statement} (hargs : st.args = []) (hcomp : st.comparisons = []) :
    st.Sound where
  args := by
    rw [hargs]
    exact fun _ h => absurd h List.not_mem_nil
  comparisons := by
    rw [hcomp]
    exact fun _ h => absurd h List.not_mem_nil

/-- What compile() can do without a panic, each when-clause is compiled, and the statements are sound. -/
structure SoundlyWritten (conf : List Statement) (par : Parse) : Prop where
  compilable : Compilable par
  ordered : ∀ r ∈ par.rules, par.Orders r ∨ r.when_clause = .yy_TRUE
  statements : ∀ st ∈ conf, st.Sound

section sound
variable {conf : List Statement} {par : Parse}

theorem mem_comparisons {st : Statement} {x : Comparison} (hx : x ∈ st.comparisons) :
    ∃ q, st.when_clause = some q ∧ x ∈ q.comparisons := by
  unfold Statement.comparisons at hx
  cases hq : st.when_clause with
  | none =>
    rw [hq] at hx
    cases hx
  | some q =>
    rw [hq] at hx
    exact ⟨q, rfl, hx⟩

theorem fires_of_when_clause {st : Statement} {q : Qualify}
    (h : st.when_clause = some q) : st.fires.isSome := by
  cases st with
  | call | query => rfl
  | _ => cases h

theorem Grammar.Written.tree {st : Statement} {r : Rule} {q : Qualify} (h : Written conf st r)
    (hq : st.when_clause = some q) : q.Tree conf r.when_clause := by
  have hclause := h.when_clause
  rwa [hq] at hclause

theorem Grammar.Qualify.Tree.kind {q : Qualify} {a : Ast} (h : q.Tree conf a) {x : Comparison}
    (hx : x ∈ q.comparisons) (hsize : x.left.on_blob_size = false) : x.left.kind = x.right.kind := by
  induction h with
  | @projection p o c hor =>
    obtain rfl := List.mem_singleton.mp hx
    rcases hor with ⟨hno, -⟩ | ⟨-, hfits⟩
    · cases hno.symm.trans hsize
    · exact (@tree_kind conf (.arg p) _ rfl).symm.trans hfits.1
  | query_project hp hfits =>
    obtain rfl := List.mem_singleton.mp hx
    exact (tree_kind (p := .query _) hp).symm.trans hfits.1
  | yy_AND hl hr ihl ihr | yy_OR hl hr ihl ihr => exact (List.mem_append.mp hx).elim ihl ihr

theorem tree_ne_true {q : Qualify} {a : Ast} (h : q.Tree conf a) : a ≠ .yy_TRUE := by
  rintro rfl
  have htrue : ∀ {o : RelOp} {left : Ast} {c : Constant}, o.tree left c ≠ .yy_TRUE := fun {o left c} h => by
    have hops := (tree_operands o left c).1
    rw [h] at hops
    cases hops
  generalize ha : Ast.yy_TRUE = a at h
  cases h with
  | projection => exact htrue ha.symm
  | query_project => exact htrue ha.symm
  | yy_AND | yy_OR => cases ha

variable {w : World} {N : Network Value}

/-- The rules of the order, each with its channel. -/
theorem ordered_compiled (hpar : Parsed par) (hN : compile_parse w par = some N) {r : Rule}
    (hr : r ∈ par.rules) :
    par.Orders r ↔ ∃ c, (r, c) ∈ compiled_rules w par := by
  rw [← hpar.ordered r hr, ← hpar.mem_rules_of hr]
  constructor
  · intro hmem
    have hmem' : r ∈ (compiled_rules w par).map Prod.fst := by
      rw [compiled_eq hN]
      exact List.mem_reverse.mpr hmem
    obtain ⟨rc, hrc, rfl⟩ := List.mem_map.mp hmem'
    exact ⟨rc.2, hrc⟩
  · rintro ⟨c, hrc⟩
    have hmem := List.mem_map_of_mem (f := Prod.fst) hrc
    rw [compiled_eq hN] at hmem
    exact List.mem_reverse.mp hmem

/-- Calls and queries are those of the statements that fire. -/
structure WrittenOut (conf : List Statement) (par : Parse) : Prop where
  rules : ∀ st ∈ conf, st.fires.isSome → ∃ r ∈ par.rules, Written conf st r
  statements : ∀ r ∈ par.rules, ∃ st ∈ conf, Written conf st r

/-- The rule of a statement is the one that it leaves. -/
theorem Conditioned.rule (hpar : Parsed par) (hN : compile_parse w par = some N) {st : Statement}
    {q : Qualify} {r : Rule} (hr : r ∈ par.rules) (hst : Written conf st r)
    (h : Conditioned w conf par N st q) :
    ∃ x argv c turn, (r, x) ∈ compiled_rules w par ∧
      Node.mk true false [⟨argv, true⟩, ⟨c, true⟩] [x] turn ∈ N.nodes ∧ Carries w conf par N q c := by
  obtain ⟨rc, hrc, hname, argv, c, turn, hnode, hcarries⟩ := h
  have hmem := List.mem_map_of_mem (f := Prod.fst) hrc
  rw [compiled_eq hN, List.mem_reverse] at hmem
  obtain ⟨n, -, -, hroot⟩ := mem_rules_of.mp hmem
  obtain rfl : rc.1 = r := List.inj_on_of_nodup_map hpar.names (root_mem hroot) hr
    (Option.some.inj (hname.symm.trans hst.name))
  exact ⟨rc.2, argv, c, turn, hrc, hnode, hcarries⟩

/-- What carries the when-clause is the channel of its tree. -/
theorem Conditioned.compiles (hw : Wired N) (hpar : Parsed par) (hN : compile_parse w par = some N)
    {st : Statement} {q : Qualify} {r : Rule} (hr : r ∈ par.rules) (hst : Written conf st r)
    (h : Conditioned w conf par N st q) : ∃ b a, Compiles w r.when_clause b a ∧
      (∀ nd ∈ a.2.nodes, nd ∈ N.nodes) ∧ Carries w conf par N q a.1 := by
  obtain ⟨x, argv, c, turn, hrc, hnode, hcarries⟩ := h.rule hpar hN hr hst
  obtain ⟨b, hsub, hknows, -⟩ := compile_parse_knows hN
  obtain ⟨argv', when, b₀, b₁, b₂, -, hwhen, hnodes, -, hrule⟩ := hknows _ hrc
  have hsame := node_unique hw hnode (hsub _ hrule) (List.mem_singleton_self _) (List.mem_singleton_self _)
  obtain ⟨-, hrest⟩ := List.cons.inj (Node.mk.inj hsame).2.2.1
  obtain rfl := (Port.mk.inj (List.cons.inj hrest).1).1
  exact ⟨b₁, (c, b₂), compile_compiles w _ hwhen, fun nd hnd => hsub nd (hnodes nd hnd), hcarries⟩

theorem compiled_typed (hN : compile_parse w par = some N) (hlive : Live N.nodes) {rc : Rule × ℕ}
    (hrc : rc ∈ compiled_rules w par) : rc.1.typed = true := by
  obtain ⟨b, hsub, hknows, -⟩ := compile_parse_knows hN
  exact (hknows rc hrc).typed fun nd hnd => hlive nd (hsub nd hnd)

/-- Nothing else is compiled soundly. -/
theorem soundly_written (hpar : Parsed par) (hout : WrittenOut conf par)
    (h : ∀ w, ∃ N, CompiledSoundly w conf par N) : SoundlyWritten conf par := by
  obtain ⟨N, hN, htyped, hconditioned⟩ := h plain_world
  have hordered : ∀ {st : Statement} {q : Qualify} {r : Rule}, st ∈ conf → r ∈ par.rules →
      Written conf st r → st.when_clause = some q → par.Orders r := fun hst hr hwritten hq => by
    obtain ⟨x, -, -, -, hrc, -⟩ := (hconditioned _ hst _ hq).rule hpar hN hr hwritten
    exact (ordered_compiled hpar hN hr).mpr ⟨x, hrc⟩
  have hstatement : ∀ st ∈ conf, st.Typed := by
    intro st hst
    by_cases hfires : st.fires.isSome
    · obtain ⟨r, hr, hwritten⟩ := hout.rules st hst hfires
      by_cases horders : par.Orders r
      · obtain ⟨c, hrc⟩ := (ordered_compiled hpar hN hr).mp horders
        exact hwritten.typed_iff.mp (compiled_typed hN (fun nd hnd port hport =>
          (htyped nd hnd port hport).1) hrc)
      · have hbuiltin : r.tok = .CALLX0 := by
          by_contra htok
          exact horders (.inr (.inr htok))
        refine ⟨fun p hp => ?_, fun x hx => ?_⟩
        · rw [hwritten.builtin hbuiltin] at hp
          cases hp
        · obtain ⟨q, hq, -⟩ := mem_comparisons hx
          exact absurd (hordered hst hr hwritten hq) horders
    · have hidle : st.args = [] ∧ st.when_clause = none := by
        cases st with
        | call | query => exact absurd rfl hfires
        | _ => exact ⟨rfl, rfl⟩
      refine ⟨fun p hp => ?_, fun x hx => ?_⟩
      · rw [hidle.1] at hp
        cases hp
      · obtain ⟨q, hq, -⟩ := mem_comparisons hx
        cases hidle.2.symm.trans hq
  refine ⟨compilable_of_compiled hpar hN, fun r hr => ?_, fun st hst => ⟨(hstatement st hst).1,
    fun x hx => ?_⟩⟩
  · obtain ⟨st, hst, hwritten⟩ := hout.statements r hr
    have hclause := hwritten.when_clause
    cases hq : st.when_clause with
    | none =>
      rw [hq] at hclause
      exact .inr hclause
    | some q => exact .inl (hordered hst hr hwritten hq)
  · have hsize := (hstatement st hst).2 x hx
    refine ⟨hsize, ?_⟩
    obtain ⟨q, hq, hxq⟩ := mem_comparisons hx
    obtain ⟨r, hr, hwritten⟩ := hout.rules st hst (fires_of_when_clause hq)
    have hkind := (hwritten.tree hq).kind hxq hsize
    refine plain_of_sent fun w v hv => ?_
    obtain ⟨N', hN', -, hconditioned'⟩ := h w
    have hw := compile_parse_wired hN'
    obtain ⟨b, a, hcompiles, hnodes, hcarries⟩ :=
      (hconditioned' st hst q hq).compiles hw hpar hN' hr hwritten
    exact carries_sent hw (hwritten.tree hq) hcompiles hnodes hcarries x hxq v (hkind ▸ hv)

theorem compiled_soundly (hpar : Parsed par) (hnamed : Named par) (hout : WrittenOut conf par)
    (h : SoundlyWritten conf par) (w : World) : ∃ N, CompiledSoundly w conf par N := by
  obtain ⟨N, hN⟩ := compile_parse_isSome hpar hnamed h.compilable w
  have hw := compile_parse_wired hN
  have htyped : ∀ r, par.Reached r → r.typed = true := by
    rintro r ⟨n, -, -, hroot⟩
    obtain ⟨st, hst, hwritten⟩ := hout.statements r (root_mem hroot)
    exact hwritten.typed_iff.mpr ⟨(h.statements st hst).args, fun x hx =>
      ((h.statements st hst).comparisons x hx).1⟩
  refine ⟨N, hN, fun nd hnd port hport => ⟨compile_parse_live hN htyped nd hnd port hport, ?_⟩,
    fun st hst q hq => ?_⟩
  · exact List.mem_range.mp (hw.read.mem_iff.mp (List.mem_append_left _
      (List.mem_flatten.mpr ⟨_, List.mem_map_of_mem hnd, List.mem_map_of_mem hport⟩)))
  · obtain ⟨r, hr, hwritten⟩ := hout.rules st hst (fires_of_when_clause hq)
    have htree := hwritten.tree hq
    have horders := (h.ordered r hr).resolve_right (tree_ne_true htree)
    obtain ⟨c, hrc⟩ := (ordered_compiled hpar hN hr).mp horders
    obtain ⟨b, hsub, hknows, hheard⟩ := compile_parse_knows hN
    obtain ⟨argv, when, b₀, b₁, b₂, hargv, hwhen, hnodes, hbehind, hrule⟩ := hknows (r, c) hrc
    have hnode := hsub _ hrule
    rw [rule_node, Ast.port, decide_eq_true htree.typed_iff.1] at hnode
    refine ⟨(r, c), hrc, hwritten.name, argv, when, _, hnode, qualify_carries htree
      (compile_compiles w _ hwhen)
      (fun x hx => ?_) (fun nd hnd => hsub nd (hnodes nd hnd)) fun name out hmem => ?_⟩
    · refine (h.statements st hst).comparisons x ?_
      rw [Statement.comparisons, hq]
      exact hx
    · rw [compile_argv_heard hargv] at hmem
      exact hheard name out (hbehind _ hmem)

/-- Exactly then. -/
theorem compiled_soundly_iff {regexp_Compile : String → Bool} {o : Tsort.MapOrder Text} {keys : KeyOrder}
    (h : config_parse regexp_Compile o keys conf = .ok par) :
    (∀ w, ∃ N, CompiledSoundly w conf par N) ↔ SoundlyWritten conf par := by
  obtain ⟨hrules, hstatements⟩ := config_parse_written h
  have hout : WrittenOut conf par := ⟨hrules, hstatements⟩
  exact ⟨soundly_written (config_parse_parsed h) hout,
    compiled_soundly (config_parse_parsed h) (fun n hn => config_parse_named h hn) hout⟩

end sound

/-- No flow is stuck, and the channels of the comparisons carry one value for each flow: the truth value of
what is written, on the value that is projected in this flow. -/
structure RunsSoundly (w : World) (conf : List Statement) (par : Parse) (N : Network Value)
    (s : LockStep.State Value) : Prop where
  goes_on : s.crashed = false ∧ (s.busy = true → s.aborted = false →
    ∃ e s', e ≠ .begin ∧ LockStep.step Value.flow N s e = some s')
  carried : ∀ x c, Compared w conf par N x c → (s.busy = false → (s.sent c).length = s.round) ∧
    ∀ j v, (s.sent c)[j]? = some v →
      ∃ u, Projected w conf par s j x.left u ∧ v = ⟨j + 1, .bool_value (x.truth w u)⟩

theorem runs_soundly {w : World} {conf : List Statement} {par : Parse} {N : Network Value}
    (hshort : ∀ r ∈ par.rules, r.args.length < 256) (h : CompiledSoundly w conf par N)
    {es : List LockStep.Event} {s : LockStep.State Value}
    (hrun : exec (LockStep.step Value.flow N) (start N) es = some s) : RunsSoundly w conf par N s := by
  have hs := compile_parse_standing h.compiles fun r ⟨n, _, _, hroot⟩ => hshort r (root_mem hroot)
  have hlock := Lockstep.run hs hrun
  refine ⟨⟨hlock.alive, fun hbusy hon => ?_⟩, fun x c hx => compared_runs hs.wired hlock hx⟩
  exact hlock.not_stuck hs hon (fun nd hnd port hport => (h.typed nd hnd port hport).1) hbusy

/-- The configurations that compile() serves, whatever the world may be: it does not panic, every operator
has its channels, and every comparison is evaluated as it is written. With less than 256 arguments for each
call and query, its channel carries the truth value in each flow of every run. -/
theorem comparisons_sound_iff {regexp_Compile : String → Bool} {o : Tsort.MapOrder Text} {keys : KeyOrder}
    {conf : List Statement} {par : Parse} (h : config_parse regexp_Compile o keys conf = .ok par) :
    ((∀ w, ∃ N, CompiledSoundly w conf par N) ↔ SoundlyWritten conf par) ∧
      ((∀ r ∈ par.rules, r.args.length < 256) → ∀ w N, CompiledSoundly w conf par N → ∀ es s,
        exec (LockStep.step Value.flow N) (start N) es = some s → RunsSoundly w conf par N s) :=
  ⟨compiled_soundly_iff h, fun hshort _ _ hN _ _ hrun => runs_soundly hshort hN hrun⟩

/-! ### A call with one comparison -/

section condition

/-- A call that is fired for some blobs. -/
def condition_conf (brr_field : BrrField) (c : Constant) : List Statement :=
  [.tail "t", .command "c" "/c", .call "c" [] (some (.projection (.tail_project "t" brr_field) .EQ c))]

def condition_lex (a : Ast) : yyLexState where
  tail := some "t"
  target := [⟨"c", .command "/c", 0, true⟩]
  depends := [("c", "t")]
  ast_root := [⟨.CALL, "c", [], a⟩]

theorem condition_accepted (brr_field : BrrField) (c : Constant) {a : Ast}
    (hl : statement_list (fun _ => true) {} (condition_conf brr_field c) = .ok (condition_lex a))
    (o : Tsort.MapOrder Text) : ∃ par,
      config_parse (fun _ => true) o ⟨id, fun _ => .refl _⟩ (condition_conf brr_field c) = .ok par ∧
        par.sync_map = [] ∧ par.rules = [⟨.CALL, "c", 0, [], a⟩] := by
  have hdepends : depends ⟨id, fun _ => .refl _⟩ (condition_lex a) = [("c", "t"), ("c", "c")] := rfl
  exact config_parse_flat o hl rfl (by rw [hdepends]; decide) (x := "c") (y := "t") (by decide)
    (by rw [hdepends]; decide)

end condition

/-- A call for the blobs that are got, and its first flow. -/
theorem verb_compared : ∃ (o : Tsort.MapOrder Text) (keys : KeyOrder) (par : Parse) (N : Network Value)
    (es : List LockStep.Event) (s : LockStep.State Value),
    config_parse (fun _ => true) o keys (condition_conf .VERB (.STRING "get")) = .ok par ∧
      CompiledSoundly plain_world (condition_conf .VERB (.STRING "get")) par N ∧
      exec (LockStep.step Value.flow N) (start N) es = some s ∧ (s.round = 1 ∧ s.busy = false) ∧
      RunsSoundly plain_world (condition_conf .VERB (.STRING "get")) par N s := by
  obtain ⟨o⟩ : Nonempty (Tsort.MapOrder Text) := inferInstance
  obtain ⟨par, hpar, hsync, hrules⟩ := condition_accepted .VERB (.STRING "get")
    (a := .EQ_STRING "get" (.PROJECT_BRR .VERB)) rfl o
  obtain ⟨hiff, hruns⟩ := comparisons_sound_iff hpar
  have hrefs : par.references = [] := by
    rw [Parse.references, hrules]
    rfl
  have hwritten : SoundlyWritten (condition_conf .VERB (.STRING "get")) par :=
    { compilable := ⟨by rw [hsync]; exact fun _ h => absurd h List.not_mem_nil,
        by rw [hrefs]; exact fun _ h => absurd h List.not_mem_nil, by
        unfold Parse.projections
        rw [hrefs]
        exact fun _ _ => Nat.zero_ne_add_one 254⟩
      ordered := by
        rw [hrules]
        exact List.forall_mem_singleton.mpr (.inl (.inr (.inr fun h => by cases h)))
      statements := by
        refine List.forall_mem_cons.mpr ⟨.of_nil rfl rfl, List.forall_mem_cons.mpr ⟨.of_nil rfl rfl,
          List.forall_mem_singleton.mpr ⟨fun _ h => absurd h List.not_mem_nil,
            List.forall_mem_singleton.mpr ⟨rfl, .inl rfl⟩⟩⟩⟩ }
  obtain ⟨N, hN⟩ := hiff.mpr hwritten plain_world
  have hreached : ∀ r, par.Reached r → r = ⟨.CALL, "c", 0, [], .EQ_STRING "get" (.PROJECT_BRR .VERB)⟩ := by
    rintro r ⟨n, -, -, hroot⟩
    exact List.mem_singleton.mp (hrules ▸ root_mem hroot)
  obtain ⟨es, s, hrun, hround, hidle⟩ := first_flow_ends hN.compiles
    (fun r hr => hreached r hr ▸ ⟨Nat.zero_lt_succ _, rfl⟩)
    fun r hr => hreached r hr ▸ ⟨fun _ h => absurd h List.not_mem_nil, rfl, calm_call fun _ _ h => by cases h⟩
  exact ⟨o, _, par, N, es, s, hpar, hN, hrun, ⟨hround, hidle⟩,
    hruns (by rw [hrules]; decide) plain_world N hN es s hrun⟩

/-- A call for the blobs of five bytes is accepted, but the comparison has no channel of numbers. -/
theorem size_never_compared : ¬ ∀ (o : Tsort.MapOrder Text) (keys : KeyOrder) (conf : List Statement)
    (par : Parse),
    config_parse (fun _ => true) o keys conf = .ok par → ∀ w, ∃ N, CompiledSoundly w conf par N := by
  intro hclaim
  obtain ⟨o⟩ : Nonempty (Tsort.MapOrder Text) := inferInstance
  obtain ⟨par, hpar, -, -⟩ := condition_accepted .BLOB_SIZE (.UINT64 5)
    (a := .EQ_UINT64 5 (.PROJECT_BRR .BLOB_SIZE)) rfl o
  have hsound := ((compiled_soundly_iff hpar).mp (hclaim o _ _ par hpar)).statements _
    (List.mem_cons_of_mem _ (List.mem_cons_of_mem _ (List.mem_singleton_self _)))
  cases (hsound.comparisons _ (List.mem_singleton_self _)).1

end Blobio.Flowd
