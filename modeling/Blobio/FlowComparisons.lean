import Blobio.FlowReferences

/-! The arguments and the comparisons of a configuration as they are written, and the trees that the
parser leaves of them. -/
namespace Blobio.Flowd.Grammar

/-! ### Trees with types -/

section typed
variable {a left : Ast} {c : Constant}

/-- The type of a constant. -/
def Constant.kind : Constant → Kind
  | UINT64 _ => .uint64
  | STRING _ => .string
  | yy_TRUE | yy_FALSE => .bool

/-- The comparison of a tree with a constant. -/
def RelOp.tree (o : RelOp) (left : Ast) : Constant → Ast
  | .UINT64 ui64 => uint64_rel_op left o ui64
  | .yy_TRUE => bool_rel_op left o true
  | .yy_FALSE => bool_rel_op left o false
  | .STRING s =>
    match o with
    | .EQ => .EQ_STRING s left
    | .NEQ => .NEQ_STRING s left
    | .MATCH => .MATCH_STRING s left
    | .NO_MATCH => .NO_MATCH_STRING s left

theorem tree_operands (o : RelOp) (left : Ast) (c : Constant) :
    (o.tree left c).operands = [(left, c.kind)] ∧ (o.tree left c).projects = none ∧
      (o.tree left c).kind = .bool := by
  cases c <;> cases o <;> exact ⟨rfl, rfl, rfl⟩

theorem tree_typed (o : RelOp) (left : Ast) (c : Constant) :
    (o.tree left c).typed = true ↔ left.kind = c.kind ∧ left.typed = true := by
  cases c <;> cases o <;> exact decide_eq_true_iff

/-- A tree whose goroutine finds values of the type that it compares. -/
def Comparable (left : Ast) (c : Constant) : Prop := left.kind = c.kind ∧ left.typed = true

theorem is_string_typed (h : is_string a = true) : a.kind = .string ∧ a.typed = true := by
  cases a <;> first | exact ⟨rfl, rfl⟩ | cases h

theorem is_uint64_typed (h : is_uint64 a = true) : a.kind = .uint64 ∧ a.typed = true := by
  cases a <;> first | exact ⟨rfl, rfl⟩ | cases h

theorem is_bool_typed (h : is_bool a = true) : a.kind = .bool ∧ a.typed = true := by
  cases a <;> first | exact ⟨rfl, rfl⟩ | cases h

variable {regexp_Compile : String → Bool} {o : RelOp}

theorem string_rel_op_tree {error s : String} (h : string_rel_op regexp_Compile error left s o = .ok a) :
    a = o.tree left (.STRING s) := by
  cases o with
  | EQ | NEQ => exact (Except.ok.inj h).symm
  | MATCH | NO_MATCH => exact (Except.ok.inj (ite_ok' h).2).symm

/-- All but the sizes of blobs are compared with a constant of their type. -/
theorem wire_rel_op_tree {tail : String} (h : wire_rel_op regexp_Compile tail left o c = .ok a) :
    a = o.tree left c ∧ (left = .PROJECT_BRR .BLOB_SIZE ∧ c.kind = .uint64 ∨
      left ≠ .PROJECT_BRR .BLOB_SIZE ∧ Comparable left c) := by
  unfold wire_rel_op at h
  split at h
  case h_1 =>
    split at h
    · exact ⟨(Except.ok.inj h).symm, .inl ⟨rfl, rfl⟩⟩
    · cases h
  case h_2 hfield =>
    split at h
    · exact ⟨string_rel_op_tree h, .inr ⟨fun heq => hfield (Ast.PROJECT_BRR.inj heq), rfl, rfl⟩⟩
    · cases h
  case h_3 =>
    split at h
    · exact ⟨(Except.ok.inj h).symm, .inr ⟨nofun, rfl, rfl⟩⟩
    · cases h
  case h_4 sync_map domain =>
    obtain ⟨hstring, h⟩ := ite_ok' h
    have htyped : (Ast.PROJECT_SYNC_MAP_LOS_TRUE_LOADED sync_map domain).typed = true :=
      decide_eq_true (is_string_typed hstring)
    split at h
    · exact ⟨(Except.ok.inj h).symm, .inr ⟨nofun, rfl, htyped⟩⟩
    · exact ⟨(Except.ok.inj h).symm, .inr ⟨nofun, rfl, htyped⟩⟩
    · cases h
  case h_5 => cases h

theorem query_rel_op_tree (h : query_rel_op regexp_Compile left o c = .ok a) :
    a = o.tree left c ∧ Comparable left c := by
  cases c with
  | yy_TRUE | yy_FALSE =>
    obtain ⟨hbool, h⟩ := ite_ok' h
    exact ⟨(Except.ok.inj h).symm, is_bool_typed hbool⟩
  | UINT64 =>
    obtain ⟨huint64, h⟩ := ite_ok' h
    exact ⟨(Except.ok.inj h).symm, is_uint64_typed huint64⟩
  | STRING =>
    obtain ⟨hstring, h⟩ := ite_ok' h
    exact ⟨string_rel_op_tree h, is_string_typed hstring⟩

end typed

/-! ### What is written -/

/-- What stands on the left of a comparison. -/
inductive Projection
  | arg (p : Arg)
  | query (p : QueryProject)

structure Comparison where
  left : Projection
  op : RelOp
  right : Constant

/-- The comparisons of a when-clause. -/
def Qualify.comparisons : Qualify → List Comparison
  | projection p o c => [⟨.arg p, o, c⟩]
  | query_project p o c => [⟨.query p, o, c⟩]
  | yy_AND left right | yy_OR left right => left.comparisons ++ right.comparisons

namespace Statement

/-- The name that a statement fires. -/
def fires : Statement → Option String
  | call name _ _ | query name _ _ => some name
  | _ => none

def args : Statement → List Arg
  | call _ args _ | query _ args _ => args
  | _ => []

def when_clause : Statement → Option Qualify
  | call _ _ when_clause | query _ _ when_clause => when_clause
  | _ => none

def comparisons (st : Statement) : List Comparison := (st.when_clause.map Qualify.comparisons).getD []

end Statement

def Arg.tree : Arg → Ast
  | constant c => c.ast
  | tail_project _ brr_field => .PROJECT_BRR brr_field
  | call_project command => .PROJECT_XDR_EXIT_STATUS command
  | project_sync_map sync_map p => .PROJECT_SYNC_MAP_LOS_TRUE_LOADED sync_map p.tree

/-- The offset of a column in the rows of a query. -/
def Column (conf : List Statement) (query name : String) (offset : ℕ) : Prop :=
  ∃ row, .sql_query_row query row ∈ conf ∧ row[offset]? = some name ∧ offset < 256

/-- The tree of a projection from a query, with the columns that the configuration gives the query. -/
inductive QueryProject.Tree (conf : List Statement) : QueryProject → Ast → Prop
  | query_row_bool {query name : String} {offset : ℕ} (h : Column conf query name offset) :
      Tree conf (.query_row_bool query name) (.PROJECT_SQL_QUERY_ROW_BOOL query (UInt8.ofNat offset))
  | rows_affected {query : String} : Tree conf (.rows_affected query) (.PROJECT_QDR_ROWS_AFFECTED query)
  | sqlstate {query : String} : Tree conf (.sqlstate query) (.PROJECT_QDR_SQLSTATE query)

def Projection.Tree (conf : List Statement) : Projection → Ast → Prop
  | arg p, a => a = p.tree
  | query p, a => p.Tree conf a

/-- Comparisons of the size of a blob. -/
def Projection.on_blob_size : Projection → Bool
  | arg (.tail_project _ .BLOB_SIZE) => true
  | _ => false

theorem on_blob_size_iff {conf : List Statement} {p : Projection} {left : Ast} (h : p.Tree conf left) :
    p.on_blob_size = true ↔ left = .PROJECT_BRR .BLOB_SIZE := by
  cases p with
  | arg p =>
    obtain rfl := h
    cases p with
    | tail_project _ brr_field => cases brr_field <;> simp [Projection.on_blob_size, Arg.tree]
    | constant c => cases c <;> simp [Projection.on_blob_size, Arg.tree, Constant.ast]
    | call_project | project_sync_map => simp [Projection.on_blob_size, Arg.tree]
  | query p => cases h <;> simp [Projection.on_blob_size]

/-- The trees of a when-clause: those of its comparisons, each of which has an operand of its type
unless it compares the size of a blob. -/
inductive Qualify.Tree (conf : List Statement) : Qualify → Ast → Prop
  | projection {p : Arg} {o : RelOp} {c : Constant}
      (h : (Projection.arg p).on_blob_size = true ∧ c.kind = .uint64 ∨
        (Projection.arg p).on_blob_size = false ∧ Comparable p.tree c) :
      Tree conf (.projection p o c) (o.tree p.tree c)
  | query_project {p : QueryProject} {o : RelOp} {c : Constant} {left : Ast} (hp : p.Tree conf left)
      (h : Comparable left c) : Tree conf (.query_project p o c) (o.tree left c)
  | yy_AND {p q : Qualify} {left right : Ast} (hleft : Tree conf p left) (hright : Tree conf q right) :
      Tree conf (.yy_AND p q) (.yy_AND left right)
  | yy_OR {p q : Qualify} {left right : Ast} (hleft : Tree conf p left) (hright : Tree conf q right) :
      Tree conf (.yy_OR p q) (.yy_OR left right)

/-- The tree of a when-clause, or that of none. -/
def WhenTree (conf : List Statement) : Option Qualify → Ast → Prop
  | none, a => a = .yy_TRUE
  | some q, a => q.Tree conf a

/-- What the parser leaves of a statement that fires. -/
structure Written (conf : List Statement) (st : Statement) (r : Rule) : Prop where
  name : st.fires = some r.name
  args : r.args = st.args.map fun p => cast_argument p.tree
  when_clause : WhenTree conf st.when_clause r.when_clause
  builtin : r.tok = .CALLX0 → st.args = []

/-! ### What the parser leaves of it -/

/-- The rows of the queries that have been declared are those of the configuration. -/
structure Declared (conf : List Statement) (l : yyLexState) : Prop where
  names : (l.target.map Target.name).Nodup
  rows : ∀ t ∈ l.target, ∀ row, t.object = .sql_query_row row →
    .sql_query_row t.name row ∈ conf ∧ row.length ≤ 16

section parsed
variable {regexp_Compile : String → Bool} {conf : List Statement} {l l' m : yyLexState} {s : Subject}
  {a : Ast}

theorem Refers.declared {name : String} {us : List Use} (h : Refers name us l l') (hl : Declared conf l) :
    Declared conf l' where
  names := h.names ▸ hl.names
  rows := fun t ht row hrow => by
    rw [h.target] at ht
    obtain ⟨u, hu, rfl⟩ := List.mem_map.mp ht
    exact hl.rows u hu row hrow

theorem Declared.call (hl : Declared conf l) (n : String) : Declared conf (l.call n) where
  names := by
    have hsame : (l.call n).target.map Target.name = l.target.map Target.name := by
      rw [yyLexState.call, List.map_map]
      exact List.map_congr_left fun t _ => call_name n t
    rw [hsame]
    exact hl.names
  rows := fun t ht row hrow => by
    obtain ⟨u, hu, rfl⟩ := List.mem_map.mp ht
    rw [call_object] at hrow
    rw [call_name]
    exact hl.rows u hu row hrow

theorem arg_tree {p : Arg} (h : arg l s p = .ok (a, l')) : a = p.tree := by
  induction p generalizing a l' with
  | constant c => exact (Prod.mk.inj (Except.ok.inj h)).1.symm
  | tail_project => exact (Prod.mk.inj (Except.ok.inj (ite_ok' h).2)).1.symm
  | call_project =>
    obtain ⟨t, -, h⟩ := bind_ok h
    obtain ⟨l₁, -, h⟩ := bind_ok h
    exact (Prod.mk.inj (Except.ok.inj h)).1.symm
  | project_sync_map sync_map p ih =>
    obtain ⟨-, h⟩ := ite_ok' h
    obtain ⟨⟨left, l₁⟩, hleft, h⟩ := bind_ok h
    rw [← (Prod.mk.inj (Except.ok.inj h)).1, ih hleft]
    rfl

theorem arg_list_tree {ps : List Arg} {as : List Ast}
    (h : arg_list l s ps = .ok (as, l')) : as = ps.map Arg.tree := by
  induction ps generalizing l l' as with
  | nil => exact (Prod.mk.inj (Except.ok.inj h)).1.symm
  | cons p ps ih =>
    obtain ⟨⟨a, l₁⟩, ha, h⟩ := bind_ok h
    obtain ⟨⟨as, l₂⟩, has, h⟩ := bind_ok h
    rw [← (Prod.mk.inj (Except.ok.inj h)).1, List.map_cons, arg_tree ha, ih has]

theorem query_project_tree {p : QueryProject} (hl : Declared conf l)
    (h : query_project l s p = .ok (a, l')) :
    p.Tree conf a := by
  cases p with
  | query_row_bool query name =>
    obtain ⟨t, ht, h⟩ := bind_ok h
    split at h
    case h_1 row hobject =>
      split at h
      case h_1 => cases h
      case h_2 offset hoffset =>
        obtain ⟨l₁, -, h⟩ := bind_ok h
        obtain ⟨rfl, -⟩ := Prod.mk.inj (Except.ok.inj h)
        unfold yyLexState.query at ht
        split at ht
        case h_1 u hu =>
          obtain rfl := Except.ok.inj (ite_ok ht).2
          obtain ⟨hmem, rfl⟩ := lookup_some hu
          obtain ⟨hrow, hlen⟩ := hl.rows u hmem row hobject
          obtain ⟨hlt, hname, -⟩ := List.idxOf?_eq_some_iff.mp hoffset
          refine .query_row_bool ⟨row, hrow, ?_, by omega⟩
          rw [List.getElem?_eq_getElem hlt, hname]
        case h_2 => cases ht
    case h_2 => cases h
  | rows_affected query =>
    obtain ⟨t, -, h⟩ := bind_ok h
    obtain ⟨l₁, -, h⟩ := bind_ok h
    obtain ⟨rfl, -⟩ := Prod.mk.inj (Except.ok.inj h)
    exact .rows_affected
  | sqlstate query =>
    obtain ⟨t, -, h⟩ := bind_ok h
    obtain ⟨l₁, -, h⟩ := bind_ok h
    obtain ⟨rfl, -⟩ := Prod.mk.inj (Except.ok.inj h)
    exact .sqlstate

theorem qualify_tree {q : Qualify} (hl : Declared conf l) (h : qualify regexp_Compile l s q = .ok (a, l')) :
    q.Tree conf a := by
  induction q generalizing l l' a with
  | projection p o c =>
    obtain ⟨⟨left, l₁⟩, hleft, h⟩ := bind_ok h
    obtain ⟨b, hb, h⟩ := bind_ok h
    obtain ⟨rfl, -⟩ := Prod.mk.inj (Except.ok.inj h)
    obtain rfl := arg_tree hleft
    obtain ⟨rfl, hor⟩ := wire_rel_op_tree hb
    have hsize := @on_blob_size_iff conf (.arg p) _ rfl
    refine .projection (hor.imp (fun h => ⟨hsize.mpr h.1, h.2⟩) fun h => ⟨?_, h.2⟩)
    exact Bool.eq_false_iff.mpr fun hon => h.1 (hsize.mp hon)
  | query_project p o c =>
    obtain ⟨⟨left, l₁⟩, hleft, h⟩ := bind_ok h
    obtain ⟨b, hb, h⟩ := bind_ok h
    obtain ⟨rfl, -⟩ := Prod.mk.inj (Except.ok.inj h)
    obtain ⟨rfl, htyped⟩ := query_rel_op_tree hb
    exact .query_project (query_project_tree hl hleft) htyped
  | yy_AND left right ihl ihr =>
    obtain ⟨⟨left, l₁⟩, hleft, h⟩ := bind_ok h
    obtain ⟨⟨right, l₂⟩, hright, h⟩ := bind_ok h
    obtain ⟨rfl, -⟩ := Prod.mk.inj (Except.ok.inj h)
    exact .yy_AND (ihl hl hleft) (ihr ((qualify_refers hl.names hleft).declared hl) hright)
  | yy_OR left right ihl ihr =>
    obtain ⟨⟨left, l₁⟩, hleft, h⟩ := bind_ok h
    obtain ⟨⟨right, l₂⟩, hright, h⟩ := bind_ok h
    obtain ⟨rfl, -⟩ := Prod.mk.inj (Except.ok.inj h)
    exact .yy_OR (ihl hl hleft) (ihr ((qualify_refers hl.names hleft).declared hl) hright)

/-- The call or query that a statement leaves. -/
theorem fire_written {called_twice : String} {t : Target} {tok : Firing} {ps : List Arg} {q : Option Qualify}
    (hl : Declared conf l) (h : fire regexp_Compile l s called_twice t tok ps q = .ok l') :
    Declared conf l' ∧ ∃ a, WhenTree conf q a ∧
      l'.ast_root = l.ast_root ++ [⟨tok, t.name, ps.map fun p => cast_argument p.tree, a⟩] := by
  obtain ⟨⟨as, l₁⟩, has, h⟩ := bind_ok h
  obtain ⟨-, h⟩ := ite_ok h
  obtain ⟨⟨a, l₂⟩, ha, h⟩ := bind_ok h
  obtain rfl := Except.ok.inj h
  have hargs := arg_list_refers hl.names has
  have hcall : Declared conf (l₁.call t.name) := (hargs.declared hl).call t.name
  have hwhen := when_clause_refers hcall.names ha
  have htree : WhenTree conf q a := by
    cases q with
    | none => exact (Prod.mk.inj (Except.ok.inj ha)).1.symm
    | some q => exact qualify_tree hcall ha
  have hsame : l₂.ast_root = l.ast_root := hwhen.ast_root.trans hargs.ast_root
  have hdone := hwhen.declared hcall
  refine ⟨⟨hdone.names, hdone.rows⟩, a, htree, ?_⟩
  rw [hsame, arg_list_tree has, List.map_map]
  rfl

theorem sql_result_eq {name : String} {result_row row r : List String}
    (h : sql_result name result_row row = .ok r)
    (hlen : result_row.length ≤ 16) : r = result_row ++ row ∧ r.length ≤ 16 := by
  induction row generalizing result_row with
  | nil =>
    obtain rfl := Except.ok.inj h
    exact ⟨(List.append_nil _).symm, hlen⟩
  | cons a row ih =>
    obtain ⟨-, h⟩ := ite_ok h
    obtain ⟨hroom, h⟩ := ite_ok h
    have hnext : (result_row ++ [a]).length ≤ 16 := by
      rw [List.length_append, List.length_singleton]
      omega
    obtain ⟨hr, hle⟩ := ih h hnext
    exact ⟨by rw [hr, List.append_assoc, List.singleton_append], hle⟩

/-- The statements of a configuration that fire. -/
def firing (conf : List Statement) : List Statement := conf.filter fun st => st.fires.isSome

theorem Declared.declare (hl : Declared conf l) {t : Target}
    (hnames : ((l.target ++ [t]).map Target.name).Nodup)
    (hrow : ∀ row, t.object = .sql_query_row row → .sql_query_row t.name row ∈ conf ∧ row.length ≤ 16) :
    Declared conf { l with target := l.target ++ [t] } where
  names := hnames
  rows := fun u hu row hobject => by
    rcases List.mem_append.mp hu with hu | hu
    · exact hl.rows u hu row hobject
    · obtain rfl := List.mem_singleton.mp hu
      exact hrow row hobject

theorem statement_written {st : Statement} (hacc : Accounted l) (hl : Declared conf l) (hmem : st ∈ conf)
    (h : statement regexp_Compile l st = .ok l') : Declared conf l' ∧ ∃ fs, l'.ast_root = l.ast_root ++ fs ∧
      List.Forall₂ (fun st f => Written conf st (m.rule f)) (firing [st]) fs := by
  have hnames := (statement_accounted hacc h).names
  cases st with
  | sync_map name =>
    obtain ⟨u, -, h⟩ := bind_ok h
    obtain rfl := Except.ok.inj h
    exact ⟨⟨hl.names, hl.rows⟩, [], (List.append_nil _).symm, .nil⟩
  | tail name =>
    obtain ⟨u, -, h⟩ := bind_ok h
    split at h
    case h_1 =>
      obtain rfl := Except.ok.inj h
      exact ⟨⟨hl.names, hl.rows⟩, [], (List.append_nil _).symm, .nil⟩
    case h_2 => cases h
  | command name path =>
    obtain ⟨u, -, h⟩ := bind_ok h
    obtain ⟨-, h⟩ := ite_ok h
    obtain ⟨-, h⟩ := ite_ok h
    obtain rfl := Except.ok.inj h
    exact ⟨hl.declare hnames fun _ h => Object.noConfusion h, [], (List.append_nil _).symm, .nil⟩
  | sql_query_row name row =>
    obtain ⟨u, -, h⟩ := bind_ok h
    obtain ⟨name2result, hresult, h⟩ := bind_ok h
    obtain ⟨-, h⟩ := ite_ok h
    obtain rfl := Except.ok.inj h
    obtain ⟨rfl, hlen⟩ := sql_result_eq hresult (Nat.zero_le _)
    refine ⟨hl.declare hnames fun row' hrow => ?_, [], (List.append_nil _).symm, .nil⟩
    obtain rfl := Object.sql_query_row.inj hrow
    exact ⟨hmem, hlen⟩
  | sql_exec name stmts =>
    obtain ⟨u, -, h⟩ := bind_ok h
    obtain ⟨-, h⟩ := ite_ok h
    obtain rfl := Except.ok.inj h
    exact ⟨hl.declare hnames fun _ h => Object.noConfusion h, [], (List.append_nil _).symm, .nil⟩
  | call name args q =>
    rw [statement] at h
    split at h
    case h_1 => cases h
    case h_2 t hlookup =>
      obtain ⟨-, rfl⟩ := lookup_some hlookup
      split at h
      case h_1 path hobject =>
        obtain ⟨hdone, a, hwhen, hroot⟩ := fire_written hl h
        refine ⟨hdone, _, hroot, .cons ⟨rfl, rfl, hwhen, fun htok => ?_⟩ .nil⟩
        have hbuiltin : args.length = 0 ∧ path = "true" := by
          by_contra hno
          rw [if_neg hno] at htok
          cases htok
        exact List.length_eq_zero_iff.mp hbuiltin.1
      case h_2 => cases h
  | query name args q =>
    rw [statement] at h
    split at h
    case h_1 => cases h
    case h_2 t hlookup =>
      obtain ⟨-, rfl⟩ := lookup_some hlookup
      split at h
      case h_1 => cases h
      case h_2 row hobject =>
        obtain ⟨hdone, a, hwhen, hroot⟩ := fire_written hl h
        exact ⟨hdone, _, hroot, .cons ⟨rfl, rfl, hwhen, fun htok => by cases htok⟩ .nil⟩
      case h_3 stmts hobject =>
        obtain ⟨hdone, a, hwhen, hroot⟩ := fire_written hl h
        refine ⟨hdone, _, hroot, .cons ⟨rfl, rfl, hwhen, fun htok => ?_⟩ .nil⟩
        rw [yyLexState.rule] at htok
        split_ifs at htok

/-- What the parser leaves of the statements that fire, one call or query for each of them. -/
theorem statement_list_written {sts : List Statement} (hacc : Accounted l) (hl : Declared conf l)
    (hsub : sts ⊆ conf)
    (h : statement_list regexp_Compile l sts = .ok l') :
    ∃ fs, l'.ast_root = l.ast_root ++ fs ∧ List.Forall₂ (fun st f => Written conf st (m.rule f))
      (firing sts) fs := by
  induction sts generalizing l with
  | nil =>
    obtain rfl := Except.ok.inj h
    exact ⟨[], (List.append_nil _).symm, .nil⟩
  | cons st sts ih =>
    obtain ⟨l₁, hst, h⟩ := bind_ok h
    obtain ⟨hl₁, fs, hroot, hfirst⟩ := statement_written hacc hl (hsub List.mem_cons_self) hst
    obtain ⟨gs, hroot', hrest⟩ := ih (statement_accounted hacc hst) hl₁
      (fun st' hst' => hsub (List.mem_cons_of_mem _ hst')) h
    refine ⟨fs ++ gs, by rw [hroot', hroot, List.append_assoc], ?_⟩
    have hsplit : firing (st :: sts) = firing [st] ++ firing sts := by
      rw [firing, ← List.singleton_append, List.filter_append]
      rfl
    rw [hsplit]
    exact List.rel_append hfirst hrest

/-- Calls and queries on the one side, and statements that fire on the other. -/
theorem config_parse_written {o : Tsort.MapOrder Text} {keys : KeyOrder} {par : Parse}
    (h : config_parse regexp_Compile o keys conf = .ok par) :
    (∀ st ∈ conf, st.fires.isSome → ∃ r ∈ par.rules, Written conf st r) ∧
      ∀ r ∈ par.rules, ∃ st ∈ conf, Written conf st r := by
  obtain ⟨l, order, hlen, hl, -, -, -, -, hcalls, hqueries⟩ := config_parse_cases h
  obtain ⟨fs, hroot, hall⟩ := statement_list_written (m := l) accounted_start
    ⟨List.nodup_nil, fun _ hno => absurd hno List.not_mem_nil⟩ (List.Subset.refl conf) hl
  have hrules := rules_eq_fires hcalls hqueries
  rw [hroot, List.nil_append] at hrules
  constructor
  · intro st hst hfires
    have hmem : st ∈ firing conf := List.mem_filter.mpr ⟨hst, hfires⟩
    obtain ⟨i, rfl⟩ := List.mem_iff_get.mp hmem
    have hi : i.1 < fs.length := i.2.trans_eq hall.length_eq
    exact ⟨_, hrules.symm.subset (List.mem_map_of_mem (List.getElem_mem hi)), hall.get i.2 hi⟩
  · intro r hr
    obtain ⟨f, hf, rfl⟩ := List.mem_map.mp (hrules.subset hr)
    obtain ⟨i, rfl⟩ := List.mem_iff_get.mp hf
    have hi : i.1 < (firing conf).length := i.2.trans_eq hall.length_eq.symm
    exact ⟨_, (List.mem_filter.mp (List.getElem_mem hi)).1, hall.get hi i.2⟩

end parsed

/-! ### Which of it is typed -/

/-- Arguments with a string for argv(). -/
def Arg.is_text : Arg → Bool
  | constant .yy_TRUE | constant .yy_FALSE | project_sync_map _ _ => false
  | _ => true

theorem cast_argument_typed (p : Arg) :
    (cast_argument p.tree).kind = .string ∧ (cast_argument p.tree).typed = true ↔ p.is_text = true := by
  cases p with
  | constant c =>
    cases c <;> simp [Arg.tree, Constant.ast, cast_argument, is_uint64, Ast.kind, Ast.typed, Arg.is_text]
  | tail_project | call_project | project_sync_map =>
    simp [Arg.tree, cast_argument, is_uint64, Ast.kind, Ast.typed, Arg.is_text]

theorem Qualify.Tree.typed_iff {conf : List Statement} {q : Qualify} {a : Ast} (h : q.Tree conf a) :
    a.kind = .bool ∧ (a.typed = true ↔ ∀ x ∈ q.comparisons, x.left.on_blob_size = false) := by
  induction h with
  | @projection p o c h =>
    refine ⟨(tree_operands o p.tree c).2.2, ?_⟩
    rw [tree_typed, Qualify.comparisons, List.forall_mem_singleton]
    rcases h with ⟨hsize, hkind⟩ | ⟨hsize, hfits⟩
    · have hleft := (@on_blob_size_iff conf (.arg p) _ rfl).mp hsize
      rw [hleft, hkind, hsize]
      exact iff_of_false (by rintro ⟨hno, -⟩; cases hno) Bool.true_eq_false.mp
    · exact iff_of_true hfits hsize
  | @query_project p o c left hp h =>
    refine ⟨(tree_operands o left c).2.2, ?_⟩
    rw [tree_typed, Qualify.comparisons, List.forall_mem_singleton]
    exact iff_of_true h rfl
  | yy_AND hleft hright ihl ihr | yy_OR hleft hright ihl ihr =>
    refine ⟨rfl, ?_⟩
    rw [Qualify.comparisons, List.forall_mem_append, ← ihl.2, ← ihr.2, Ast.typed, decide_eq_true_iff]
    simp [ihl.1, ihr.1]

/-- The arguments of a statement are texts, and no blob size is compared in it. -/
def Statement.Typed (st : Statement) : Prop :=
  (∀ p ∈ st.args, p.is_text = true) ∧ ∀ x ∈ st.comparisons, x.left.on_blob_size = false

theorem Written.typed_iff {conf : List Statement} {st : Statement} {r : Rule} (h : Written conf st r) :
    r.typed = true ↔ st.Typed := by
  have hwhen : (r.when_clause.kind = .bool ∧ r.when_clause.typed = true) ↔
      ∀ x ∈ st.comparisons, x.left.on_blob_size = false := by
    have hclause := h.when_clause
    unfold Statement.comparisons
    cases hq : st.when_clause with
    | none =>
      rw [hq] at hclause
      rw [hclause]
      exact iff_of_true ⟨rfl, rfl⟩ fun _ hno => absurd hno List.not_mem_nil
    | some q =>
      rw [hq] at hclause
      obtain ⟨hkind, htyped⟩ := hclause.typed_iff
      exact (and_iff_right hkind).trans htyped
  rw [Statement.Typed, ← hwhen, Rule.typed, decide_eq_true_iff, h.args]
  refine and_congr ?_ Iff.rfl
  rw [List.all_map, List.all_eq_true]
  refine forall₂_congr fun p hp => ?_
  rw [← cast_argument_typed]
  exact decide_eq_true_iff

end Blobio.Flowd.Grammar
