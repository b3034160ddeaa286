import Blobio.FlowNetworks
import Blobio.Tsort

/-! The actions of flowd's grammar for calls and queries: the references they count, the dependencies
they collect, and the trees they leave for compile(). -/
namespace Blobio.Flowd.Grammar

inductive Constant
  | UINT64 (uint64 : UInt64)
  | STRING (string : String)
  | yy_TRUE
  | yy_FALSE
  deriving DecidableEq

def Constant.ast : Constant → Ast
  | UINT64 ui64 => .UINT64 ui64
  | STRING s => .STRING s
  | yy_TRUE => .yy_TRUE
  | yy_FALSE => .yy_FALSE

inductive RelOp
  | EQ
  | NEQ
  | MATCH
  | NO_MATCH
  deriving DecidableEq

/-- What the grammar has for an argument: a projection or a constant. -/
inductive Arg
  | constant (c : Constant)
  | tail_project (tail : String) (brr_field : BrrField)
  | call_project (command : String)
  | project_sync_map (sync_map : String) (arg : Arg)

inductive QueryProject
  | query_row_bool (query name : String)
  | rows_affected (query : String)
  | sqlstate (query : String)

inductive Qualify
  | projection (p : Arg) (o : RelOp) (c : Constant)
  | query_project (p : QueryProject) (o : RelOp) (c : Constant)
  | yy_AND (left right : Qualify)
  | yy_OR (left right : Qualify)

/-- The statements that declare names and that fire. A query without a when-clause, like a call, is
always fired. -/
inductive Statement
  | sync_map (name : String)
  | tail (name : String)
  | command (name path : String)
  | sql_query_row (name : String) (result_row : List String)
  | sql_exec (name : String) (statement : List String)
  | call (name : String) (args : List Arg) (when_clause : Option Qualify)
  | query (name : String) (args : List Arg) (when_clause : Option Qualify)

/-- What a rule may project from. -/
inductive Object
  | command (path : String)
  | sql_query_row (name2result : List String)
  | sql_exec (statement : List String)
  deriving DecidableEq

def Object.is_command : Object → Bool
  | command _ => true
  | _ => false

structure Target where
  name : String
  object : Object
  depend_ref_count : UInt8 := 0
  called : Bool := false
  deriving DecidableEq

/-- A call or query with its left and its right child. -/
structure Fire where
  tok : Firing
  name : String
  args : List Ast
  when_clause : Ast
  deriving DecidableEq

/-- The parser's state. The maps `call2ast` and `query2ast` hold the calls and the queries of
`ast_root` by their names. -/
structure yyLexState where
  tail : Option String := none
  /-- the sync maps, and whether they are referenced -/
  sync_map : List (String × Bool) := []
  target : List Target := []
  depends : List (String × String) := []
  ast_root : List Fire := []

/-- The rule whose arguments or when-clause are parsed: `l.call`, `l.sql_query_row` or `l.sql_exec`. -/
structure Subject where
  what : String
  name : String

def syntax_error : String := "syntax error"

def nil_pointer : String := "invalid memory address or nil pointer dereference"

namespace yyLexState

def lookup (l : yyLexState) (name : String) : Option Target := l.target.find? fun t => t.name = name

/-- COMMAND_REF -/
def command (l : yyLexState) (name : String) : Except String Target :=
  match l.lookup name with
  | some t => if t.object.is_command then .ok t else .error syntax_error
  | none => .error syntax_error

/-- SQL_QUERY_ROW_REF and SQL_EXEC_REF -/
def query (l : yyLexState) (name : String) : Except String Target :=
  match l.lookup name with
  | some t => if t.object.is_command then .error syntax_error else .ok t
  | none => .error syntax_error

/-- A word of the lexer that no declaration has taken. -/
def is_name (l : yyLexState) (name : String) : Bool :=
  name ≠ "" ∧ name.toList.all (fun c => c.isAlphanum ∨ c = '_') ∧ l.tail ≠ some name ∧
    l.sync_map.all (fun sm => sm.1 ≠ name) ∧ l.lookup name = none

end yyLexState

def Target.refer (name : String) (t : Target) : Target :=
  if t.name = name then { t with depend_ref_count := t.depend_ref_count + 1 } else t

def Target.call (name : String) (t : Target) : Target :=
  if t.name = name then { t with called := true } else t

/-- The references to a command, query or exec are counted in a byte. -/
def refer (l : yyLexState) (s : Subject) (too_many : String) (t : Target) : Except String yyLexState :=
  if t.depend_ref_count = 255 then .error too_many
  else if s.name = t.name then .error s!"{s.what} '{t.name}' refers to itself"
  else .ok { l with target := l.target.map (Target.refer t.name), depends := l.depends ++ [(s.name, t.name)] }

def reference_sync_map (l : yyLexState) (name : String) : yyLexState :=
  { l with sync_map := l.sync_map.map fun sm => if sm.1 = name then (sm.1, true) else sm }

/-- The productions `arg` and `projection`. -/
def arg (l : yyLexState) (s : Subject) : Arg → Except String (Ast × yyLexState)
  | .constant c => .ok (c.ast, l)
  | .tail_project tail brr_field =>
    if l.tail = some tail then
      .ok (.PROJECT_BRR brr_field, { l with depends := l.depends ++ [(s.name, tail)] })
    else .error syntax_error
  | .call_project command => do
    let t ← l.command command
    let l ← refer l s s!"{command}: too many dependencies: > 255" t
    .ok (.PROJECT_XDR_EXIT_STATUS command, l)
  | .project_sync_map sync_map a =>
    if l.sync_map.any fun sm => sm.1 = sync_map then do
      let (left, l) ← arg l s a
      .ok (.PROJECT_SYNC_MAP_LOS_TRUE_LOADED sync_map left, reference_sync_map l sync_map)
    else .error syntax_error

def arg_list (l : yyLexState) (s : Subject) : List Arg → Except String (List Ast × yyLexState)
  | [] => .ok ([], l)
  | a :: as => do
    let (a, l) ← arg l s a
    let (as, l) ← arg_list l s as
    .ok (a :: as, l)

def query_project (l : yyLexState) (s : Subject) (p : QueryProject) : Except String (Ast × yyLexState) :=
  let depend (l : yyLexState) (t : Target) := refer l s s!"{s.what}: {t.name}: too many dependencies: > 255" t
  match p with
  | .query_row_bool query name => do
    let t ← l.query query
    match t.object with
    | .sql_query_row name2result =>
      match name2result.idxOf? name with
      | none => .error s!"sql query row: {query}: unknown attribute: {name}"
      | some offset => do
        let l ← depend l t
        .ok (.PROJECT_SQL_QUERY_ROW_BOOL query (UInt8.ofNat offset), l)
    | _ => .error syntax_error
  | .rows_affected query => do
    let t ← l.query query
    let l ← depend l t
    .ok (.PROJECT_QDR_ROWS_AFFECTED query, l)
  | .sqlstate query => do
    let t ← l.query query
    let l ← depend l t
    .ok (.PROJECT_QDR_SQLSTATE query, l)

def is_uint64 : Ast → Bool
  | .UINT64 _ | .PROJECT_XDR_EXIT_STATUS _ | .PROJECT_QDR_ROWS_AFFECTED _ => true
  | _ => false

def is_string : Ast → Bool
  | .STRING _ | .PROJECT_QDR_SQLSTATE _ => true
  | .PROJECT_BRR brr_field =>
    brr_field = .UDIG ∨ brr_field = .CHAT_HISTORY ∨ brr_field = .VERB ∨ brr_field = .TRANSPORT
  | _ => false

def is_bool : Ast → Bool
  | .yy_TRUE | .yy_FALSE | .PROJECT_SQL_QUERY_ROW_BOOL _ _ => true
  | _ => false

/-- `brr_field.String` -/
def brr_field_string : BrrField → String
  | .START_TIME => "start_time"
  | .TRANSPORT => "transport"
  | .VERB => "verb"
  | .UDIG => "udig"
  | .CHAT_HISTORY => "chat_history"
  | .BLOB_SIZE => "blob_size"
  | .WALL_DURATION => "wall_duration"

/-- Whatever is not `==` is taken for `!=`. -/
def uint64_rel_op (left : Ast) (o : RelOp) (ui64 : UInt64) : Ast :=
  if o = .EQ then .EQ_UINT64 ui64 left else .NEQ_UINT64 ui64 left

def bool_rel_op (left : Ast) (o : RelOp) (v : Bool) : Ast :=
  if o = .EQ then .EQ_BOOL v left else .NEQ_BOOL v left

section regexps
variable (regexp_Compile : String → Bool)

def string_rel_op (error : String) (left : Ast) (s : String) : RelOp → Except String Ast
  | .EQ => .ok (.EQ_STRING s left)
  | .NEQ => .ok (.NEQ_STRING s left)
  | .MATCH => if regexp_Compile s then .ok (.MATCH_STRING s left) else .error (error ++ s)
  | .NO_MATCH => if regexp_Compile s then .ok (.NO_MATCH_STRING s left) else .error (error ++ s)

/-- The node of a comparison. The node CAST_UINT64 that wire_rel_op makes for a blob size does not get
to its caller, which puts its own left side into the tree. -/
def wire_rel_op (tail : String) (left : Ast) (o : RelOp) (right : Constant) : Except String Ast :=
  match left with
  | .PROJECT_BRR .BLOB_SIZE =>
    match right with
    | .UINT64 ui64 => .ok (uint64_rel_op left o ui64)
    | _ => .error s!"{tail}.blob_size: not compared to uint64"
  | .PROJECT_BRR brr_field =>
    match right with
    | .STRING s => string_rel_op regexp_Compile "cannot compile regexp: " left s o
    | _ => .error s!"{tail}.{brr_field_string brr_field}: not compared to string"
  | .PROJECT_XDR_EXIT_STATUS command =>
    match right with
    | .UINT64 ui64 => .ok (uint64_rel_op left o ui64)
    | _ => .error s!"{command}.exit_status: not compared to uint64"
  | .PROJECT_SYNC_MAP_LOS_TRUE_LOADED _ domain =>
    if is_string domain then
      match right with
      | .yy_TRUE => .ok (bool_rel_op left o true)
      | .yy_FALSE => .ok (bool_rel_op left o false)
      | _ => .error "sync map: not compared to bool"
    else .error "sync map: [domain]: is not string"
  | _ => .error syntax_error

/-- The comparison of a query_project. Its error message takes the name of a query that the node does
not have. -/
def query_rel_op (left : Ast) (o : RelOp) (right : Constant) : Except String Ast :=
  match right with
  | .yy_TRUE => if is_bool left then .ok (bool_rel_op left o true) else .error nil_pointer
  | .yy_FALSE => if is_bool left then .ok (bool_rel_op left o false) else .error nil_pointer
  | .UINT64 ui64 => if is_uint64 left then .ok (uint64_rel_op left o ui64) else .error nil_pointer
  | .STRING s =>
    if is_string left then string_rel_op regexp_Compile "can not compile regex: " left s o
    else .error nil_pointer

def qualify (l : yyLexState) (s : Subject) : Qualify → Except String (Ast × yyLexState)
  | .projection p o c => do
    let (left, l) ← arg l s p
    let a ← wire_rel_op regexp_Compile (l.tail.getD "") left o c
    .ok (a, l)
  | .query_project p o c => do
    let (left, l) ← query_project l s p
    let a ← query_rel_op regexp_Compile left o c
    .ok (a, l)
  | .yy_AND left right => do
    let (left, l) ← qualify l s left
    let (right, l) ← qualify l s right
    .ok (.yy_AND left right, l)
  | .yy_OR left right => do
    let (left, l) ← qualify l s left
    let (right, l) ← qualify l s right
    .ok (.yy_OR left right, l)

def when_clause (l : yyLexState) (s : Subject) : Option Qualify → Except String (Ast × yyLexState)
  | none => .ok (.yy_TRUE, l)
  | some q => qualify regexp_Compile l s q

/-- All arguments must be strings: numbers get a node CAST_STRING. -/
def cast_argument (a : Ast) : Ast := if is_uint64 a then .CAST_STRING a else a

/-- The productions `call` and `query` with the when-clause behind them. -/
def fire (l : yyLexState) (s : Subject) (called_twice : String) (t : Target) (tok : Firing) (args : List Arg)
    (when_ : Option Qualify) : Except String yyLexState := do
  let (args, l) ← arg_list l s args
  if t.called then .error called_twice
  else do
    let l := { l with target := l.target.map (Target.call t.name) }
    let (when_clause, l) ← when_clause regexp_Compile l s when_
    .ok { l with ast_root := l.ast_root ++ [⟨tok, t.name, args.map cast_argument, when_clause⟩] }

/-- The token NAME of a declaration. -/
def new_name (l : yyLexState) (name : String) : Except String Unit :=
  if l.is_name name then .ok () else .error syntax_error

/-- The attributes of a result row have different names, and there are sixteen at most. -/
def sql_result (name : String) : List String → List String → Except String (List String)
  | result_row, [] => .ok result_row
  | result_row, a :: as =>
    if a ∈ result_row then .error s!"sql query row: {name}: attribute redefined: {a}"
    else if result_row.length = 16 then .error s!"sql query row: {name}: too many attributes: > 16"
    else sql_result name (result_row ++ [a]) as

def statement (l : yyLexState) : Statement → Except String yyLexState
  | .sync_map name => do
    new_name l name
    .ok { l with sync_map := l.sync_map ++ [(name, false)] }
  | .tail name => do
    new_name l name
    match l.tail with
    | none => .ok { l with tail := some name }
    | some tail => .error s!"tail already defined: {tail}"
  | .command name path => do
    new_name l name
    if l.target.countP (fun t => t.object.is_command) > 255 then .error "too many commands defined: max is 255"
    else if path = "" then .error s!"command {name}: path not set"
    else .ok { l with target := l.target ++ [⟨name, .command path, 0, false⟩] }
  | .sql_query_row name row => do
    new_name l name
    let name2result ← sql_result name [] row
    if name2result = [] then .error s!"sql query row: {name}: missing result row declaration"
    else .ok { l with target := l.target ++ [⟨name, .sql_query_row name2result, 0, false⟩] }
  | .sql_exec name stmts => do
    new_name l name
    if stmts = [] then .error s!"sql exec: {name}: missing statement declaration"
    else .ok { l with target := l.target ++ [⟨name, .sql_exec stmts, 0, false⟩] }
  | .call name args when_ =>
    match l.lookup name with
    | none => .error s!"unknown command: '{name}'"
    | some t =>
      match t.object with
      | .command path =>
        fire regexp_Compile l ⟨"call", name⟩ s!"command {name}: called twice" t
          (if args.length = 0 ∧ path = "true" then .CALLX0 else .CALL) args when_
      | _ => .error syntax_error
  | .query name args when_ =>
    match l.lookup name with
    | none => .error s!"unknown query: '{name}'"
    | some t =>
      match t.object with
      | .command _ => .error syntax_error
      | .sql_query_row _ =>
        fire regexp_Compile l ⟨"sql query row", name⟩ s!"sql query {name}: called twice" t .QUERY_ROW args when_
      | .sql_exec stmts =>
        fire regexp_Compile l ⟨"sql exec", name⟩ s!"sql exec {name}: called twice" t
          (if stmts.length = 1 then .QUERY_EXEC else .QUERY_EXEC_TXN) args when_

def statement_list (l : yyLexState) : List Statement → Except String yyLexState
  | [] => .ok l
  | s :: ss => do
    let l ← statement regexp_Compile l s
    statement_list l ss

end regexps

/-! ### The parse as a whole -/

/-- The order in which a range over a map gives its keys, which may be another one in every run. -/
structure KeyOrder where
  keys : List String → List String
  perm : ∀ names, (keys names).Perm names

/-- A fan-out without references: a command path of `true` is not among them. -/
def unreferenced (l : yyLexState) (f : Fire) : Bool :=
  match f.tok with
  | .CALLX0 => false
  | .CALL | .QUERY_ROW | .QUERY_EXEC | .QUERY_EXEC_TXN =>
    (l.lookup f.name).any fun t => t.called && t.depend_ref_count = 0

/-- find_unreferenced_fire -/
def root_depend (l : yyLexState) : List String :=
  ((l.ast_root.filter (unreferenced l)).map Fire.name).dedup

def depends (o : KeyOrder) (l : yyLexState) : List (String × String) :=
  l.depends ++ (o.keys (root_depend l)).map fun n => (n, n)

/-- `fmt.Sprintf("%s %s")` -/
def edge (e : String × String) : Text := e.1.toList ++ ' ' :: e.2.toList

def graph (arcs : List (String × String)) (hlen : arcs.length < 2 ^ 63) : Tsort.Graph where
  edges := arcs.map edge
  spaced := fun e he => by
    obtain ⟨arc, -, rfl⟩ := List.mem_map.mp he
    exact List.mem_append_right _ List.mem_cons_self
  length_lt := by rwa [List.length_map]

/-- The rule of a call or query, with the references to it that have been counted. -/
def yyLexState.rule (l : yyLexState) (f : Fire) : Rule where
  tok := f.tok
  name := f.name
  depend_ref_count := ((l.lookup f.name).map Target.depend_ref_count).getD 0
  args := f.args
  when_clause := f.when_clause

def Fire.is_call (f : Fire) : Bool := f.tok = .CALLX0 ∨ f.tok = .CALL

theorem depend_order_nodup {g : Tsort.Graph} {o : Tsort.MapOrder Text} {order : List Text}
    (h : Tsort.tsort o g = some order) : (order.reverse.map String.ofList).Nodup :=
  (List.nodup_reverse.mpr ((Tsort.tsort_order o g).2.2 order h).nodup).map
    fun _ _ heq => String.ofList_injective heq

/-- `config.parse` of a configuration that the lexer has taken to words, with the roots of the
dependencies first in the order. No list is longer than the program's integers count. -/
def config_parse (regexp_Compile : String → Bool) (o : Tsort.MapOrder Text) (keys : KeyOrder)
    (conf : List Statement) : Except String Parse :=
  match statement_list regexp_Compile {} conf with
  | .error err => .error err
  | .ok l =>
    match l.tail with
    | none => .error "tail\x7b\x7d not defined"
    | some tail =>
      if hlen : (depends keys l).length < 2 ^ 63 then
        match h : Tsort.tsort o (graph (depends keys l) hlen) with
        | none => .error "cycle exists in call/query/clear graphs"
        | some order => .ok {
            tail := tail
            sync_map := l.sync_map
            depend_order := order.reverse.map String.ofList
            call2ast := (l.ast_root.filter Fire.is_call).map l.rule
            query2ast := (l.ast_root.filter fun f => !f.is_call).map l.rule
            order_nodup := depend_order_nodup h }
      else .error "out of memory"

end Blobio.Flowd.Grammar
