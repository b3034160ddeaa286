import Blobio.FlowOperators

/-! compile() of flowd: from the syntax trees of a configuration to a network of goroutines
and channels, with the count of goroutines that it keeps by hand. -/
namespace Blobio.Flowd
open LockStep TernaryLogic

/-- The types of channel, one map of compile() for each of them. -/
inductive Kind
  | bool
  | uint64
  | string
  deriving DecidableEq, Repr

/-- A syntax tree below the statement that fires, as far as the children of each token are
those that the grammar gives it. -/
inductive Ast
  | UINT64 (uint64 : UInt64)
  | STRING (string : String)
  | yy_TRUE
  | yy_FALSE
  | CAST_UINT64 (left : Ast)
  | CAST_STRING (left : Ast)
  | PROJECT_BRR (brr_field : BrrField)
  | PROJECT_XDR_EXIT_STATUS (string : String)
  | PROJECT_SQL_QUERY_ROW_BOOL (string : String) (uint8 : UInt8)
  | PROJECT_QDR_ROWS_AFFECTED (string : String)
  | PROJECT_QDR_SQLSTATE (string : String)
  | PROJECT_SYNC_MAP_LOS_TRUE_LOADED (sync_map : String) (left : Ast)
  | EQ_UINT64 (uint64 : UInt64) (left : Ast)
  | NEQ_UINT64 (uint64 : UInt64) (left : Ast)
  | EQ_STRING (string : String) (left : Ast)
  | NEQ_STRING (string : String) (left : Ast)
  | MATCH_STRING (regexp : String) (left : Ast)
  | NO_MATCH_STRING (regexp : String) (left : Ast)
  | EQ_BOOL (bool : Bool) (left : Ast)
  | NEQ_BOOL (bool : Bool) (left : Ast)
  | yy_AND (left right : Ast)
  | yy_OR (left right : Ast)
  deriving DecidableEq

/-- The map that compile() puts the channel of a node in. -/
def Ast.kind : Ast → Kind
  | UINT64 _ | CAST_UINT64 _ | PROJECT_XDR_EXIT_STATUS _ | PROJECT_QDR_ROWS_AFFECTED _ => .uint64
  | STRING _ | CAST_STRING _ | PROJECT_BRR _ | PROJECT_QDR_SQLSTATE _ => .string
  | _ => .bool

/-- The token of a statement that fires. -/
inductive Firing
  | CALLX0
  | CALL
  | QUERY_ROW
  | QUERY_EXEC
  | QUERY_EXEC_TXN
  deriving DecidableEq

/-- A call or query with its arguments, its when-clause, and the references to its command,
query or exec. -/
structure Rule where
  tok : Firing
  name : String
  depend_ref_count : UInt8
  args : List Ast
  when_clause : Ast
  deriving DecidableEq

/-- What the parser leaves for the compiler. A name stands once in the order. -/
structure Parse where
  tail : String
  /-- the sync maps, and whether they are referenced -/
  sync_map : List (String × Bool)
  depend_order : List String
  call2ast : List Rule
  query2ast : List Rule
  order_nodup : depend_order.Nodup

/-- The broadcast channels of a call or query. -/
structure Output where
  out_chans : List ℕ
  next_chan : ℕ
  deriving DecidableEq

/-- What compile() has started, counted and filled its maps with. -/
structure Build where
  nodes : List (Node Value) := []
  channels : ℕ := 0
  confluent_count : ℕ := 0
  command2xdr : List (String × Output) := []
  query2qdr : List (String × Output) := []
  /-- the channels of the nodes that have been compiled, and of the rules -/
  a2 : List (Ast × ℕ) := []
  fired : List (Rule × ℕ) := []

/-- What the map of a type gives for a child: the child's channel if it is of this type. -/
def Ast.port (a : Ast) (k : Kind) (c : ℕ) : Port := ⟨c, a.kind = k⟩

namespace Build

/-- An operator makes its channel and starts its goroutine. -/
def go (b : Build) (ins : List Port) (turn : ℕ → Arrivals → LockStep.Turn Value) : ℕ × Build :=
  (b.channels, { b with
    nodes := b.nodes ++ [{ ins := ins, outs := [b.channels], turn := turn }]
    channels := b.channels + 1 })

/-- A goroutine that copies from one channel to another and asks for no flow. -/
def copy (b : Build) (port : Port) : ℕ × Build :=
  (b.channels, { b with
    nodes := b.nodes ++ [{ asks := false, ins := [port], outs := [b.channels], turn := forward }]
    channels := b.channels + 1 })

/-- The copies that merge several channels onto one: their reader receives from whichever
of them sends first. -/
def merge (b : Build) : List Port → List Port × Build
  | [] => ([], b)
  | port :: ports =>
    let (c, b) := b.copy port
    let (ins, b) := b.merge ports
    (⟨c, true⟩ :: ins, b)

/-- fanout_xdr and fanout_qdr. -/
def fanout (b : Build) (port : Port) (count : UInt8) : List ℕ × Build :=
  let out := List.range' b.channels count.toNat
  (out, { b with
    nodes := b.nodes ++ [{ spawns := true, ins := [port], outs := out, turn := forward }]
    channels := b.channels + count.toNat })

/-- flo.confluent_count += cc -/
def confluing (b : Build) (cc : ℕ) : Build := { b with confluent_count := b.confluent_count + cc }

/-- The end of a node: its channel is put in its map, and its goroutines are counted. -/
def done (a : Ast) (cc : ℕ) (r : ℕ × Build) : ℕ × Build :=
  (r.1, { r.2 with a2 := (a, r.1) :: r.2.a2 }.confluing cc)

end Build

/-- The next broadcast channel of a name, unless there is none. -/
def next_out (name : String) : List (String × Output) → Option (ℕ × List (String × Output))
  | [] => none
  | (n, cx) :: m =>
    if n = name then
      cx.out_chans[cx.next_chan]?.map fun c => (c, (n, { cx with next_chan := cx.next_chan + 1 }) :: m)
    else (next_out name m).map fun r => (r.1, (n, cx) :: r.2)

/-- The channel of a node; `none` where compile() panics. -/
def compile (w : World) : Ast → Build → Option (ℕ × Build)
  | a@(.UINT64 ui64), b => some (Build.done a 1 (b.go [] (const_uint64 ui64)))
  | a@(.CAST_UINT64 left), b => (compile w left b).map fun (c, b) =>
      Build.done a 1 (b.go [left.port .string c] cast_uint64)
  | a@(.STRING s), b => some (Build.done a 1 (b.go [] (const_string s)))
  | a@(.CAST_STRING left), b => (compile w left b).map fun (c, b) =>
      Build.done a 1 (b.go [left.port .uint64 c] cast_string)
  | a@(.yy_TRUE), b => some (Build.done a 1 (b.go [] (const_bool true)))
  | a@(.yy_FALSE), b => some (Build.done a 1 (b.go [] (const_bool false)))
  | a@(.PROJECT_SYNC_MAP_LOS_TRUE_LOADED _ left), b => (compile w left b).map fun (c, b) =>
      Build.done a 1 (b.go [left.port .string c] (project_sync_map_los_true_loaded w b.channels))
  | a@(.PROJECT_XDR_EXIT_STATUS s), b => (next_out s b.command2xdr).map fun (c, m) =>
      Build.done a 1 ({ b with command2xdr := m }.go [⟨c, true⟩] project_xdr_exit_status)
  | a@(.PROJECT_SQL_QUERY_ROW_BOOL s field), b => (next_out s b.query2qdr).map fun (c, m) =>
      Build.done a 1 ({ b with query2qdr := m }.go [⟨c, true⟩] (project_sql_query_row_bool field))
  | a@(.PROJECT_QDR_ROWS_AFFECTED s), b => (next_out s b.query2qdr).map fun (c, m) =>
      Build.done a 1 ({ b with query2qdr := m }.go [⟨c, true⟩] project_qdr_rows_affected)
  | a@(.PROJECT_QDR_SQLSTATE s), b => (next_out s b.query2qdr).map fun (c, m) =>
      Build.done a 1 ({ b with query2qdr := m }.go [⟨c, true⟩] project_qdr_sqlstate)
  | a@(.PROJECT_BRR field), b => some (Build.done a 1 (b.go [] (project_brr w field)))
  | a@(.EQ_UINT64 ui64 left), b => (compile w left b).map fun (c, b) =>
      Build.done a 1 (b.go [left.port .uint64 c] (eq_uint64 ui64))
  | a@(.NEQ_UINT64 ui64 left), b => (compile w left b).map fun (c, b) =>
      Build.done a 1 (b.go [left.port .uint64 c] (neq_uint64 ui64))
  | a@(.EQ_STRING s left), b => (compile w left b).map fun (c, b) =>
      Build.done a 1 (b.go [left.port .string c] (eq_string s))
  | a@(.NEQ_STRING s left), b => (compile w left b).map fun (c, b) =>
      Build.done a 1 (b.go [left.port .string c] (neq_string s))
  | a@(.MATCH_STRING rex left), b => (compile w left b).map fun (c, b) =>
      Build.done a 1 (b.go [left.port .string c] (match_string w rex))
  | a@(.NO_MATCH_STRING rex left), b => (compile w left b).map fun (c, b) =>
      Build.done a 1 (b.go [left.port .string c] (no_match_string w rex))
  | a@(.EQ_BOOL v left), b => (compile w left b).map fun (c, b) =>
      Build.done a 1 (b.go [left.port .bool c] (eq_bool v))
  | a@(.NEQ_BOOL v left), b => (compile w left b).map fun (c, b) =>
      Build.done a 1 (b.go [left.port .bool c] (neq_bool v))
  | a@(.yy_OR left right), b => (compile w left b).bind fun (c, b) =>
      (compile w right b).map fun (d, b) =>
        Build.done a 1 (b.go [left.port .bool c, right.port .bool d] (bool2 Flowd.or))
  | a@(.yy_AND left right), b => (compile w left b).bind fun (c, b) =>
      (compile w right b).map fun (d, b) =>
        Build.done a 1 (b.go [left.port .bool c, right.port .bool d] (bool2 Flowd.and))

/-- The arguments in their order, each with what the map of strings gives for it. -/
def compile_all (w : World) : List Ast → Build → Option (List Port × Build)
  | [], b => some ([], b)
  | a :: as, b => (compile w a b).bind fun (c, b) =>
      (compile_all w as b).map fun (ports, b) => (a.port .string c :: ports, b)

/-- The nodes ARGV0, ARGV1 and ARGV; argv() merges its inputs. -/
def Build.vector (b : Build) : List Port → ℕ × Build
  | [] => b.go [] argv0
  | [port] => b.go [port] argv1
  | ports =>
    let (ins, b) := b.merge ports
    b.go ins (argv ports.length)

def compile_argv (w : World) (args : List Ast) (b : Build) : Option (ℕ × Build) :=
  (compile_all w args b).map fun (ports, b) =>
    let (c, b) := b.vector ports
    (c, b.confluing 1)

/-- The goroutine of a rule. -/
def Rule.operator (w : World) (r : Rule) : ℕ → Arrivals → LockStep.Turn Value :=
  match r.tok with
  | .CALLX0 => callx0 w
  | .CALL => call w r.name
  | .QUERY_ROW | .QUERY_EXEC | .QUERY_EXEC_TXN => sql w r.name

def set_output (m : List (String × Output)) (name : String) (o : Output) : List (String × Output) :=
  (name, o) :: m.filter fun e => e.1 ≠ name

/-- The broadcast to all dependent rules and the log, whose channel is the first one. -/
def Build.broadcast (b : Build) (r : Rule) (out : List ℕ) : Build :=
  match r.tok with
  | .CALLX0 | .CALL => { b with command2xdr := set_output b.command2xdr r.name ⟨out, 1⟩ }
  | .QUERY_ROW | .QUERY_EXEC | .QUERY_EXEC_TXN =>
    { b with query2qdr := set_output b.query2qdr r.name ⟨out, 1⟩ }

/-- The nodes CALLX0, CALL, QUERY_ROW, QUERY_EXEC and QUERY_EXEC_TXN over their children. -/
def Build.rule (b : Build) (w : World) (r : Rule) (argv when : ℕ) : Build :=
  let x := b.go [⟨argv, true⟩, r.when_clause.port .bool when] (r.operator w)
  let out := x.2.fanout ⟨x.1, true⟩ (r.depend_ref_count + 1)
  ({ out.2 with fired := (r, x.1) :: out.2.fired }.broadcast r out.1).confluing 2

def compile_rule (w : World) (r : Rule) (b : Build) : Option Build :=
  (compile_argv w r.args b).bind fun (argv, b) =>
    (compile w r.when_clause b).map fun (when, b) => b.rule w r argv when

/-- The root of a name: the call, or else the query. -/
def root (par : Parse) (n : String) : Option Rule :=
  (par.call2ast.find? fun r => r.name = n).or (par.query2ast.find? fun r => r.name = n)

/-- The nodes from the least dependent to the most, less the tail. -/
def compile_order (w : World) (par : Parse) : List String → Build → Option Build
  | [], b => some b
  | n :: order, b =>
    if n = par.tail then compile_order w par order b
    else (root par n).bind fun r => (compile_rule w r b).bind fun b => compile_order w par order b

/-- log_xdr, log_xdr_error and their like for the queries, on the first channel of each
output; all other channels must have found a consumer. -/
def compile_logs : List (String × Output) → Build → Option (List Port × Build)
  | [], b => some ([], b)
  | (_, cx) :: m, b =>
    if cx.next_chan ≠ cx.out_chans.length then none
    else cx.out_chans[0]?.bind fun c =>
      let (x, b) := b.go [⟨c, true⟩] forward
      let (e, b) := b.copy ⟨x, true⟩
      (compile_logs m b).map fun (ports, b) => (⟨e, true⟩ :: ports, b)

/-- compile() as a whole. -/
def compile_parse (w : World) (par : Parse) : Option (Network Value) :=
  if par.sync_map.any fun sm => !sm.2 then none
  else (compile_order w par par.depend_order {}).bind fun b =>
    (compile_logs b.command2xdr b).bind fun (xdr_out, b) =>
      let b := b.confluing xdr_out.length
      (compile_logs b.query2qdr b).map fun (qdr_out, b) =>
        let b := b.confluing qdr_out.length
        let (ins, b) := b.merge (xdr_out ++ qdr_out)
        let (fdr, b) := b.go ins (reduce w ins.length)
        let (out, b) := b.go [⟨fdr, true⟩] forward
        let b := b.confluing 2
        { nodes := b.nodes, channels := b.channels, last := out, confluent := b.confluent_count }

end Blobio.Flowd
