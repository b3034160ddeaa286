import Blobio.FlowValues
import Blobio.LockStepRounds

/-! The goroutines of a flow: for each operator of flowd what it does in one flow, with the
values that have arrived in it, in their order. No channel is ever closed in front of them:
get() always answers with another flow. -/
namespace Blobio.Flowd
open LockStep TernaryLogic

abbrev Arrivals := List (ℕ × Value)

/-- A goroutine without an input. -/
def source (data : ℕ → Data) (flow : ℕ) (_ : Arrivals) : LockStep.Turn Value := .send ⟨flow, data flow⟩

/-- A goroutine that sends one value for each value of its input. -/
def convert (f : ℕ → Data → Data) (flow : ℕ) : Arrivals → LockStep.Turn Value
  | [] => .take [0]
  | (_, v) :: _ => .send ⟨flow, f flow v.data⟩

/-- A goroutine that hands on the values of its input. -/
def forward (_ : ℕ) : Arrivals → LockStep.Turn Value
  | [] => .take [0]
  | (_, v) :: _ => .send v

/-! Projections, constants and casts. -/

def project_brr (w : World) (field : BrrField) : ℕ → Arrivals → LockStep.Turn Value :=
  source fun flow => .string_value (some (w.brr flow field))

def project_xdr_exit_status : ℕ → Arrivals → LockStep.Turn Value :=
  convert fun _ v => .uint64_value (v.xdr.map fun xdr => xdr.exit_status.toUInt64)

def project_sql_query_row_bool (field : UInt8) : ℕ → Arrivals → LockStep.Turn Value :=
  convert fun _ v => .bool_value (v.qdr.bind fun qdr =>
    if 0 < qdr.rows_affected then qdr.results[field.toNat]?.join else none)

def project_qdr_rows_affected : ℕ → Arrivals → LockStep.Turn Value :=
  convert fun _ v => .uint64_value (v.qdr.map fun qdr => qdr.rows_affected.toUInt64)

def project_qdr_sqlstate : ℕ → Arrivals → LockStep.Turn Value :=
  convert fun _ v => .string_value (v.qdr.map Qdr.sqlstate)

/-- A null key is looked up as the empty string that comes with it. -/
def project_sync_map_los_true_loaded (w : World) (chan : ℕ) : ℕ → Arrivals → LockStep.Turn Value :=
  convert fun flow v => .bool_value (some (w.LoadOrStore chan flow (v.string.getD "")))

def const_string (s : String) : ℕ → Arrivals → LockStep.Turn Value := source fun _ => .string_value (some s)

def const_bool (b : Bool) : ℕ → Arrivals → LockStep.Turn Value := source fun _ => .bool_value (some b)

def const_uint64 (ui64 : UInt64) : ℕ → Arrivals → LockStep.Turn Value :=
  source fun _ => .uint64_value (some ui64)

/-- strconv.FormatUint with base 10. -/
def cast_string : ℕ → Arrivals → LockStep.Turn Value :=
  convert fun _ v => .string_value (v.uint64.map fun ui64 => Nat.repr ui64.toNat)

/-- strconv.ParseUint with base 10 and 64 bits: a string of digits below 2^64. -/
def ParseUint (s : String) : Option UInt64 :=
  if s.toList ≠ [] ∧ s.toList.all Char.isDigit ∧ s.toList.foldl
      (fun n c => 10 * n + (c.toNat - 48)) 0 < 2 ^ 64 then
    some (UInt64.ofNat (s.toList.foldl (fun n c => 10 * n + (c.toNat - 48)) 0))
  else none

/-- A string that is no number makes it panic. -/
def cast_uint64 (flow : ℕ) : Arrivals → LockStep.Turn Value
  | [] => .take [0]
  | (_, v) :: _ =>
    match v.data.string with
    | none => .send ⟨flow, .uint64_value none⟩
    | some s =>
      match ParseUint s with
      | some ui64 => .send ⟨flow, .uint64_value (some ui64)⟩
      | none => .abort

/-! Comparisons with a constant; null is passed on. -/

def eq_string (s_const : String) : ℕ → Arrivals → LockStep.Turn Value :=
  convert fun _ v => .bool_value (v.string.map fun s => s_const == s)

def neq_string (s_const : String) : ℕ → Arrivals → LockStep.Turn Value :=
  convert fun _ v => .bool_value (v.string.map fun s => s_const != s)

def match_string (w : World) (rex_const : String) : ℕ → Arrivals → LockStep.Turn Value :=
  convert fun _ v => .bool_value (v.string.map fun s => w.MatchString rex_const s)

def no_match_string (w : World) (rex_const : String) : ℕ → Arrivals → LockStep.Turn Value :=
  convert fun _ v => .bool_value (v.string.map fun s => w.MatchString rex_const s == false)

def eq_bool (b_const : Bool) : ℕ → Arrivals → LockStep.Turn Value :=
  convert fun _ v => .bool_value (v.bool.map fun b => b_const == b)

def neq_bool (b_const : Bool) : ℕ → Arrivals → LockStep.Turn Value :=
  convert fun _ v => .bool_value (v.bool.map fun b => b_const != b)

def eq_uint64 (ui64 : UInt64) : ℕ → Arrivals → LockStep.Turn Value :=
  convert fun _ v => .bool_value (v.uint64.map fun ui => ui64 == ui)

def neq_uint64 (ui64 : UInt64) : ℕ → Arrivals → LockStep.Turn Value :=
  convert fun _ v => .bool_value (v.uint64.map fun ui => ui64 != ui)

/-! The logical operators. -/

/-- The end of wait_bool2, when the state is not waiting any more: the operand that has not
been read is drained. -/
def drain_bool2 (next : Rummy) (lv rv : Option Data) (flow : ℕ) (l : Arrivals) : LockStep.Turn Value :=
  let out : LockStep.Turn Value :=
    if next = rum_NIL then .take [] else .send ⟨flow, .bool_value (bool_of_rummy next)⟩
  if lv = none then (if l = [] then .take [0] else out)
  else if rv = none then (if l = [] then .take [1] else out)
  else out

/-- The loop of wait_bool2 with the operands read so far. -/
def wait_bool2 (op : List Rummy) (flow : ℕ) : Option Data → Option Data → Arrivals → LockStep.Turn Value
  | _, _, [] => .take [0, 1]
  | lv, rv, (i, v) :: l =>
    if i = 0 then
      if lv.isSome then .crash
      else
        let next := next_state op (some v.data.bool) (rv.map Data.bool)
        if next = rum_WAIT then wait_bool2 op flow (some v.data) rv l
        else drain_bool2 next (some v.data) rv flow l
    else
      if rv.isSome then .crash
      else
        let next := next_state op (lv.map Data.bool) (some v.data.bool)
        if next = rum_WAIT then wait_bool2 op flow lv (some v.data) l
        else drain_bool2 next lv (some v.data) flow l

def bool2 (op : List Rummy) (flow : ℕ) (l : Arrivals) : LockStep.Turn Value :=
  wait_bool2 op flow none none l

/-! Argument vectors. -/

def argv0 : ℕ → Arrivals → LockStep.Turn Value := source fun _ => .argv_value (some [])

def argv1 : ℕ → Arrivals → LockStep.Turn Value :=
  convert fun _ v => .argv_value (v.string.map fun s => [s])

/-- The loop of argv over the merged values. The count of the arguments and their positions
are bytes. -/
def argv_loop (n flow : ℕ) (av : List String) (is_null : Bool) : ℕ → Arrivals → LockStep.Turn Value
  | ac, l =>
    if n % 256 ≤ ac then .send ⟨flow, .argv_value (if is_null then none else some av)⟩
    else match l with
    | [] => .take (List.range n)
    | (i, v) :: l =>
      match av[i % 256]? with
      | none => .crash
      | some s =>
        if s ≠ "" then .crash
        else argv_loop n flow (av.set (i % 256) (v.data.string.getD ""))
          (is_null || v.data.string.isNone) (ac + 1) l

/-- The argument vector of `n` arguments. -/
def argv (n flow : ℕ) (l : Arrivals) : LockStep.Turn Value :=
  argv_loop n flow (List.replicate (n % 256) "") false 0 l

/-! Rules. -/

/-- wait_fire: both an argument vector and the when-clause of this flow, whichever first. -/
def wait_fire (w : World) (flow : ℕ) (fired : Data → Data → LockStep.Turn Value) :
    Option Data → Option Data → Arrivals → LockStep.Turn Value
  | some argv, some when, _ => fired argv when
  | _, _, [] => .take [0, 1]
  | argv, when, (i, v) :: l =>
    if w.seq v.flow ≠ w.seq flow then .crash
    else if i = 0 then wait_fire w flow fired (some v.data) when l
    else wait_fire w flow fired argv (some v.data) l

/-- A rule: null when its arguments or its when-clause are, and fired when that is true. -/
def rule (w : World) (null : Data) (idle : Data) (fire : ℕ → List String → Option Data) (flow : ℕ)
    (l : Arrivals) : LockStep.Turn Value :=
  wait_fire w flow (fun argv when =>
    match argv.argv, when.bool with
    | some argv, some true =>
      match fire flow argv with
      | some data => .send ⟨flow, data⟩
      | none => .abort
    | some _, some false => .send ⟨flow, idle⟩
    | _, _ => .send ⟨flow, null⟩) none none l

def call (w : World) (cmd : String) : ℕ → Arrivals → LockStep.Turn Value :=
  rule w (.xdr_value none) (.xdr_value (some none)) fun flow argv =>
    (w.call cmd flow argv).map fun xdr => .xdr_value (some (some xdr))

/-- The builtin of a command with the path "true". -/
def callx0 (w : World) : ℕ → Arrivals → LockStep.Turn Value :=
  rule w (.xdr_value none) (.xdr_value (some none)) fun _ _ =>
    some (.xdr_value (some (some ⟨.OK, 0⟩)))

/-- sql_query_row, sql_exec and sql_exec_txn. -/
def sql (w : World) (name : String) : ℕ → Arrivals → LockStep.Turn Value :=
  rule w (.qdr_value none) (.qdr_value (some none)) fun flow argv =>
    (w.query name flow argv).map fun qdr => .qdr_value (some (some qdr))

/-! The detail record of a flow. -/

/-- xdr_stat and qdr_stat for the class of a record, with the counts so far. -/
def stat (cls : Option ExitClass) (fdr : UInt8 × UInt8) : UInt8 × UInt8 :=
  match cls with
  | none => fdr
  | some .OK => (fdr.1 + 1, fdr.2)
  | some _ => (fdr.1, fdr.2 + 1)

def record_class (data : Data) : Option ExitClass :=
  match data with
  | .qdr_value _ => data.qdr.map Qdr.termination_class
  | _ => data.xdr.map Xdr.exit_class

/-- The loop of reduce over the merged records, each of which must be of this flow. -/
def reduce_loop (w : World) (in_count flow : ℕ) (fdr : UInt8 × UInt8) :
    ℕ → Arrivals → LockStep.Turn Value
  | i, l =>
    if in_count ≤ i then .send ⟨flow, .fdr_value fdr.1 fdr.2⟩
    else match l with
    | [] => .take (List.range in_count)
    | (_, v) :: l =>
      if w.seq v.flow ≠ w.seq flow then .crash
      else if w.seq v.flow < w.seq flow then .crash
      else if w.seq flow < w.seq v.flow then .crash
      else reduce_loop w in_count flow (stat (record_class v.data) fdr) (i + 1) l

def reduce (w : World) (in_count flow : ℕ) (l : Arrivals) : LockStep.Turn Value :=
  reduce_loop w in_count flow (0, 0) 0 l

end Blobio.Flowd
