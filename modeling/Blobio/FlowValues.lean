import Blobio.LockStepNetworks
import Blobio.TernaryLogic
import Mathlib.Data.UInt

/-! The values on flowd's channels, the state tables of its logical operators, and what the
server's goroutines take from outside: blob request records, commands, queries and sync maps. -/
namespace Blobio.Flowd
open LockStep TernaryLogic

inductive BrrField
  | START_TIME
  | TRANSPORT
  | VERB
  | UDIG
  | CHAT_HISTORY
  | BLOB_SIZE
  | WALL_DURATION
  deriving DecidableEq, Repr

/-- exit_class of an xdr, and termination_class of a qdr. -/
inductive ExitClass
  | OK
  | ERR
  | SIG
  | NOPS
  deriving DecidableEq, Repr

structure Xdr where
  exit_class : ExitClass
  exit_status : UInt8
  deriving DecidableEq

/-- A query detail record with the row that is bound to it. -/
structure Qdr where
  termination_class : ExitClass
  sqlstate : String
  rows_affected : Int64
  results : List (Option Bool)
  deriving DecidableEq

/-- A value of one of the types of channel; `none` is null. An xdr or qdr that is there
without a record says that the when-clause was false. -/
inductive Data
  | bool_value (v : Option Bool)
  | string_value (v : Option String)
  | uint64_value (v : Option UInt64)
  | argv_value (v : Option (List String))
  | xdr_value (v : Option (Option Xdr))
  | qdr_value (v : Option (Option Qdr))
  | fdr_value (ok_count fault_count : UInt8)
  deriving DecidableEq

/-- A value with the number of the flow it belongs to. -/
structure Value where
  flow : ℕ
  data : Data
  deriving DecidableEq

namespace Data

/-! What a goroutine reads off a value; its channel has the type it asks for. -/

def bool : Data → Option Bool
  | bool_value v => v
  | _ => none

def string : Data → Option String
  | string_value v => v
  | _ => none

def uint64 : Data → Option UInt64
  | uint64_value v => v
  | _ => none

def argv : Data → Option (List String)
  | argv_value v => v
  | _ => none

/-- The record, unless the value is null or has none. -/
def xdr : Data → Option Xdr
  | xdr_value v => v.join
  | _ => none

def qdr : Data → Option Qdr
  | qdr_value v => v.join
  | _ => none

end Data

/-- What comes from outside: the records and the numbers of the flows, the matches of regular
expressions, and the answers of the sync maps, commands and queries. A command or a query
without an answer has made the server panic. -/
structure World where
  seq : ℕ → ℕ
  brr : ℕ → BrrField → String
  MatchString : String → String → Bool
  /-- by the channel of the projection, since the maps are shared -/
  LoadOrStore : ℕ → ℕ → String → Bool
  call : String → ℕ → List String → Option Xdr
  query : String → ℕ → List String → Option Qdr

section tables

abbrev Rummy := UInt8

def rum_NIL : Rummy := 0
def rum_WAIT : Rummy := 1
def rum_NULL : Rummy := 2
def rum_FALSE : Rummy := 4
def rum_TRUE : Rummy := 8

/-- The shifted constants for left hand bits. -/
def lw : Rummy := rum_WAIT <<< 4
def ln : Rummy := rum_NULL <<< 4
def lf : Rummy := rum_FALSE <<< 4
def lt : Rummy := rum_TRUE <<< 4

/-- An array of 137 states after assignments in their order. -/
def state_table (rows : List (Rummy × Rummy)) : List Rummy :=
  rows.foldl (fun op row => op.set row.1.toNat row.2) (List.replicate 137 rum_NIL)

def and : List Rummy := state_table [
  (lf ||| rum_WAIT, rum_FALSE), (lf ||| rum_NULL, rum_FALSE), (lf ||| rum_FALSE, rum_FALSE),
  (lf ||| rum_TRUE, rum_FALSE),
  (lw ||| rum_FALSE, rum_FALSE), (ln ||| rum_FALSE, rum_FALSE), (lt ||| rum_FALSE, rum_FALSE),
  (lf ||| rum_FALSE, rum_FALSE),
  (lt ||| rum_WAIT, rum_WAIT), (lt ||| rum_NULL, rum_NULL), (lt ||| rum_FALSE, rum_FALSE),
  (lt ||| rum_TRUE, rum_TRUE),
  (lw ||| rum_TRUE, rum_WAIT), (ln ||| rum_TRUE, rum_NULL), (lt ||| rum_TRUE, rum_TRUE),
  (lf ||| rum_TRUE, rum_FALSE),
  (ln ||| rum_NULL, rum_NULL), (ln ||| rum_TRUE, rum_NULL), (ln ||| rum_FALSE, rum_FALSE),
  (ln ||| rum_WAIT, rum_WAIT),
  (lt ||| rum_NULL, rum_NULL), (lf ||| rum_NULL, rum_FALSE), (ln ||| rum_NULL, rum_NULL),
  (lw ||| rum_NULL, rum_WAIT),
  (lw ||| rum_NULL, rum_WAIT), (lw ||| rum_TRUE, rum_WAIT), (lw ||| rum_FALSE, rum_FALSE),
  (lw ||| rum_WAIT, rum_WAIT),
  (lt ||| rum_WAIT, rum_WAIT), (lf ||| rum_WAIT, rum_FALSE), (ln ||| rum_WAIT, rum_WAIT),
  (lw ||| rum_WAIT, rum_WAIT)]

def or : List Rummy := state_table [
  (lt ||| rum_WAIT, rum_TRUE), (lt ||| rum_NULL, rum_TRUE), (lt ||| rum_FALSE, rum_TRUE),
  (lt ||| rum_TRUE, rum_TRUE),
  (lw ||| rum_TRUE, rum_TRUE), (ln ||| rum_TRUE, rum_TRUE), (lf ||| rum_TRUE, rum_TRUE),
  (lt ||| rum_TRUE, rum_TRUE),
  (lf ||| rum_WAIT, rum_WAIT), (lf ||| rum_NULL, rum_NULL), (lf ||| rum_FALSE, rum_FALSE),
  (lf ||| rum_TRUE, rum_TRUE),
  (lw ||| rum_FALSE, rum_WAIT), (ln ||| rum_FALSE, rum_NULL), (lf ||| rum_FALSE, rum_FALSE),
  (lt ||| rum_FALSE, rum_TRUE),
  (ln ||| rum_WAIT, rum_WAIT), (ln ||| rum_NULL, rum_NULL), (ln ||| rum_FALSE, rum_NULL),
  (ln ||| rum_TRUE, rum_TRUE),
  (ln ||| rum_NULL, rum_NULL), (lt ||| rum_NULL, rum_TRUE), (lf ||| rum_NULL, rum_NULL),
  (lw ||| rum_NULL, rum_WAIT),
  (lw ||| rum_WAIT, rum_WAIT), (lw ||| rum_NULL, rum_WAIT), (lw ||| rum_TRUE, rum_TRUE),
  (lw ||| rum_FALSE, rum_WAIT),
  (lw ||| rum_WAIT, rum_WAIT), (lt ||| rum_WAIT, rum_TRUE), (lf ||| rum_WAIT, rum_WAIT),
  (ln ||| rum_WAIT, rum_WAIT)]

/-- The state of an operand: a value, or none as yet. -/
def rummy : Option (Option Bool) → Rummy
  | none => rum_WAIT
  | some none => rum_NULL
  | some (some true) => rum_TRUE
  | some (some false) => rum_FALSE

def next_state (op : List Rummy) (left right : Option (Option Bool)) : Rummy :=
  op.getD ((rummy left <<< 4) ||| rummy right).toNat rum_NIL

/-- What bool2 sends for a state that is not waiting. -/
def bool_of_rummy (rum : Rummy) : Option Bool :=
  if rum = rum_NULL then none else some (rum = rum_TRUE)

/-- The table of an operator. -/
def table : Op → List Rummy
  | .and => Flowd.and
  | .or => Flowd.or

/-- A bool value as one of the three truth values. -/
def truth : Option Bool → Truth
  | none => .null
  | some true => .yes
  | some false => .no

/-- With both operands there the tables are those of SQL. -/
theorem next_state_both (o : Op) (a b : Option Bool) :
    next_state (table o) (some a) (some b) ≠ rum_NIL ∧
      next_state (table o) (some a) (some b) ≠ rum_WAIT ∧
      truth (bool_of_rummy (next_state (table o) (some a) (some b))) =
        o.apply (truth a) (truth b) := by
  revert o a b
  have hall : ∀ o ∈ [Op.and, Op.or], ∀ a ∈ [none, some true, some false],
      ∀ b ∈ [none, some true, some false],
      next_state (table o) (some a) (some b) ≠ rum_NIL ∧
      next_state (table o) (some a) (some b) ≠ rum_WAIT ∧
      truth (bool_of_rummy (next_state (table o) (some a) (some b))) =
        o.apply (truth a) (truth b) := by decide +kernel
  intro o a b
  refine hall o ?_ a ?_ b ?_
  · cases o <;> decide
  · rcases a with _ | _ | _ <;> decide
  · rcases b with _ | _ | _ <;> decide

/-- With one operand there the tables wait, or decide what every other operand leaves. -/
theorem next_state_one (o : Op) (a : Option Bool) :
    (next_state (table o) (some a) none = rum_WAIT ∨ next_state (table o) (some a) none ≠ rum_NIL ∧
      ∀ b, truth (bool_of_rummy (next_state (table o) (some a) none)) = o.apply (truth a) (truth b)) ∧
    (next_state (table o) none (some a) = rum_WAIT ∨ next_state (table o) none (some a) ≠ rum_NIL ∧
      ∀ b, truth (bool_of_rummy (next_state (table o) none (some a))) =
        o.apply (truth b) (truth a)) := by
  revert o a
  have hall : ∀ o ∈ [Op.and, Op.or], ∀ a ∈ [none, some true, some false],
    (next_state (table o) (some a) none = rum_WAIT ∨ next_state (table o) (some a) none ≠ rum_NIL ∧
      ∀ b ∈ [none, some true, some false],
        truth (bool_of_rummy (next_state (table o) (some a) none)) = o.apply (truth a) (truth b)) ∧
    (next_state (table o) none (some a) = rum_WAIT ∨ next_state (table o) none (some a) ≠ rum_NIL ∧
      ∀ b ∈ [none, some true, some false],
        truth (bool_of_rummy (next_state (table o) none (some a))) =
          o.apply (truth b) (truth a)) := by decide +kernel
  intro o a
  have hmem : ∀ b : Option Bool, b ∈ [none, some true, some false] := by
    intro b
    rcases b with _ | _ | _ <;> decide
  obtain ⟨hl, hr⟩ := hall o (by cases o <;> decide) a (hmem a)
  exact ⟨hl.imp_right fun h => ⟨h.1, fun b => h.2 b (hmem b)⟩,
    hr.imp_right fun h => ⟨h.1, fun b => h.2 b (hmem b)⟩⟩

theorem truth_injective : Function.Injective truth := by
  intro a b h
  rcases a with _ | _ | _ <;> rcases b with _ | _ | _ <;> first | rfl | cases h

end tables

end Blobio.Flowd
