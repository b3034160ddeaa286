import Blobio.FlowCompile
import Blobio.FlowDiscipline
import Blobio.LockStepRuns

/-! What compile() builds is a network in lock step: every channel is fed by one goroutine and
read by one, and the count of the goroutines that ask for flows is the number of them. -/
namespace Blobio.Flowd
open LockStep TernaryLogic

namespace Ast

/-- The children of a node with the maps their channels are looked for in. -/
def operands : Ast → List (Ast × Kind)
  | CAST_STRING left | EQ_UINT64 _ left | NEQ_UINT64 _ left => [(left, .uint64)]
  | CAST_UINT64 left | PROJECT_SYNC_MAP_LOS_TRUE_LOADED _ left | EQ_STRING _ left
  | NEQ_STRING _ left | MATCH_STRING _ left | NO_MATCH_STRING _ left => [(left, .string)]
  | EQ_BOOL _ left | NEQ_BOOL _ left => [(left, .bool)]
  | yy_OR left right | yy_AND left right => [(left, .bool), (right, .bool)]
  | _ => []

/-- The command or query that a node projects from. -/
def projects : Ast → Option (Bool × String)
  | PROJECT_XDR_EXIT_STATUS s => some (true, s)
  | PROJECT_SQL_QUERY_ROW_BOOL s _ | PROJECT_QDR_ROWS_AFFECTED s | PROJECT_QDR_SQLSTATE s =>
    some (false, s)
  | _ => none

/-- The goroutine of a node, which sends on the channel `chan`. -/
def operator (w : World) (chan : ℕ) : Ast → ℕ → Arrivals → LockStep.Turn Value
  | UINT64 ui64 => const_uint64 ui64
  | STRING s => const_string s
  | yy_TRUE => const_bool true
  | yy_FALSE => const_bool false
  | CAST_UINT64 _ => cast_uint64
  | CAST_STRING _ => cast_string
  | PROJECT_BRR field => project_brr w field
  | PROJECT_XDR_EXIT_STATUS _ => project_xdr_exit_status
  | PROJECT_SQL_QUERY_ROW_BOOL _ field => project_sql_query_row_bool field
  | PROJECT_QDR_ROWS_AFFECTED _ => project_qdr_rows_affected
  | PROJECT_QDR_SQLSTATE _ => project_qdr_sqlstate
  | PROJECT_SYNC_MAP_LOS_TRUE_LOADED _ _ => project_sync_map_los_true_loaded w chan
  | EQ_UINT64 ui64 _ => eq_uint64 ui64
  | NEQ_UINT64 ui64 _ => neq_uint64 ui64
  | EQ_STRING s _ => eq_string s
  | NEQ_STRING s _ => neq_string s
  | MATCH_STRING rex _ => match_string w rex
  | NO_MATCH_STRING rex _ => no_match_string w rex
  | EQ_BOOL v _ => eq_bool v
  | NEQ_BOOL v _ => neq_bool v
  | yy_OR _ _ => bool2 Flowd.or
  | yy_AND _ _ => bool2 Flowd.and

def arity (a : Ast) : ℕ := a.operands.length + if a.projects.isSome then 1 else 0

theorem keeps_operator (w : World) (chan : ℕ) (a : Ast) :
    Keeps Value.flow a.arity (a.operator w chan) := by
  cases a with
  | UINT64 | STRING | yy_TRUE | yy_FALSE | PROJECT_BRR => exact keeps_source _
  | CAST_UINT64 => exact keeps_cast_uint64
  | yy_OR => exact keeps_bool2 .or
  | yy_AND => exact keeps_bool2 .and
  | CAST_STRING | PROJECT_XDR_EXIT_STATUS | PROJECT_SQL_QUERY_ROW_BOOL | PROJECT_QDR_ROWS_AFFECTED
  | PROJECT_QDR_SQLSTATE | PROJECT_SYNC_MAP_LOS_TRUE_LOADED | EQ_UINT64 | NEQ_UINT64 | EQ_STRING
  | NEQ_STRING | MATCH_STRING | NO_MATCH_STRING | EQ_BOOL | NEQ_BOOL =>
    unfold operator
    exact keeps_convert _

/-- Every operator is given a channel of the type that it consumes. -/
def typed : Ast → Bool
  | CAST_STRING left | EQ_UINT64 _ left | NEQ_UINT64 _ left => left.kind = .uint64 ∧ left.typed
  | CAST_UINT64 left | PROJECT_SYNC_MAP_LOS_TRUE_LOADED _ left | EQ_STRING _ left
  | NEQ_STRING _ left | MATCH_STRING _ left | NO_MATCH_STRING _ left =>
    left.kind = .string ∧ left.typed
  | EQ_BOOL _ left | NEQ_BOOL _ left => left.kind = .bool ∧ left.typed
  | yy_OR left right | yy_AND left right =>
    (left.kind = .bool ∧ left.typed) ∧ right.kind = .bool ∧ right.typed
  | _ => true

theorem typed_operands {a : Ast} (h : a.typed = true) {left : Ast} {k : Kind}
    (hmem : (left, k) ∈ a.operands) : left.kind = k ∧ left.typed = true := by
  cases a <;> simp [operands, typed] at h hmem
  case yy_AND | yy_OR =>
    rcases hmem with ⟨rfl, rfl⟩ | ⟨rfl, rfl⟩
    · exact h.1
    · exact h.2
  all_goals
    obtain ⟨rfl, rfl⟩ := hmem
    exact h

theorem port_live {a left : Ast} {k : Kind} (h : a.typed = true) (hmem : (left, k) ∈ a.operands)
    (c : ℕ) : (left.port k c).live = true :=
  decide_eq_true (typed_operands h hmem).1

end Ast

/-- What compile() does for a node, by the number of its children and by what it projects. -/
inductive Compiles (w : World) : Ast → Build → ℕ × Build → Prop
  | leaf {a : Ast} {b : Build} (hops : a.operands = []) (hproj : a.projects = none) :
      Compiles w a b (Build.done a 1 (b.go [] (a.operator w b.channels)))
  | command {a : Ast} {b : Build} {s : String} {c : ℕ} {m : List (String × Output)}
      (hops : a.operands = []) (hproj : a.projects = some (true, s))
      (hnext : next_out s b.command2xdr = some (c, m)) :
      Compiles w a b (Build.done a 1
        ({ b with command2xdr := m }.go [⟨c, true⟩] (a.operator w b.channels)))
  | query {a : Ast} {b : Build} {s : String} {c : ℕ} {m : List (String × Output)}
      (hops : a.operands = []) (hproj : a.projects = some (false, s))
      (hnext : next_out s b.query2qdr = some (c, m)) :
      Compiles w a b (Build.done a 1
        ({ b with query2qdr := m }.go [⟨c, true⟩] (a.operator w b.channels)))
  | unary {a left : Ast} {k : Kind} {b b₁ : Build} {c : ℕ} (hops : a.operands = [(left, k)])
      (hproj : a.projects = none) (hleft : Compiles w left b (c, b₁)) :
      Compiles w a b (Build.done a 1 (b₁.go [left.port k c] (a.operator w b₁.channels)))
  | binary {a left right : Ast} {k l : Kind} {b b₁ b₂ : Build} {c d : ℕ}
      (hops : a.operands = [(left, k), (right, l)]) (hproj : a.projects = none)
      (hleft : Compiles w left b (c, b₁)) (hright : Compiles w right b₁ (d, b₂)) :
      Compiles w a b (Build.done a 1
        (b₂.go [left.port k c, right.port l d] (a.operator w b₂.channels)))

theorem compile_compiles (w : World) (a : Ast) {b : Build} {r : ℕ × Build}
    (h : compile w a b = some r) : Compiles w a b r := by
  induction a generalizing b r with
  | UINT64 | STRING | yy_TRUE | yy_FALSE | PROJECT_BRR =>
    obtain rfl := Option.some.inj h
    exact .leaf rfl rfl
  | PROJECT_XDR_EXIT_STATUS s =>
    obtain ⟨⟨c, m⟩, hnext, rfl⟩ := Option.map_eq_some_iff.mp h
    exact .command rfl rfl hnext
  | PROJECT_SQL_QUERY_ROW_BOOL s _ | PROJECT_QDR_ROWS_AFFECTED s | PROJECT_QDR_SQLSTATE s =>
    obtain ⟨⟨c, m⟩, hnext, rfl⟩ := Option.map_eq_some_iff.mp h
    exact .query rfl rfl hnext
  | yy_OR left right ihl ihr | yy_AND left right ihl ihr =>
    obtain ⟨⟨c, b₁⟩, hleft, hr⟩ := Option.bind_eq_some_iff.mp h
    obtain ⟨⟨d, b₂⟩, hright, rfl⟩ := Option.map_eq_some_iff.mp hr
    exact .binary rfl rfl (ihl hleft) (ihr hright)
  | CAST_UINT64 left ih | CAST_STRING left ih | PROJECT_SYNC_MAP_LOS_TRUE_LOADED _ left ih
  | EQ_UINT64 _ left ih | NEQ_UINT64 _ left ih | EQ_STRING _ left ih | NEQ_STRING _ left ih
  | MATCH_STRING _ left ih | NO_MATCH_STRING _ left ih | EQ_BOOL _ left ih | NEQ_BOOL _ left ih =>
    obtain ⟨⟨c, b₁⟩, hleft, rfl⟩ := Option.map_eq_some_iff.mp h
    exact .unary rfl rfl (ih hleft)

namespace Output

/-- The channels of an output that have no reader as yet: the one for the log, and those that
no projection has taken. -/
def unread (o : Output) : List ℕ := o.out_chans.take 1 ++ o.out_chans.drop o.next_chan

end Output

namespace Build

/-- The channels that the goroutines started so far read. -/
def read (b : Build) : List ℕ := (b.nodes.map Node.reads).flatten

def outputs (b : Build) : List (String × Output) := b.command2xdr ++ b.query2qdr

def unread (b : Build) : List ℕ := b.outputs.flatMap fun e => e.2.unread

/-- The names with their broadcast channels. -/
def heard (b : Build) : List (String × List ℕ) := b.outputs.map fun e => (e.1, e.2.out_chans)

end Build

/-- What the lock step asks of a goroutine. It keeps to its rounds where the argument lists
are `short`, and has all its inputs where the trees are `typed`. -/
structure Sound (short typed : Prop) (nd : Node Value) : Prop where
  speaks : nd.outs ≠ []
  driven : nd.asks = false → nd.ins ≠ []
  disciplined : short → Disciplined Value.flow nd
  live : typed → ∀ port ∈ nd.ins, port.live = true

/-- Each channel has one feeder, and one reader unless it is among those in `P`; `d` of the
goroutines that ask have not been counted yet. -/
structure Wires (short typed : Prop) (b : Build) (d : ℕ) (P : List ℕ) : Prop where
  fed : (b.nodes.map Node.outs).flatten = List.range b.channels
  reading : (b.read ++ P).Perm (List.range b.channels)
  forward : ∀ nd ∈ b.nodes, ∀ c ∈ nd.reads, ∀ d ∈ nd.outs, c < d
  sound : ∀ nd ∈ b.nodes, Sound short typed nd
  counted : b.nodes.countP Node.asks = b.confluent_count + d

variable {short typed : Prop} {w : World} {a : Ast} {b b' : Build} {r : ℕ × Build} {d : ℕ}
  {P Q : List ℕ}

namespace Wires

theorem perm (h : Wires short typed b d P) (hPQ : P.Perm Q) : Wires short typed b d Q :=
  ⟨h.fed, (List.Perm.append_left _ hPQ.symm).trans h.reading, h.forward, h.sound, h.counted⟩

theorem lt (h : Wires short typed b d P) {c : ℕ} (hc : c ∈ P) : c < b.channels :=
  List.mem_range.mp (h.reading.subset (List.mem_append_right _ hc))

/-- A goroutine that is started reads pending channels and leaves the ones it feeds pending. -/
theorem start (nd : Node Value) (m : ℕ) (h : Wires short typed b d (nd.reads ++ P))
    (hnodes : b'.nodes = b.nodes ++ [nd]) (hchannels : b'.channels = b.channels + m)
    (hcount : b'.confluent_count = b.confluent_count) (houts : nd.outs = List.range' b.channels m)
    (hsound : Sound short typed nd) :
    Wires short typed b' (d + if nd.asks then 1 else 0) (nd.outs ++ P) := by
  have hrange : List.range b'.channels = List.range b.channels ++ nd.outs := by
    rw [hchannels, houts, List.range_eq_range', List.range_eq_range', ← List.range'_append_1,
      Nat.zero_add]
  refine ⟨?_, ?_, fun nd' hnd' => ?_, fun nd' hnd' => ?_, ?_⟩
  · rw [hnodes, hrange, List.map_append, List.flatten_append, h.fed]
    simp
  · have hread : b'.read = b.read ++ nd.reads := by simp [Build.read, hnodes]
    rw [hrange, hread]
    have hmoved : (b.read ++ nd.reads ++ (nd.outs ++ P)).Perm
        (b.read ++ (nd.reads ++ P) ++ nd.outs) := by
      refine List.perm_iff_count.mpr fun c => ?_
      simp only [List.count_append]
      omega
    exact hmoved.trans (h.reading.append_right _)
  · rw [hnodes] at hnd'
    rcases List.mem_append.mp hnd' with hold | hnew
    · exact h.forward nd' hold
    · obtain rfl := List.mem_singleton.mp hnew
      intro c hc e he
      rw [houts, List.mem_range'_1] at he
      exact (h.lt (List.mem_append_left _ hc)).trans_le he.1
  · rw [hnodes] at hnd'
    rcases List.mem_append.mp hnd' with hold | hnew
    · exact h.sound nd' hold
    · obtain rfl := List.mem_singleton.mp hnew
      exact hsound
  · rw [hnodes, hcount, List.countP_append, h.counted, List.countP_singleton, Nat.add_assoc]

theorem go (ins : List Port) {turn : ℕ → Arrivals → LockStep.Turn Value}
    (h : Wires short typed b d (ins.map Port.chan ++ P))
    (hkeeps : short → Keeps Value.flow ins.length turn)
    (hlive : typed → ∀ port ∈ ins, port.live = true) :
    Wires short typed (b.go ins turn).2 (d + 1) ((b.go ins turn).1 :: P) :=
  start (Node.mk true false ins [b.channels] turn) 1 h rfl rfl rfl rfl
    { speaks := List.cons_ne_nil _ _
      driven := nofun
      disciplined := hkeeps
      live := hlive }

theorem copy (port : Port) (h : Wires short typed b d (port.chan :: P))
    (hlive : typed → port.live = true) :
    Wires short typed (b.copy port).2 d ((b.copy port).1 :: P) :=
  start (Node.mk false false [port] [b.channels] Flowd.forward) 1 h rfl rfl rfl rfl
    { speaks := List.cons_ne_nil _ _
      driven := fun _ => List.cons_ne_nil _ _
      disciplined := fun _ => keeps_forward
      live := fun ht _ hmem => List.mem_singleton.mp hmem ▸ hlive ht }

theorem fanout (port : Port) {count : UInt8} (h : Wires short typed b d (port.chan :: P))
    (hlive : typed → port.live = true) (hcount : count ≠ 0) :
    Wires short typed (b.fanout port count).2 (d + 1) ((b.fanout port count).1 ++ P) := by
  have hne : count.toNat ≠ 0 := fun hzero => hcount (UInt8.toNat_inj.mp hzero)
  exact start (Node.mk true true [port] (List.range' b.channels count.toNat) Flowd.forward)
    count.toNat h rfl rfl rfl rfl
    { speaks := by simpa using hne
      driven := nofun
      disciplined := fun _ => keeps_forward
      live := fun ht _ hmem => List.mem_singleton.mp hmem ▸ hlive ht }

theorem merge {ports : List Port} (h : Wires short typed b d (ports.map Port.chan ++ P))
    (hlive : typed → ∀ port ∈ ports, port.live = true) :
    Wires short typed (b.merge ports).2 d ((b.merge ports).1.map Port.chan ++ P) := by
  induction ports generalizing b P with
  | nil => exact h
  | cons port ports ih =>
    have hcopy := h.copy port fun ht => hlive ht port List.mem_cons_self
    have hrest := ih (hcopy.perm List.perm_middle.symm)
      fun ht port' hport' => hlive ht port' (List.mem_cons_of_mem _ hport')
    exact hrest.perm List.perm_middle

theorem askers_length (N : Network Value) : N.askers.length = N.nodes.countP Node.asks := by
  have hcount : ∀ nodes : List (Node Value), ((List.range nodes.length).filter fun p =>
      nodes[p]?.any Node.asks).length = nodes.countP Node.asks := by
    intro nodes
    induction nodes using List.reverseRecOn with
    | nil => rfl
    | append_singleton nodes nd ih =>
      have hold : (List.range nodes.length).filter (fun p => (nodes ++ [nd])[p]?.any Node.asks) =
          (List.range nodes.length).filter fun p => nodes[p]?.any Node.asks :=
        List.filter_congr fun p hp => by
          rw [List.getElem?_append_left (List.mem_range.mp hp)]
      rw [List.length_append, List.length_singleton, List.range_succ, List.filter_append, hold,
        List.length_append, ih, List.countP_append]
      cases hasks : nd.asks with
      | true => simp [hasks]
      | false => simp [hasks]
  exact hcount N.nodes

/-- A network whose last channel is the only pending one. -/
theorem wired {last : ℕ} (h : Wires short typed b d [last]) :
    Wired ⟨b.nodes, b.channels, last, b.confluent_count⟩ where
  fed := h.fed ▸ List.Perm.refl _
  read := h.reading
  forward := h.forward
  speaks := fun nd hnd => (h.sound nd hnd).speaks
  driven := fun nd hnd => (h.sound nd hnd).driven

theorem askers_counted {last : ℕ} (h : Wires short typed b 0 [last]) : b.confluent_count =
    (Network.mk b.nodes b.channels last b.confluent_count).askers.length := by
  rw [askers_length]
  exact h.counted.symm

theorem standing {last : ℕ} (h : Wires short typed b 0 [last]) (hshort : short) :
    Standing Value.flow ⟨b.nodes, b.channels, last, b.confluent_count⟩ where
  wired := h.wired
  disciplined := fun nd hnd => (h.sound nd hnd).disciplined hshort
  counted := h.askers_counted

theorem confluing {cc : ℕ} (h : Wires short typed b (d + cc) P) :
    Wires short typed (b.confluing cc) d P :=
  ⟨h.fed, h.reading, h.forward, h.sound, by
    rw [Build.confluing, Nat.add_assoc, Nat.add_comm cc d]
    exact h.counted⟩

theorem done {cc : ℕ} (a : Ast) (h : Wires short typed r.2 (d + cc) P) :
    Wires short typed (Build.done a cc r).2 d P :=
  confluing (b := { r.2 with a2 := (a, r.1) :: r.2.a2 })
    ⟨h.fed, h.reading, h.forward, h.sound, h.counted⟩

end Wires

theorem next_out_unread {s : String} {m m' : List (String × Output)} {c : ℕ}
    (h : next_out s m = some (c, m')) :
    (m.flatMap fun e => e.2.unread).Perm (c :: m'.flatMap fun e => e.2.unread) := by
  induction m generalizing c m' with
  | nil => cases h
  | cons e m ih =>
    obtain ⟨n, cx⟩ := e
    unfold next_out at h
    by_cases hn : n = s
    · rw [if_pos hn] at h
      obtain ⟨c', hc, heq⟩ := Option.map_eq_some_iff.mp h
      obtain ⟨rfl, rfl⟩ := Prod.mk.inj heq
      have hdrop := List.drop_eq_getElem_cons (List.getElem?_eq_some_iff.mp hc).1
      rw [(List.getElem?_eq_some_iff.mp hc).2] at hdrop
      simp only [List.flatMap_cons, Output.unread, hdrop]
      simp
    · rw [if_neg hn] at h
      obtain ⟨⟨c', m₁⟩, hc, heq⟩ := Option.map_eq_some_iff.mp h
      obtain ⟨rfl, rfl⟩ := Prod.mk.inj heq
      simp only [List.flatMap_cons]
      exact ((ih hc).append_left _).trans List.perm_middle

theorem next_out_heard {s : String} {m m' : List (String × Output)} {c : ℕ}
    (h : next_out s m = some (c, m')) :
    m'.map (fun e => (e.1, e.2.out_chans)) = m.map fun e => (e.1, e.2.out_chans) := by
  induction m generalizing c m' with
  | nil => cases h
  | cons e m ih =>
    obtain ⟨n, cx⟩ := e
    unfold next_out at h
    by_cases hn : n = s
    · rw [if_pos hn] at h
      obtain ⟨c', hc, heq⟩ := Option.map_eq_some_iff.mp h
      obtain ⟨rfl, rfl⟩ := Prod.mk.inj heq
      rfl
    · rw [if_neg hn] at h
      obtain ⟨⟨c', m₁⟩, hc, heq⟩ := Option.map_eq_some_iff.mp h
      obtain ⟨rfl, rfl⟩ := Prod.mk.inj heq
      rw [List.map_cons, List.map_cons, ih hc]

namespace Compiles

theorem heard (h : Compiles w a b r) : r.2.heard = b.heard := by
  induction h with
  | leaf => rfl
  | command hops hproj hnext =>
    have hm := next_out_heard hnext
    simp only [Build.heard, Build.outputs, List.map_append] at hm ⊢
    exact congrArg (· ++ _) hm
  | query hops hproj hnext =>
    have hm := next_out_heard hnext
    simp only [Build.heard, Build.outputs, List.map_append] at hm ⊢
    exact congrArg (_ ++ ·) hm
  | unary hops hproj hleft ih => exact ih
  | binary hops hproj hleft hright ihl ihr => exact ihr.trans ihl

/-- Compiling a node leaves its channel pending, and has a reader for each broadcast channel
that it takes. -/
theorem wires (h : Compiles w a b r) (hb : Wires short typed b d (P ++ b.unread))
    (ht : typed → a.typed = true) : Wires short typed r.2 d (r.1 :: P ++ r.2.unread) := by
  induction h generalizing P with
  | @leaf a b hops hproj =>
    have hkeeps := a.keeps_operator w b.channels
    rw [Ast.arity, hops, hproj] at hkeeps
    exact (hb.go [] (fun _ => hkeeps) fun _ _ hno => absurd hno List.not_mem_nil).done a
  | @command a b s c m hops hproj hnext =>
    have hkeeps := a.keeps_operator w b.channels
    rw [Ast.arity, hops, hproj] at hkeeps
    have hpend : (P ++ b.unread).Perm (c :: (P ++ { b with command2xdr := m : Build }.unread)) := by
      have hm := next_out_unread hnext
      simp only [Build.unread, Build.outputs, List.flatMap_append]
      exact ((hm.append_right _).append_left _).trans List.perm_middle
    have hnew := hb.perm hpend
    exact (Wires.go (b := { b with command2xdr := m }) [⟨c, true⟩]
      ⟨hnew.fed, hnew.reading, hnew.forward, hnew.sound, hnew.counted⟩ (fun _ => hkeeps)
      fun _ port hport => List.mem_singleton.mp hport ▸ rfl).done a
  | @query a b s c m hops hproj hnext =>
    have hkeeps := a.keeps_operator w b.channels
    rw [Ast.arity, hops, hproj] at hkeeps
    have hpend : (P ++ b.unread).Perm (c :: (P ++ { b with query2qdr := m : Build }.unread)) := by
      have hm := next_out_unread hnext
      simp only [Build.unread, Build.outputs, List.flatMap_append]
      refine ((hm.append_left _).append_left _).trans ?_
      exact (List.perm_middle.append_left _).trans List.perm_middle
    have hnew := hb.perm hpend
    exact (Wires.go (b := { b with query2qdr := m }) [⟨c, true⟩]
      ⟨hnew.fed, hnew.reading, hnew.forward, hnew.sound, hnew.counted⟩ (fun _ => hkeeps)
      fun _ port hport => List.mem_singleton.mp hport ▸ rfl).done a
  | @unary a left k b b₁ c hops hproj hleft ih =>
    have hkeeps := a.keeps_operator w b₁.channels
    rw [Ast.arity, hops, hproj] at hkeeps
    have hmem : (left, k) ∈ a.operands := hops ▸ List.mem_cons_self
    have hwires := ih hb fun h => (Ast.typed_operands (ht h) hmem).2
    exact (hwires.go [left.port k c] (fun _ => hkeeps) fun h port hport =>
      List.mem_singleton.mp hport ▸ Ast.port_live (ht h) hmem c).done a
  | @binary a left right k l b b₁ b₂ c d' hops hproj hleft hright ihl ihr =>
    have hkeeps := a.keeps_operator w b₂.channels
    rw [Ast.arity, hops, hproj] at hkeeps
    have hmem : (left, k) ∈ a.operands := hops ▸ List.mem_cons_self
    have hmem' : (right, l) ∈ a.operands := hops ▸ List.mem_cons_of_mem _ List.mem_cons_self
    have hwires := ihl hb fun h => (Ast.typed_operands (ht h) hmem).2
    have hboth := ihr (P := c :: P) hwires fun h => (Ast.typed_operands (ht h) hmem').2
    exact ((hboth.perm (List.Perm.swap ..)).go [left.port k c, right.port l d']
      (fun _ => hkeeps) fun h port hport => by
        rcases List.mem_cons.mp hport with rfl | hport
        · exact Ast.port_live (ht h) hmem c
        · exact List.mem_singleton.mp hport ▸ Ast.port_live (ht h) hmem' d').done a

end Compiles

end Blobio.Flowd
