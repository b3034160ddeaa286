import Blobio.TernaryLogic
import Mathlib.Data.List.Nodup
import Mathlib.Data.List.Range

/-! The rule `qualify` of flowd's grammar: the tree that the generated parser builds for a
when-clause, where it shifts whenever it could also reduce, and the tree of SQL. -/
namespace Blobio.WhenClauses
open TernaryLogic

/-- A when-clause as the parser meets it, with each comparison taken as one token. -/
inductive Token (α : Type)
  | comparison (a : α)
  | op (o : Op)
  | lparen
  | rparen
  deriving DecidableEq

/-- What is on the stack of the parser. -/
inductive Sym (α : Type)
  | qualify (e : Expr α)
  | op (o : Op)
  | lparen
  deriving DecidableEq

variable {α : Type}

/-- The reductions of `qualify op qualify` on top of a stack. -/
def reduce (right : Expr α) : List (Sym α) → List (Sym α)
  | .op o :: .qualify left :: st => reduce (.node o left right) st
  | st => .qualify right :: st

/-- One token: an operator behind a `qualify` is shifted, and only a closing parenthesis
makes the parser reduce. -/
def shift : List (Sym α) → Token α → Option (List (Sym α))
  | .qualify _ :: _, .comparison _ => none
  | st, .comparison a => some (.qualify (.leaf a) :: st)
  | .qualify e :: st, .op o => some (.op o :: .qualify e :: st)
  | _, .op _ => none
  | .qualify _ :: _, .lparen => none
  | st, .lparen => some (.lparen :: st)
  | .qualify right :: st, .rparen =>
    match reduce right st with
    | .qualify e :: .lparen :: st => some (.qualify e :: st)
    | _ => none
  | _, .rparen => none

def shifts (st : List (Sym α)) (ts : List (Token α)) : Option (List (Sym α)) :=
  ts.foldlM shift st

/-- The tree of a when-clause, whose end makes the parser reduce as well. -/
def parse (ts : List (Token α)) : Option (Expr α) :=
  (shifts [] ts).bind fun
    | .qualify right :: st =>
      match reduce right st with
      | [.qualify e] => some e
      | _ => none
    | _ => none

mutual

/-- A comparison, or a clause in parentheses. -/
inductive Item (α : Type)
  | comparison (a : α)
  | parens (c : Clause α)

/-- Items with operators between them, as they are written. -/
inductive Clause (α : Type)
  | one (i : Item α)
  | more (i : Item α) (o : Op) (c : Clause α)

end

mutual

def Item.tokens : Item α → List (Token α)
  | .comparison a => [.comparison a]
  | .parens c => .lparen :: c.tokens ++ [.rparen]

def Clause.tokens : Clause α → List (Token α)
  | .one i => i.tokens
  | .more i o c => i.tokens ++ .op o :: c.tokens

end

mutual

def Item.comparisons : Item α → List α
  | .comparison a => [a]
  | .parens c => c.comparisons

def Clause.comparisons : Clause α → List α
  | .one i => i.comparisons
  | .more i _ c => i.comparisons ++ c.comparisons

end

mutual

/-- The tree without precedence that groups to the right. -/
def Item.grouped : Item α → Expr α
  | .comparison a => .leaf a
  | .parens c => c.grouped

def Clause.grouped : Clause α → Expr α
  | .one i => i.grouped
  | .more i o c => .node o i.grouped c.grouped

end

/-- The item joined to what stands in front of it, if anything does. -/
def joined (o : Op) : Option (Expr α) → Expr α → Expr α
  | none, e => e
  | some left, e => .node o left e

mutual

/-- The tree of SQL. -/
def Item.sql : Item α → Expr α
  | .comparison a => .leaf a
  | .parens c => c.sql_behind none none

/-- The tree of SQL behind finished alternatives and the conjunction that is being read. -/
def Clause.sql_behind (alternatives conjunction : Option (Expr α)) : Clause α → Expr α
  | .one i => joined .or alternatives (joined .and conjunction i.sql)
  | .more i .and c => c.sql_behind alternatives (some (joined .and conjunction i.sql))
  | .more i .or c =>
    c.sql_behind (some (joined .or alternatives (joined .and conjunction i.sql))) none

end

/-- `and` binds tighter than `or`, and both group to the left. -/
def Clause.sql (c : Clause α) : Expr α := c.sql_behind none none

/-- No `or` stands at the level of the clause. -/
def Clause.all_and : Clause α → Bool
  | .one _ => true
  | .more _ o c => o == .and && c.all_and

mutual

/-- At each level every `or` stands in front of every `and`. -/
def Item.ors_first : Item α → Bool
  | .comparison _ => true
  | .parens c => c.ors_first

def Clause.ors_first : Clause α → Bool
  | .one i => i.ors_first
  | .more i o c => i.ors_first && c.ors_first && (o == .or || c.all_and)

end

section parser

/-- A stack on which a `qualify` begins. -/
def Open : List (Sym α) → Prop
  | .qualify _ :: _ => False
  | _ => True

/-- What a clause leaves on the stack. -/
def Clause.spine : Clause α → List (Sym α)
  | .one i => [.qualify i.grouped]
  | .more i o c => c.spine ++ [.op o, .qualify i.grouped]

theorem shifts_cons (st : List (Sym α)) (t : Token α) (ts : List (Token α)) :
    shifts st (t :: ts) = (shift st t).bind fun st' => shifts st' ts := rfl

theorem shifts_append (st : List (Sym α)) (ts us : List (Token α)) :
    shifts st (ts ++ us) = (shifts st ts).bind fun st' => shifts st' us :=
  List.foldlM_append ..

theorem shift_comparison {st : List (Sym α)} (h : Open st) (a : α) :
    shift st (.comparison a) = some (.qualify (.leaf a) :: st) := by
  cases st with
  | nil => rfl
  | cons s st =>
    cases s with
    | qualify e => cases h
    | op o => rfl
    | lparen => rfl

theorem shift_lparen {st : List (Sym α)} (h : Open st) :
    shift st .lparen = some (.lparen :: st) := by
  cases st with
  | nil => rfl
  | cons s st =>
    cases s with
    | qualify e => cases h
    | op o => rfl
    | lparen => rfl

/-- The end of a level reduces what its clause has left, from the right to the left. -/
theorem reduce_spine (c : Clause α) (st : List (Sym α))
    (hst : ∀ e, reduce e st = .qualify e :: st) :
    ∃ right rest, c.spine ++ st = .qualify right :: rest ∧
      reduce right rest = .qualify c.grouped :: st := by
  have hgo : ∀ (c : Clause α) (st : List (Sym α)), ∃ right rest,
      c.spine ++ st = .qualify right :: rest ∧ reduce right rest = reduce c.grouped st := by
    intro c
    induction c using Clause.rec (motive_1 := fun _ => True) with
    | comparison a => trivial
    | parens c _ => trivial
    | one i _ => exact fun st => ⟨i.grouped, st, rfl, rfl⟩
    | more i o c _ ih =>
      intro st
      obtain ⟨right, rest, hspine, hreduce⟩ := ih (.op o :: .qualify i.grouped :: st)
      refine ⟨right, rest, ?_, hreduce.trans ?_⟩
      · rw [Clause.spine, List.append_assoc]
        exact hspine
      · rw [Clause.grouped, reduce]
  obtain ⟨right, rest, hspine, hreduce⟩ := hgo c st
  exact ⟨right, rest, hspine, hreduce.trans (hst _)⟩

mutual

theorem Item.shifts_tokens : (i : Item α) → (st : List (Sym α)) → Open st →
    shifts st i.tokens = some (.qualify i.grouped :: st)
  | .comparison a, st, h => by
    rw [Item.tokens, shifts_cons, shift_comparison h]
    rfl
  | .parens c, st, h => by
    obtain ⟨right, rest, hspine, hreduce⟩ := reduce_spine c (.lparen :: st) fun _ => rfl
    rw [Item.tokens, List.cons_append, shifts_cons, shift_lparen h, Option.bind_some, shifts_append,
      c.shifts_tokens (.lparen :: st) trivial, Option.bind_some, hspine, shifts_cons, shift, hreduce]
    rfl

theorem Clause.shifts_tokens : (c : Clause α) → (st : List (Sym α)) → Open st →
    shifts st c.tokens = some (c.spine ++ st)
  | .one i, st, h => by
    rw [Clause.tokens, i.shifts_tokens st h]
    rfl
  | .more i o c, st, h => by
    rw [Clause.tokens, shifts_append, i.shifts_tokens st h, Option.bind_some, shifts_cons]
    change shifts (.op o :: .qualify i.grouped :: st) c.tokens = _
    have hopen : Open (.op o :: .qualify i.grouped :: st) := trivial
    rw [c.shifts_tokens _ hopen, Clause.spine, List.append_assoc]
    rfl

end

/-- The parser accepts every when-clause and groups it to the right. -/
theorem parse_tokens (c : Clause α) : parse c.tokens = some c.grouped := by
  obtain ⟨right, rest, hspine, hreduce⟩ := reduce_spine c [] fun _ => rfl
  rw [List.append_nil] at hspine
  rw [parse, c.shifts_tokens [] trivial, List.append_nil, hspine, Option.bind_some]
  simp only [hreduce]

end parser

section meaning
variable (v w : α → Truth)

/-- The value of the first alternative of a clause. -/
def Clause.first : Clause α → Truth
  | .one i => i.sql.eval v
  | .more i .and c => i.sql.eval v ⊓ c.first
  | .more i .or _ => i.sql.eval v

/-- The value of the other alternatives. -/
def Clause.rest : Clause α → Truth
  | .one _ => ⊥
  | .more _ .and c => c.rest
  | .more _ .or c => c.first v ⊔ c.rest

variable {v w}

theorem eval_joined_and (left : Option (Expr α)) (e : Expr α) :
    (joined .and left e).eval v = left.elim ⊤ (Expr.eval v) ⊓ e.eval v := by
  cases left with
  | none => exact (top_inf_eq _).symm
  | some left => rfl

theorem eval_joined_or (left : Option (Expr α)) (e : Expr α) :
    (joined .or left e).eval v = left.elim ⊥ (Expr.eval v) ⊔ e.eval v := by
  cases left with
  | none => exact (bot_sup_eq _).symm
  | some left => rfl

theorem eval_sql_behind (c : Clause α) (alternatives conjunction : Option (Expr α)) :
    (c.sql_behind alternatives conjunction).eval v =
      alternatives.elim ⊥ (Expr.eval v) ⊔
        (conjunction.elim ⊤ (Expr.eval v) ⊓ c.first v ⊔ c.rest v) := by
  induction c using Clause.rec (motive_1 := fun _ => True) generalizing alternatives conjunction with
  | comparison a => trivial
  | parens c _ => trivial
  | one i _ =>
    rw [Clause.sql_behind, eval_joined_or, eval_joined_and, Clause.first, Clause.rest, sup_bot_eq]
  | more i o c _ ih =>
    cases o with
    | and =>
      rw [Clause.sql_behind, ih, Option.elim_some, eval_joined_and, Clause.first, Clause.rest,
        inf_assoc]
    | or =>
      rw [Clause.sql_behind, ih, Option.elim_some, eval_joined_or, eval_joined_and, Clause.first,
        Clause.rest, Option.elim_none, top_inf_eq, sup_assoc]

theorem eval_sql (c : Clause α) : c.sql.eval v = c.first v ⊔ c.rest v := by
  rw [Clause.sql, eval_sql_behind, Option.elim_none, Option.elim_none, bot_sup_eq, top_inf_eq]

theorem eval_parens (c : Clause α) : (Item.parens c).sql.eval v = c.first v ⊔ c.rest v := by
  rw [Item.sql, ← Clause.sql, eval_sql]

mutual

theorem Item.sql_eq_grouped : (i : Item α) → i.ors_first = true → i.sql.eval v = i.grouped.eval v
  | .comparison _, _ => rfl
  | .parens c, h => by
    rw [eval_parens, Item.grouped]
    exact (c.sql_eq_grouped h).1

/-- Behind the last `or` of a level there is one alternative only, and in front of it each
item is an alternative of its own. -/
theorem Clause.sql_eq_grouped : (c : Clause α) → c.ors_first = true →
    c.first v ⊔ c.rest v = c.grouped.eval v ∧
      (c.all_and = true → c.first v = c.grouped.eval v ∧ c.rest v = ⊥)
  | .one i, h => by
    have hi := i.sql_eq_grouped h
    exact ⟨by rw [Clause.first, Clause.rest, hi, sup_bot_eq, Clause.grouped], fun _ =>
      ⟨by rw [Clause.first, hi, Clause.grouped], rfl⟩⟩
  | .more i .or c, h => by
    rw [Clause.ors_first, Bool.and_eq_true, Bool.and_eq_true] at h
    have hi := i.sql_eq_grouped h.1.1
    have hc := (c.sql_eq_grouped h.1.2).1
    refine ⟨?_, fun hall => ?_⟩
    · rw [Clause.first, Clause.rest, hi, hc]
      rfl
    · cases hall
  | .more i .and c, h => by
    rw [Clause.ors_first, Bool.and_eq_true, Bool.and_eq_true] at h
    have hi := i.sql_eq_grouped h.1.1
    obtain ⟨hfirst, hrest⟩ := (c.sql_eq_grouped h.1.2).2 h.2
    have heq : (Clause.more i .and c).first v = (Clause.more i .and c).grouped.eval v := by
      rw [Clause.first, hi, hfirst]
      rfl
    exact ⟨by rw [heq, Clause.rest, hrest, sup_bot_eq], fun _ => ⟨heq, hrest⟩⟩

end

mutual

theorem Item.leaves_grouped : (i : Item α) → i.grouped.leaves = i.comparisons
  | .comparison _ => rfl
  | .parens c => c.leaves_grouped

theorem Clause.leaves_grouped : (c : Clause α) → c.grouped.leaves = c.comparisons
  | .one i => i.leaves_grouped
  | .more i o c => by
    rw [Clause.grouped, Expr.leaves, i.leaves_grouped, c.leaves_grouped, Clause.comparisons]

end

theorem leaves_joined (o : Op) (left : Option (Expr α)) (e : Expr α) :
    (joined o left e).leaves = left.elim [] Expr.leaves ++ e.leaves := by
  cases left <;> rfl

mutual

theorem Item.leaves_sql : (i : Item α) → i.sql.leaves = i.comparisons
  | .comparison _ => rfl
  | .parens c => by
    rw [Item.sql, c.leaves_sql_behind, Item.comparisons]
    rfl

theorem Clause.leaves_sql_behind : (c : Clause α) → (alternatives conjunction : Option (Expr α)) →
    (c.sql_behind alternatives conjunction).leaves =
      alternatives.elim [] Expr.leaves ++ (conjunction.elim [] Expr.leaves ++ c.comparisons)
  | .one i, alternatives, conjunction => by
    rw [Clause.sql_behind, leaves_joined, leaves_joined, i.leaves_sql, Clause.comparisons]
  | .more i .and c, alternatives, conjunction => by
    rw [Clause.sql_behind, c.leaves_sql_behind, Option.elim_some, leaves_joined, i.leaves_sql,
      Clause.comparisons, List.append_assoc]
  | .more i .or c, alternatives, conjunction => by
    rw [Clause.sql_behind, c.leaves_sql_behind, Option.elim_some, leaves_joined, leaves_joined,
      i.leaves_sql, Clause.comparisons, Option.elim_none, List.nil_append, List.append_assoc,
      List.append_assoc]

end

end meaning

section difference
variable {v w : α → Truth}

theorem Item.eval_congr (i : Item α) (h : ∀ a ∈ i.comparisons, v a = w a) :
    i.grouped.eval v = i.grouped.eval w ∧ i.sql.eval v = i.sql.eval w :=
  ⟨Expr.eval_congr _ (i.leaves_grouped ▸ h), Expr.eval_congr _ (i.leaves_sql ▸ h)⟩

theorem Clause.eval_congr (c : Clause α) (h : ∀ a ∈ c.comparisons, v a = w a) :
    c.grouped.eval v = c.grouped.eval w ∧ c.first v = c.first w ∧ c.rest v = c.rest w := by
  refine ⟨Expr.eval_congr _ (c.leaves_grouped ▸ h), ?_⟩
  induction c using Clause.rec (motive_1 := fun _ => True) with
  | comparison a => trivial
  | parens c _ => trivial
  | one i _ => exact ⟨(i.eval_congr h).2, rfl⟩
  | more i o c _ ih =>
    obtain ⟨hfirst, hrest⟩ := ih fun a ha => h a (List.mem_append_right _ ha)
    have hi := (i.eval_congr fun a ha => h a (List.mem_append_left _ ha)).2
    cases o with
    | and => exact ⟨by rw [Clause.first, Clause.first, hi, hfirst], hrest⟩
    | or => exact ⟨hi, by rw [Clause.rest, Clause.rest, hfirst, hrest]⟩

theorem first_const (t : Truth) (c : Clause α) : c.first (fun _ => t) = t := by
  induction c using Clause.rec (motive_1 := fun _ => True) with
  | comparison a => trivial
  | parens c _ => trivial
  | one i _ => exact Expr.eval_const t _
  | more i o c _ ih =>
    cases o with
    | and => rw [Clause.first, ih, Expr.eval_const, inf_idem]
    | or => exact Expr.eval_const t _

/-- A level with an `or` has an alternative behind its first. -/
theorem rest_top {c : Clause α} (h : c.all_and = false) : c.rest (fun _ => ⊤) = ⊤ := by
  induction c using Clause.rec (motive_1 := fun _ => True) with
  | comparison a => trivial
  | parens c _ => trivial
  | one i _ => cases h
  | more i o c _ ih =>
    cases o with
    | and => exact ih h
    | or => rw [Clause.rest, first_const, top_sup_eq]

/-- Values for an item and for the clause behind it. -/
theorem exists_values {i : Item α} {c : Clause α} (hdisj : i.comparisons.Disjoint c.comparisons)
    (v w : α → Truth) : ∃ u : α → Truth, (∀ a ∈ i.comparisons, u a = v a) ∧
      ∀ a ∈ c.comparisons, u a = w a := by
  classical
  refine ⟨fun a => if a ∈ i.comparisons then v a else w a, fun a ha => if_pos ha, fun a ha => ?_⟩
  exact if_neg fun hi => hdisj hi ha

mutual

theorem Item.exists_differing : (i : Item α) → i.comparisons.Nodup → i.ors_first = false →
    ∃ v, i.sql.eval v ≠ i.grouped.eval v
  | .comparison _, _, h => by cases h
  | .parens c, hnodup, h => by
    obtain ⟨v, hv⟩ := c.exists_differing hnodup h
    exact ⟨v, by rwa [eval_parens, Item.grouped]⟩

theorem Clause.exists_differing : (c : Clause α) → c.comparisons.Nodup → c.ors_first = false →
    ∃ v, c.first v ⊔ c.rest v ≠ c.grouped.eval v
  | .one i, hnodup, h => by
    obtain ⟨v, hv⟩ := i.exists_differing hnodup h
    exact ⟨v, by rwa [Clause.first, Clause.rest, sup_bot_eq, Clause.grouped]⟩
  | .more i o c, hnodup, h => by
    obtain ⟨hni, hnc, hdisj⟩ := List.nodup_append.mp hnodup
    have hdisj' : i.comparisons.Disjoint c.comparisons := fun a ha hb => hdisj a ha a hb rfl
    by_cases hc : c.ors_first = false
    · -- the clause behind the item shows its difference when the item leaves it as it is
      obtain ⟨w, hw⟩ := c.exists_differing hnc hc
      obtain ⟨u, hui, huc⟩ := exists_values hdisj' (fun _ => o.unit) w
      obtain ⟨hgi, hsi⟩ := i.eval_congr hui
      obtain ⟨hgc, hfirst, hrest⟩ := c.eval_congr huc
      rw [Expr.eval_const] at hgi hsi
      refine ⟨u, ?_⟩
      rw [Clause.grouped, Expr.eval, hgi, Op.unit_apply, hgc]
      cases o with
      | and => rwa [Clause.first, Clause.rest, hsi, hfirst, hrest, Op.unit, top_inf_eq]
      | or => rwa [Clause.first, Clause.rest, hsi, hfirst, hrest, Op.unit, bot_sup_eq]
    · have hc : c.ors_first = true := by simpa using hc
      by_cases hall : o = .and ∧ c.all_and = false
      · -- a false item in front of an alternative that is true
        obtain ⟨rfl, hall⟩ := hall
        obtain ⟨u, hui, huc⟩ := exists_values hdisj' (fun _ => ⊥) fun _ => ⊤
        obtain ⟨hgi, hsi⟩ := i.eval_congr hui
        obtain ⟨hgc, hfirst, hrest⟩ := c.eval_congr huc
        rw [Expr.eval_const] at hgi hsi
        refine ⟨u, ?_⟩
        rw [Clause.first, Clause.rest, hsi, hrest, rest_top hall, sup_top_eq, Clause.grouped,
          Expr.eval, hgi, Op.apply, bot_inf_eq]
        decide
      · -- the item shows its difference when the clause behind it leaves it as it is
        have hi : i.ors_first = false := by
          by_contra hi
          rw [Bool.not_eq_false] at hi
          rw [Clause.ors_first, hi, hc] at h
          cases o with
          | and => exact hall ⟨rfl, h⟩
          | or => cases h
        obtain ⟨v, hv⟩ := i.exists_differing hni hi
        obtain ⟨u, hui, huc⟩ := exists_values hdisj' v fun _ => o.unit
        obtain ⟨hgi, hsi⟩ := i.eval_congr hui
        obtain ⟨hgc, hfirst, hrest⟩ := c.eval_congr huc
        refine ⟨u, ?_⟩
        rw [Expr.eval_const] at hgc
        rw [first_const] at hfirst
        rw [Clause.grouped, Expr.eval, hgc, Op.apply_unit, hgi]
        have hsum := (c.sql_eq_grouped (v := u) hc)
        rw [hgc] at hsum
        cases o with
        | and =>
          have hand : c.all_and = true := by simpa using hall
          rwa [Clause.first, Clause.rest, hsi, hfirst, (hsum.2 hand).2, Op.unit, inf_top_eq, sup_bot_eq]
        | or => rwa [Clause.first, Clause.rest, hsi, hsum.1, Op.unit, sup_bot_eq]

end

end difference

section numbering

mutual

/-- The item with its comparisons numbered from `n` on, each of them apart from the others. -/
def Item.numbered (n : ℕ) : Item α → Item ℕ
  | .comparison _ => .comparison n
  | .parens c => .parens (c.numbered n)

def Clause.numbered (n : ℕ) : Clause α → Clause ℕ
  | .one i => .one (i.numbered n)
  | .more i o c => .more (i.numbered n) o (c.numbered (n + i.comparisons.length))

end

mutual

theorem Item.comparisons_numbered : (i : Item α) → (n : ℕ) →
    (i.numbered n).comparisons = List.range' n i.comparisons.length
  | .comparison _, _ => rfl
  | .parens c, n => c.comparisons_numbered n

theorem Clause.comparisons_numbered : (c : Clause α) → (n : ℕ) →
    (c.numbered n).comparisons = List.range' n c.comparisons.length
  | .one i, n => i.comparisons_numbered n
  | .more i o c, n => by
    rw [Clause.numbered, Clause.comparisons, i.comparisons_numbered, c.comparisons_numbered,
      Clause.comparisons, List.length_append, ← List.range'_append_1]

end

theorem all_and_numbered (c : Clause α) (n : ℕ) : (c.numbered n).all_and = c.all_and := by
  induction c using Clause.rec (motive_1 := fun _ => True) generalizing n with
  | comparison a => trivial
  | parens c _ => trivial
  | one i _ => rfl
  | more i o c _ ih => rw [Clause.numbered, Clause.all_and, Clause.all_and, ih]

mutual

theorem Item.ors_first_numbered : (i : Item α) → (n : ℕ) → (i.numbered n).ors_first = i.ors_first
  | .comparison _, _ => rfl
  | .parens c, n => c.ors_first_numbered n

theorem Clause.ors_first_numbered : (c : Clause α) → (n : ℕ) →
    (c.numbered n).ors_first = c.ors_first
  | .one i, n => i.ors_first_numbered n
  | .more i o c, n => by
    rw [Clause.numbered, Clause.ors_first, Clause.ors_first, i.ors_first_numbered,
      c.ors_first_numbered, all_and_numbered]

end

end numbering

/-- The parser groups a when-clause to the right. That is the meaning it has in SQL when at
each level the `or`s stand in front of the `and`s, and otherwise some values of its
comparisons tell the two apart. -/
theorem when_clause_grouped (c : Clause α) :
    parse c.tokens = some c.grouped ∧
      (c.ors_first = true → ∀ v, c.grouped.eval v = c.sql.eval v) ∧
      ((∀ v, (c.numbered 0).grouped.eval v = (c.numbered 0).sql.eval v) ↔ c.ors_first = true) := by
  have hsame : ∀ {β : Type} (c : Clause β), c.ors_first = true →
      ∀ v, c.grouped.eval v = c.sql.eval v := fun c h v =>
    (c.sql_eq_grouped h).1.symm.trans (eval_sql c).symm
  refine ⟨parse_tokens c, hsame c, fun h => ?_, fun h => ?_⟩
  · by_contra hno
    have hors : (c.numbered 0).ors_first = false := by
      rw [c.ors_first_numbered]
      simpa using hno
    have hnodup : (c.numbered 0).comparisons.Nodup := by
      rw [c.comparisons_numbered]
      exact List.nodup_range'
    obtain ⟨v, hv⟩ := (c.numbered 0).exists_differing hnodup hors
    exact hv ((eval_sql _).symm.trans (h v).symm)
  · exact hsame _ ((c.ors_first_numbered 0).trans h)

/-- `a and b or c` with only `c` true: SQL reads (a and b) or c. -/
theorem when_clause_not_always_sql :
    ¬ ∀ (c : Clause ℕ) (v : ℕ → Truth), ∃ e, parse c.tokens = some e ∧ e.eval v = c.sql.eval v := by
  intro h
  obtain ⟨e, he, hv⟩ := h
    (.more (.comparison 0) .and (.more (.comparison 1) .or (.one (.comparison 2))))
    fun a => if a = 2 then .yes else .no
  rw [parse_tokens] at he
  rw [← Option.some.inj he] at hv
  revert hv
  decide

end Blobio.WhenClauses
