import Blobio.FlowWiring

/-! What an operator sends in a flow, by the values that its channels carry in the same flow,
whatever the order they come in. -/
namespace Blobio.Flowd
open LockStep TernaryLogic

variable {nd : Node Value} {sent : ℕ → List Value} {j : ℕ} {v : Value}

/-- What a node has received when it sends: one value of the flow on each of its ports. -/
theorem produced_fair (h : Produced nd sent j v)
    (hstamps : ∀ c ∈ nd.reads, ∀ u, (sent c)[j]? = some u → u.flow = j + 1) :
    ∃ l, Fair Value.flow nd.ins.length j l ∧ (∀ i < nd.ins.length, i ∈ l.map Prod.fst) ∧
      (∀ m ∈ l, ∃ port, nd.ins[m.1]? = some port ∧ (sent port.chan)[j]? = some m.2) ∧
      nd.turn (j + 1) l = .send v := by
  obtain ⟨l, harrived, hall, hturn⟩ := h
  refine ⟨l, harrived.fair fun m hm => ?_, hall, harrived.values, hturn⟩
  obtain ⟨port, hport, hsent⟩ := harrived.values m hm
  exact hstamps _ (mem_reads hport) _ hsent

theorem produced_source {data : ℕ → Data} (hturn : nd.turn = source data)
    (h : Produced nd sent j v) : v = ⟨j + 1, data (j + 1)⟩ := by
  obtain ⟨l, -, -, hsend⟩ := h
  rw [hturn] at hsend
  exact (LockStep.Turn.send.inj hsend).symm

theorem produced_convert {f : ℕ → Data → Data} {port : Port} (hturn : nd.turn = convert f)
    (hins : nd.ins = [port]) (h : Produced nd sent j v) :
    ∃ u, (sent port.chan)[j]? = some u ∧ v = ⟨j + 1, f (j + 1) u.data⟩ := by
  obtain ⟨l, harrived, hall, hsend⟩ := h
  rw [hturn] at hsend
  cases l with
  | nil => exact absurd (hall 0 (by rw [hins]; exact Nat.zero_lt_one)) List.not_mem_nil
  | cons m l =>
    obtain ⟨port', hport, hsent⟩ := harrived.values m List.mem_cons_self
    have hzero : m.1 = 0 := by
      have hlt := (List.getElem?_eq_some_iff.mp hport).1
      rw [hins] at hlt
      exact Nat.lt_one_iff.mp hlt
    rw [hins, hzero] at hport
    obtain rfl := Option.some.inj hport
    exact ⟨m.2, hsent, (LockStep.Turn.send.inj hsend).symm⟩

theorem produced_forward {port : Port} (hturn : nd.turn = forward) (hins : nd.ins = [port])
    (h : Produced nd sent j v) : (sent port.chan)[j]? = some v := by
  obtain ⟨l, harrived, hall, hsend⟩ := h
  rw [hturn] at hsend
  cases l with
  | nil => exact absurd (hall 0 (by rw [hins]; exact Nat.zero_lt_one)) List.not_mem_nil
  | cons m l =>
    obtain ⟨port', hport, hsent⟩ := harrived.values m List.mem_cons_self
    have hzero : m.1 = 0 := by
      have hlt := (List.getElem?_eq_some_iff.mp hport).1
      rw [hins] at hlt
      exact Nat.lt_one_iff.mp hlt
    rw [hins, hzero] at hport
    obtain rfl := Option.some.inj hport
    exact hsent.trans (congrArg some (LockStep.Turn.send.inj hsend))

/-- A node with two ports has received one value of the flow on each of them, in some order. -/
theorem produced_two {left right : Port} (hins : nd.ins = [left, right]) (h : Produced nd sent j v)
    (hstamps : ∀ c ∈ nd.reads, ∀ u, (sent c)[j]? = some u → u.flow = j + 1) :
    ∃ a b, (sent left.chan)[j]? = some a ∧ (sent right.chan)[j]? = some b ∧
      a.flow = j + 1 ∧ b.flow = j + 1 ∧
      (nd.turn (j + 1) [(0, a), (1, b)] = .send v ∨ nd.turn (j + 1) [(1, b), (0, a)] = .send v) := by
  obtain ⟨l, hfair, hall, hvalues, hsend⟩ := produced_fair h hstamps
  rw [hins] at hfair hall hvalues
  have hone : 1 ∈ l.map Prod.fst := hall 1 Nat.one_lt_two
  have hzero : 0 ∈ l.map Prod.fst := hall 0 Nat.two_pos
  have hleft : ∀ {a}, (0, a) ∈ l → (sent left.chan)[j]? = some a := fun hm => by
    obtain ⟨port, hport, hsent⟩ := hvalues _ hm
    obtain rfl := Option.some.inj hport
    exact hsent
  have hright : ∀ {b}, (1, b) ∈ l → (sent right.chan)[j]? = some b := fun hm => by
    obtain ⟨port, hport, hsent⟩ := hvalues _ hm
    obtain rfl := Option.some.inj hport
    exact hsent
  rcases fair_two hfair with rfl | ⟨a, rfl, -⟩ | ⟨b, rfl, -⟩ | ⟨a, b, horder, ha, hb⟩
  · cases hone
  · simp at hone
  · simp at hzero
  · refine ⟨a, b, hleft ?_, hright ?_, ha, hb, ?_⟩
    · rcases horder with rfl | rfl <;> simp
    · rcases horder with rfl | rfl <;> simp
    · rcases horder with rfl | rfl
      · exact .inl hsend
      · exact .inr hsend

/-- A logical operator sends the value of SQL for its operands. -/
theorem produced_bool2 {o : Op} {left right : Port} (hturn : nd.turn = bool2 (table o))
    (hins : nd.ins = [left, right]) (h : Produced nd sent j v)
    (hstamps : ∀ c ∈ nd.reads, ∀ u, (sent c)[j]? = some u → u.flow = j + 1) :
    ∃ a b t, (sent left.chan)[j]? = some a ∧ (sent right.chan)[j]? = some b ∧
      v = ⟨j + 1, .bool_value t⟩ ∧ truth t = o.apply (truth a.data.bool) (truth b.data.bool) := by
  obtain ⟨a, b, hleft, hright, -, -, hsend⟩ := produced_two hins h hstamps
  rw [hturn] at hsend
  obtain ⟨t, htruth, hab, hba⟩ := bool2_both o (j + 1) a b
  refine ⟨a, b, t, hleft, hright, ?_, htruth⟩
  rcases hsend with hsend | hsend
  · exact (LockStep.Turn.send.inj (hab.symm.trans hsend)).symm
  · exact (LockStep.Turn.send.inj (hba.symm.trans hsend)).symm

/-- A rule sends what it comes to for its arguments and its when-clause. -/
theorem produced_rule {w : World} {null idle : Data} {fire : ℕ → List String → Option Data} {left right : Port}
    (hturn : nd.turn = rule w null idle fire) (hins : nd.ins = [left, right]) (h : Produced nd sent j v)
    (hstamps : ∀ c ∈ nd.reads, ∀ u, (sent c)[j]? = some u → u.flow = j + 1) :
    ∃ a b, (sent left.chan)[j]? = some a ∧ (sent right.chan)[j]? = some b ∧
      fired null idle fire (j + 1) a.data b.data = .send v := by
  obtain ⟨a, b, hleft, hright, ha, hb, hsend⟩ := produced_two hins h hstamps
  rw [hturn] at hsend
  obtain ⟨hab, hba⟩ := rule_both w null idle fire (j + 1) ha hb
  refine ⟨a, b, hleft, hright, ?_⟩
  rcases hsend with hsend | hsend
  · exact hab.symm.trans hsend
  · exact hba.symm.trans hsend

end Blobio.Flowd
