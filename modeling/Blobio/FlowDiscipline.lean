import Blobio.FlowOperators
import Mathlib.Data.Finset.Card
import Mathlib.Data.Finset.Range

/-! Every operator of a flow keeps to its rounds: it reads each of its inputs once, in any
order, and sends one value of the same flow. -/
namespace Blobio.Flowd
open LockStep TernaryLogic

section ports

theorem mem_of_full {l : List ℕ} {n : ℕ} (hnodup : l.Nodup) (hlt : ∀ i ∈ l, i < n)
    (hlen : l.length = n) : ∀ i < n, i ∈ l := by
  have heq : l.toFinset = Finset.range n := by
    refine Finset.eq_of_subset_of_card_le (fun i hi => ?_) ?_
    · exact Finset.mem_range.mpr (hlt i (List.mem_toFinset.mp hi))
    · rw [Finset.card_range, List.toFinset_card_of_nodup hnodup, hlen]
  intro i hi
  exact List.mem_toFinset.mp (heq ▸ Finset.mem_range.mpr hi)

theorem exists_missing {l : List ℕ} {n : ℕ} (hnodup : l.Nodup) (hlen : l.length < n) :
    ∃ i < n, i ∉ l := by
  by_contra hno
  push Not at hno
  have hsub : Finset.range n ⊆ l.toFinset := fun i hi =>
    List.mem_toFinset.mpr (hno i (Finset.mem_range.mp hi))
  have hcard := Finset.card_le_card hsub
  rw [Finset.card_range, List.toFinset_card_of_nodup hnodup] at hcard
  omega

variable {j n : ℕ} {l : Arrivals}

theorem fair_length_le (h : Fair Value.flow n j l) : l.length ≤ n := by
  by_contra hlt
  have hsub : (l.map Prod.fst).toFinset ⊆ Finset.range n := by
    intro i hi
    obtain ⟨m, hm, rfl⟩ := List.mem_map.mp (List.mem_toFinset.mp hi)
    exact Finset.mem_range.mpr (h.bounds m hm)
  have hcard := Finset.card_le_card hsub
  rw [Finset.card_range, List.toFinset_card_of_nodup h.distinct, List.length_map] at hcard
  omega

theorem fair_full (h : Fair Value.flow n j l) (hlen : l.length = n) :
    ∀ i < n, i ∈ l.map Prod.fst := by
  refine mem_of_full h.distinct (fun i hi => ?_) (by rw [List.length_map, hlen])
  obtain ⟨m, hm, rfl⟩ := List.mem_map.mp hi
  exact h.bounds m hm

/-- What arrives on one port. -/
theorem fair_one (h : Fair Value.flow 1 j l) : l = [] ∨ ∃ a, l = [(0, a)] ∧ a.flow = j + 1 := by
  have hlen := fair_length_le h
  match l with
  | [] => exact Or.inl rfl
  | [(i, a)] =>
    have hi := h.bounds (i, a) List.mem_cons_self
    obtain rfl : i = 0 := Nat.lt_one_iff.mp hi
    exact Or.inr ⟨a, rfl, h.stamps _ List.mem_cons_self⟩
  | _ :: _ :: _ => simp at hlen

/-- What arrives on two ports, in either order. -/
theorem fair_two (h : Fair Value.flow 2 j l) :
    l = [] ∨ (∃ a, l = [(0, a)] ∧ a.flow = j + 1) ∨ (∃ b, l = [(1, b)] ∧ b.flow = j + 1) ∨
      ∃ a b, (l = [(0, a), (1, b)] ∨ l = [(1, b), (0, a)]) ∧ a.flow = j + 1 ∧ b.flow = j + 1 := by
  have hlen := fair_length_le h
  match l with
  | [] => exact Or.inl rfl
  | [(i, a)] =>
    have hi : i < 2 := h.bounds (i, a) List.mem_cons_self
    have ha : a.flow = j + 1 := h.stamps (i, a) List.mem_cons_self
    rcases Nat.lt_succ_iff_lt_or_eq.mp hi with hi | rfl
    · obtain rfl := Nat.lt_one_iff.mp hi
      exact Or.inr (Or.inl ⟨a, rfl, ha⟩)
    · exact Or.inr (Or.inr (Or.inl ⟨a, rfl, ha⟩))
  | [(i, a), (k, b)] =>
    have hi : i < 2 := h.bounds (i, a) List.mem_cons_self
    have hk : k < 2 := h.bounds (k, b) (List.mem_cons_of_mem _ List.mem_cons_self)
    have ha : a.flow = j + 1 := h.stamps (i, a) List.mem_cons_self
    have hb : b.flow = j + 1 := h.stamps (k, b) (List.mem_cons_of_mem _ List.mem_cons_self)
    have hne : i ≠ k := by
      have hd := h.distinct
      simp only [List.map_cons, List.map_nil, List.nodup_cons, List.mem_singleton] at hd
      exact hd.1
    by_cases hi0 : i = 0
    · obtain ⟨rfl, rfl⟩ : i = 0 ∧ k = 1 := by omega
      exact Or.inr (Or.inr (Or.inr ⟨a, b, Or.inl rfl, ha, hb⟩))
    · obtain ⟨rfl, rfl⟩ : i = 1 ∧ k = 0 := by omega
      exact Or.inr (Or.inr (Or.inr ⟨b, a, Or.inr rfl, hb, ha⟩))
  | _ :: _ :: _ :: _ => simp at hlen

end ports

section shapes
variable {turn : ℕ → Arrivals → LockStep.Turn Value}

/-- A turn that ends a flow: a value of the flow, or giving up. -/
def Ends (flow : ℕ) (t : LockStep.Turn Value) : Prop := (∃ v, t = .send v ∧ v.flow = flow) ∨ t = .abort

theorem Ends.send (flow : ℕ) (d : Data) : Ends flow (.send ⟨flow, d⟩) := Or.inl ⟨_, rfl, rfl⟩

/-- A goroutine keeps to its rounds when it takes while something is missing, and ends the
flow when nothing is. -/
theorem keeps_of_cases {n : ℕ}
    (htake : ∀ j l, Fair Value.flow n j l → l.length < n →
      ∃ ps, turn (j + 1) l = .take ps ∧ ∀ i < n, i ∉ l.map Prod.fst → i ∈ ps)
    (hend : ∀ j l, Fair Value.flow n j l → l.length = n → Ends (j + 1) (turn (j + 1) l)) :
    Keeps Value.flow n turn := by
  have hsplit : ∀ {j l}, Fair Value.flow n j l → l.length < n ∨ l.length = n := fun h =>
    Nat.lt_or_eq_of_le (fair_length_le h)
  refine ⟨fun j l ps h hturn => ?_, fun j l v h hturn => ?_, fun j l h hturn => ?_,
    fun j l h hturn => ?_⟩
  · rcases hsplit h with hlt | heq
    · obtain ⟨ps', hps, hmem⟩ := htake j l h hlt
      obtain rfl : ps = ps' := LockStep.Turn.take.inj (hturn.symm.trans hps)
      exact ⟨exists_missing h.distinct (by rwa [List.length_map]), hmem⟩
    · rcases hend j l h heq with ⟨v, hv, -⟩ | hv <;> simp [hv] at hturn
  · rcases hsplit h with hlt | heq
    · obtain ⟨ps, hps, -⟩ := htake j l h hlt
      simp [hps] at hturn
    · rcases hend j l h heq with ⟨v', hv, hflow⟩ | hv
      · obtain rfl := LockStep.Turn.send.inj (hturn.symm.trans hv)
        exact ⟨fair_full h heq, hflow⟩
      · simp [hv] at hturn
  · rcases hsplit h with hlt | heq
    · obtain ⟨ps, hps, -⟩ := htake j l h hlt
      simp [hps] at hturn
    · exact fair_full h heq
  · rcases hsplit h with hlt | heq
    · obtain ⟨ps, hps, -⟩ := htake j l h hlt
      simp [hps] at hturn
    · rcases hend j l h heq with ⟨v, hv, -⟩ | hv <;> simp [hv] at hturn

theorem keeps_unary (hnil : ∀ flow, turn flow [] = .take [0])
    (hone : ∀ flow a, a.flow = flow → Ends flow (turn flow [(0, a)])) :
    Keeps Value.flow 1 turn := by
  refine keeps_of_cases (fun j l h hlt => ?_) fun j l h heq => ?_
  · obtain rfl := List.length_eq_zero_iff.mp (Nat.lt_one_iff.mp hlt)
    refine ⟨_, hnil _, fun i hi _ => ?_⟩
    rw [Nat.lt_one_iff.mp hi]
    exact List.mem_cons_self
  · rcases fair_one h with rfl | ⟨a, rfl, ha⟩
    · cases heq
    · exact hone _ a ha

theorem keeps_binary (hnil : ∀ flow, turn flow [] = .take [0, 1])
    (hleft : ∀ flow a, a.flow = flow → ∃ ps, turn flow [(0, a)] = .take ps ∧ 1 ∈ ps)
    (hright : ∀ flow b, b.flow = flow → ∃ ps, turn flow [(1, b)] = .take ps ∧ 0 ∈ ps)
    (hboth : ∀ flow a b, a.flow = flow → b.flow = flow →
      Ends flow (turn flow [(0, a), (1, b)]) ∧ Ends flow (turn flow [(1, b), (0, a)])) :
    Keeps Value.flow 2 turn := by
  refine keeps_of_cases (fun j l h hlt => ?_) fun j l h heq => ?_
  · rcases fair_two h with rfl | ⟨a, rfl, ha⟩ | ⟨b, rfl, hb⟩ | ⟨a, b, rfl | rfl, -, -⟩
    · refine ⟨_, hnil _, fun i hi _ => ?_⟩
      rcases Nat.lt_succ_iff_lt_or_eq.mp hi with hi | rfl
      · rw [Nat.lt_one_iff.mp hi]
        exact List.mem_cons_self
      · exact List.mem_cons_of_mem _ List.mem_cons_self
    · obtain ⟨ps, hps, hmem⟩ := hleft _ a ha
      refine ⟨ps, hps, fun i hi hmissing => ?_⟩
      obtain rfl : i = 1 := by
        simp only [List.map_cons, List.map_nil, List.mem_singleton] at hmissing
        omega
      exact hmem
    · obtain ⟨ps, hps, hmem⟩ := hright _ b hb
      refine ⟨ps, hps, fun i hi hmissing => ?_⟩
      obtain rfl : i = 0 := by
        simp only [List.map_cons, List.map_nil, List.mem_singleton] at hmissing
        omega
      exact hmem
    · exact absurd hlt (lt_irrefl 2)
    · exact absurd hlt (lt_irrefl 2)
  · rcases fair_two h with rfl | ⟨a, rfl, ha⟩ | ⟨b, rfl, hb⟩ | ⟨a, b, rfl | rfl, ha, hb⟩
    · cases heq
    · cases heq
    · cases heq
    · exact (hboth _ a b ha hb).1
    · exact (hboth _ a b ha hb).2

end shapes

theorem keeps_source (data : ℕ → Data) : Keeps Value.flow 0 (source data) :=
  keeps_of_cases (fun _ _ _ hlt => absurd hlt (Nat.not_lt_zero _)) fun _ _ _ _ => Ends.send _ _

theorem keeps_convert (f : ℕ → Data → Data) : Keeps Value.flow 1 (convert f) :=
  keeps_unary (fun _ => rfl) fun _ _ _ => Ends.send _ _

theorem keeps_forward : Keeps Value.flow 1 forward :=
  keeps_unary (fun _ => rfl) fun _ a ha => Or.inl ⟨a, rfl, ha⟩

theorem keeps_cast_uint64 : Keeps Value.flow 1 cast_uint64 := by
  refine keeps_unary (fun _ => rfl) fun flow a _ => ?_
  cases hs : a.data.string with
  | none =>
    simp only [cast_uint64, hs]
    exact Ends.send _ _
  | some s =>
    cases hparse : ParseUint s with
    | none =>
      simp only [cast_uint64, hs, hparse]
      exact Or.inr rfl
    | some ui64 =>
      simp only [cast_uint64, hs, hparse]
      exact Ends.send _ _

section bool2
variable (o : Op) (flow : ℕ) (a b : Value)

theorem bool2_left : ∃ ps, bool2 (table o) flow [(0, a)] = .take ps ∧ 1 ∈ ps := by
  by_cases hwait : next_state (table o) (some a.data.bool) none = rum_WAIT
  · refine ⟨[0, 1], ?_, by decide⟩
    simp [bool2, wait_bool2, hwait]
  · refine ⟨[1], ?_, by decide⟩
    simp [bool2, wait_bool2, hwait, drain_bool2]

theorem bool2_right : ∃ ps, bool2 (table o) flow [(1, b)] = .take ps ∧ 0 ∈ ps := by
  by_cases hwait : next_state (table o) none (some b.data.bool) = rum_WAIT
  · refine ⟨[0, 1], ?_, by decide⟩
    simp [bool2, wait_bool2, hwait]
  · refine ⟨[0], ?_, by decide⟩
    simp [bool2, wait_bool2, hwait, drain_bool2]

/-- Whichever operand comes first, and whether it decides or not, bool2 sends the value of
SQL when both have come. -/
theorem bool2_both : ∃ v, truth v = o.apply (truth a.data.bool) (truth b.data.bool) ∧
    bool2 (table o) flow [(0, a), (1, b)] = .send ⟨flow, .bool_value v⟩ ∧
    bool2 (table o) flow [(1, b), (0, a)] = .send ⟨flow, .bool_value v⟩ := by
  obtain ⟨hnil, hdone, hvalue⟩ := next_state_both o a.data.bool b.data.bool
  obtain ⟨hleft, -⟩ := next_state_one o a.data.bool
  obtain ⟨-, hright⟩ := next_state_one o b.data.bool
  refine ⟨_, hvalue, ?_, ?_⟩
  · rcases hleft with hwait | ⟨hsent, htruth⟩
    · simp [bool2, wait_bool2, hwait, hdone, drain_bool2, hnil]
    · by_cases hwait : next_state (table o) (some a.data.bool) none = rum_WAIT
      · simp [bool2, wait_bool2, hwait, hdone, drain_bool2, hnil]
      · have hsame := truth_injective ((htruth b.data.bool).trans hvalue.symm)
        simp [bool2, wait_bool2, hwait, drain_bool2, hsent, hsame]
  · rcases hright with hwait | ⟨hsent, htruth⟩
    · simp [bool2, wait_bool2, hwait, hdone, drain_bool2, hnil]
    · by_cases hwait : next_state (table o) none (some b.data.bool) = rum_WAIT
      · simp [bool2, wait_bool2, hwait, hdone, drain_bool2, hnil]
      · have hsame := truth_injective ((htruth a.data.bool).trans hvalue.symm)
        simp [bool2, wait_bool2, hwait, drain_bool2, hsent, hsame]

end bool2

theorem keeps_bool2 (o : Op) : Keeps Value.flow 2 (bool2 (table o)) := by
  refine keeps_binary (fun _ => rfl) (fun flow a _ => bool2_left o flow a)
    (fun flow b _ => bool2_right o flow b) fun flow a b _ _ => ?_
  obtain ⟨v, -, hab, hba⟩ := bool2_both o flow a b
  rw [hab, hba]
  exact ⟨Ends.send _ _, Ends.send _ _⟩

section rule
variable (w : World) (null idle : Data) (fire : ℕ → List String → Option Data) (flow : ℕ)

/-- What a rule sends for its arguments and its when-clause. -/
def fired (argv when : Data) : LockStep.Turn Value :=
  match argv.argv, when.bool with
  | some argv, some true =>
    match fire flow argv with
    | some data => .send ⟨flow, data⟩
    | none => .abort
  | some _, some false => .send ⟨flow, idle⟩
  | _, _ => .send ⟨flow, null⟩

theorem rule_both {a b : Value} (ha : a.flow = flow) (hb : b.flow = flow) :
    rule w null idle fire flow [(0, a), (1, b)] = fired null idle fire flow a.data b.data ∧
      rule w null idle fire flow [(1, b), (0, a)] = fired null idle fire flow a.data b.data := by
  simp only [rule, wait_fire, ha, hb, ne_eq, not_true_eq_false, if_false, if_true, one_ne_zero]
  exact ⟨rfl, rfl⟩

theorem fired_ends (argv when : Data) : Ends flow (fired null idle fire flow argv when) := by
  unfold fired
  split
  case h_1 args _ _ =>
    cases hfire : fire flow args with
    | none => exact Or.inr rfl
    | some data => exact Ends.send _ _
  case h_2 => exact Ends.send _ _
  case h_3 => exact Ends.send _ _

theorem keeps_rule : Keeps Value.flow 2 (rule w null idle fire) := by
  refine keeps_binary (fun _ => rfl) (fun flow a ha => ⟨[0, 1], ?_, by decide⟩)
    (fun flow b hb => ⟨[0, 1], ?_, by decide⟩) fun flow a b ha hb => ?_
  · simp [rule, wait_fire, ha]
  · simp [rule, wait_fire, hb]
  · obtain ⟨hab, hba⟩ := rule_both w null idle fire flow ha hb
    rw [hab, hba]
    exact ⟨fired_ends .., fired_ends ..⟩

end rule

section argv

/-- Each argument finds its place empty when no position comes twice. -/
theorem argv_loop_fair {n : ℕ} (hn : n < 256) (flow : ℕ) (l : Arrivals) (av : List String)
    (is_null : Bool) (before : List ℕ) (hnodup : (before ++ l.map Prod.fst).Nodup)
    (hlt : ∀ m ∈ l, m.1 < n) (hav : av.length = n)
    (hempty : ∀ i < n, i ∉ before → av[i]? = some "") :
    (before.length + l.length < n →
      argv_loop n flow av is_null before.length l = .take (List.range n)) ∧
    (before.length + l.length = n →
      ∃ d, argv_loop n flow av is_null before.length l = .send ⟨flow, d⟩) := by
  induction l generalizing av is_null before with
  | nil =>
    unfold argv_loop
    rw [Nat.mod_eq_of_lt hn]
    rw [List.length_nil, Nat.add_zero]
    refine ⟨fun hless => ?_, fun hall => ?_⟩
    · rw [if_neg (Nat.not_le.mpr hless)]
    · rw [if_pos hall.ge]
      exact ⟨_, rfl⟩
  | cons m l ih =>
    obtain ⟨i, v⟩ := m
    have hi : i < n := hlt _ List.mem_cons_self
    have hsplit : before ++ ((i, v) :: l).map Prod.fst = (before ++ [i]) ++ l.map Prod.fst := by
      rw [List.map_cons, List.append_assoc, List.singleton_append]
    have hfresh : i ∉ before := fun hin =>
      (List.nodup_append.mp hnodup).2.2 i hin i List.mem_cons_self rfl
    have hlen : before.length + (l.length + 1) = (before ++ [i]).length + l.length := by
      rw [List.length_append, List.length_singleton]
      omega
    rw [hsplit] at hnodup
    have hrest := ih (av.set i (v.data.string.getD "")) (is_null || v.data.string.isNone) _ hnodup
      (fun m hm => hlt m (List.mem_cons_of_mem _ hm)) (by rw [List.length_set, hav]) (by
        intro k hk hnot
        rw [List.mem_append, not_or, List.mem_singleton] at hnot
        rw [List.getElem?_set_ne (fun heq => hnot.2 heq.symm)]
        exact hempty k hk hnot.1)
    rw [List.length_append, List.length_singleton] at hrest
    have hstep : before.length < n →
        argv_loop n flow av is_null before.length ((i, v) :: l) =
          argv_loop n flow (av.set i (v.data.string.getD "")) (is_null || v.data.string.isNone)
            (before.length + 1) l := by
      intro hless
      rw [argv_loop, Nat.mod_eq_of_lt hn, if_neg (Nat.not_le.mpr hless)]
      simp only [Nat.mod_eq_of_lt (hi.trans hn), hempty i hi hfresh]
      rw [if_neg (fun hne => hne rfl)]
    rw [List.length_cons]
    refine ⟨fun hless => ?_, fun hall => ?_⟩
    · rw [hstep (by omega)]
      exact hrest.1 (by omega)
    · rw [hstep (by omega)]
      exact hrest.2 (by omega)

theorem keeps_argv {n : ℕ} (hn : n < 256) : Keeps Value.flow n (argv n) := by
  have hloop : ∀ j l, Fair Value.flow n j l → _ := fun j l h =>
    argv_loop_fair hn (j + 1) l (List.replicate (n % 256) "") false []
      h.distinct h.bounds (by rw [List.length_replicate, Nat.mod_eq_of_lt hn])
      fun i hi _ => by rw [List.getElem?_replicate, if_pos (by rwa [Nat.mod_eq_of_lt hn])]
  refine keeps_of_cases (fun j l h hlt => ⟨_, (hloop j l h).1 (by simpa using hlt), ?_⟩)
    fun j l h heq => ?_
  · exact fun i hi _ => List.mem_range.mpr hi
  · obtain ⟨d, hd⟩ := (hloop j l h).2 (by simpa using heq)
    exact Or.inl ⟨_, hd, rfl⟩

end argv

section reduce

theorem reduce_loop_fair (w : World) {n flow : ℕ} (l : Arrivals) (fdr : UInt8 × UInt8) {i : ℕ}
    (hflow : ∀ m ∈ l, m.2.flow = flow) :
    (i + l.length < n → reduce_loop w n flow fdr i l = .take (List.range n)) ∧
    (i + l.length = n → ∃ d, reduce_loop w n flow fdr i l = .send ⟨flow, d⟩) := by
  induction l generalizing fdr i with
  | nil =>
    unfold reduce_loop
    rw [List.length_nil, Nat.add_zero]
    refine ⟨fun hless => ?_, fun hall => ?_⟩
    · rw [if_neg (Nat.not_le.mpr hless)]
    · rw [if_pos hall.ge]
      exact ⟨_, rfl⟩
  | cons m l ih =>
    have hm : m.2.flow = flow := hflow m List.mem_cons_self
    have hrest := ih (stat (record_class m.2.data) fdr) (i := i + 1) fun m hm =>
      hflow m (List.mem_cons_of_mem _ hm)
    have hstep : i < n → reduce_loop w n flow fdr i (m :: l) =
        reduce_loop w n flow (stat (record_class m.2.data) fdr) (i + 1) l := by
      intro hless
      rw [reduce_loop, if_neg (Nat.not_le.mpr hless)]
      simp [hm]
    rw [List.length_cons]
    refine ⟨fun hless => ?_, fun hall => ?_⟩
    · rw [hstep (by omega)]
      exact hrest.1 (by omega)
    · rw [hstep (by omega)]
      exact hrest.2 (by omega)

theorem keeps_reduce (w : World) (n : ℕ) : Keeps Value.flow n (reduce w n) := by
  refine keeps_of_cases (fun j l h hlt => ⟨_, ?_, fun i hi _ => List.mem_range.mpr hi⟩)
    fun j l h heq => ?_
  · exact (reduce_loop_fair w l (0, 0) h.stamps).1 (by omega)
  · obtain ⟨d, hd⟩ := (reduce_loop_fair w (n := n) (i := 0) l (0, 0) h.stamps).2 (by omega)
    exact Or.inl ⟨_, hd, rfl⟩

end reduce

end Blobio.Flowd
