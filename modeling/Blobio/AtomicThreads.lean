import Blobio.EventRuns
import Mathlib.Algebra.BigOperators.Group.List.Basic
import Mathlib.Algebra.Order.Ring.Nat
import Mathlib.Data.List.Induction
import Mathlib.Data.List.Perm.Basic

/-! Threads that run their actions one after the other on a shared state, each action whole:
the sections of a mutex, or the answers to requests that are served one at a time. Whatever
the schedule, the shared state comes from one list of all the actions run. -/
namespace AtomicThreads
open EventRuns

variable {σ α : Type*}

structure State (σ α : Type*) where
  shared : σ
  left : List (List α)

/-- The thread at position i runs its next action. -/
def step (act : σ → α → Option σ) (s : State σ α) (i : ℕ) : Option (State σ α) :=
  match s.left[i]? with
  | some (a :: as) => (act s.shared a).map fun shared => ⟨shared, s.left.set i as⟩
  | _ => none

/-- What an action has to meet, said of the thread that runs it. -/
def Next (P : σ → α → Prop) (s : State σ α) (i : ℕ) : Prop :=
  ∀ a as, s.left[i]? = some (a :: as) → P s.shared a

/-- The condition can be seen at the head of the thread. -/
instance (P : σ → α → Prop) [∀ s a, Decidable (P s a)] (s : State σ α) (i : ℕ) :
    Decidable (Next P s i) :=
  match h : s.left[i]? with
  | some (a :: as) => decidable_of_iff (P s.shared a)
      ⟨fun hp b bs hb => by cases hb.symm.trans h; exact hp, fun hn => hn a as h⟩
  | some [] => .isTrue fun _ _ hb => by cases hb.symm.trans h
  | none => .isTrue fun _ _ hb => by cases hb.symm.trans h

def Finished (s : State σ α) : Prop :=
  ∀ as ∈ s.left, as = []

variable {act : σ → α → Option σ} {P : σ → α → Prop} {s s' : State σ α}

theorem step_eq_some {i : ℕ} : step act s i = some s' ↔
    ∃ a as shared, s.left[i]? = some (a :: as) ∧ act s.shared a = some shared ∧
      s' = ⟨shared, s.left.set i as⟩ := by
  unfold step
  split
  · rename_i a as heq
    rw [Option.map_eq_some_iff]
    constructor
    · rintro ⟨shared, hact, rfl⟩
      exact ⟨a, as, shared, heq, hact, rfl⟩
    · rintro ⟨b, bs, shared, heq', hact, rfl⟩
      obtain ⟨rfl, rfl⟩ : a = b ∧ as = bs := by simpa [heq] using heq'
      exact ⟨shared, hact, rfl⟩
  · rename_i hnone
    constructor
    · exact nofun
    · rintro ⟨a, as, shared, heq, -⟩
      exact absurd heq (hnone a as)

theorem flatten_set_perm {l : List (List α)} {i : ℕ} {a : α} {as : List α} (h : l[i]? = some (a :: as)) :
    (a :: (l.set i as).flatten).Perm l.flatten := by
  induction l generalizing i with
  | nil => simp at h
  | cons b l ih =>
    cases i with
    | zero =>
      obtain rfl : b = a :: as := by simpa using h
      exact .refl _
    | succ i =>
      have hrest := ih (by simpa using h)
      simp only [List.set_cons_succ, List.flatten_cons]
      exact List.perm_middle.symm.trans (hrest.append_left b)

/-- A step takes the weight of its action from what is left. -/
theorem sum_left {i : ℕ} {a : α} {as : List α} (w : α → ℕ) (h : s.left[i]? = some (a :: as)) :
    (s.left.flatten.map w).sum = w a + ((s.left.set i as).flatten.map w).sum := by
  rw [← ((flatten_set_perm h).map w).sum_eq, List.map_cons, List.sum_cons]

/-- A run of the threads is a run of the actions that they have taken. -/
theorem serialized {is : List ℕ} (hrun : exec (step act) s is = some s')
    (halong : Along (step act) (Next P) s is) :
    ∃ done, exec act s.shared done = some s'.shared ∧ Along act P s.shared done ∧
      (done ++ s'.left.flatten).Perm s.left.flatten := by
  induction is generalizing s with
  | nil =>
    obtain rfl : s = s' := by simpa using hrun
    exact ⟨[], rfl, trivial, .refl _⟩
  | cons i is ih =>
    obtain ⟨m, hstep, hrest⟩ := exec_cons.mp hrun
    obtain ⟨a, as, shared, hleft, hact, rfl⟩ := step_eq_some.mp hstep
    obtain ⟨done, hdone, hP, hperm⟩ := ih hrest (halong.2 _ hstep)
    refine ⟨a :: done, exec_cons.mpr ⟨shared, hact, hdone⟩, ⟨halong.1 a as hleft, ?_⟩, ?_⟩
    · intro t ht
      obtain rfl : shared = t := by simpa [hact] using ht
      exact hP
    · exact (List.Perm.cons a hperm).trans (flatten_set_perm hleft)

/-- What holds of the ends of a list holds of what a thread still has to run. -/
theorem forall_left {Q : List α → Prop} (hQ : ∀ a as, Q (a :: as) → Q as) {is : List ℕ}
    (hrun : exec (step act) s is = some s') (h : ∀ as ∈ s.left, Q as) : ∀ as ∈ s'.left, Q as := by
  refine invariant_exec (I := fun t => ∀ as ∈ t.left, Q as) ?_ h hrun
  intro t i t' ht hstep as has
  obtain ⟨a, bs, shared, hleft, -, rfl⟩ := step_eq_some.mp hstep
  rcases List.mem_or_eq_of_mem_set has with hold | rfl
  · exact ht as hold
  · exact hQ a as (ht _ (List.mem_of_getElem? hleft))

/-- What an action brings about and all actions keep holds of the actions behind a thread. -/
theorem behind {F : α → σ → Prop} (hset : ∀ t a t', act t a = some t' → F a t')
    (hkeep : ∀ t a t' b, act t a = some t' → F b t → F b t') {is : List ℕ}
    (hrun : exec (step act) s is = some s') {i : ℕ} {as : List α} (has : s'.left[i]? = some as) :
    ∃ before, s.left[i]? = some (before ++ as) ∧ ∀ a ∈ before, F a s'.shared := by
  induction is using List.reverseRecOn generalizing s' as with
  | nil =>
    obtain rfl : s = s' := by simpa using hrun
    exact ⟨[], has, nofun⟩
  | append_singleton is j ih =>
    obtain ⟨m, hm, hstep⟩ := exec_concat.mp hrun
    obtain ⟨a, bs, shared, hleft, hact, rfl⟩ := step_eq_some.mp hstep
    by_cases hij : j = i
    · subst hij
      obtain rfl : bs = as := by
        rw [List.getElem?_set_self (List.getElem?_eq_some_iff.mp hleft).1] at has
        exact Option.some.inj has
      obtain ⟨before, hbefore, hF⟩ := ih hm hleft
      refine ⟨before ++ [a], by rw [hbefore, List.append_assoc]; rfl, fun b hb => ?_⟩
      rcases List.mem_append.mp hb with hb | hb
      · exact hkeep _ _ _ _ hact (hF b hb)
      · exact List.mem_singleton.mp hb ▸ hset _ _ _ hact
    · rw [List.getElem?_set_ne hij] at has
      obtain ⟨before, hbefore, hF⟩ := ih hm has
      exact ⟨before, hbefore, fun b hb => hkeep _ _ _ _ hact (hF b hb)⟩

theorem Finished.flatten (h : Finished s) : s.left.flatten = [] :=
  List.flatten_eq_nil_iff.mpr h

/-- When all threads have finished, their actions have been taken in some order. -/
theorem serialized_finished {is : List ℕ} (hrun : exec (step act) s is = some s') (h : Finished s') :
    ∃ done, exec act s.shared done = some s'.shared ∧ done.Perm s.left.flatten := by
  obtain ⟨done, hdone, -, hperm⟩ := serialized (P := fun _ _ => True) hrun
    (along_of_forall (fun _ _ _ _ _ _ => trivial) _)
  rw [h.flatten, List.append_nil] at hperm
  exact ⟨done, hdone, hperm⟩

/-- Threads that end with the same action have finished when it has been taken for all of them. -/
theorem finished_of_last [DecidableEq α] {last : α} (hlast : ∀ as ∈ s.left, as = [] ∨ as.getLast? = some last)
    {is : List ℕ} (hrun : exec (step act) s is = some s') {done : List α}
    (hperm : (done ++ s'.left.flatten).Perm s.left.flatten)
    (hcount : done.count last = s.left.flatten.count last) : Finished s' := by
  have hnone : last ∉ s'.left.flatten := by
    refine List.count_eq_zero.mp ?_
    have htotal := hperm.count_eq last
    rw [List.count_append] at htotal
    omega
  have hlast' : ∀ as ∈ s'.left, as = [] ∨ as.getLast? = some last := by
    refine forall_left ?_ hrun hlast
    intro a as h
    cases as with
    | nil => exact .inl rfl
    | cons b bs =>
      have hend := h.resolve_left (List.cons_ne_nil a _)
      rw [List.getLast?_cons_cons] at hend
      exact .inr hend
  intro as has
  exact (hlast' as has).resolve_right fun h => hnone (List.mem_flatten.mpr ⟨as, has, List.mem_of_getLast? h⟩)

/-- Threads whose actions can always be run can be brought to their ends. -/
theorem exists_finished (htotal : ∀ t a, (act t a).isSome) (s : State σ α) :
    ∃ is s', exec (step act) s is = some s' ∧ Finished s' := by
  induction hn : s.left.flatten.length generalizing s with
  | zero =>
    refine ⟨[], s, rfl, ?_⟩
    exact List.flatten_eq_nil_iff.mp (List.length_eq_zero_iff.mp hn)
  | succ n ih =>
    have hne : ¬ Finished s := by
      intro h
      rw [h.flatten] at hn
      cases hn
    simp only [Finished, not_forall] at hne
    obtain ⟨as, has, hcons⟩ := hne
    obtain ⟨a, bs, rfl⟩ := List.exists_cons_of_ne_nil hcons
    obtain ⟨i, hi⟩ := List.mem_iff_getElem?.mp has
    obtain ⟨shared, hact⟩ := Option.isSome_iff_exists.mp (htotal s.shared a)
    have hlen : (s.left.set i bs).flatten.length = n := by
      have hperm := (flatten_set_perm hi).length_eq
      rw [List.length_cons] at hperm
      omega
    obtain ⟨is, s', hrun, hfinished⟩ := ih ⟨shared, s.left.set i bs⟩ hlen
    exact ⟨i :: is, s', exec_cons.mpr ⟨_, step_eq_some.mpr ⟨a, bs, shared, hi, hact, rfl⟩, hrun⟩, hfinished⟩

end AtomicThreads
