import Mathlib.Data.List.Basic
import Mathlib.Order.Basic

/-! Runs of a machine whose step is undefined on the events that cannot happen
in a state, with the rules that carry a fact from one step to a whole run. -/
namespace EventRuns

variable {σ ε : Type*}

/-- The state after a list of events, when each of them can happen in turn. -/
def exec (step : σ → ε → Option σ) : σ → List ε → Option σ
  | s, [] => some s
  | s, e :: es => (step s e).bind fun s' => exec step s' es

/-- Each event of the run meets `P` in the state it happens in. -/
def Along (step : σ → ε → Option σ) (P : σ → ε → Prop) : σ → List ε → Prop
  | _, [] => True
  | s, e :: es => P s e ∧ ∀ s', step s e = some s' → Along step P s' es

variable {step : σ → ε → Option σ} {P Q : σ → ε → Prop}

@[simp] theorem exec_nil (s : σ) : exec step s [] = some s := rfl

theorem exec_cons {s s' : σ} {e : ε} {es : List ε} :
    exec step s (e :: es) = some s' ↔ ∃ m, step s e = some m ∧ exec step m es = some s' := by
  simp [exec, Option.bind_eq_some_iff]

theorem exec_append {s s' : σ} {es fs : List ε} :
    exec step s (es ++ fs) = some s' ↔ ∃ m, exec step s es = some m ∧ exec step m fs = some s' := by
  induction es generalizing s with
  | nil => simp
  | cons e es ih =>
    simp only [List.cons_append, exec_cons, ih]
    constructor
    · rintro ⟨a, ha, m, hm, hs⟩
      exact ⟨m, ⟨a, ha, hm⟩, hs⟩
    · rintro ⟨m, ⟨a, ha, hm⟩, hs⟩
      exact ⟨a, ha, m, hm, hs⟩

theorem exec_concat {s s' : σ} {es : List ε} {e : ε} :
    exec step s (es ++ [e]) = some s' ↔ ∃ m, exec step s es = some m ∧ step m e = some s' := by
  simp [exec_append, exec_cons]

/-- Stretches of a run that follow one another. -/
theorem exec_stretches {S : ℕ → σ} {events : ℕ → List ε} {n : ℕ}
    (h : ∀ i < n, exec step (S i) (events i) = some (S (i + 1))) :
    exec step (S 0) ((List.range n).flatMap events) = some (S n) := by
  induction n with
  | zero => rfl
  | succ n ih =>
    have hfirst := ih fun i hi => h i (Nat.lt_succ_of_lt hi)
    rw [List.range_succ, List.flatMap_append, List.flatMap_singleton]
    exact exec_append.mpr ⟨S n, hfirst, h n (Nat.lt_succ_self n)⟩

/-- What every step keeps, every run keeps. -/
theorem invariant_exec {I : σ → Prop} (hstep : ∀ s e s', I s → step s e = some s' → I s')
    {s s' : σ} {es : List ε} (h : I s) (hrun : exec step s es = some s') : I s' := by
  induction es generalizing s with
  | nil => simpa using Option.some.inj hrun ▸ h
  | cons e es ih =>
    obtain ⟨m, hm, hs⟩ := exec_cons.mp hrun
    exact ih (hstep s e m h hm) hs

/-- A fact that a step keeps when its event meets `P`. -/
theorem invariant_along {I : σ → Prop} (hstep : ∀ s e s', I s → P s e → step s e = some s' → I s')
    {s s' : σ} {es : List ε} (h : I s) (hP : Along step P s es) (hrun : exec step s es = some s') :
    I s' := by
  induction es generalizing s with
  | nil => simpa using Option.some.inj hrun ▸ h
  | cons e es ih =>
    obtain ⟨m, hm, hs⟩ := exec_cons.mp hrun
    exact ih (hstep s e m h hP.1 hm) (hP.2 m hm) hs

theorem along_append {s : σ} {es fs : List ε} :
    Along step P s (es ++ fs) ↔
      Along step P s es ∧ ∀ m, exec step s es = some m → Along step P m fs := by
  induction es generalizing s with
  | nil => simp [Along]
  | cons e es ih =>
    simp only [List.cons_append, Along, ih, exec_cons]
    constructor
    · rintro ⟨hP, h⟩
      exact ⟨⟨hP, fun a ha => (h a ha).1⟩, fun m ⟨a, ha, hm⟩ => (h a ha).2 m hm⟩
    · rintro ⟨⟨hP, h⟩, hm⟩
      exact ⟨hP, fun a ha => ⟨h a ha, fun m hs => hm m ⟨a, ha, hs⟩⟩⟩

theorem along_concat {s : σ} {es : List ε} {e : ε} :
    Along step P s (es ++ [e]) ↔
      Along step P s es ∧ ∀ m, exec step s es = some m → P m e := by
  simp [along_append, Along]

theorem along_of_forall {es : List ε} (h : ∀ e ∈ es, ∀ s, P s e) (s : σ) : Along step P s es := by
  induction es generalizing s with
  | nil => trivial
  | cons e es ih =>
    exact ⟨h e List.mem_cons_self s, fun m _ => ih (fun f hf => h f (List.mem_cons_of_mem _ hf)) m⟩

theorem Along.forall {p : ε → Prop} (hp : ∀ s e, P s e → p e) {s s' : σ} {es : List ε} (hP : Along step P s es)
    (hrun : exec step s es = some s') : ∀ e ∈ es, p e := by
  induction es generalizing s with
  | nil => simp
  | cons e es ih =>
    obtain ⟨m, hm, hs⟩ := exec_cons.mp hrun
    exact List.forall_mem_cons.mpr ⟨hp s e hP.1, ih (hP.2 m hm) hs⟩

theorem Along.and {s : σ} {es : List ε} (hP : Along step P s es) (hQ : Along step Q s es) :
    Along step (fun s e => P s e ∧ Q s e) s es := by
  induction es generalizing s with
  | nil => trivial
  | cons e es ih => exact ⟨⟨hP.1, hQ.1⟩, fun m hm => ih (hP.2 m hm) (hQ.2 m hm)⟩

/-- A run can be replayed to see whether its events meet a decidable condition. -/
instance Along.decidable [∀ s e, Decidable (P s e)] :
    ∀ (s : σ) (es : List ε), Decidable (Along step P s es)
  | _, [] => isTrue trivial
  | s, e :: es =>
    match h : step s e with
    | none => decidable_of_iff (P s e) (by simp [Along, h])
    | some s' =>
      have := Along.decidable s' es
      decidable_of_iff (P s e ∧ Along step P s' es) (by simp [Along, h])

/-- An event condition that follows from an invariant holds along every run. -/
theorem Along.imp {I : σ → Prop} (hstep : ∀ s e s', I s → P s e → step s e = some s' → I s')
    (hPQ : ∀ s e, I s → P s e → Q s e) {s : σ} {es : List ε} (h : I s) (hP : Along step P s es) :
    Along step Q s es := by
  induction es generalizing s with
  | nil => trivial
  | cons e es ih =>
    exact ⟨hPQ s e h hP.1, fun m hm => ih (hstep s e m h hP.1 hm) (hP.2 m hm)⟩

/-- Two conditions that agree on the events that happen agree on a run; the invariant they
agree under need hold only as long as they are met. -/
theorem along_congr {I : σ → Prop} (hstep : ∀ s e s', I s → P s e → step s e = some s' → I s')
    (hPQ : ∀ s e s', I s → step s e = some s' → (P s e ↔ Q s e)) {s s' : σ} {es : List ε} (h : I s)
    (hrun : exec step s es = some s') : Along step P s es ↔ Along step Q s es := by
  induction es generalizing s with
  | nil => exact Iff.rfl
  | cons e es ih =>
    obtain ⟨m, hm, hs⟩ := exec_cons.mp hrun
    have hcond : ∀ R : σ → ε → Prop,
        Along step R s (e :: es) ↔ R s e ∧ Along step R m es := by
      intro R
      simp [Along, hm]
    rw [hcond P, hcond Q, ← hPQ s e m h hm]
    exact and_congr_right fun hmet => ih (hstep s e m h hmet hm) hs

/-- A run that does not meet the condition throughout has a first event that fails it. -/
theorem exists_first_failure {s : σ} {es : List ε} (h : ¬ Along step P s es) :
    ∃ before e after m, es = before ++ e :: after ∧ Along step P s before ∧
      exec step s before = some m ∧ ¬ P m e := by
  induction es generalizing s with
  | nil => exact absurd trivial h
  | cons e es ih =>
    by_cases hP : P s e
    · have hrest : ∃ m, step s e = some m ∧ ¬ Along step P m es := by
        by_contra hno
        push Not at hno
        exact h ⟨hP, hno⟩
      obtain ⟨m, hm, hfail⟩ := hrest
      obtain ⟨before, f, after, k, hes, halong, hk, hf⟩ := ih hfail
      refine ⟨e :: before, f, after, k, by rw [hes]; rfl, ⟨hP, ?_⟩, exec_cons.mpr ⟨m, hm, hk⟩, hf⟩
      intro m' hm'
      cases hm.symm.trans hm'
      exact halong
    · exact ⟨[], e, es, s, rfl, trivial, rfl, hP⟩

/-- Where a step keeps a fact just if its event meets a condition, the fact holds in all states of
a run just if all of its events meet it. -/
theorem forall_states_iff_along {I R : σ → Prop} (hinv : ∀ s e s', I s → step s e = some s' → I s')
    (hstep : ∀ s e s', I s → R s → step s e = some s' → (R s' ↔ P s e)) {s s' : σ} {es : List ε} (hI : I s)
    (hR : R s) (hrun : exec step s es = some s') :
    (∀ before t, before <+: es → exec step s before = some t → R t) ↔ Along step P s es := by
  constructor
  · intro hall
    by_contra hnot
    obtain ⟨before, e, after, m, rfl, -, hm, hfail⟩ := exists_first_failure hnot
    obtain ⟨m', hm', hafter⟩ := exec_append.mp hrun
    cases hm.symm.trans hm'
    obtain ⟨n, hn, -⟩ := exec_cons.mp hafter
    have hthere := hall (before ++ [e]) n ⟨after, by simp⟩ (exec_concat.mpr ⟨m, hm, hn⟩)
    exact hfail ((hstep m e n (invariant_exec hinv hI hm) (hall before m ⟨_, rfl⟩ hm) hn).mp hthere)
  · rintro hP before t ⟨after, rfl⟩ hbefore
    have hboth : I t ∧ R t :=
      invariant_along (I := fun t => I t ∧ R t)
        (fun m e n hm he hn => ⟨hinv m e n hm.1 hn, (hstep m e n hm.1 hm.2 hn).mpr he⟩) ⟨hI, hR⟩
        (along_append.mp hP).1 hbefore
    exact hboth.2

end EventRuns
