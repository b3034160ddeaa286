import Mathlib.Data.Nat.Notation

/-! Programs with a state that ask their surroundings for one answer after the other and
may leave early, and what holds of a run however far it has come. -/
namespace TurnPrograms

/-- A run ends with a value, leaves, or waits where the answers end. -/
inductive Result (σ τ α : Type)
  | done (a : α) (s : σ) (turns : List τ)
  | left (s : σ)
  | waiting (s : σ)

/-- The state a run has come to. -/
def Result.state {σ τ α : Type} : Result σ τ α → σ
  | done _ s _ | left s | waiting s => s

/-- The state that a run has left in. -/
def Result.left? {σ τ α : Type} : Result σ τ α → Option σ
  | left s => some s
  | _ => none

def Program (σ τ α : Type) : Type :=
  σ → List τ → Result σ τ α

variable {σ τ α β : Type}

namespace Program

protected def pure (a : α) : Program σ τ α :=
  fun s turns => .done a s turns

protected def bind (m : Program σ τ α) (f : α → Program σ τ β) : Program σ τ β :=
  fun s turns =>
    match m s turns with
    | .done a s turns => f a s turns
    | .left s => .left s
    | .waiting s => .waiting s

instance : Monad (Program σ τ) where
  pure := Program.pure
  bind := Program.bind

def get : Program σ τ σ :=
  fun s turns => .done s s turns

def modify (f : σ → σ) : Program σ τ Unit :=
  fun s turns => .done () (f s) turns

/-- The next answer of the surroundings. -/
def turn : Program σ τ τ :=
  fun s turns =>
    match turns with
    | [] => .waiting s
    | t :: turns => .done t s turns

def leave : Program σ τ α :=
  fun s _ => .left s

def iterate (body : β → Program σ τ (β ⊕ α)) : ℕ → β → Program σ τ α
  | 0, _ => fun s _ => .waiting s
  | n + 1, b => Program.bind (body b) fun
    | .inl b => iterate body n b
    | .inr a => Program.pure a

/-- A loop whose every turn asks for an answer. -/
def loop (body : β → Program σ τ (β ⊕ α)) (b : β) : Program σ τ α :=
  fun s turns => iterate body (turns.length + 1) b s turns

end Program

open Program

/-- From the state on, every run ends in `Q`, leaves in `L` or waits in `W`. -/
def wp (m : Program σ τ α) (Q : α → σ → Prop) (L W : σ → Prop) (s : σ) : Prop :=
  ∀ turns, match m s turns with
    | .done a s' _ => Q a s'
    | .left s' => L s'
    | .waiting s' => W s'

section rules
variable {m : Program σ τ α} {f : α → Program σ τ β} {Q Q' : α → σ → Prop} {R : β → σ → Prop}
  {L L' W W' : σ → Prop} {s : σ}

theorem wp_mono (h : wp m Q L W s) (hQ : ∀ a s', Q a s' → Q' a s') (hL : ∀ s', L s' → L' s')
    (hW : ∀ s', W s' → W' s') : wp m Q' L' W' s := by
  intro turns
  have hrun := h turns
  cases hm : m s turns with
  | done a s' rest =>
    rw [hm] at hrun
    exact hQ a s' hrun
  | left s' =>
    rw [hm] at hrun
    exact hL s' hrun
  | waiting s' =>
    rw [hm] at hrun
    exact hW s' hrun

theorem wp_post (h : wp m Q L W s) (hQ : ∀ a s', Q a s' → Q' a s') : wp m Q' L W s :=
  wp_mono h hQ (fun _ hL => hL) fun _ hW => hW

theorem wp_bind (h : wp m (fun a => wp (f a) R L W) L W s) : wp (m >>= f) R L W s := by
  intro turns
  have hrun := h turns
  change match Program.bind m f s turns with
    | .done a s' _ => R a s'
    | .left s' => L s'
    | .waiting s' => W s'
  unfold Program.bind
  cases hm : m s turns with
  | done a s' rest =>
    rw [hm] at hrun
    exact hrun rest
  | left s' =>
    rw [hm] at hrun
    exact hrun
  | waiting s' =>
    rw [hm] at hrun
    exact hrun

theorem wp_pure {a : α} (h : Q a s) : wp (pure a : Program σ τ α) Q L W s :=
  fun _ => h

theorem wp_get {Q : σ → σ → Prop} (h : Q s s) : wp (get : Program σ τ σ) Q L W s :=
  fun _ => h

theorem wp_modify {g : σ → σ} {Q : Unit → σ → Prop} (h : Q () (g s)) :
    wp (modify g : Program σ τ Unit) Q L W s :=
  fun _ => h

theorem wp_turn {Q : τ → σ → Prop} (hW : W s) (h : ∀ t, Q t s) :
    wp (turn : Program σ τ τ) Q L W s := by
  intro turns
  cases turns with
  | nil => exact hW
  | cons t turns => exact h t

theorem wp_leave (h : L s) : wp (leave : Program σ τ α) Q L W s :=
  fun _ => h

theorem wp_ite {p : Prop} [Decidable p] {n : Program σ τ α} (ht : p → wp m Q L W s)
    (hf : ¬ p → wp n Q L W s) : wp (if p then m else n) Q L W s := by
  split
  · exact ht ‹p›
  · exact hf ‹¬ p›

/-- The loop rule: `J` holds of what the loop carries whenever its body starts. -/
theorem wp_loop {body : β → Program σ τ (β ⊕ α)} {J : β → σ → Prop}
    (hbody : ∀ b s, J b s → wp (body b) (fun r s' =>
      match r with
      | .inl b' => J b' s'
      | .inr a => Q a s') L W s)
    (hW : ∀ b s, J b s → W s) {b : β} (hJ : J b s) : wp (loop body b) Q L W s := by
  have hiterate : ∀ n b s, J b s → wp (iterate body n b) Q L W s := by
    intro n
    induction n with
    | zero =>
      intro b s hJ turns
      exact hW b s hJ
    | succ n ih =>
      intro b s hJ
      refine wp_bind (wp_post (hbody b s hJ) ?_)
      rintro (b' | a) s' h
      · exact ih b' s' h
      · exact wp_pure h
  exact fun turns => hiterate _ b s hJ turns

/-- What holds wherever a run may have come to. -/
theorem state_of_wp {J : σ → Prop} (h : wp m (fun _ => J) J J s) (turns : List τ) : J (m s turns).state := by
  have hrun := h turns
  cases hm : m s turns <;> rw [hm] at hrun <;> exact hrun

theorem done_of_wp {turns rest : List τ} {a : α} {s' : σ} (h : wp m Q L W s)
    (hdone : m s turns = .done a s' rest) : Q a s' := by
  have hrun := h turns
  rw [hdone] at hrun
  exact hrun

theorem left_of_wp {turns : List τ} {s' : σ} (h : wp m Q L W s) (hleft : (m s turns).left? = some s') :
    L s' := by
  have hrun := h turns
  cases hm : m s turns with
  | done a s'' rest =>
    rw [hm] at hleft
    cases hleft
  | waiting s'' =>
    rw [hm] at hleft
    cases hleft
  | left s'' =>
    rw [hm] at hleft hrun
    cases hleft
    exact hrun

end rules

end TurnPrograms
