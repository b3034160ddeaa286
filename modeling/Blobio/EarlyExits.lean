import Mathlib.Logic.Basic

/-! Programs on a state that may stop early, in a state that is kept: their results, and rules for
what holds of both ends. -/
namespace EarlyExits

variable {σ ε α β : Type}

/-- A program ends with a value, or stops for a reason. -/
abbrev Program (σ ε : Type) := StateT σ (Except (ε × σ))

def stop (why : ε) : Program σ ε α := fun s => .error (why, s)

/-- A program that ends does so as `Q` says, and one that stops as `E` says. -/
def wp (p : Program σ ε α) (Q : α → σ → Prop) (E : ε → σ → Prop) (s : σ) : Prop :=
  match p s with
  | .ok (a, s') => Q a s'
  | .error (why, s') => E why s'

section results
variable {p : Program σ ε α} {f : α → Program σ ε β} {s s' : σ} {a : α} {why : ε}

@[simp] theorem pure_apply (a : α) (s : σ) : (pure a : Program σ ε α) s = .ok (a, s) := rfl

@[simp] theorem stop_apply (why : ε) (s : σ) : (stop why : Program σ ε α) s = .error (why, s) := rfl

@[simp] theorem modify_apply (g : σ → σ) (s : σ) : (modify g : Program σ ε PUnit) s = .ok (.unit, g s) := rfl

@[simp] theorem get_apply (s : σ) : (get : Program σ ε σ) s = .ok (s, s) := rfl

theorem bind_ok (h : p s = .ok (a, s')) : (p >>= f) s = f a s' := by
  change Except.bind (p s) _ = _
  rw [h]
  rfl

theorem bind_error (h : p s = .error (why, s')) : (p >>= f) s = .error (why, s') := by
  change Except.bind (p s) _ = _
  rw [h]
  rfl

end results

section rules
variable {p : Program σ ε α} {f : α → Program σ ε β} {Q Q' : α → σ → Prop} {R : β → σ → Prop}
  {E E' : ε → σ → Prop} {s s' : σ} {a : α} {why : ε}

theorem wp_of_ok (h : p s = .ok (a, s')) : wp p Q E s ↔ Q a s' := by
  rw [wp, h]

theorem wp_of_error (h : p s = .error (why, s')) : wp p Q E s ↔ E why s' := by
  rw [wp, h]

@[simp] theorem wp_pure : wp (pure a) Q E s ↔ Q a s := Iff.rfl

@[simp] theorem wp_stop : wp (stop why) Q E s ↔ E why s := Iff.rfl

@[simp] theorem wp_modify {Q : PUnit → σ → Prop} {g : σ → σ} : wp (modify g) Q E s ↔ Q .unit (g s) := Iff.rfl

@[simp] theorem wp_get {Q : σ → σ → Prop} : wp get Q E s ↔ Q s s := Iff.rfl

theorem wp_bind : wp (p >>= f) R E s ↔ wp p (fun a => wp (f a) R E) E s := by
  cases h : p s with
  | error x =>
    rw [wp_of_error (bind_error h), wp_of_error h]
  | ok x =>
    rw [wp_of_ok h, wp, bind_ok h, wp]

theorem wp_mono (h : wp p Q E s) (hQ : ∀ a s', Q a s' → Q' a s') (hE : ∀ why s', E why s' → E' why s') :
    wp p Q' E' s := by
  cases hp : p s with
  | error x => exact (wp_of_error hp).mpr (hE _ _ ((wp_of_error hp).mp h))
  | ok x => exact (wp_of_ok hp).mpr (hQ _ _ ((wp_of_ok hp).mp h))

/-- What two specifications of a program come to together. -/
theorem wp_and {Q₁ Q₂ : α → σ → Prop} {E₁ E₂ : ε → σ → Prop} (h₁ : wp p Q₁ E₁ s) (h₂ : wp p Q₂ E₂ s)
    (hQ : ∀ a s', Q₁ a s' → Q₂ a s' → Q a s') (hE : ∀ why s', E₁ why s' → E₂ why s' → E why s') : wp p Q E s := by
  cases hp : p s with
  | error x => exact (wp_of_error hp).mpr (hE _ _ ((wp_of_error hp).mp h₁) ((wp_of_error hp).mp h₂))
  | ok x => exact (wp_of_ok hp).mpr (hQ _ _ ((wp_of_ok hp).mp h₁) ((wp_of_ok hp).mp h₂))

/-- Two programs in a row, the first of them by what is known of it. -/
theorem wp_seq (h : wp p Q E s) (hf : ∀ a s', Q a s' → wp (f a) R E' s') (hE : ∀ why s', E why s' → E' why s') :
    wp (p >>= f) R E' s :=
  wp_bind.mpr (wp_mono h hf hE)

end rules

end EarlyExits
