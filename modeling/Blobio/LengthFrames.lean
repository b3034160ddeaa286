import Mathlib.Data.List.Basic

/-! Messages of a byte stream behind a byte with their length, and what can be told from
the start of such a stream. -/
namespace LengthFrames

/-- A length byte has room for the message, and tells it from none. -/
def Fits (m : List UInt8) : Prop :=
  0 < m.length ∧ m.length ≤ 255

instance (m : List UInt8) : Decidable (Fits m) :=
  inferInstanceAs (Decidable (_ ∧ _))

def frame (m : List UInt8) : List UInt8 :=
  .ofNat m.length :: m

def frames (ms : List (List UInt8)) : List UInt8 :=
  ms.flatMap frame

/-- The start of a frame that breaks off before its end, or nothing. -/
def Torn (t : List UInt8) : Prop :=
  ∃ m, Fits m ∧ t <+: frame m ∧ t.length ≤ m.length

variable {m : List UInt8} {ms : List (List UInt8)} {t got x : List UInt8} {l : UInt8}

theorem torn_nil : Torn [] :=
  ⟨[0], by decide, List.nil_prefix, Nat.zero_le _⟩

theorem frames_append (ms ms' : List (List UInt8)) : frames (ms ++ ms') = frames ms ++ frames ms' :=
  List.flatMap_append

theorem frames_singleton (m : List UInt8) : frames [m] = frame m :=
  List.flatMap_singleton _ _

theorem frames_cons (m : List UInt8) (ms : List (List UInt8)) :
    frames (m :: ms) = .ofNat m.length :: (m ++ frames ms) :=
  rfl

theorem toNat_length (h : Fits m) : (UInt8.ofNat m.length).toNat = m.length := by
  rw [UInt8.toNat_ofNat']
  apply Nat.mod_eq_of_lt
  have hle := h.2
  omega

/-- The length byte of a torn frame promises more than there is. -/
theorem Torn.short (h : Torn (l :: x)) : x.length < l.toNat := by
  obtain ⟨m, hm, hfront, hlength⟩ := h
  rw [frame, List.cons_prefix_cons] at hfront
  rw [hfront.1, toNat_length hm]
  exact hlength

theorem length_ne_zero (hms : ∀ m ∈ ms, Fits m) (ht : Torn t) (h : l :: x = frames ms ++ t) :
    l.toNat ≠ 0 := by
  cases ms with
  | nil =>
    have hshort := Torn.short (h ▸ ht : Torn (l :: x))
    omega
  | cons m ms =>
    have hm := hms m List.mem_cons_self
    rw [frames_cons, List.cons_append, List.cons.injEq] at h
    have hpos := hm.1
    rw [h.1, toNat_length hm]
    omega

/-- A length byte with as many bytes behind it is the first frame. -/
theorem eq_cons_of_full (hms : ∀ m ∈ ms, Fits m) (ht : Torn t) (h : l :: (got ++ x) = frames ms ++ t)
    (hgot : got.length = l.toNat) : ∃ ms', ms = got :: ms' ∧ x = frames ms' ++ t := by
  cases ms with
  | nil =>
    have hshort := Torn.short (h ▸ ht : Torn (l :: (got ++ x)))
    rw [List.length_append] at hshort
    omega
  | cons m ms =>
    have hm := hms m List.mem_cons_self
    rw [frames_cons, List.cons_append, List.cons.injEq, List.append_assoc] at h
    have hlength : got.length = m.length := by
      rw [hgot, h.1, toNat_length hm]
    obtain ⟨rfl, rfl⟩ := List.append_inj h.2 hlength
    exact ⟨ms, rfl, rfl⟩

/-- A stream that ends short of what its length byte promises is torn. -/
theorem eq_nil_of_short (hms : ∀ m ∈ ms, Fits m) (h : l :: got = frames ms ++ t)
    (hgot : got.length < l.toNat) : ms = [] ∧ t = l :: got := by
  cases ms with
  | nil => exact ⟨rfl, h.symm⟩
  | cons m ms =>
    have hm := hms m List.mem_cons_self
    rw [frames_cons, List.cons_append, List.cons.injEq, List.append_assoc] at h
    have hlength := congrArg List.length h.2
    rw [List.length_append] at hlength
    rw [h.1, toNat_length hm] at hgot
    omega

theorem eq_nil_of_frames (h : [] = frames ms ++ t) : ms = [] ∧ t = [] := by
  cases ms with
  | nil => exact ⟨rfl, h.symm⟩
  | cons m ms => cases h

end LengthFrames
