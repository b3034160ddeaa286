import Blobio.RequestChild

/-! The syntactic checks of digests, module for module, and the verbs that treat the empty
digest on their own. -/
namespace Blobio.RequestChild
open TurnPrograms TurnPrograms.Program

/-! ### The checks of the modules -/

/-- The scan of up to forty digits, behind which the string has to end. -/
def scan_digits : ℕ → Text → Bool
  | 0, rest => rest = []
  | _ + 1, [] => false
  | n + 1, c :: rest => isxdigit c ∧ ¬ (isalpha c ∧ ¬ islower c) ∧ scan_digits n rest

/-- What follows the quick check of the first three characters. -/
def check_empty (quick empty digest : Text) : ℕ :=
  if digest.take 3 = quick then
    if digest = empty then 2 else 1
  else 1

def fs_sha_is_digest (digest : Text) : ℕ :=
  if scan_digits 40 digest then check_empty "da3".toList DigestModule.sha.empty_ascii digest else 0

def fs_btc20_is_digest (digest : Text) : ℕ :=
  if scan_digits 40 digest then check_empty "fd7".toList DigestModule.btc20.empty_ascii digest else 0

/-- The length comes first here, and the first three characters are those of another module. -/
def fs_bc160_is_digest (digest : Text) : ℕ :=
  if digest.length ≠ 40 then 0
  else if digest.all fun c => ('0' ≤ c ∧ c ≤ '9') ∨ ('a' ≤ c ∧ c ≤ 'f') then
    check_empty "da3".toList DigestModule.bc160.empty_ascii digest
  else 0

def fs_is_digest : DigestModule → Text → ℕ
  | .bc160 => fs_bc160_is_digest
  | .btc20 => fs_btc20_is_digest
  | .sha => fs_sha_is_digest

/-- Forty lower-case hex characters. -/
def HexDigits (digest : Text) : Prop :=
  digest.length = 40 ∧ ∀ c ∈ digest, c ∈ nib2hex

instance (digest : Text) : Decidable (HexDigits digest) :=
  inferInstanceAs (Decidable (_ ∧ _))

theorem scan_digits_iff (n : ℕ) (digest : Text) :
    scan_digits n digest ↔ digest.length = n ∧ ∀ c ∈ digest, c ∈ nib2hex := by
  induction n generalizing digest with
  | zero => cases digest <;> simp [scan_digits]
  | succ n ih =>
    cases digest with
    | nil => simp [scan_digits]
    | cons c rest =>
      have hc := is_digest_char_eq .sha c
      simp only [DigestModule.is_digest_char, decide_eq_true_eq] at hc
      simp only [scan_digits, decide_eq_true_eq, ih, List.length_cons, List.forall_mem_cons, ← hc,
        Nat.add_right_cancel_iff]
      tauto

theorem is_digest_eq (m : DigestModule) (digest : Text) : m.is_digest digest =
    if HexDigits digest then check_empty m.quick_check m.empty_ascii digest else 0 := by
  have hne := is_digest_ne_zero m digest
  split
  · rename_i h
    have hlen := h.1
    have hchars : ¬ ∃ c ∈ digest, ¬ m.is_digest_char c := by
      simpa [is_digest_char_eq] using h.2
    rw [DigestModule.is_digest, if_neg (fun hor => hor.elim (· hlen) hchars)]
    rfl
  · rename_i h
    by_contra hzero
    exact h (hne.mp hzero)

theorem fs_is_digest_eq (m : DigestModule) (digest : Text) : fs_is_digest m digest = m.is_digest digest := by
  rw [is_digest_eq]
  cases m with
  | bc160 =>
    have hall : (digest.all fun c => ('0' ≤ c ∧ c ≤ '9') ∨ ('a' ≤ c ∧ c ≤ 'f')) ↔
        ∀ c ∈ digest, c ∈ nib2hex := by
      simp [mem_nib2hex]
    simp only [fs_is_digest, fs_bc160_is_digest, hall, HexDigits]
    by_cases hlen : digest.length = 40 <;> simp [hlen, DigestModule.quick_check]
  | btc20 =>
    simp only [fs_is_digest, fs_btc20_is_digest, scan_digits_iff]
    rfl
  | sha =>
    simp only [fs_is_digest, fs_sha_is_digest, scan_digits_iff]
    rfl

theorem hexDigits_empty (m : DigestModule) : HexDigits m.empty_ascii := by
  cases m <;> decide

theorem is_digest_eq_zero {m : DigestModule} {digest : Text} : m.is_digest digest = 0 ↔ ¬ HexDigits digest := by
  rw [← not_iff_not, not_not]
  exact is_digest_ne_zero m digest

/-- Where the quick check asks for the beginning of the empty digest, nothing else is let through. -/
theorem is_digest_eq_two {m : DigestModule} (hm : m ≠ .bc160) {digest : Text} :
    m.is_digest digest = 2 ↔ digest = m.empty_ascii := by
  have hquick : m.empty_ascii.take 3 = m.quick_check := by
    cases m with
    | bc160 => exact absurd rfl hm
    | btc20 | sha => decide
  rw [is_digest_eq]
  constructor
  · intro h
    unfold check_empty at h
    split at h
    · split at h
      · split at h
        · assumption
        · cases h
      · cases h
    · cases h
  · rintro rfl
    simp [hexDigits_empty, check_empty, hquick]

theorem is_digest_le_two (m : DigestModule) (digest : Text) : m.is_digest digest ≤ 2 := by
  rw [is_digest_eq, check_empty]
  split_ifs <;> decide

/-! ### The verbs on the empty digest -/

/-- A get that is answered before the store is asked. -/
def empty_get : Prog Unit := do
  modify (with_status (set_verb .get))
  answer .ok

/-- The bytes of a put that reads none. -/
def empty_put_bytes : Prog Bool := do
  store_op
  store_op
  pure true

/-- Without a blob in the store, only the answer given in advance is ok. -/
theorem get_eq_empty_get_iff {trust_fs : Bool} {r : Requested} :
    get trust_fs r = empty_get ↔ r.algorithm.is_digest r.digest = 2 := by
  constructor
  · intro h
    by_contra hne
    have hno : (get trust_fs r {} [{ store := .absent }, {}]).state.chat_history = "no".toList := by
      simp only [get, if_neg hne]
      rfl
    rw [h] at hno
    exact absurd hno (by decide)
  · intro h
    simp only [get, h, if_true]
    rfl

theorem put_bytes_eq_empty_iff {r : Requested} :
    put_bytes r = empty_put_bytes ↔ r.digest = r.algorithm.empty_ascii := by
  constructor
  · intro h
    by_contra hne
    have hhung : (put_bytes r {} [{}, {}, {}]).state.happened = [.moved 0, .hung_up .blob_read] := by
      simp only [put_bytes, if_neg hne]
      rfl
    rw [h] at hhung
    exact absurd hhung (by decide)
  · intro h
    simp only [put_bytes, h, if_true]
    rfl

/-- The check tells the three kinds of strings apart, and the verbs treat the empty digest, and
only that, on its own. -/
def ChecksRight (m : DigestModule) (digest : Text) : Prop :=
  (fs_is_digest m digest = 0 ↔ ¬ HexDigits digest) ∧
    (fs_is_digest m digest = 2 ↔ digest = m.empty_ascii) ∧
    (fs_is_digest m digest = 1 ↔ HexDigits digest ∧ digest ≠ m.empty_ascii) ∧
    ∀ (trust_fs : Bool) (r : Requested), r.algorithm = m → r.digest = digest →
      (get trust_fs r = empty_get ↔ digest = m.empty_ascii) ∧
        (put_bytes r = empty_put_bytes ↔ digest = m.empty_ascii)

theorem checks_right_of_two {m : DigestModule} {digest : Text}
    (h : m.is_digest digest = 2 ↔ digest = m.empty_ascii) : ChecksRight m digest := by
  have hzero : m.is_digest digest = 0 ↔ ¬ HexDigits digest := is_digest_eq_zero
  refine ⟨by rw [fs_is_digest_eq, hzero], by rw [fs_is_digest_eq, h], ?_, ?_⟩
  · have hle := is_digest_le_two m digest
    have hhex : HexDigits digest ↔ m.is_digest digest ≠ 0 := by rw [ne_eq, hzero, not_not]
    rw [fs_is_digest_eq, hhex, ne_eq (a := digest), ← h]
    omega
  · rintro trust_fs r rfl rfl
    exact ⟨get_eq_empty_get_iff.trans h, put_bytes_eq_empty_iff⟩

/-- The empty digest of `bc160` is never seen as one. -/
theorem checks_right_iff (m : DigestModule) (digest : Text) :
    ChecksRight m digest ↔ ¬ (m = .bc160 ∧ digest = DigestModule.bc160.empty_ascii) := by
  constructor
  · rintro h ⟨rfl, rfl⟩
    have htwo := h.2.1.mpr rfl
    rw [fs_is_digest_eq] at htwo
    exact bc160_is_digest_ne_two _ htwo
  · intro h
    by_cases hm : m = .bc160
    · subst hm
      exact checks_right_of_two (iff_of_false (bc160_is_digest_ne_two digest) fun he => h ⟨rfl, he⟩)
    · exact checks_right_of_two (is_digest_eq_two hm)

theorem bc160_empty_missed : ¬ ∀ (m : DigestModule) (digest : Text), ChecksRight m digest := by
  intro h
  have htwo := (h .bc160 DigestModule.bc160.empty_ascii).2.1.mpr rfl
  revert htwo
  decide

end Blobio.RequestChild
