import Mathlib.Data.List.Basic
import Mathlib.Tactic.IntervalCases

/-! Digests as the modules spell them: twenty raw bytes inside a request, forty
lower-case hex characters in a udig and in a path. -/
namespace Blobio

abbrev Text := List Char
abbrev Bytes := List UInt8

-- A fact about the characters of a list is decided over the list, never over all characters.
instance decidableForallMem (p : Char → Prop) [DecidablePred p] (cs : Text) :
    Decidable (∀ c, c ∈ cs → p c) :=
  List.decidableBAll p cs

instance decidableExistsMem (p : Char → Prop) [DecidablePred p] (cs : Text) :
    Decidable (∃ c, c ∈ cs ∧ p c) :=
  List.decidableBEx p cs

instance decidableMemTexts (cs : Text) (texts : List Text) : Decidable (cs ∈ texts) :=
  List.instDecidableMemOfLawfulBEq cs texts

instance decidableForallMemOption (p : Char → Prop) [DecidablePred p] (c? : Option Char) :
    Decidable (∀ c, c ∈ c? → p c) :=
  match c? with
  | none => isTrue fun _ h => nomatch h
  | some c => decidable_of_iff (p c) (by simp)

theorem takeWhile_ne {c : Char} {f : Text} (hf : c ∉ f) (r : Text) :
    (f ++ c :: r).takeWhile (· ≠ c) = f := by
  have hne : ∀ d ∈ f, decide (d ≠ c) = true := fun d hd =>
    decide_eq_true fun h : d = c => hf (h ▸ hd)
  rw [List.takeWhile_append_of_pos hne]
  simp

theorem dropWhile_ne {c : Char} {f : Text} (hf : c ∉ f) (r : Text) :
    (f ++ c :: r).dropWhile (· ≠ c) = c :: r := by
  have hne : ∀ d ∈ f, decide (d ≠ c) = true := fun d hd =>
    decide_eq_true fun h : d = c => hf (h ▸ hd)
  rw [List.dropWhile_append_of_pos hne]
  simp

def nib2hex : List Char := "0123456789abcdef".toList

def hex_byte (b : UInt8) : Text :=
  [nib2hex.getD ((b &&& 0xf0) >>> 4).toNat '0', nib2hex.getD (b &&& 0xf).toNat '0']

/-- The loop of the modules' `digest()` that spells a raw digest. -/
def hex_digest (d : Bytes) : Text :=
  d.flatMap hex_byte

def nib (c : Char) : UInt8 :=
  if '0' ≤ c ∧ c ≤ '9' then c.toUInt8 - 48 else c.toUInt8 - 97 + 10

/-- `decode_hex` over zeroed memory; `nib2digest` is the same loop stopped at forty. -/
def decode_hex : Text → Bytes
  | a :: b :: rest => (nib a <<< 4 ||| nib b) :: decode_hex rest
  | [a] => [nib a <<< 4]
  | [] => []

def isxdigit (c : Char) : Bool :=
  ('0' ≤ c ∧ c ≤ '9') ∨ ('a' ≤ c ∧ c ≤ 'f') ∨ ('A' ≤ c ∧ c ≤ 'F')

def islower (c : Char) : Bool :=
  'a' ≤ c ∧ c ≤ 'z'

def isalpha (c : Char) : Bool :=
  islower c ∨ ('A' ≤ c ∧ c ≤ 'Z')

inductive DigestModule | bc160 | btc20 | sha deriving DecidableEq

namespace DigestModule

def name : DigestModule → Text
  | bc160 => "bc160".toList
  | btc20 => "btc20".toList
  | sha => "sha".toList

/-- The last component of the module's `data/fs_...` root. -/
def root (m : DigestModule) : Text :=
  "fs_".toList ++ m.name

def empty_ascii : DigestModule → Text
  | bc160 => "b472a266d0bd89c13706a4132ccfb16f7c3b9fcb".toList
  | btc20 => "fd7b15dc5dc2039556693555c2b81b36c8deec15".toList
  | sha => "da39a3ee5e6b4b0d3255bfef95601890afd80709".toList

/-- The three characters that `is_digest` compares before the whole empty digest. -/
def quick_check : DigestModule → Text
  | bc160 => "da3".toList
  | btc20 => "fd7".toList
  | sha => "da3".toList

def is_digest_char : DigestModule → Char → Bool
  | bc160, c => ('0' ≤ c ∧ c ≤ '9') ∨ ('a' ≤ c ∧ c ≤ 'f')
  | btc20, c | sha, c => isxdigit c ∧ ¬ (isalpha c ∧ ¬ islower c)

/-- 0 for no digest, 1 for a full one and 2 for the empty one. -/
def is_digest (m : DigestModule) (digest : Text) : ℕ :=
  if digest.length ≠ 40 ∨ ∃ c ∈ digest, ¬ m.is_digest_char c then 0
  else if digest.take 3 = m.quick_check then
    if digest = m.empty_ascii then 2 else 1
  else 1

end DigestModule

/-- A syntactically correct digest. -/
structure Digest where
  chars : Text
  length_chars : chars.length = 40
  hex_chars : ∀ c ∈ chars, c ∈ nib2hex

instance : DecidableEq Digest := fun a b =>
  decidable_of_iff (a.chars = b.chars) ⟨fun h => by cases a; cases b; simp_all, fun h => h ▸ rfl⟩

structure Udig where
  algorithm : DigestModule
  digest : Digest
  deriving DecidableEq

theorem Digest.ext {a b : Digest} (h : a.chars = b.chars) : a = b := by
  cases a
  cases b
  simp_all

theorem Udig.ext {u v : Udig} (hm : u.algorithm = v.algorithm)
    (hd : u.digest.chars = v.digest.chars) : u = v := by
  cases u
  cases v
  exact (Udig.mk.injEq ..).mpr ⟨hm, Digest.ext hd⟩

private theorem char_eq_ofNat (c : Char) : c = Char.ofNat c.toNat := (Char.ofNat_toNat c).symm

theorem mem_nib2hex {c : Char} : c ∈ nib2hex ↔ ('0' ≤ c ∧ c ≤ '9') ∨ ('a' ≤ c ∧ c ≤ 'f') := by
  constructor
  · revert c
    decide
  · intro h
    have hn : (48 ≤ c.toNat ∧ c.toNat ≤ 57) ∨ (97 ≤ c.toNat ∧ c.toNat ≤ 102) := h
    rw [char_eq_ofNat c]
    rcases hn with ⟨h₁, h₂⟩ | ⟨h₁, h₂⟩ <;> interval_cases c.toNat <;> decide

theorem is_digest_char_eq (m : DigestModule) (c : Char) : m.is_digest_char c ↔ c ∈ nib2hex := by
  have hle : ∀ a b : Char, a ≤ b ↔ a.toNat ≤ b.toNat := fun _ _ => Iff.rfl
  rw [mem_nib2hex]
  cases m <;>
    simp [DigestModule.is_digest_char, isxdigit, isalpha, islower, hle] <;> omega

theorem is_digest_ne_zero (m : DigestModule) (digest : Text) :
    m.is_digest digest ≠ 0 ↔ digest.length = 40 ∧ ∀ c ∈ digest, c ∈ nib2hex := by
  have hall : (¬ ∃ c ∈ digest, ¬ m.is_digest_char c) ↔ ∀ c ∈ digest, c ∈ nib2hex := by
    simp [is_digest_char_eq]
  unfold DigestModule.is_digest
  split
  · rename_i h
    simp only [ne_eq, not_true_eq_false, false_iff, ← hall]
    exact fun hd => h.elim (· hd.1) hd.2
  · rename_i h
    rw [not_or, not_not, hall] at h
    refine iff_of_true ?_ h
    split <;> try split
    all_goals simp

/-- `bc160` looks for its empty digest behind another module's prefix. -/
theorem bc160_is_digest_ne_two (digest : Text) : DigestModule.bc160.is_digest digest ≠ 2 := by
  unfold DigestModule.is_digest
  split
  · simp
  · split
    · rename_i h
      rw [if_neg]
      · simp
      · rintro rfl
        revert h
        decide
    · simp

theorem hex_byte_nibs (b : UInt8) :
    ∃ x y, x ∈ nib2hex ∧ y ∈ nib2hex ∧ hex_byte b = [x, y] ∧ b = nib x <<< 4 ||| nib y := by
  let high (b : UInt8) : Char := nib2hex.getD ((b &&& 0xf0) >>> 4).toNat '0'
  let low (b : UInt8) : Char := nib2hex.getD (b &&& 0xf).toNat '0'
  have hb : ∀ i : Fin 256, high (UInt8.ofNat i) ∈ nib2hex ∧ low (UInt8.ofNat i) ∈ nib2hex ∧
      UInt8.ofNat i = nib (high (UInt8.ofNat i)) <<< 4 ||| nib (low (UInt8.ofNat i)) := by
    decide +kernel
  have h := hb ⟨b.toNat, b.toNat_lt⟩
  simp only [UInt8.ofNat_toNat] at h
  exact ⟨high b, low b, h.1, h.2.1, rfl, h.2.2⟩

private theorem decode_hex_byte (b : UInt8) (rest : Text) :
    decode_hex (hex_byte b ++ rest) = b :: decode_hex rest := by
  obtain ⟨x, y, -, -, hbyte, hb⟩ := hex_byte_nibs b
  rw [hbyte, List.cons_append, List.singleton_append, decode_hex, ← hb]

theorem decode_hex_hex_digest (d : Bytes) : decode_hex (hex_digest d) = d := by
  induction d with
  | nil => rfl
  | cons b d ih =>
    rw [hex_digest, List.flatMap_cons, decode_hex_byte]
    exact congrArg _ ih

theorem hex_byte_nib : ∀ a ∈ nib2hex, ∀ b ∈ nib2hex,
    hex_byte (nib a <<< 4 ||| nib b) = [a, b] := by
  decide

theorem hex_digest_decode_hex {cs : Text} (heven : 2 ∣ cs.length) (hcs : ∀ c ∈ cs, c ∈ nib2hex) :
    hex_digest (decode_hex cs) = cs := by
  induction cs using decode_hex.induct with
  | case1 a b rest ih =>
    have hrest := ih (by simpa [Nat.dvd_add_self_right] using heven)
      fun c hc => hcs c (by simp [hc])
    rw [decode_hex, hex_digest, List.flatMap_cons, hex_byte_nib a (hcs a (by simp)) b
      (hcs b (by simp))]
    exact congrArg ([a, b] ++ ·) hrest
  | case2 a => simp at heven
  | case3 => rfl

theorem length_hex_digest (d : Bytes) : (hex_digest d).length = 2 * d.length := by
  induction d with
  | nil => rfl
  | cons b d ih =>
    simp only [hex_digest, List.flatMap_cons, List.length_append, List.length_cons] at ih ⊢
    rw [ih]
    simp [hex_byte]
    omega

theorem mem_hex_digest {d : Bytes} {c : Char} (h : c ∈ hex_digest d) : c ∈ nib2hex := by
  obtain ⟨b, -, hc⟩ := List.mem_flatMap.mp h
  obtain ⟨x, y, hx, hy, hbyte, -⟩ := hex_byte_nibs b
  rw [hbyte] at hc
  rcases List.mem_pair.mp hc with rfl | rfl
  · exact hx
  · exact hy

/-- What a request holds of its digest. -/
def Digest.raw (d : Digest) : Bytes :=
  decode_hex d.chars

def Digest.ofRaw (raw : Bytes) (h : raw.length = 20) : Digest where
  chars := hex_digest raw
  length_chars := by rw [length_hex_digest, h]
  hex_chars _ := mem_hex_digest

theorem Digest.hex_raw (d : Digest) : hex_digest d.raw = d.chars :=
  hex_digest_decode_hex (by rw [d.length_chars]; decide) d.hex_chars

@[simp] theorem Digest.ofRaw_raw (raw : Bytes) (h : raw.length = 20) :
    (Digest.ofRaw raw h).raw = raw :=
  decode_hex_hex_digest raw

def DigestModule.empty (m : DigestModule) : Digest where
  chars := m.empty_ascii
  length_chars := by cases m <;> rfl
  hex_chars := by cases m <;> decide

/-- The digest contexts of a cryptographic library: what a context says at the
end is the hash of the chunks it was updated with, wherever they were cut. -/
structure DigestLibrary where
  Context : Type
  init : DigestModule → Context
  update : DigestModule → Context → Bytes → Context
  final : DigestModule → Context → Bytes
  H : DigestModule → Bytes → Bytes
  final_foldl : ∀ m (chunks : List Bytes), final m (chunks.foldl (update m) (init m)) = H m chunks.flatten
  length_H : ∀ m blob, (H m blob).length = 20
  H_nil : ∀ m, H m [] = m.empty.raw

namespace DigestLibrary
variable (L : DigestLibrary)

/-- The context has been updated with exactly these bytes. -/
def Absorbed (m : DigestModule) (ctx : L.Context) (blob : Bytes) : Prop :=
  ∃ chunks : List Bytes, ctx = chunks.foldl (L.update m) (L.init m) ∧ blob = chunks.flatten

variable {L} {m : DigestModule} {ctx : L.Context} {blob : Bytes}

theorem absorbed_init : L.Absorbed m (L.init m) [] := ⟨[], rfl, rfl⟩

theorem Absorbed.update (h : L.Absorbed m ctx blob) (chunk : Bytes) :
    L.Absorbed m (L.update m ctx chunk) (blob ++ chunk) := by
  obtain ⟨chunks, rfl, rfl⟩ := h
  exact ⟨chunks ++ [chunk], by simp, by simp⟩

theorem Absorbed.final (h : L.Absorbed m ctx blob) : L.final m ctx = L.H m blob := by
  obtain ⟨chunks, rfl, rfl⟩ := h
  exact L.final_foldl m chunks

/-- The digest a blob is stored under. -/
def digest (m : DigestModule) (blob : Bytes) : Digest :=
  .ofRaw (L.H m blob) (L.length_H m blob)

theorem digest_eq_iff {d : Digest} : L.digest m blob = d ↔ L.H m blob = d.raw := by
  constructor
  · rintro rfl
    simp [digest]
  · intro h
    refine Digest.ext ?_
    rw [← d.hex_raw, ← h]
    rfl

theorem digest_nil : L.digest m [] = m.empty :=
  digest_eq_iff.mpr (L.H_nil m)

end DigestLibrary

end Blobio
