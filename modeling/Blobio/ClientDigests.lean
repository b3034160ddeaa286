import Blobio.DigestChecks
import Blobio.TrustedReads

/-! The digest modules of the client: a blob that passes is checked against the digest of the
request, and an input is digested where the request has none. -/
namespace Blobio.Client
open Btc20 (Hash)

structure OpenSSL extends Btc20.OpenSSL where
  SHA1 : Hash 20

/-- The digest of a blob. -/
def OpenSSL.hash (ssl : OpenSSL) : DigestModule → Bytes → Bytes
  | .sha, blob => ssl.SHA1.hash blob
  | .btc20, blob => ssl.btc20 blob
  | .bc160, blob => ssl.RIPEMD160.hash (ssl.SHA256.hash blob)

/-! ### The modules -/

structure BTC20_CTX (ssl : OpenSSL) where
  sha256 : ssl.SHA256.Context
  sha256_sha256 : ssl.SHA256.Context
  ripemd160 : ssl.RIPEMD160.Context

structure BC160_CTX (ssl : OpenSSL) where
  sha256 : ssl.SHA256.Context
  ripemd160 : ssl.RIPEMD160.Context

/-- What a module keeps from one call to the next. -/
def Context (ssl : OpenSSL) : DigestModule → Type
  | .sha => ssl.SHA1.Context
  | .btc20 => BTC20_CTX ssl
  | .bc160 => BC160_CTX ssl

/-- The binary digest that `init` leaves; without a digest in the request it is all zeros. -/
def bin_digest (ascii_digest : Text) : Bytes :=
  if ascii_digest = [] then List.replicate 20 0 else decode_hex (ascii_digest.take 40)

section modules
variable (ssl : OpenSSL)

def init : (m : DigestModule) → Context ssl m
  | .sha => ssl.SHA1.Init
  | .btc20 => ⟨ssl.SHA256.Init, ssl.SHA256.Init, ssl.RIPEMD160.Init⟩
  | .bc160 => ⟨ssl.SHA256.Init, ssl.RIPEMD160.Init⟩

/-- Only the first context of a module takes the blob. -/
def update : (m : DigestModule) → Context ssl m → Bytes → Context ssl m
  | .sha, ctx, chunk => ssl.SHA1.Update ctx chunk
  | .btc20, ctx, chunk => BTC20_CTX.mk (ssl.SHA256.Update ctx.sha256 chunk) ctx.sha256_sha256 ctx.ripemd160
  | .bc160, ctx, chunk => BC160_CTX.mk (ssl.SHA256.Update ctx.sha256 chunk) ctx.ripemd160

/-- What `chew` makes of a copy of the running context, in later contexts of its own. -/
def tmp_digest : (m : DigestModule) → Context ssl m → Bytes
  | .sha, ctx => ssl.SHA1.Final ctx
  | .btc20, ctx =>
    let tmp_sha_digest := ssl.SHA256.Final ctx.sha256
    let tmp_sha_sha_digest := ssl.SHA256.Final (ssl.SHA256.Update ssl.SHA256.Init tmp_sha_digest)
    ssl.RIPEMD160.Final (ssl.RIPEMD160.Update ssl.RIPEMD160.Init tmp_sha_sha_digest)
  | .bc160, ctx =>
    let tmp_sha_digest := ssl.SHA256.Final ctx.sha256
    ssl.RIPEMD160.Final (ssl.RIPEMD160.Update ssl.RIPEMD160.Init tmp_sha_digest)

/-- Whether the digest has been seen: `chew` returns "0", or else "1". -/
def chew (m : DigestModule) (bin : Bytes) (ctx : Context ssl m) (chunk : Bytes) : Context ssl m × Bool :=
  let ctx := update ssl m ctx chunk
  (ctx, tmp_digest ssl m ctx = bin)

/-- The end of `eat_input`, in the contexts that `init` has made. -/
def final_digest : (m : DigestModule) → Context ssl m → Bytes
  | .sha, ctx => ssl.SHA1.Final ctx
  | .btc20, ctx =>
    let sha_digest := ssl.SHA256.Final ctx.sha256
    let sha_sha_digest := ssl.SHA256.Final (ssl.SHA256.Update ctx.sha256_sha256 sha_digest)
    ssl.RIPEMD160.Final (ssl.RIPEMD160.Update ctx.ripemd160 sha_sha_digest)
  | .bc160, ctx =>
    let sha_digest := ssl.SHA256.Final ctx.sha256
    ssl.RIPEMD160.Final (ssl.RIPEMD160.Update ctx.ripemd160 sha_digest)

/-- `eat_input`, over what the reads return up to the end of the input or to one that fails. -/
def eat_input (m : DigestModule) (reads : List Bytes) : Option Text → Except Text Text
  | some err => .error err
  | none => .ok (hex_digest ((final_digest ssl m (reads.foldl (update ssl m) (init ssl m))).take 20))

end modules

/-- The loop of `syntax`, from the n-th character on, up to the end of the string. -/
def scan_ascii : ℕ → Text → Option ℕ
  | n, [] => some (n + 1)
  | n, c :: rest =>
    if n + 1 > 40 then none
    else if ('0' > c ∨ c > '9') ∧ ('a' > c ∨ c > 'f') then none
    else scan_ascii (n + 1) rest

/-- The callback `syntax` of a module. -/
def syntax_of (m : DigestModule) (ascii_digest : Text) : ℕ :=
  if scan_ascii 0 ascii_digest = some 41 then
    if ascii_digest = m.empty_ascii then 2 else 1
  else 0

/-- The callback `empty` of a module. -/
def is_empty (m : DigestModule) (ascii_digest : Text) : Bool :=
  m.empty_ascii = ascii_digest

/-- Over the modules that are compiled in. -/
def find_digest (digests : List DigestModule) (algorithm : Text) : Option DigestModule :=
  digests.find? fun d => algorithm = d.name

/-! ### What they come to -/

variable {ssl : OpenSSL} {m : DigestModule}

theorem final_update_init {size : ℕ} (h : Hash size) (b : Bytes) : h.Final (h.Update h.Init b) = h.hash b := by
  have hb := h.final_foldl [b]
  rwa [List.flatten_singleton] at hb

theorem length_hash (m : DigestModule) (blob : Bytes) : (ssl.hash m blob).length = 20 := by
  cases m with
  | sha => exact ssl.SHA1.length_hash blob
  | btc20 => exact ssl.RIPEMD160.length_hash _
  | bc160 => exact ssl.RIPEMD160.length_hash _

/-- The running contexts of the modules with several stages. -/
theorem foldl_update_btc20 (chunks : List Bytes) (ctx : Context ssl .btc20) :
    chunks.foldl (update ssl .btc20) ctx = BTC20_CTX.mk
      (chunks.foldl ssl.SHA256.Update (BTC20_CTX.sha256 ctx)) (BTC20_CTX.sha256_sha256 ctx)
      (BTC20_CTX.ripemd160 ctx) := by
  induction chunks generalizing ctx with
  | nil => rfl
  | cons chunk chunks ih => exact ih _

theorem foldl_update_bc160 (chunks : List Bytes) (ctx : Context ssl .bc160) :
    chunks.foldl (update ssl .bc160) ctx = BC160_CTX.mk
      (chunks.foldl ssl.SHA256.Update (BC160_CTX.sha256 ctx)) (BC160_CTX.ripemd160 ctx) := by
  induction chunks generalizing ctx with
  | nil => rfl
  | cons chunk chunks ih => exact ih _

theorem tmp_digest_foldl (m : DigestModule) (chunks : List Bytes) :
    tmp_digest ssl m (chunks.foldl (update ssl m) (init ssl m)) = ssl.hash m chunks.flatten := by
  cases m with
  | sha => exact ssl.SHA1.final_foldl chunks
  | btc20 =>
    rw [foldl_update_btc20]
    simp only [tmp_digest, init, final_update_init]
    rw [ssl.SHA256.final_foldl, OpenSSL.hash, Btc20.OpenSSL.btc20]
  | bc160 =>
    rw [foldl_update_bc160]
    simp only [tmp_digest, init, final_update_init]
    rw [ssl.SHA256.final_foldl, OpenSSL.hash]

/-- The two ends of a digest differ only in whose contexts they finish. -/
theorem final_digest_foldl (m : DigestModule) (chunks : List Bytes) :
    final_digest ssl m (chunks.foldl (update ssl m) (init ssl m)) = ssl.hash m chunks.flatten := by
  rw [← tmp_digest_foldl]
  cases m with
  | sha => rfl
  | btc20 =>
    rw [foldl_update_btc20]
    rfl
  | bc160 =>
    rw [foldl_update_bc160]
    rfl

theorem eat_input_eq (m : DigestModule) (reads : List Bytes) :
    eat_input ssl m reads none = .ok (hex_digest (ssl.hash m reads.flatten)) := by
  rw [eat_input, final_digest_foldl, List.take_of_length_le (Nat.le_of_eq (length_hash m _))]

theorem scan_ascii_eq_some {n k : ℕ} {t : Text} : scan_ascii n t = some k ↔
    k = n + t.length + 1 ∧ (∀ c ∈ t, c ∈ nib2hex) ∧ (t = [] ∨ n + t.length ≤ 40) := by
  induction t generalizing n with
  | nil => simp [scan_ascii, eq_comm]
  | cons c t ih =>
    have hc : c ∈ nib2hex ↔ ¬ (('0' > c ∨ c > '9') ∧ ('a' > c ∨ c > 'f')) := by
      rw [mem_nib2hex]
      simp only [gt_iff_lt, not_and_or, not_or, Char.not_lt]
    rw [scan_ascii, List.forall_mem_cons, List.length_cons]
    by_cases hn : n + 1 > 40
    · rw [if_pos hn]
      refine iff_of_false (by simp) ?_
      rintro ⟨-, -, h | h⟩
      · cases h
      · omega
    · rw [if_neg hn]
      by_cases hhex : c ∈ nib2hex
      · rw [if_neg (hc.mp hhex), ih, and_iff_right hhex]
        have hlen : t = [] ∨ n + 1 + t.length ≤ 40 ↔ n + (t.length + 1) ≤ 40 := by
          constructor
          · rintro (rfl | h)
            · simp
              omega
            · omega
          · intro h
            exact .inr (by omega)
        rw [hlen]
        simp only [reduceCtorEq, false_or]
        constructor
        · rintro ⟨rfl, h⟩
          exact ⟨by omega, h⟩
        · rintro ⟨rfl, h⟩
          exact ⟨by omega, h⟩
      · rw [if_pos (by rwa [hc, not_not] at hhex)]
        exact iff_of_false (by simp) fun h => hhex h.2.1.1

/-- The client's check of a digest, which tells the empty one for every module. -/
theorem syntax_of_eq (m : DigestModule) (d : Text) : syntax_of m d =
    if RequestChild.HexDigits d then if d = m.empty_ascii then 2 else 1 else 0 := by
  have hscan : scan_ascii 0 d = some 41 ↔ RequestChild.HexDigits d := by
    rw [scan_ascii_eq_some, RequestChild.HexDigits]
    constructor
    · rintro ⟨hlen, hhex, -⟩
      exact ⟨by omega, hhex⟩
    · rintro ⟨hlen, hhex⟩
      exact ⟨by omega, hhex, .inr (by omega)⟩
  simp only [syntax_of, hscan]

theorem syntax_of_ne_zero {d : Text} : syntax_of m d ≠ 0 ↔ RequestChild.HexDigits d := by
  rw [syntax_of_eq]
  split
  · rename_i h
    split <;> simp [h]
  · rename_i h
    simp [h]

theorem bin_digest_eq (d : Digest) : bin_digest d.chars = d.raw := by
  have hne : d.chars ≠ [] := by
    intro h
    have hlen := d.length_chars
    rw [h] at hlen
    cases hlen
  rw [bin_digest, if_neg hne, List.take_of_length_le (Nat.le_of_eq d.length_chars), Digest.raw]

/-- The digest under which the client asks for a blob. -/
def digest_of (ssl : OpenSSL) (m : DigestModule) (blob : Bytes) : Digest :=
  .ofRaw (ssl.hash m blob) (length_hash m blob)

theorem eat_input_digest (m : DigestModule) (reads : List Bytes) :
    eat_input ssl m reads none = .ok (digest_of ssl m reads.flatten).chars :=
  eat_input_eq m reads

theorem digest_of_raw (m : DigestModule) (blob : Bytes) : (digest_of ssl m blob).raw = ssl.hash m blob :=
  Digest.ofRaw_raw _ _

end Blobio.Client
