import Blobio.HexDigests
import Blobio.LexicographicOrders
import Mathlib.Order.Fin.Basic

/-! The types of PostgreSQL for udigs: text forms, casts and the comparison functions of the
operator family `udig_clan`. -/
namespace Blobio.PgUdig
open LexicographicOrders

def UDIG_SHA : UInt8 := 1
def UDIG_BC160 : UInt8 := 2
def UDIG_BTC20 : UInt8 := 3

/-- What the functions report instead of returning. -/
inductive Ereport
  | no_aprint (c : Char)
  | empty_udig
  | no_parse_algo (udig : Text)
  | no_algo (a8 : Text)
  | bad_dig (a8 u : Text)
  -- The only one of level PANIC.
  | corrupted_type
  deriving DecidableEq

/-- The bytes behind the length word of a generic udig. -/
structure Vardata where
  type : UInt8
  digest : Bytes
  deriving DecidableEq

/-- The character class of the database's locale, where ASCII is as in C. -/
structure Ctype where
  isgraph : Char → Bool
  isgraph_ascii : ∀ c, c.toNat < 128 → (isgraph c ↔ '!' ≤ c ∧ c ≤ '~')

def hex2nib (c : Char) : Option UInt8 :=
  if '0' ≤ c ∧ c ≤ '9' then some (c.toUInt8 - 48)
  else if 'a' ≤ c ∧ c ≤ 'f' then some (c.toUInt8 - 97 + 10)
  else none

/-- The loop of `hex2dig20` from digit i on; a text that has ended gives its null. -/
def hex2dig20_loop : ℕ → ℕ → Bytes → Text → Option (Bytes × Text)
  | 0, _, d20, d40 => some (d20, d40)
  | n + 1, i, d20, d40 =>
    match hex2nib (d40.headD '\x00') with
    | none => none
    | some nib =>
      hex2dig20_loop n (i + 1) (d20.modify (i >>> 1) (· ||| if i &&& 1 = 0 then nib <<< 4 else nib)) d40.tail

def hex2dig20 (d40 : Text) : Option Bytes :=
  match hex2dig20_loop 40 0 (List.replicate 20 0) d40 with
  | some (d20, []) => some d20
  | _ => none

/-- The loop that `udig_in` and `udig_can_cast` have in common: the algorithm and what is behind
its colon, none when the colon is not among the characters it may look at. -/
def scan_algorithm (ctype : Ctype) : ℕ → Text → Text → Except Ereport (Option (Text × Text))
  | 0, _, _ => .ok none
  | _, _, [] => .ok none
  | n + 1, a8, c :: u =>
    if ¬ ctype.isgraph c then .error (.no_aprint c)
    else if c = ':' then .ok (some (a8, u))
    else scan_algorithm ctype n (a8 ++ [c]) u

def udig_in (ctype : Ctype) (udig : Text) : Except Ereport Vardata :=
  match scan_algorithm ctype 8 [] udig with
  | .error e => .error e
  | .ok none => .error (if udig = [] then .empty_udig else .no_parse_algo udig)
  | .ok (some (a8, u)) =>
    let type :=
      if a8 = "btc20".toList then some UDIG_BTC20
      else if a8 = "sha".toList then some UDIG_SHA
      else if a8 = "bc160".toList then some UDIG_BC160
      else none
    match type with
    | none => .error (.no_algo a8)
    | some type =>
      match hex2dig20 u with
      | none => .error (.bad_dig a8 u)
      | some d20 => .ok ⟨type, d20⟩

def udig_out (d : Vardata) : Except Ereport Text :=
  if d.type = UDIG_SHA then .ok ("sha".toList ++ ':' :: hex_digest d.digest)
  else if d.type = UDIG_BC160 then .ok ("bc160".toList ++ ':' :: hex_digest d.digest)
  else if d.type = UDIG_BTC20 then .ok ("btc20".toList ++ ':' :: hex_digest d.digest)
  else .error .corrupted_type

def udig_can_cast (ctype : Ctype) (udig : Text) : Except Ereport Bool :=
  match scan_algorithm ctype 8 [] udig with
  | .error e => .error e
  | .ok none => .error .empty_udig
  | .ok (some (a8, u)) =>
    -- The first comparison lacks its test for zero.
    if strcmp "btc20".toList a8 ≠ 0 ∨ strcmp "sha".toList a8 = 0 ∨ strcmp "bc160".toList a8 = 0 then
      .ok (hex2dig20 u).isSome
    else .ok false

/-! ### The comparison functions -/

def udig_cmp (a b : Vardata) : Except Ereport ℤ :=
  if a.type = b.type then .ok (memcmp a.digest b.digest)
  else if a.type = UDIG_BTC20 ∧ b.type = UDIG_SHA then .ok (-1)
  else if a.type = UDIG_BTC20 ∧ b.type = UDIG_BC160 then .ok 1
  else if a.type = UDIG_SHA then .ok 1
  else if a.type = UDIG_BC160 then .ok (-1)
  else .error .corrupted_type

def udig_sha_cmp (a b : Bytes) : ℤ := memcmp a b
def udig_bc160_cmp (a b : Bytes) : ℤ := memcmp a b
def udig_btc20_cmp (a b : Bytes) : ℤ := memcmp a b

def udig_sha_cmp_udig (a : Bytes) (b : Vardata) : Except Ereport ℤ :=
  if b.type = UDIG_SHA then .ok (memcmp a b.digest)
  else if b.type = UDIG_BTC20 ∨ b.type = UDIG_BC160 then .ok 1
  else .error .corrupted_type

def udig_cmp_sha (a : Vardata) (b : Bytes) : Except Ereport ℤ :=
  if a.type = UDIG_SHA then .ok (memcmp a.digest b)
  else if a.type = UDIG_BTC20 ∨ a.type = UDIG_BC160 then .ok (-1)
  else .error .corrupted_type

def udig_bc160_cmp_udig (a : Bytes) (b : Vardata) : Except Ereport ℤ :=
  if b.type = UDIG_SHA ∨ b.type = UDIG_BTC20 then .ok (-1)
  else if b.type = UDIG_BC160 then .ok (memcmp a b.digest)
  else .error .corrupted_type

def udig_cmp_bc160 (a : Vardata) (b : Bytes) : Except Ereport ℤ :=
  if a.type = UDIG_BTC20 ∨ a.type = UDIG_SHA then .ok (-1)
  else if a.type = UDIG_BC160 then .ok (memcmp a.digest b)
  else .error .corrupted_type

def udig_btc20_cmp_udig (a : Bytes) (b : Vardata) : Except Ereport ℤ :=
  if b.type = UDIG_BTC20 then .ok (memcmp a b.digest)
  else if b.type = UDIG_SHA then .ok (-1)
  else if b.type = UDIG_BC160 then .ok 1
  else .error .corrupted_type

def udig_cmp_btc20 (a : Vardata) (b : Bytes) : Except Ereport ℤ :=
  if a.type = UDIG_BTC20 then .ok (memcmp a.digest b)
  else if a.type = UDIG_SHA then .ok 1
  else if a.type = UDIG_BC160 then .ok (-1)
  else .error .corrupted_type

/-! ### Values -/

def type_byte : DigestModule → UInt8
  | .sha => UDIG_SHA
  | .bc160 => UDIG_BC160
  | .btc20 => UDIG_BTC20

/-- A value of the type `udig`. -/
structure Generic extends Vardata where
  type_known : ∃ m : DigestModule, type = type_byte m
  length_digest : digest.length = 20

/-- A value of one of the types `udig_sha`, `udig_bc160` and `udig_btc20`. -/
structure Digest20 where
  bytes : Bytes
  length_bytes : bytes.length = 20

/-- A udig by the type that it is stored as. -/
inductive Stored
  | udig (u : Generic)
  | sha (d : Digest20)
  | bc160 (d : Digest20)
  | btc20 (d : Digest20)

def udig_cast (m : DigestModule) (src : Digest20) : Generic where
  type := type_byte m
  digest := src.bytes
  type_known := ⟨m, rfl⟩
  length_digest := src.length_bytes

def udig_sha_cast : Digest20 → Generic := udig_cast .sha
def udig_bc160_cast : Digest20 → Generic := udig_cast .bc160
def udig_btc20_cast : Digest20 → Generic := udig_cast .btc20

/-- The cast of a stored value to the type `udig`. -/
def Stored.cast : Stored → Generic
  | .udig u => u
  | .sha d => udig_sha_cast d
  | .bc160 d => udig_bc160_cast d
  | .btc20 d => udig_btc20_cast d

/-- The comparison function that `udig_clan` has for two types, if it has one. -/
def clan_cmp : Stored → Stored → Option (Except Ereport ℤ)
  | .udig a, .udig b => some (udig_cmp a.toVardata b.toVardata)
  | .sha a, .sha b => some (.ok (udig_sha_cmp a.bytes b.bytes))
  | .bc160 a, .bc160 b => some (.ok (udig_bc160_cmp a.bytes b.bytes))
  | .btc20 a, .btc20 b => some (.ok (udig_btc20_cmp a.bytes b.bytes))
  | .sha a, .udig b => some (udig_sha_cmp_udig a.bytes b.toVardata)
  | .udig a, .sha b => some (udig_cmp_sha a.toVardata b.bytes)
  | .bc160 a, .udig b => some (udig_bc160_cmp_udig a.bytes b.toVardata)
  | .udig a, .bc160 b => some (udig_cmp_bc160 a.toVardata b.bytes)
  | .btc20 a, .udig b => some (udig_btc20_cmp_udig a.bytes b.toVardata)
  | .udig a, .btc20 b => some (udig_cmp_btc20 a.toVardata b.bytes)
  | _, _ => none

/-- The operators of the family; each is a function of its own for every two types, with this
test of the comparison's result. -/
inductive Operator | eq | ne | gt | ge | lt | le

def Operator.test : Operator → ℤ → Bool
  | .eq, z => z = 0
  | .ne, z => z ≠ 0
  | .gt, z => z > 0
  | .ge, z => z ≥ 0
  | .lt, z => z < 0
  | .le, z => z ≤ 0

def clan_operator (op : Operator) (a b : Stored) : Option (Except Ereport Bool) :=
  (clan_cmp a b).map fun r => r.map op.test

/-! ### The hex codec -/

theorem hex2nib_eq_some {c : Char} {n : UInt8} : hex2nib c = some n ↔ c ∈ nib2hex ∧ n = nib c := by
  unfold hex2nib nib
  rw [mem_nib2hex]
  split_ifs with hdigit hletter
  · simp [hdigit, eq_comm]
  · simp [hletter, eq_comm]
  · simp [hdigit, hletter]

private theorem modify_behind (done zeros : Bytes) (x : UInt8) (f : UInt8 → UInt8) :
    (done ++ x :: zeros).modify done.length f = done ++ f x :: zeros := by
  induction done with
  | nil => rfl
  | cons b done ih => exact congrArg (b :: ·) ih

/-- Two rounds of the loop, which fill a byte of the zeroed digest. -/
private theorem hex2dig20_loop_pair {n : ℕ} {done zeros : Bytes} {a b : Char} (rest : Text)
    (ha : a ∈ nib2hex) (hb : b ∈ nib2hex) :
    hex2dig20_loop (n + 2) (2 * done.length) (done ++ 0 :: zeros) (a :: b :: rest) =
      hex2dig20_loop n (2 * (done.length + 1)) (done ++ (nib a <<< 4 ||| nib b) :: zeros) rest := by
  have hhigh : (2 * done.length) >>> 1 = done.length := by
    rw [Nat.shiftRight_eq_div_pow]
    omega
  have hlow : (2 * done.length + 1) >>> 1 = done.length := by
    rw [Nat.shiftRight_eq_div_pow]
    omega
  have heven : 2 * done.length &&& 1 = 0 := by
    rw [Nat.and_one_is_mod]
    omega
  have hodd : (2 * done.length + 1) &&& 1 ≠ 0 := by
    rw [Nat.and_one_is_mod]
    omega
  simp only [hex2dig20_loop, List.headD_cons, List.tail_cons, hex2nib_eq_some.mpr ⟨ha, rfl⟩,
    hex2nib_eq_some.mpr ⟨hb, rfl⟩, hhigh, hlow, heven, if_true, if_neg hodd, modify_behind, UInt8.zero_or]
  rfl

private theorem hex2dig20_loop_nibs {n i : ℕ} {d20 : Bytes} {d40 : Text} {r : Bytes × Text}
    (h : hex2dig20_loop (n + 2) i d20 d40 = some r) :
    ∃ a b rest, d40 = a :: b :: rest ∧ a ∈ nib2hex ∧ b ∈ nib2hex := by
  have hnull : hex2nib '\x00' = none := by decide
  match d40 with
  | [] => simp [hex2dig20_loop, hnull] at h
  | [a] => cases ha : hex2nib a <;> simp [hex2dig20_loop, hnull, ha] at h
  | a :: b :: rest =>
    cases ha : hex2nib a with
    | none => simp [hex2dig20_loop, ha] at h
    | some x =>
      cases hb : hex2nib b with
      | none => simp [hex2dig20_loop, ha, hb] at h
      | some y => exact ⟨a, b, rest, rfl, (hex2nib_eq_some.mp ha).1, (hex2nib_eq_some.mp hb).1⟩

private theorem hex2dig20_loop_eq_some {k : ℕ} (done : Bytes) {d20 : Bytes} {d40 rest : Text} :
    hex2dig20_loop (2 * k) (2 * done.length) (done ++ List.replicate k 0) d40 = some (d20, rest) ↔
      ∃ d, d.length = k ∧ d40 = hex_digest d ++ rest ∧ d20 = done ++ d := by
  induction k generalizing done d40 with
  | zero =>
    constructor
    · intro h
      simp only [hex2dig20_loop, List.replicate_zero, List.append_nil, Option.some.injEq,
        Prod.mk.injEq] at h
      exact ⟨[], rfl, h.2, h.1 ▸ (List.append_nil done).symm⟩
    · rintro ⟨d, hlen, rfl, rfl⟩
      rw [List.length_eq_zero_iff.mp hlen]
      rfl
  | succ k ih =>
    have hstep : ∀ {a b : Char} (rest' : Text), a ∈ nib2hex → b ∈ nib2hex →
        hex2dig20_loop (2 * (k + 1)) (2 * done.length) (done ++ List.replicate (k + 1) 0)
            (a :: b :: rest') =
          hex2dig20_loop (2 * k) (2 * (done ++ [nib a <<< 4 ||| nib b]).length)
            (done ++ [nib a <<< 4 ||| nib b] ++ List.replicate k 0) rest' := by
      intro a b rest' ha hb
      rw [List.replicate_succ, Nat.mul_add, hex2dig20_loop_pair rest' ha hb]
      simp
    constructor
    · intro h
      obtain ⟨a, b, rest', rfl, ha, hb⟩ := hex2dig20_loop_nibs (by rwa [Nat.mul_add] at h)
      rw [hstep rest' ha hb] at h
      obtain ⟨d, rfl, rfl, rfl⟩ := (ih _).mp h
      refine ⟨(nib a <<< 4 ||| nib b) :: d, rfl, ?_, by simp⟩
      change _ = hex_byte _ ++ hex_digest d ++ rest
      rw [hex_byte_nib a ha b hb]
      rfl
    · rintro ⟨d, hlen, rfl, rfl⟩
      cases d with
      | nil => cases hlen
      | cons b d =>
        obtain ⟨x, y, hx, hy, hbyte⟩ := hex_byte_nibs b
        change hex2dig20_loop _ _ _ (hex_byte b ++ hex_digest d ++ rest) = _
        rw [hbyte.1]
        refine (hstep _ hx hy).trans ((ih _).mpr ⟨d, Nat.succ.inj hlen, rfl, ?_⟩)
        rw [← hbyte.2]
        simp

/-- The decoder accepts just what the encoder writes of twenty bytes. -/
theorem hex2dig20_eq_some {d40 : Text} {d20 : Bytes} :
    hex2dig20 d40 = some d20 ↔ d20.length = 20 ∧ d40 = hex_digest d20 := by
  have hloop : ∀ rest, hex2dig20_loop 40 0 (List.replicate 20 0) d40 = some (d20, rest) ↔
      d20.length = 20 ∧ d40 = hex_digest d20 ++ rest := by
    intro rest
    refine (hex2dig20_loop_eq_some (k := 20) []).trans ?_
    simp
  constructor
  · intro h
    unfold hex2dig20 at h
    split at h
    · rename_i d heq
      obtain rfl := Option.some.inj h
      simpa using (hloop []).mp heq
    · cases h
  · rintro ⟨hlen, rfl⟩
    rw [hex2dig20, (hloop []).mpr ⟨hlen, by simp⟩]

theorem hex_byte_strictMono : StrictMono hex_byte := by
  have hsucc : StrictMono fun i : Fin 256 => hex_byte (UInt8.ofNat i) := by
    refine Fin.strictMono_iff_lt_succ.mpr ?_
    decide +kernel
  intro a b h
  have hlt := hsucc (a := ⟨a.toNat, a.toNat_lt⟩) (b := ⟨b.toNat, b.toNat_lt⟩) (UInt8.lt_iff_toNat_lt.mp h)
  simpa using hlt

theorem hex_digest_strictMono : StrictMono hex_digest :=
  strictMono_flatMap hex_byte_strictMono (fun _ _ => rfl) fun _ => List.cons_ne_nil _ _

/-! ### Texts -/

/-- The text of a udig. -/
def text (m : DigestModule) (digest : Bytes) : Text :=
  m.name ++ ':' :: hex_digest digest

/-- A text whose colon is among the first eight characters, behind graphic ones only. -/
structure Tagged (ctype : Ctype) (udig algorithm digest : Text) : Prop where
  split : udig = algorithm ++ ':' :: digest
  short : algorithm.length < 8
  graphic : ∀ c ∈ algorithm, ctype.isgraph c ∧ c ≠ ':'

section locale
variable {ctype : Ctype}

theorem isgraph_colon (ctype : Ctype) : ctype.isgraph ':' :=
  (ctype.isgraph_ascii ':' (by decide)).mpr (by decide)

theorem scan_algorithm_eq_some {n : ℕ} {a8 u algorithm digest : Text} :
    scan_algorithm ctype n a8 u = .ok (some (algorithm, digest)) ↔
      ∃ cs, cs.length < n ∧ (∀ c ∈ cs, ctype.isgraph c ∧ c ≠ ':') ∧ u = cs ++ ':' :: digest ∧
        algorithm = a8 ++ cs := by
  induction u generalizing n a8 with
  | nil => cases n <;> simp [scan_algorithm]
  | cons c u ih =>
    cases n with
    | zero => simp [scan_algorithm]
    | succ n =>
      rw [scan_algorithm]
      constructor
      · intro h
        split_ifs at h with hgraph hcolon
        · obtain ⟨rfl, rfl⟩ : a8 = algorithm ∧ u = digest := by simpa using h
          exact ⟨[], Nat.succ_pos n, nofun, by rw [hcolon]; rfl, (List.append_nil a8).symm⟩
        · obtain ⟨cs, hlen, hcs, rfl, rfl⟩ := ih.mp h
          refine ⟨c :: cs, Nat.succ_lt_succ hlen, ?_, rfl, by simp⟩
          intro d hd
          rcases List.mem_cons.mp hd with rfl | hd
          · exact ⟨by simpa using hgraph, hcolon⟩
          · exact hcs d hd
      · rintro ⟨cs, hlen, hcs, hu, rfl⟩
        cases cs with
        | nil =>
          obtain ⟨rfl, rfl⟩ := List.cons.inj hu
          simp [isgraph_colon]
        | cons d cs =>
          obtain ⟨rfl, rfl⟩ := List.cons.inj hu
          obtain ⟨hgraph, hcolon⟩ := hcs c List.mem_cons_self
          rw [if_neg (by simp [hgraph]), if_neg hcolon]
          exact ih.mpr ⟨cs, Nat.lt_of_succ_lt_succ hlen, fun e he => hcs e (List.mem_cons_of_mem _ he),
            rfl, by simp⟩

theorem scan_algorithm_iff_tagged {udig algorithm digest : Text} :
    scan_algorithm ctype 8 [] udig = .ok (some (algorithm, digest)) ↔
      Tagged ctype udig algorithm digest := by
  refine scan_algorithm_eq_some.trans ⟨?_, fun h => ⟨algorithm, h.short, h.graphic, h.split, rfl⟩⟩
  rintro ⟨cs, hlen, hcs, hu, rfl⟩
  exact ⟨hu, hlen, hcs⟩

theorem tagged_name (m : DigestModule) (digest : Text) :
    Tagged ctype (m.name ++ ':' :: digest) m.name digest where
  split := rfl
  short := by cases m <;> decide
  graphic c hc := by
    have hname : ∀ d ∈ m.name, d.toNat < 128 ∧ ('!' ≤ d ∧ d ≤ '~') ∧ d ≠ ':' := by
      cases m <;> decide
    obtain ⟨hascii, hgraph, hcolon⟩ := hname c hc
    exact ⟨(ctype.isgraph_ascii c hascii).mpr hgraph, hcolon⟩

theorem Tagged.unique {udig a b d e : Text} (h : Tagged ctype udig a d) (h' : Tagged ctype udig b e) :
    a = b ∧ d = e := by
  have heq := (scan_algorithm_iff_tagged.mpr h).symm.trans (scan_algorithm_iff_tagged.mpr h')
  simpa using heq

/-- The algorithm of a text and the hex digits of a digest behind its colon. -/
theorem udig_in_eq_ok {udig : Text} {v : Vardata} : udig_in ctype udig = .ok v ↔
    ∃ m, udig = text m v.digest ∧ v.type = type_byte m ∧ v.digest.length = 20 := by
  constructor
  · intro h
    unfold udig_in at h
    split at h
    · cases h
    · cases h
    · rename_i a8 u hscan
      have hsplit := (scan_algorithm_iff_tagged.mp hscan).split
      obtain ⟨m, rfl, hm⟩ : ∃ m : DigestModule, a8 = m.name ∧
          (match hex2dig20 u with
            | none => .error (.bad_dig a8 u)
            | some d20 => .ok ⟨type_byte m, d20⟩) = Except.ok (ε := Ereport) v := by
        dsimp only at h
        split_ifs at h with hbtc20 hsha hbc160
        · exact ⟨.btc20, hbtc20, h⟩
        · exact ⟨.sha, hsha, h⟩
        · exact ⟨.bc160, hbc160, h⟩
      cases hhex : hex2dig20 u with
      | none => simp [hhex] at hm
      | some d20 =>
        obtain rfl : (⟨type_byte m, d20⟩ : Vardata) = v := by simpa [hhex] using hm
        obtain ⟨hlen, rfl⟩ := hex2dig20_eq_some.mp hhex
        exact ⟨m, hsplit, rfl, hlen⟩
  · obtain ⟨type, digest⟩ := v
    rintro ⟨m, rfl, rfl, hlen⟩
    have hhex := hex2dig20_eq_some.mpr ⟨hlen, rfl⟩
    rw [udig_in, text, scan_algorithm_iff_tagged.mpr (tagged_name m _)]
    cases m <;> simp [DigestModule.name, type_byte, hhex]

end locale

theorem udig_out_eq (m : DigestModule) (digest : Bytes) :
    udig_out ⟨type_byte m, digest⟩ = .ok (text m digest) := by
  cases m <;> rfl

theorem text_injective {m m' : DigestModule} {d d' : Bytes} (h : text m d = text m' d') :
    m = m' ∧ d = d' := by
  let ctype : Ctype := ⟨fun c => '!' ≤ c ∧ c ≤ '~', fun c _ => decide_eq_true_iff⟩
  have htagged : Tagged ctype (text m d) m'.name (hex_digest d') := h ▸ tagged_name m' _
  obtain ⟨hname, hdigest⟩ := (tagged_name m _).unique htagged
  exact ⟨by revert hname; cases m <;> cases m' <;> decide, hex_digest_strictMono.injective hdigest⟩

/-! ### One order -/

/-- Every comparison of generic values is that of their texts. -/
theorem udig_cmp_order (m m' : DigestModule) {d d' : Bytes} (h : d.length = d'.length) :
    ∃ z, udig_cmp ⟨type_byte m, d⟩ ⟨type_byte m', d'⟩ = .ok z ∧ sign z = order (text m d) (text m' d') := by
  have hsame : ∀ m, sign (memcmp d d') = order (text m d) (text m d') := by
    intro m
    rw [sign_memcmp h, text, text, order_append, order_cons, order_map hex_digest_strictMono]
  cases m <;> cases m'
  case sha.sha => exact ⟨_, rfl, hsame .sha⟩
  case bc160.bc160 => exact ⟨_, rfl, hsame .bc160⟩
  case btc20.btc20 => exact ⟨_, rfl, hsame .btc20⟩
  case sha.bc160 => exact ⟨1, rfl, (order_of_gt (by decide) _ _).symm⟩
  case sha.btc20 => exact ⟨1, rfl, (order_of_gt (by decide) _ _).symm⟩
  case bc160.sha => exact ⟨-1, rfl, (order_of_lt (by decide) _ _).symm⟩
  case btc20.sha => exact ⟨-1, rfl, (order_of_lt (by decide) _ _).symm⟩
  case bc160.btc20 => exact ⟨-1, rfl, ((order_cons 'b' _ _).trans (order_of_lt (by decide) _ _)).symm⟩
  case btc20.bc160 => exact ⟨1, rfl, ((order_cons 'b' _ _).trans (order_of_gt (by decide) _ _)).symm⟩

theorem Generic.exists_eq (u : Generic) :
    ∃ m d, u.toVardata = ⟨type_byte m, d⟩ ∧ d.length = 20 := by
  obtain ⟨m, hm⟩ := u.type_known
  exact ⟨m, u.digest, by rw [← hm], u.length_digest⟩

theorem null_not_mem_text (m : DigestModule) (digest : Bytes) : '\x00' ∉ text m digest := by
  intro h
  rcases List.mem_append.mp h with h | h
  · revert h
    cases m <;> decide
  · rcases List.mem_cons.mp h with h | h
    · revert h
      decide
    · exact absurd (mem_hex_digest h) (by decide)

/-- Text forms and values stand for each other, and values compare as their text forms do. -/
theorem udig_text_form (ctype : Ctype) :
    (∀ udig v, udig_in ctype udig = .ok v → udig_out v = .ok udig ∧ ∃ u : Generic, u.toVardata = v) ∧
    (∀ u : Generic, ∃ udig, udig_out u.toVardata = .ok udig ∧ udig_in ctype udig = .ok u.toVardata) ∧
    ∀ a b : Generic, ∃ z s t, udig_cmp a.toVardata b.toVardata = .ok z ∧
      udig_out a.toVardata = .ok s ∧ udig_out b.toVardata = .ok t ∧ sign z = sign (strcmp s t) := by
  refine ⟨?_, ?_, ?_⟩
  · intro udig v h
    obtain ⟨m, hudig, htype, hlen⟩ := udig_in_eq_ok.mp h
    refine ⟨?_, ⟨v, ⟨m, htype⟩, hlen⟩, rfl⟩
    rw [hudig, ← udig_out_eq, ← htype]
  · intro u
    obtain ⟨m, d, hu, hlen⟩ := u.exists_eq
    exact ⟨text m d, hu ▸ udig_out_eq m d, udig_in_eq_ok.mpr ⟨m, by rw [hu], by rw [hu], by rw [hu]; exact hlen⟩⟩
  · intro a b
    obtain ⟨m, d, ha, hlen⟩ := a.exists_eq
    obtain ⟨m', d', hb, hlen'⟩ := b.exists_eq
    obtain ⟨z, hz, hsign⟩ := udig_cmp_order m m' (hlen.trans hlen'.symm)
    refine ⟨z, text m d, text m' d', ?_, ha ▸ udig_out_eq m d, hb ▸ udig_out_eq m' d', ?_⟩
    · rw [ha, hb, hz]
    · rw [hsign, sign_strcmp (null_not_mem_text m d) (null_not_mem_text m' d')]

/-! ### The operator family -/

/-- The comparison for the two types returns the sign that the generic one has for the casts. -/
def Agrees (a b : Stored) : Prop :=
  ∀ r, clan_cmp a b = some r → ∃ y z, r = .ok y ∧
    udig_cmp a.cast.toVardata b.cast.toVardata = .ok z ∧ sign y = sign z

/-- A generic sha or btc20 beside a udig of the type `udig_bc160`. -/
def Inverted : Stored → Stored → Prop
  | .udig a, .bc160 _ => a.type ≠ UDIG_BC160
  | _, _ => False

/-- The operator `<=` of the family holds. -/
def Le (a b : Stored) : Prop :=
  clan_operator .le a b = some (.ok true)

theorem udig_sha_cmp_udig_eq (a : Digest20) (b : Generic) :
    udig_sha_cmp_udig a.bytes b.toVardata = udig_cmp (udig_sha_cast a).toVardata b.toVardata := by
  obtain ⟨m, d, hb, -⟩ := b.exists_eq
  rw [hb]
  cases m <;> rfl

theorem udig_cmp_sha_eq (a : Generic) (b : Digest20) :
    udig_cmp_sha a.toVardata b.bytes = udig_cmp a.toVardata (udig_sha_cast b).toVardata := by
  obtain ⟨m, d, ha, -⟩ := a.exists_eq
  rw [ha]
  cases m <;> rfl

theorem udig_bc160_cmp_udig_eq (a : Digest20) (b : Generic) :
    udig_bc160_cmp_udig a.bytes b.toVardata = udig_cmp (udig_bc160_cast a).toVardata b.toVardata := by
  obtain ⟨m, d, hb, -⟩ := b.exists_eq
  rw [hb]
  cases m <;> rfl

theorem udig_btc20_cmp_udig_eq (a : Digest20) (b : Generic) :
    udig_btc20_cmp_udig a.bytes b.toVardata = udig_cmp (udig_btc20_cast a).toVardata b.toVardata := by
  obtain ⟨m, d, hb, -⟩ := b.exists_eq
  rw [hb]
  cases m <;> rfl

theorem udig_cmp_btc20_eq (a : Generic) (b : Digest20) :
    udig_cmp_btc20 a.toVardata b.bytes = udig_cmp a.toVardata (udig_btc20_cast b).toVardata := by
  obtain ⟨m, d, ha, -⟩ := a.exists_eq
  rw [ha]
  cases m <;> rfl

/-- A stored bc160 is below the generic udigs of the other algorithms, but `udig_cmp_bc160` has
these below it, too. -/
theorem udig_cmp_bc160_cases (a : Generic) (b : Digest20) :
    (a.type = UDIG_BC160 ∧
      udig_cmp_bc160 a.toVardata b.bytes = udig_cmp a.toVardata (udig_bc160_cast b).toVardata) ∨
    (a.type ≠ UDIG_BC160 ∧ udig_cmp_bc160 a.toVardata b.bytes = .ok (-1) ∧
      udig_cmp a.toVardata (udig_bc160_cast b).toVardata = .ok 1) := by
  obtain ⟨m, d, ha, -⟩ := a.exists_eq
  rw [ha]
  cases m with
  | bc160 => exact .inl ⟨rfl, rfl⟩
  | sha => exact .inr ⟨show UDIG_SHA ≠ UDIG_BC160 by decide, rfl, rfl⟩
  | btc20 => exact .inr ⟨show UDIG_BTC20 ≠ UDIG_BC160 by decide, rfl, rfl⟩

theorem clan_cmp_eq {a b : Stored} {r : Except Ereport ℤ} (h : ¬ Inverted a b)
    (hr : clan_cmp a b = some r) : r = udig_cmp a.cast.toVardata b.cast.toVardata := by
  cases a with
  | udig a =>
    cases b with
    | udig b => exact (Option.some.inj hr).symm
    | sha b => exact (Option.some.inj hr).symm.trans (udig_cmp_sha_eq a b)
    | btc20 b => exact (Option.some.inj hr).symm.trans (udig_cmp_btc20_eq a b)
    | bc160 b =>
      rcases udig_cmp_bc160_cases a b with ⟨-, heq⟩ | ⟨htype, -⟩
      · exact (Option.some.inj hr).symm.trans heq
      · exact absurd htype h
  | sha a =>
    cases b with
    | udig b => exact (Option.some.inj hr).symm.trans (udig_sha_cmp_udig_eq a b)
    | sha b => exact (Option.some.inj hr).symm
    | bc160 b => cases hr
    | btc20 b => cases hr
  | bc160 a =>
    cases b with
    | udig b => exact (Option.some.inj hr).symm.trans (udig_bc160_cmp_udig_eq a b)
    | bc160 b => exact (Option.some.inj hr).symm
    | sha b => cases hr
    | btc20 b => cases hr
  | btc20 a =>
    cases b with
    | udig b => exact (Option.some.inj hr).symm.trans (udig_btc20_cmp_udig_eq a b)
    | btc20 b => exact (Option.some.inj hr).symm
    | sha b => cases hr
    | bc160 b => cases hr

theorem Inverted.cmp {a b : Stored} (h : Inverted a b) :
    clan_cmp a b = some (.ok (-1)) ∧ clan_cmp b a = some (.ok (-1)) ∧
      udig_cmp a.cast.toVardata b.cast.toVardata = .ok 1 := by
  cases a <;> cases b
  case udig.bc160 a b =>
    rcases udig_cmp_bc160_cases a b with ⟨htype, -⟩ | ⟨-, hcmp, hcast⟩
    · exact absurd htype h
    · refine ⟨congrArg some hcmp, congrArg some ?_, hcast⟩
      obtain ⟨m, d, ha, -⟩ := a.exists_eq
      have htype : a.toVardata.type ≠ UDIG_BC160 := h
      rw [ha] at htype ⊢
      cases m with
      | bc160 => exact absurd rfl htype
      | sha => rfl
      | btc20 => rfl
  all_goals cases h

/-- The text of a generic value. -/
def Generic.text (u : Generic) : Text :=
  (udig_out u.toVardata).toOption.getD []

theorem Generic.text_eq {u : Generic} {m : DigestModule} {d : Bytes} (h : u.toVardata = ⟨type_byte m, d⟩) :
    u.text = PgUdig.text m d := by
  rw [Generic.text, h, udig_out_eq]
  rfl

theorem Generic.cmp_order (a b : Generic) :
    ∃ z, udig_cmp a.toVardata b.toVardata = .ok z ∧ sign z = order a.text b.text := by
  obtain ⟨m, d, ha, hlen⟩ := a.exists_eq
  obtain ⟨m', d', hb, hlen'⟩ := b.exists_eq
  rw [ha, hb, Generic.text_eq ha, Generic.text_eq hb]
  exact udig_cmp_order m m' (hlen.trans hlen'.symm)

theorem Generic.eq_of_text {a b : Generic} (h : a.text = b.text) : a = b := by
  obtain ⟨m, d, ha, -⟩ := a.exists_eq
  obtain ⟨m', d', hb, -⟩ := b.exists_eq
  rw [Generic.text_eq ha, Generic.text_eq hb] at h
  obtain ⟨rfl, rfl⟩ := text_injective h
  cases a
  cases b
  simp_all

theorem test_le {z : ℤ} {a b : Text} (h : sign z = order a b) : Operator.le.test z ↔ a ≤ b := by
  have hle : z ≤ 0 ↔ a ≤ b := by
    rw [← not_lt, ← not_lt, ← order_gt, ← order_gt (a := a), ← h]
    rfl
  simpa [Operator.test] using hle

theorem le_iff_text {a b : Stored} (h : ¬ Inverted a b) (hcmp : (clan_cmp a b).isSome) :
    Le a b ↔ a.cast.text ≤ b.cast.text := by
  obtain ⟨r, hr⟩ := Option.isSome_iff_exists.mp hcmp
  obtain ⟨z, hz, hsign⟩ := a.cast.cmp_order b.cast
  rw [clan_cmp_eq h hr, hz] at hr
  rw [Le, clan_operator, hr, ← test_le hsign]
  simp [Except.map]

theorem Le.isSome {a b : Stored} (h : Le a b) : (clan_cmp a b).isSome := by
  cases hr : clan_cmp a b with
  | none => simp [Le, clan_operator, hr] at h
  | some r => rfl

/-- The comparison functions agree with the generic one for all stored types but for a generic
sha or btc20 beside a stored bc160. Two udigs are each below the other without being one just
when they are such a pair, and without such pairs the family is transitive. -/
theorem clan_agrees_iff (a b c : Stored) :
    (Agrees a b ↔ ¬ Inverted a b) ∧
    ((Le a b → Le b a → a.cast = b.cast) ↔ ¬ Inverted a b ∧ ¬ Inverted b a) ∧
    (¬ Inverted a b → ¬ Inverted b c → ¬ Inverted a c → (clan_cmp a c).isSome →
      Le a b → Le b c → Le a c) := by
  have hle : ∀ {a b}, Inverted a b → Le a b ∧ Le b a ∧ a.cast ≠ b.cast := by
    intro a b h
    obtain ⟨hab, hba, hcast⟩ := h.cmp
    refine ⟨by rw [Le, clan_operator, hab]; rfl, by rw [Le, clan_operator, hba]; rfl, fun heq => ?_⟩
    obtain ⟨z, hz, hsign⟩ := a.cast.cmp_order b.cast
    rw [hcast] at hz
    cases hz
    rw [heq, order_eq.mpr rfl] at hsign
    cases hsign
  refine ⟨⟨fun h hinv => ?_, fun h r hr => ?_⟩, ⟨fun h => ⟨fun hinv => ?_, fun hinv => ?_⟩, ?_⟩, ?_⟩
  · obtain ⟨hab, -, hcast⟩ := hinv.cmp
    obtain ⟨y, z, hy, hz, hsign⟩ := h _ hab
    rw [hcast] at hz
    cases hy
    cases hz
    cases hsign
  · obtain ⟨z, hz, hsign⟩ := a.cast.cmp_order b.cast
    exact ⟨z, z, (clan_cmp_eq h hr).trans hz, hz, rfl⟩
  · obtain ⟨hab, hba, hne⟩ := hle hinv
    exact hne (h hab hba)
  · obtain ⟨hba, hab, hne⟩ := hle hinv
    exact hne (h hab hba).symm
  · rintro ⟨hab, hba⟩ h h'
    exact Generic.eq_of_text (le_antisymm ((le_iff_text hab h.isSome).mp h)
      ((le_iff_text hba h'.isSome).mp h'))
  · intro hab hbc hac hcmp h h'
    exact (le_iff_text hac hcmp).mpr (((le_iff_text hab h.isSome).mp h).trans
      ((le_iff_text hbc h'.isSome).mp h'))

/-- The empty blob's sha, generic, and a bc160 of zeroes: each is below the other. -/
theorem generic_sha_below_bc160 : ¬ ∀ a b : Stored, Agrees a b := by
  intro h
  let sha : Generic := ⟨⟨UDIG_SHA, decode_hex DigestModule.sha.empty_ascii⟩, ⟨.sha, rfl⟩, by decide⟩
  let zeroes : Digest20 := ⟨List.replicate 20 0, by decide⟩
  obtain ⟨y, z, hy, hz, hsign⟩ := h (.udig sha) (.bc160 zeroes) _ rfl
  cases hy
  cases hz
  cases hsign

/-! ### The check before a cast -/

def HexDigest (digest : Text) : Prop := digest.length = 40 ∧ ∀ c ∈ digest, c ∈ nib2hex

instance (digest : Text) : Decidable (HexDigest digest) :=
  inferInstanceAs (Decidable (_ ∧ _))

theorem hex2dig20_isSome {digest : Text} : (hex2dig20 digest).isSome ↔ HexDigest digest := by
  rw [Option.isSome_iff_exists]
  constructor
  · rintro ⟨d20, h⟩
    obtain ⟨hlen, rfl⟩ := hex2dig20_eq_some.mp h
    exact ⟨by rw [length_hex_digest, hlen], fun c hc => mem_hex_digest hc⟩
  · rintro ⟨hlen, hmem⟩
    have hdigest := hex_digest_decode_hex (by rw [hlen]; decide) hmem
    refine ⟨decode_hex digest, hex2dig20_eq_some.mpr ⟨?_, hdigest.symm⟩⟩
    have := length_hex_digest (decode_hex digest)
    rw [hdigest] at this
    omega

theorem strcmp_eq_zero {a b : Text} (ha : '\x00' ∉ a) (hb : '\x00' ∉ b) : strcmp a b = 0 ↔ a = b :=
  order_eq.symm.trans ((sign_strcmp ha hb).congr_left.trans order_eq)

section tagged
variable {ctype : Ctype} {udig algorithm digest : Text}

theorem Tagged.isOk_udig_in (h : Tagged ctype udig algorithm digest) :
    (udig_in ctype udig).isOk ↔ (∃ m : DigestModule, algorithm = m.name) ∧ HexDigest digest := by
  have hok : (udig_in ctype udig).isOk ↔ ∃ v, udig_in ctype udig = .ok v := by
    cases udig_in ctype udig <;> simp [Except.isOk, Except.toBool]
  rw [hok, ← hex2dig20_isSome, Option.isSome_iff_exists]
  constructor
  · rintro ⟨v, hv⟩
    obtain ⟨m, hudig, -, hlen⟩ := udig_in_eq_ok.mp hv
    have hname : Tagged ctype udig m.name (hex_digest v.digest) := by
      rw [hudig]
      exact tagged_name m _
    obtain ⟨rfl, rfl⟩ := h.unique hname
    exact ⟨⟨m, rfl⟩, _, hex2dig20_eq_some.mpr ⟨hlen, rfl⟩⟩
  · rintro ⟨⟨m, rfl⟩, d20, hhex⟩
    obtain ⟨hlen, rfl⟩ := hex2dig20_eq_some.mp hhex
    exact ⟨⟨type_byte m, d20⟩, udig_in_eq_ok.mpr ⟨m, h.split, rfl, hlen⟩⟩

theorem Tagged.udig_can_cast_eq (h : Tagged ctype udig algorithm digest) :
    udig_can_cast ctype udig = .ok (decide (algorithm ≠ "btc20".toList ∧ HexDigest digest)) := by
  have hnull : '\x00' ∉ algorithm := by
    intro hmem
    have hgraph := (ctype.isgraph_ascii _ (by decide)).mp (h.graphic _ hmem).1
    exact absurd hgraph (by decide)
  have hzero : ∀ m : DigestModule, strcmp m.name algorithm = 0 ↔ m.name = algorithm := by
    intro m
    exact strcmp_eq_zero (by cases m <;> decide) hnull
  have htest : (strcmp "btc20".toList algorithm ≠ 0 ∨ strcmp "sha".toList algorithm = 0 ∨
      strcmp "bc160".toList algorithm = 0) ↔ algorithm ≠ "btc20".toList := by
    refine (or_congr (not_congr (hzero .btc20)) (or_congr (hzero .sha) (hzero .bc160))).trans ?_
    constructor
    · rintro (hne | rfl | rfl)
      · exact fun heq => hne heq.symm
      · decide
      · decide
    · exact fun hne => .inl fun heq => hne heq.symm
  rw [udig_can_cast, scan_algorithm_iff_tagged.mpr h]
  simp only [htest]
  split_ifs with hbtc20
  · rw [Except.ok.injEq, Bool.eq_iff_iff, hex2dig20_isSome, decide_eq_true_iff, and_iff_right hbtc20]
  · simp [not_not.mp hbtc20]

end tagged

/-- The check before a cast tells whether the cast succeeds just for the texts with an
algorithm to read, and of those with a digest only for a sha and a bc160: a btc20 is turned
down, any other algorithm is taken, and a text without an algorithm raises an error. -/
theorem udig_can_cast_iff (ctype : Ctype) (udig : Text) :
    udig_can_cast ctype udig = .ok (udig_in ctype udig).isOk ↔
      ∃ algorithm digest, Tagged ctype udig algorithm digest ∧
        (HexDigest digest → algorithm = "sha".toList ∨ algorithm = "bc160".toList) := by
  constructor
  · intro h
    have htagged : ∃ algorithm digest, Tagged ctype udig algorithm digest := by
      unfold udig_can_cast at h
      split at h
      · cases h
      · cases h
      · exact ⟨_, _, scan_algorithm_iff_tagged.mp ‹_›⟩
    obtain ⟨algorithm, digest, htagged⟩ := htagged
    refine ⟨algorithm, digest, htagged, fun hhex => ?_⟩
    rw [htagged.udig_can_cast_eq, Except.ok.injEq, Bool.eq_iff_iff, htagged.isOk_udig_in,
      decide_eq_true_iff] at h
    by_cases hbtc20 : algorithm = "btc20".toList
    · exact absurd hbtc20 (h.mpr ⟨⟨.btc20, hbtc20⟩, hhex⟩).1
    · obtain ⟨⟨m, rfl⟩, -⟩ := h.mp ⟨hbtc20, hhex⟩
      cases m with
      | sha => exact .inl rfl
      | bc160 => exact .inr rfl
      | btc20 => exact absurd rfl hbtc20
  · rintro ⟨algorithm, digest, htagged, hnames⟩
    rw [htagged.udig_can_cast_eq, Except.ok.injEq, Bool.eq_iff_iff, htagged.isOk_udig_in,
      decide_eq_true_iff]
    constructor
    · rintro ⟨-, hhex⟩
      refine ⟨?_, hhex⟩
      rcases hnames hhex with rfl | rfl
      · exact ⟨.sha, rfl⟩
      · exact ⟨.bc160, rfl⟩
    · rintro ⟨-, hhex⟩
      refine ⟨?_, hhex⟩
      rcases hnames hhex with rfl | rfl <;> decide

/-- The C locale. -/
def c_locale : Ctype where
  isgraph c := '!' ≤ c ∧ c ≤ '~'
  isgraph_ascii _ _ := decide_eq_true_iff

theorem btc20_cannot_cast :
    ¬ ∀ ctype udig, udig_can_cast ctype udig = .ok (udig_in ctype udig).isOk := by
  intro h
  have hcast := h c_locale "btc20:b472a266d0bd89c13706a4132ccfb16f7c3b9fcb".toList
  revert hcast
  decide

end Blobio.PgUdig
