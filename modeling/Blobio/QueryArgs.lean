import Blobio.Bio4Client
import Blobio.FlowRecords
import Mathlib.Data.List.Nodup

/-! The query arguments of `BLOBIO_SERVICE`: what the frisker lets through, and what the getters
take out. -/
namespace Blobio.QueryArgs
open Bio4 (isascii)

inductive Qarg | algo | brr | fnp deriving DecidableEq

def Qarg.name : Qarg → Text
  | algo => "algo".toList
  | brr => "brr".toList
  | fnp => "fnp".toList

/-- The longest value, for `frisk_qarg`. -/
def Qarg.max_vlen : Qarg → ℕ
  | algo => 8
  | brr => 2
  | fnp => 32

/-- The arms of the frisker's switch. -/
def Qarg.of_char (c : Char) : Option Qarg :=
  if c = 'a' then some algo
  else if c = 'b' then some brr
  else if c = 'f' then some fnp
  else none

inductive QargError
  | null_char
  | name_not_ascii
  | unexpected_char
  | no_equal
  | value_too_large
  | value_not_ascii
  | value_not_graphic
  | once
  | first
  | lowdig
  | hex1
  | no_hex2
  | hex2
  | nograph
  | no_path
  | long_path
  deriving DecidableEq

def QargError.text : QargError → String
  | null_char => "unexpected null char in value"
  | name_not_ascii | value_not_ascii => "char in value is not ascii"
  | unexpected_char => "unexpected char in arg"
  | no_equal => "no \"=\" at end of arg"
  | value_too_large => "value too large"
  | value_not_graphic => "char in value is not graphic"
  | once => "arg specified more than once"
  | first => "first char not lower alpha"
  | lowdig => "char not lower alpha or digit"
  | hex1 => "first digit is not lower hex"
  | no_hex2 => "no second hex char"
  | hex2 => "second digit is not lower hex"
  | nograph => "non graph char in path"
  | no_path => "no path after ="
  | long_path => "path length > 32 chars"

inductive FriskError
  | qae (qarg : Qarg) (err : QargError)
  | unexpected_char
  | no_argument
  deriving DecidableEq

def FriskError.text : FriskError → String
  | qae qarg err => String.ofList qarg.name ++ ": " ++ err.text
  | unexpected_char => "unexpected char in query arg"
  | no_argument => "no query argument after \"&\""

/-! ### The frisker -/

/-- The first loop of `frisk_qarg`. -/
def frisk_name : Text → Text → Except QargError Text
  | [], g => .ok g
  | _ :: _, [] => .error .null_char
  | ce :: e, cg :: g =>
    if ¬ isascii cg then .error .name_not_ascii
    else if cg ≠ ce then .error .unexpected_char
    else frisk_name e g

/-- The second loop of `frisk_qarg`, behind so many characters of the value. -/
def frisk_value (max_vlen : ℕ) : ℕ → Text → Except QargError Unit
  | _, [] => .ok ()
  | n, cg :: g =>
    if cg = '&' then .ok ()
    else if max_vlen < n + 1 then .error .value_too_large
    else if ¬ isascii cg then .error .value_not_ascii
    else if ¬ isgraph cg then .error .value_not_graphic
    else frisk_value max_vlen (n + 1) g

/-- What follows the equal sign. The test for an empty value compares the length of the whole
argument with 1, and never fires. -/
def frisk_qarg (expect given : Text) (max_vlen : ℕ) : Except QargError Text :=
  match frisk_name expect given with
  | .error err => .error err
  | .ok [] => .error .no_equal
  | .ok (c :: equal) =>
    if c ≠ '=' then .error .no_equal
    else
      match frisk_value max_vlen 0 equal with
      | .error err => .error err
      | .ok () => .ok equal

/-- A scan to the ampersand or the null behind a value. -/
def scan_value (ok : Char → Bool) : Text → Option Text
  | [] => some []
  | c :: q =>
    if c = '&' then some (c :: q)
    else if ok c then scan_value ok q
    else none

/-- The characters from a value's first on to what is left: of the last argument the null is
one of them. -/
def span (equal rest : Text) : ℕ :=
  equal.length - rest.length + if rest = [] then 1 else 0

def algo_value : Text → Except QargError (ℕ × Text)
  | [] => .error .first
  | c :: q =>
    if ¬ islower c then .error .first
    else
      match scan_value (fun c => islower c || isdigit c) q with
      | none => .error .lowdig
      | some rest => .ok (span (c :: q) rest, rest)

def brr_value : Text → Except QargError (ℕ × Text)
  | [] => .error .hex1
  | [c] => if ¬ isxdigit c ∨ (isalpha c ∧ ¬ islower c) then .error .hex1 else .error .no_hex2
  | c :: c' :: rest =>
    if ¬ isxdigit c ∨ (isalpha c ∧ ¬ islower c) then .error .hex1
    else if ¬ isxdigit c' ∨ ¬ islower c' then .error .hex2
    else .ok (2, rest)

def fnp_value (equal : Text) : Except QargError (ℕ × Text) :=
  match scan_value isgraph equal with
  | none => .error .nograph
  | some rest =>
    if span equal rest = 0 then .error .no_path
    else if 32 < span equal rest then .error .long_path
    else .ok (span equal rest, rest)

/-- The length of a value, and what is left of the query. -/
def Qarg.scan : Qarg → Text → Except QargError (ℕ × Text)
  | algo => algo_value
  | brr => brr_value
  | fnp => fnp_value

/-- The offset in the query and the length of each value that has been seen. The mask has an
offset only. -/
abbrev Offsets := Qarg → Option (ℕ × ℕ)

/-- One turn of the frisker's loop. -/
def frisk_arg (query : Text) (seen : Offsets) (q : Text) : Except FriskError (Offsets × Text) :=
  match q.head?.bind Qarg.of_char with
  | none => .error .unexpected_char
  | some qarg =>
    match frisk_qarg qarg.name q qarg.max_vlen with
    | .error err => .error (.qae qarg err)
    | .ok equal =>
      if (seen qarg).isSome then .error (.qae qarg .once)
      else
        match qarg.scan equal with
        | .error err => .error (.qae qarg err)
        | .ok (n, rest) => .ok (Function.update seen qarg (some (query.length - equal.length, n)), rest)

/-! ### The scanners' values -/

variable {query q rest v : Text} {seen seen' : Offsets} {qarg : Qarg}

/-- A value ends at an ampersand or with the query. -/
def Ends (rest : Text) : Prop :=
  rest = [] ∨ ∃ r, rest = '&' :: r

theorem exists_value (q : Text) : ∃ v rest, q = v ++ rest ∧ '&' ∉ v ∧ Ends rest := by
  by_cases h : '&' ∈ q
  · obtain ⟨v, r, rfl, hv⟩ := List.eq_append_cons_of_mem h
    exact ⟨v, '&' :: r, rfl, hv, .inr ⟨r, rfl⟩⟩
  · exact ⟨q, [], (List.append_nil q).symm, h, .inl rfl⟩

theorem frisk_name_eq_ok {e g : Text} (he : ∀ c ∈ e, isascii c) :
    frisk_name e q = .ok g ↔ q = e ++ g := by
  induction e generalizing q with
  | nil => simp [frisk_name]
  | cons ce e ih =>
    rw [List.forall_mem_cons] at he
    cases q with
    | nil => simp [frisk_name]
    | cons cg q =>
      rw [frisk_name]
      constructor
      · intro h
        split_ifs at h with hascii hne
        rw [not_not] at hne
        rw [hne, (ih he.2).mp h]
        rfl
      · intro h
        rw [List.cons_append, List.cons.injEq] at h
        obtain ⟨rfl, h⟩ := h
        rw [if_neg (not_not.mpr he.1), if_neg (not_not.mpr rfl)]
        exact (ih he.2).mpr h

theorem isascii_of_isgraph {c : Char} (h : isgraph c) : isascii c :=
  decide_eq_true (between_lt (by decide : ('~').toNat < 128) h)

theorem frisk_value_eq_ok {max_vlen n : ℕ} (hn : n ≤ max_vlen) (hv : '&' ∉ v) (hrest : Ends rest) :
    frisk_value max_vlen n (v ++ rest) = .ok () ↔ n + v.length ≤ max_vlen ∧ ∀ c ∈ v, isgraph c := by
  induction v generalizing n with
  | nil =>
    obtain rfl | ⟨r, rfl⟩ := hrest
    · simpa [frisk_value] using hn
    · simpa [frisk_value] using hn
  | cons c v ih =>
    rw [List.mem_cons, not_or] at hv
    rw [List.cons_append, frisk_value, if_neg (Ne.symm hv.1), List.forall_mem_cons, List.length_cons]
    by_cases hlarge : max_vlen < n + 1
    · rw [if_pos hlarge]
      exact iff_of_false nofun fun h => absurd h.1 (by omega)
    · rw [if_neg hlarge]
      by_cases hgraph : isgraph c
      · rw [if_neg (not_not.mpr (isascii_of_isgraph hgraph)), if_neg (not_not.mpr hgraph), ih
        (by omega) hv.2]
        simp only [hgraph, true_and, Nat.add_assoc, Nat.add_comm 1]
      · refine iff_of_false ?_ fun h => hgraph h.2.1
        split_ifs
        · nofun
        · nofun

theorem scan_value_eq {ok : Char → Bool} (hv : '&' ∉ v) (hrest : Ends rest) :
    scan_value ok (v ++ rest) = if ∀ c ∈ v, ok c then some rest else none := by
  induction v with
  | nil =>
    obtain rfl | ⟨r, rfl⟩ := hrest
    · rfl
    · rfl
  | cons c v ih =>
    rw [List.mem_cons, not_or] at hv
    rw [List.cons_append, scan_value, if_neg (Ne.symm hv.1), ih hv.2]
    by_cases hok : ok c
    · simp [hok]
    · simp [hok]

theorem span_append (v rest : Text) : span (v ++ rest) rest = v.length + if rest = [] then 1 else 0 := by
  rw [span, List.length_append, Nat.add_sub_cancel]

/-- What the frisker takes for a value. The null that ends the query counts for a file name prefix,
and no decimal digit is taken as the second of a mask. -/
def Qarg.Takes (last : Prop) : Qarg → Text → Prop
  | algo, v => Tag v
  | brr, v => ∃ c d, v = [c, d] ∧ c ∈ nib2hex ∧ between 'a' 'f' d
  | fnp, v => (∀ c ∈ v, isgraph c) ∧ (last → v.length ≤ 31) ∧ (¬ last → 1 ≤ v.length ∧ v.length ≤ 32)

def Qarg.length (last : Prop) [Decidable last] (qarg : Qarg) (v : Text) : ℕ :=
  match qarg with
  | algo | fnp => v.length + if last then 1 else 0
  | brr => 2

theorem lower_or_digit_iff (c : Char) : islower c || isdigit c ↔ c ∈ lower_alnum := by
  have h : c ∈ lower_alnum ↔ _ := mem_iff_of_ascii (p := fun c => islower c || isdigit c)
    (by decide +kernel)
    (fun d hd => ?_) (by decide +kernel) c
  · exact h.symm
  · rcases Bool.or_eq_true_iff.mp hd with hlower | hdigit
    · exact lt_of_le_of_lt (of_decide_eq_true hlower).2 (by decide : ('z').toNat < 128)
    · exact between_lt (by decide : ('9').toNat < 128) hdigit

theorem isgraph_of_lower_alnum {c : Char} (h : c ∈ lower_alnum) : isgraph c :=
  (by decide +kernel : ∀ c ∈ lower_alnum, isgraph c) c h

theorem isgraph_of_between {lo hi c : Char} (hlo : '!' ≤ lo) (hhi : hi ≤ '~') (h : between lo hi c) :
    isgraph c := by
  simp only [isgraph, between, Bool.and_eq_true, decide_eq_true_eq] at h ⊢
  exact ⟨Char.le_trans hlo h.1, Char.le_trans h.2 hhi⟩

theorem hex1_iff (c : Char) : ¬ (¬ isxdigit c ∨ (isalpha c ∧ ¬ islower c)) ↔ c ∈ nib2hex := by
  rw [← is_digest_char_eq .btc20 c, DigestModule.is_digest_char, decide_eq_true_eq, not_or, not_not]

theorem hex2_iff (c : Char) : ¬ (¬ isxdigit c ∨ ¬ islower c) ↔ between 'a' 'f' c := by
  rw [not_or, not_not, not_not]
  simp only [isxdigit, islower, between, decide_eq_true_eq, Bool.and_eq_true]
  constructor
  · rintro ⟨⟨-, h9⟩ | h | ⟨-, hF⟩, ha, -⟩
    · exact absurd (Char.le_trans ha h9) (by decide)
    · exact h
    · exact absurd (Char.le_trans ha hF) (by decide)
  · intro h
    exact ⟨.inr (.inl h), h.1, Char.le_trans h.2 (by decide)⟩

theorem algo_value_eq_ok {n : ℕ} {rest' : Text} (hv : '&' ∉ v) (hrest : Ends rest) :
    algo_value (v ++ rest) = .ok (n, rest') ↔ (∃ c w, v = c :: w ∧ between 'a' 'z' c ∧ ∀ d ∈ w,
      d ∈ lower_alnum) ∧
      n = Qarg.algo.length (rest = []) v ∧ rest' = rest := by
  cases v with
  | nil =>
    obtain rfl | ⟨r, rfl⟩ := hrest
    · simp [algo_value]
    · simp [algo_value, islower]
  | cons c w =>
    rw [List.mem_cons, not_or] at hv
    rw [List.cons_append, algo_value, scan_value_eq hv.2 hrest, ← List.cons_append]
    simp only [lower_or_digit_iff]
    have hlower : islower c ↔ between 'a' 'z' c := by simp [islower, between]
    by_cases hc : islower c
    · rw [if_neg (not_not.mpr hc)]
      by_cases hw : ∀ d ∈ w, d ∈ lower_alnum
      · rw [if_pos hw]
        change Except.ok (span (c :: w ++ rest) rest, rest) = _ ↔ _
        rw [span_append, Except.ok.injEq, Prod.mk.injEq]
        constructor
        · rintro ⟨rfl, rfl⟩
          exact ⟨⟨c, w, rfl, hlower.mp hc, hw⟩, rfl, rfl⟩
        · rintro ⟨-, rfl, rfl⟩
          exact ⟨rfl, rfl⟩
      · rw [if_neg hw]
        refine iff_of_false (by simp) ?_
        rintro ⟨⟨_, _, heq, -, h⟩, -⟩
        cases heq
        exact hw h
    · rw [if_pos hc]
      refine iff_of_false (by simp) ?_
      rintro ⟨⟨_, _, heq, h, -⟩, -⟩
      cases heq
      exact hc (hlower.mpr h)

theorem brr_value_eq_ok {equal : Text} {n : ℕ} : brr_value equal = .ok (n, rest) ↔
    ∃ c d, equal = c :: d :: rest ∧ c ∈ nib2hex ∧ between 'a' 'f' d ∧ n = 2 := by
  cases equal with
  | nil => simp [brr_value]
  | cons c equal =>
    cases equal with
    | nil => 
      rw [brr_value]
      refine iff_of_false ?_ (by simp)
      split_ifs
      · nofun
      · nofun
    | cons d equal =>
      rw [brr_value]
      by_cases h1 : c ∈ nib2hex
      · rw [if_neg ((hex1_iff c).mpr h1)]
        by_cases h2 : between 'a' 'f' d
        · rw [if_neg ((hex2_iff d).mpr h2)]
          constructor
          · rintro ⟨⟩
            exact ⟨c, d, rfl, h1, h2, rfl⟩
          · rintro ⟨_, _, heq, -, -, rfl⟩
            cases heq
            rfl
        · rw [if_pos (not_not.mp fun h => h2 ((hex2_iff d).mp h))]
          simp [h2]
      · rw [if_pos (not_not.mp fun h => h1 ((hex1_iff c).mp h))]
        simp [h1]

theorem fnp_value_eq_ok {n : ℕ} {rest' : Text} (hv : '&' ∉ v) (hrest : Ends rest) :
    fnp_value (v ++ rest) = .ok (n, rest') ↔ Qarg.fnp.Takes (rest = []) v ∧
      n = Qarg.fnp.length (rest = []) v ∧ rest' = rest := by
  rw [fnp_value, scan_value_eq hv hrest]
  by_cases hgraph : ∀ c ∈ v, isgraph c
  · rw [if_pos hgraph]
    change (if span (v ++ rest) rest = 0 then _ else if 32 < span (v ++ rest) rest then _
      else Except.ok (span (v ++ rest) rest, rest)) = _ ↔ _
    have htakes : Qarg.fnp.Takes (rest = []) v ↔ span (v ++ rest) rest ≠ 0 ∧ ¬ 32 < span
      (v ++ rest) rest := by
      rw [Qarg.Takes, span_append, and_iff_right hgraph]
      by_cases hnil : rest = []
      · rw [if_pos hnil]
        constructor
        · intro h
          have hlength := h.1 hnil
          omega
        · exact fun h => ⟨fun _ => by omega, fun hnot => absurd hnil hnot⟩
      · rw [if_neg hnil]
        constructor
        · intro h
          have hlength := h.2 hnil
          omega
        · exact fun h => ⟨fun hlast => absurd hlast hnil, fun _ => by omega⟩
    rw [htakes, Qarg.length, ← span_append]
    split_ifs with hzero hlong
    · simp [hzero]
    · simp [hlong]
    · simp [hzero, hlong, eq_comm]
  · rw [if_neg hgraph]
    exact iff_of_false nofun fun h => hgraph h.1.1

/-- The value of an argument by itself: the length that `frisk_qarg` allows, and the scan. -/
theorem scan_eq_ok {n : ℕ} {rest' : Text} (hv : '&' ∉ v) (hrest : Ends rest) :
    frisk_value qarg.max_vlen 0 (v ++ rest) = .ok () ∧ qarg.scan (v ++ rest) = .ok (n, rest') ↔
      qarg.Takes (rest = []) v ∧ n = qarg.length (rest = []) v ∧ rest' = rest := by
  rw [frisk_value_eq_ok (Nat.zero_le _) hv hrest, Nat.zero_add]
  cases qarg with
  | algo =>
    rw [Qarg.scan, algo_value_eq_ok hv hrest]
    constructor
    · rintro ⟨⟨hlength, -⟩, ⟨c, w, rfl, hc, hw⟩, hn, hrest'⟩
      exact ⟨⟨c, w, rfl, hc, hw, Nat.zero_le _, Nat.le_of_succ_le_succ hlength⟩, hn, hrest'⟩
    · rintro ⟨⟨c, w, rfl, hc, hw⟩, hn, hrest'⟩
      refine ⟨⟨Nat.succ_le_succ hw.upper, ?_⟩, ⟨c, w, rfl, hc, hw.subset⟩, hn, hrest'⟩
      rw [List.forall_mem_cons]
      exact ⟨isgraph_of_between (by decide) (by decide) hc, fun d hd => isgraph_of_lower_alnum
        (hw.subset d hd)⟩
  | brr =>
    rw [Qarg.scan, brr_value_eq_ok]
    constructor
    · rintro ⟨⟨hlength, -⟩, c, d, heq, hc, hd, rfl⟩
      have hc' : c ≠ '&' := by
        rintro rfl
        exact absurd hc (by decide)
      have hd' : d ≠ '&' := by
        rintro rfl
        exact absurd hd (by decide)
      match v, hrest, heq with
      | [], .inl hnil, heq =>
        rw [hnil] at heq
        cases heq
      | [], .inr ⟨r, hr⟩, heq =>
        rw [hr] at heq
        cases heq
        exact absurd rfl hc'
      | [_], .inl hnil, heq =>
        rw [hnil] at heq
        cases heq
      | [_], .inr ⟨r, hr⟩, heq =>
        rw [hr] at heq
        cases heq
        exact absurd rfl hd'
      | [_, _], _, heq =>
        cases heq
        exact ⟨⟨c, d, rfl, hc, hd⟩, rfl, rfl⟩
    · rintro ⟨⟨c, d, rfl, hc, hd⟩, rfl, rfl⟩
      refine ⟨⟨le_rfl, ?_⟩, c, d, rfl, hc, hd, rfl⟩
      have hhex : ∀ c ∈ nib2hex, c ∈ lower_alnum := by decide
      rw [List.forall_mem_cons, List.forall_mem_singleton]
      exact ⟨isgraph_of_lower_alnum (hhex c hc), isgraph_of_between (by decide) (by decide) hd⟩
  | fnp =>
    rw [Qarg.scan, fnp_value_eq_ok hv hrest]
    constructor
    · exact fun h => h.2
    · intro h
      refine ⟨⟨?_, h.1.1⟩, h⟩
      by_cases hnil : rest = []
      · exact (h.1.2.1 hnil).trans (by decide)
      · exact (h.1.2.2 hnil).2

/-! ### An argument, and the loop -/

structure Arg where
  qarg : Qarg
  value : Text
  deriving DecidableEq

def Arg.text (a : Arg) : Text :=
  a.qarg.name ++ '=' :: a.value

theorem frisk_qarg_eq_ok {equal : Text} : frisk_qarg qarg.name q qarg.max_vlen = .ok equal ↔
    q = qarg.name ++ '=' :: equal ∧ frisk_value qarg.max_vlen 0 equal = .ok () := by
  have hname : ∀ g, frisk_name qarg.name q = .ok g ↔ q = qarg.name ++ g :=
    fun g => frisk_name_eq_ok (by cases qarg <;> decide)
  rw [frisk_qarg]
  constructor
  · intro h
    split at h
    · cases h
    · cases h
    · next c g hg =>
      split_ifs at h with hc
      rw [not_not] at hc
      subst hc
      cases hvalue : frisk_value qarg.max_vlen 0 g with
      | error err => simp [hvalue] at h
      | ok u =>
        simp only [hvalue, Except.ok.injEq] at h
        subst h
        exact ⟨(hname _).mp hg, hvalue⟩
  · rintro ⟨hq, hvalue⟩
    simp [(hname _).mpr hq, hvalue]

theorem of_char_name (qarg : Qarg) (r : Text) : (qarg.name ++ r).head?.bind Qarg.of_char = some qarg := by
  cases qarg <;> rfl

theorem frisk_arg_eq_ok : frisk_arg query seen q = .ok (seen', rest) ↔
    ∃ a : Arg, q = a.text ++ rest ∧ '&' ∉ a.value ∧ Ends rest ∧ a.qarg.Takes (rest = []) a.value ∧
      seen a.qarg = none ∧ seen' = Function.update seen a.qarg
        (some (query.length - (a.value ++ rest).length, a.qarg.length (rest = []) a.value)) := by
  constructor
  · intro h
    rw [frisk_arg] at h
    split at h
    · cases h
    · next qarg hqarg =>
      cases hequal : frisk_qarg qarg.name q qarg.max_vlen with
      | error err => simp [hequal] at h
      | ok equal =>
        obtain ⟨hq, hvalue⟩ := frisk_qarg_eq_ok.mp hequal
        simp only [hequal] at h
        split_ifs at h with hseen
        obtain ⟨v, r, rfl, hv, hr⟩ := exists_value equal
        cases hscan : qarg.scan (v ++ r) with
        | error err => simp [hscan] at h
        | ok p =>
          obtain ⟨n, rest'⟩ := p
          simp only [hscan, Except.ok.injEq, Prod.mk.injEq] at h
          obtain ⟨rfl, rfl⟩ := h
          obtain ⟨htakes, rfl, rfl⟩ := (scan_eq_ok hv hr).mp ⟨hvalue, hscan⟩
          refine ⟨⟨qarg, v⟩, ?_, hv, hr, htakes, ?_, rfl⟩
          · rw [hq, Arg.text, List.append_assoc]
            rfl
          · exact Option.not_isSome_iff_eq_none.mp hseen
  · rintro ⟨a, rfl, hv, hrest, htakes, hseen, rfl⟩
    obtain ⟨hvalue, hscan⟩ := (scan_eq_ok hv hrest).mpr ⟨htakes, rfl, rfl⟩
    have hq : a.text ++ rest = a.qarg.name ++ '=' :: (a.value ++ rest) := by
      rw [Arg.text, List.append_assoc]
      rfl
    rw [frisk_arg, hq, of_char_name]
    simp [frisk_qarg_eq_ok.mpr ⟨rfl, hvalue⟩, hseen, hscan]

theorem frisk_arg_length (h : frisk_arg query seen q = .ok (seen', rest)) : rest.length < q.length := by
  obtain ⟨a, rfl, -⟩ := frisk_arg_eq_ok.mp h
  have hpos : 0 < a.text.length := by
    rw [Arg.text, List.length_append, List.length_cons]
    omega
  rw [List.length_append]
  omega

def frisk_loop (query : Text) (seen : Offsets) (q : Text) : Except FriskError Offsets :=
  match q with
  | [] => .ok seen
  | c :: q =>
    match _h : frisk_arg query seen (c :: q) with
    | .error err => .error err
    | .ok (seen', []) => .ok seen'
    | .ok (seen', c' :: q') =>
      if c' = '&' ∧ q' = [] then .error .no_argument
      else frisk_loop query seen' q'
  termination_by q.length
  decreasing_by exact Nat.lt_of_succ_lt (frisk_arg_length _h)

/-- `BLOBIO_SERVICE_frisk_qargs` -/
def frisk_qargs (query : Text) : Except FriskError Offsets :=
  frisk_loop query (fun _ => none) query

theorem frisk_loop_last (h : frisk_arg query seen q = .ok (seen', [])) :
    frisk_loop query seen q = .ok seen' := by
  cases q with
  | nil => cases h
  | cons c q =>
    rw [frisk_loop]
    split <;> simp_all

theorem frisk_loop_next {r : Text} (hr : r ≠ []) (h : frisk_arg query seen q = .ok (seen', '&' :: r)) :
    frisk_loop query seen q = frisk_loop query seen' r := by
  cases q with
  | nil => cases h
  | cons c q =>
    rw [frisk_loop]
    split <;> simp_all

/-- The two ways in which a loop comes to its end. -/
theorem frisk_loop_ok (hq : q ≠ []) (h : frisk_loop query seen q = .ok seen') :
    frisk_arg query seen q = .ok (seen', []) ∨ ∃ seen₁ r, r ≠ [] ∧
      frisk_arg query seen q = .ok (seen₁, '&' :: r) ∧ frisk_loop query seen₁ r = .ok seen' := by
  cases q with
  | nil => exact absurd rfl hq
  | cons c q =>
    rw [frisk_loop] at h
    split at h
    · cases h
    · next hlast =>
      cases h
      exact .inl hlast
    · next seen₁ c' r harg =>
      split_ifs at h with hend
      obtain ⟨-, -, -, hends, -⟩ := frisk_arg_eq_ok.mp harg
      obtain hnil | ⟨r', hr⟩ := hends
      · cases hnil
      · cases hr
        exact .inr ⟨seen₁, r, fun hnil => hend ⟨rfl, hnil⟩, harg, h⟩

/-! ### A query as a list of arguments -/

def joined (args : List Arg) : Text :=
  ['&'].intercalate (args.map Arg.text)

/-- The arguments that the frisker takes. -/
def Taken : List Arg → Prop
  | [] => True
  | [a] => a.qarg.Takes True a.value ∧ '&' ∉ a.value
  | a :: b :: args => (a.qarg.Takes False a.value ∧ '&' ∉ a.value) ∧ Taken (b :: args)

/-- The offsets point at the values of the arguments, of which the last is the query's when this
one is over. -/
def Points (query : Text) (seen : Offsets) (args : List Arg) (ended : Prop) : Prop :=
  ∀ k, (seen k = none ∧ ∀ a ∈ args, a.qarg ≠ k) ∨
    ∃ a ∈ args, a.qarg = k ∧ ∃ pre post, query = pre ++ a.value ++ post ∧
      (post = [] ↔ ended ∧ args.getLast? = some a) ∧ seen k = some (pre.length, k.length (post = []) a.value)

variable {args done : List Arg} {a b : Arg}

theorem joined_cons_cons (a b : Arg) (args : List Arg) :
    joined (a :: b :: args) = a.text ++ '&' :: joined (b :: args) := by
  rw [joined, List.map_cons, List.map_cons, List.intercalate_cons_cons, List.append_assoc]
  rfl

theorem joined_singleton (a : Arg) : joined [a] = a.text := List.intercalate_singleton

theorem joined_ne_nil (a : Arg) (args : List Arg) : joined (a :: args) ≠ [] := by
  have htext : a.text ≠ [] := by simp [Arg.text]
  cases args with
  | nil => rwa [joined_singleton]
  | cons b args =>
    rw [joined_cons_cons]
    simp

theorem text_no_ampersand (h : '&' ∉ a.value) : '&' ∉ a.text := by
  rw [Arg.text, List.mem_append, List.mem_cons, not_or, not_or]
  exact ⟨by cases a.qarg <;> decide, by decide, h⟩

theorem text_injective (h : a.text = b.text) : a = b := by
  obtain ⟨k, v⟩ := a
  obtain ⟨k', v'⟩ := b
  cases k <;> cases k' <;> simp_all [Arg.text, Qarg.name]

theorem joined_injective {args' : List Arg} (h : ∀ a ∈ args, '&' ∉ a.value) (h' : ∀ a ∈ args',
    '&' ∉ a.value)
    (heq : joined args = joined args') : args = args' := by
  have hsplit : ∀ {l : List Arg}, (∀ a ∈ l, '&' ∉ a.value) → l ≠ [] →
    (joined l).splitOn '&' = l.map Arg.text :=
    fun hl hne => List.splitOn_intercalate '&' (List.forall_mem_map.mpr fun a ha => text_no_ampersand
      (hl a ha))
      (by simpa using hne)
  cases args with
  | nil =>
    cases args' with
    | nil => rfl
    | cons b args' => exact absurd heq.symm (joined_ne_nil b args')
  | cons a args =>
    cases args' with
    | nil => exact absurd heq (joined_ne_nil a args)
    | cons b args' =>
      have hmap := congrArg (List.splitOn '&') heq
      rw [hsplit h (List.cons_ne_nil _ _), hsplit h' (List.cons_ne_nil _ _)] at hmap
      exact List.map_injective_iff.mpr (fun _ _ => text_injective) hmap

theorem taken_concat : Taken (args ++ [b]) ↔
    (∀ a ∈ args, a.qarg.Takes False a.value ∧ '&' ∉ a.value) ∧ b.qarg.Takes True b.value ∧ '&' ∉ b.value :=
      by
  induction args with
  | nil => simp [Taken]
  | cons a args ih =>
    have hcons : Taken (a :: args ++ [b]) ↔ (a.qarg.Takes False a.value ∧ '&' ∉ a.value) ∧ Taken
      (args ++ [b]) := by
      cases args with
      | nil => exact Iff.rfl
      | cons _ _ => exact Iff.rfl
    rw [hcons, ih, List.forall_mem_cons]
    exact and_assoc.symm

theorem Taken.no_ampersand (h : Taken args) : ∀ a ∈ args, '&' ∉ a.value := by
  obtain rfl | ⟨args, b, rfl⟩ := List.eq_nil_or_concat args
  · simp
  · rw [List.concat_eq_append, taken_concat] at h
    rw [List.concat_eq_append, List.forall_mem_append, List.forall_mem_singleton]
    exact ⟨fun a ha => (h.1 a ha).2, h.2.2⟩

/-- One more argument is seen. -/
theorem points_step (hpoints : Points query seen done False) (hq : q <:+ query)
    (htext : q = a.text ++ rest) :
    Points query (Function.update seen a.qarg
      (some (query.length - (a.value ++ rest).length, a.qarg.length (rest = []) a.value))) (done ++ [a])
      (rest = []) := by
  intro k
  obtain ⟨pre, rfl⟩ := hq
  by_cases hk : a.qarg = k
  · subst hk
    have hquery : pre ++ q = (pre ++ a.qarg.name ++ ['=']) ++ a.value ++ rest := by
      rw [htext, Arg.text]
      simp
    refine .inr ⟨a, by simp, rfl, pre ++ a.qarg.name ++ ['='], rest, hquery, by simp, ?_⟩
    rw [Function.update_self, hquery, List.append_assoc _ a.value, List.length_append, Nat.add_sub_cancel]
  · rw [Function.update_of_ne (Ne.symm hk)]
    rcases hpoints k with ⟨hnone, hdone⟩ | ⟨b, hb, rfl, pre', post, hquery, hpost, hsome⟩
    · refine .inl ⟨hnone, ?_⟩
      rw [List.forall_mem_append, List.forall_mem_singleton]
      exact ⟨hdone, hk⟩
    · refine .inr ⟨b, List.mem_append_left _ hb, rfl, pre', post, hquery, ?_, hsome⟩
      rw [List.getLast?_concat, Option.some.injEq]
      exact iff_of_false (fun h => (hpost.mp h).1) fun h => hk (h.2 ▸ rfl)

theorem once_step {ended : Prop} (hpoints : Points query seen done ended) (honce : (done.map Arg.qarg).Nodup)
    (hseen : seen a.qarg = none) : ((done ++ [a]).map Arg.qarg).Nodup := by
  rw [List.map_append, List.map_singleton, List.nodup_append]
  refine ⟨honce, by simp, ?_⟩
  rcases hpoints a.qarg with ⟨-, hdone⟩ | ⟨_, _, _, _, _, _, _, hsome⟩
  · intro k hk k' hk'
    obtain ⟨b, hb, rfl⟩ := List.mem_map.mp hk
    rw [List.mem_singleton.mp hk']
    exact hdone b hb
  · rw [hseen] at hsome
    cases hsome

theorem frisk_loop_taken (hne : q ≠ []) (hq : q <:+ query) (hpoints : Points query seen done False)
    (honce : (done.map Arg.qarg).Nodup) (h : frisk_loop query seen q = .ok seen') :
    ∃ args, args ≠ [] ∧ q = joined args ∧ Taken args ∧ ((done ++ args).map Arg.qarg).Nodup ∧
      Points query seen' (done ++ args) True := by
  induction hn : q.length using Nat.strong_induction_on generalizing q seen done with
  | _ n ih =>
    subst hn
    rcases frisk_loop_ok hne h with harg | ⟨seen₁, r, hr, harg, hloop⟩
    · obtain ⟨a, htext, hv, -, htakes, hseen, heq⟩ := frisk_arg_eq_ok.mp harg
      have hlast := points_step hpoints hq htext
      rw [← heq] at hlast
      refine ⟨[a], List.cons_ne_nil _ _, ?_, ⟨by simpa using htakes, hv⟩, once_step hpoints honce hseen, ?_⟩
      · rw [htext, List.append_nil, joined_singleton]
      · simpa only [eq_self] using hlast
    · obtain ⟨a, htext, hv, -, htakes, hseen, heq⟩ := frisk_arg_eq_ok.mp harg
      have hnext := points_step hpoints hq htext
      rw [← heq] at hnext
      have hsuffix : r <:+ query :=
        ((List.suffix_cons '&' r).trans (List.suffix_append a.text _)).trans (htext ▸ hq)
      have hshort : r.length < q.length := Nat.lt_of_succ_lt (frisk_arg_length harg)
      obtain ⟨args, hargs, rfl, htaken, honce', hpoints'⟩ := ih r.length hshort hr hsuffix
        (by simpa only [reduceCtorEq] using hnext) (once_step hpoints honce hseen) hloop rfl
      obtain ⟨b, args, rfl⟩ := List.exists_cons_of_ne_nil hargs
      refine ⟨a :: b :: args, List.cons_ne_nil _ _, ?_, ⟨⟨by simpa using htakes, hv⟩, htaken⟩, ?_, ?_⟩
      · rw [htext, joined_cons_cons]
      · simpa using honce'
      · simpa using hpoints'

theorem frisk_loop_of_taken (hne : args ≠ []) (htaken : Taken args) (hseen : ∀ a ∈ args, seen a.qarg = none)
    (honce : (args.map Arg.qarg).Nodup) : ∃ seen', frisk_loop query seen (joined args) = .ok seen' := by
  induction args generalizing seen with
  | nil => exact absurd rfl hne
  | cons a args ih =>
    rw [List.forall_mem_cons] at hseen
    cases args with
    | nil =>
      refine ⟨_, frisk_loop_last (frisk_arg_eq_ok.mpr ⟨a, ?_, htaken.2, .inl rfl, ?_, hseen.1, rfl⟩)⟩
      · rw [joined_singleton, List.append_nil]
      · simpa using htaken.1
    | cons b args =>
      obtain ⟨⟨htakes, hv⟩, hrest⟩ := htaken
      rw [List.map_cons, List.nodup_cons] at honce
      have harg : frisk_arg query seen (joined (a :: b :: args)) = .ok (_, '&' :: joined (b :: args)) :=
        frisk_arg_eq_ok.mpr ⟨a, joined_cons_cons a b args, hv, .inr ⟨_, rfl⟩, by simpa using htakes,
          hseen.1, rfl⟩
      rw [frisk_loop_next (joined_ne_nil b args) harg]
      refine ih (List.cons_ne_nil _ _) hrest (fun c hc => ?_) honce.2
      have hne : c.qarg ≠ a.qarg := fun h => honce.1 (h ▸ List.mem_map_of_mem hc)
      rw [Function.update_of_ne hne]
      exact hseen.2 c hc

theorem frisk_qargs_ok (h : frisk_qargs query = .ok seen) : ∃ args, query = joined args ∧ Taken args ∧
    (args.map Arg.qarg).Nodup ∧ Points query seen args True := by
  by_cases hnil : query = []
  · subst hnil
    rw [frisk_qargs, frisk_loop] at h
    cases h
    exact ⟨[], rfl, trivial, List.nodup_nil, fun k => .inl ⟨rfl, by simp⟩⟩
  · have hstart : Points query (fun _ => none) [] False := fun k => .inl ⟨rfl, by simp⟩
    obtain ⟨args, -, hquery, h⟩ := frisk_loop_taken hnil (List.suffix_refl query) hstart List.nodup_nil h
    exact ⟨args, hquery, h⟩

theorem frisk_qargs_of_taken (htaken : Taken args) (honce : (args.map Arg.qarg).Nodup) :
    ∃ seen, frisk_qargs (joined args) = .ok seen := by
  cases args with
  | nil => exact ⟨_, by rw [frisk_qargs, joined, List.map_nil, List.intercalate_nil, frisk_loop]⟩
  | cons a args => exact frisk_loop_of_taken (List.cons_ne_nil _ _) htaken (fun _ _ => rfl) honce

/-! ### The getters -/

/-- A `memcpy` into a zeroed buffer of this size and the null behind it, or a write past its end. -/
def copy_value (query : Text) (size : ℕ) : Option (ℕ × ℕ) → Option Text
  | none => some (List.replicate size '\x00')
  | some (offset, length) =>
    if length < size then
      some (((query ++ ['\x00']).drop offset).take length ++ List.replicate (size - length) '\x00')
    else none

def get_algo (query : Text) (seen : Offsets) : Option Text :=
  copy_value query 9 (seen .algo)

def get_fnp (query : Text) (seen : Offsets) : Option Text :=
  copy_value query 33 (seen .fnp)

/-- A character of the mask, taken for a hex digit. -/
def mask_digit (c : Char) : UInt8 :=
  if islower c then c.toUInt8 - 97 + 10 else c.toUInt8 - 48

def get_brr_mask (query : Text) (seen : Offsets) : UInt8 :=
  match seen .brr with
  | none => 0
  | some (offset, _) =>
    mask_digit (query.getD offset '\x00') <<< 4 ||| mask_digit (query.getD (offset + 1) '\x00')

/-! ### What a query stands for -/

def Qarg.Admits : Qarg → Text → Prop
  | algo, v => Tag v
  | brr, v => Chars nib2hex 2 2 v
  | fnp, v => Chars graph_set 1 32 v ∧ '&' ∉ v

structure Lists (query : Text) (args : List Arg) : Prop where
  joined : query = joined args
  once : (args.map Arg.qarg).Nodup
  admitted : ∀ a ∈ args, a.qarg.Admits a.value

/-- The value of an argument, empty when it is not in the list. -/
def Given (args : List Arg) (qarg : Qarg) (v : Text) : Prop :=
  ⟨qarg, v⟩ ∈ args ∨ (v = [] ∧ ∀ a ∈ args, a.qarg ≠ qarg)

def hex_number (v : Text) : ℕ :=
  v.foldl (fun n c => 16 * n + nib2hex.idxOf c) 0

/-- A buffer of this size has the value and a null behind it. -/
def Holds (size : ℕ) (v : Text) (buffer : Option Text) : Prop :=
  ∃ b, buffer = some b ∧ b.length = size ∧ v ++ ['\x00'] <+: b

structure Gets (query : Text) (seen : Offsets) (args : List Arg) : Prop where
  algo : ∀ v, Given args .algo v → Holds 9 v (get_algo query seen)
  brr : ∀ v, Given args .brr v → (get_brr_mask query seen).toNat = hex_number v
  fnp : ∀ v, Given args .fnp v → Holds 33 v (get_fnp query seen)

/-- Exactly the lists of arguments are accepted, and of these the getters take out the values. -/
def FrisksRight (query : Text) : Prop :=
  ((∃ seen, frisk_qargs query = .ok seen) ↔ ∃ args, Lists query args) ∧
    ∀ seen args, frisk_qargs query = .ok seen → Lists query args → Gets query seen args

/-- A mask's second digit is a letter. -/
def Arg.SecondLetter (a : Arg) : Prop :=
  a.qarg = .brr → ∀ c d, a.value = [c, d] → ¬ isdigit d

/-- What the frisker and the getters are right about. -/
structure Spared (args : List Arg) : Prop where
  brr : ∀ a ∈ args, a.SecondLetter
  fnp : ∀ v, args.getLast? = some ⟨.fnp, v⟩ → v.length ≠ 32
  algo : ∀ v, args.getLast? = some ⟨.algo, v⟩ → v.length ≠ 8

/-- The last argument is a file name prefix without a character. -/
def EmptyPrefix (query : Text) : Prop :=
  ∃ args, query = joined (args ++ [⟨.fnp, []⟩]) ∧ ((args ++ [⟨.fnp, []⟩]).map Arg.qarg).Nodup ∧
    ∀ a ∈ args, a.qarg.Admits a.value ∧ a.SecondLetter

theorem Qarg.Admits.no_ampersand (h : qarg.Admits v) : '&' ∉ v := by
  cases qarg with
  | algo =>
    obtain ⟨c, w, rfl, hc, hw⟩ := h
    rw [List.mem_cons, not_or]
    constructor
    · rintro rfl
      exact absurd hc (by decide)
    · exact fun hmem => absurd (hw.subset _ hmem) (by decide)
  | brr => exact fun hmem => absurd (h.subset _ hmem) (by decide)
  | fnp => exact h.2

theorem nib2hex_not_digit {d : Char} : d ∈ nib2hex ∧ ¬ isdigit d ↔ between 'a' 'f' d := by
  rw [mem_nib2hex]
  simp only [isdigit, between, Bool.and_eq_true, decide_eq_true_eq]
  constructor
  · rintro ⟨hdigit | hletter, hnot⟩
    · exact absurd hdigit hnot
    · exact hletter
  · intro h
    exact ⟨.inr h, fun hdigit => absurd (Char.le_trans h.1 hdigit.2) (by decide)⟩

theorem takes_brr_iff (last : Prop) : Qarg.brr.Takes last v ↔
    Qarg.brr.Admits v ∧ Arg.SecondLetter ⟨.brr, v⟩ := by
  constructor
  · rintro ⟨c, d, rfl, hc, hd⟩
    obtain ⟨hd, hnot⟩ := nib2hex_not_digit.mpr hd
    refine ⟨⟨by simp [hc, hd], le_rfl, le_rfl⟩, fun _ c' d' heq => ?_⟩
    cases heq
    exact hnot
  · rintro ⟨h, hsecond⟩
    obtain ⟨c, d, rfl⟩ := List.length_eq_two.mp (le_antisymm h.upper h.lower)
    have hd := nib2hex_not_digit.mp ⟨h.subset d (by simp), hsecond rfl c d rfl⟩
    exact ⟨c, d, rfl, h.subset c (by simp), hd⟩

theorem takes_fnp_false_iff : Qarg.fnp.Takes False v ∧ '&' ∉ v ↔ Qarg.fnp.Admits v := by
  have hgraph : (∀ c ∈ v, isgraph c) ↔ ∀ c ∈ v, c ∈ graph_set := by simp only [mem_graph_set, isgraph]
  rw [Qarg.Takes, Qarg.Admits, hgraph]
  constructor
  · rintro ⟨⟨hset, -, hlength⟩, hv⟩
    exact ⟨⟨hset, (hlength not_false).1, (hlength not_false).2⟩, hv⟩
  · rintro ⟨h, hv⟩
    exact ⟨⟨h.subset, False.elim, fun _ => ⟨h.lower, h.upper⟩⟩, hv⟩

theorem takes_fnp_true_iff : Qarg.fnp.Takes True v ∧ '&' ∉ v ↔
    (Qarg.fnp.Admits v ∧ v.length ≠ 32) ∨ v = [] := by
  have hgraph : (∀ c ∈ v, isgraph c) ↔ ∀ c ∈ v, c ∈ graph_set := by simp only [mem_graph_set, isgraph]
  rw [Qarg.Takes, Qarg.Admits, hgraph]
  constructor
  · rintro ⟨⟨hset, hlength, -⟩, hv⟩
    have hle := hlength trivial
    by_cases hnil : v = []
    · exact .inr hnil
    · exact .inl ⟨⟨⟨hset, List.length_pos_iff.mpr hnil, by omega⟩, hv⟩, by omega⟩
  · rintro (⟨⟨h, hv⟩, hne⟩ | rfl)
    · exact ⟨⟨h.subset, fun _ => Nat.le_of_lt_succ (lt_of_le_of_ne h.upper hne),
      fun hnot => absurd trivial hnot⟩, hv⟩
    · simp

theorem takes_false_iff : a.qarg.Takes False a.value ∧ '&' ∉ a.value ↔
    a.qarg.Admits a.value ∧ a.SecondLetter := by
  obtain ⟨k, v⟩ := a
  cases k with
  | algo => exact ⟨fun h => ⟨h.1, nofun⟩, fun h => ⟨h.1, h.1.no_ampersand⟩⟩
  | brr =>
    rw [takes_brr_iff]
    exact ⟨fun h => h.1, fun h => ⟨h, h.1.no_ampersand⟩⟩
  | fnp =>
    rw [takes_fnp_false_iff]
    exact ⟨fun h => ⟨h, nofun⟩, fun h => h.1⟩

theorem takes_true_iff : a.qarg.Takes True a.value ∧ '&' ∉ a.value ↔
    (a.qarg.Admits a.value ∧ a.SecondLetter ∧ (a.qarg = .fnp → a.value.length ≠ 32)) ∨ a = ⟨.fnp, []⟩ := by
  obtain ⟨k, v⟩ := a
  cases k with
  | algo => exact ⟨fun h => .inl ⟨h.1, nofun, nofun⟩, fun h => h.elim (fun h => ⟨h.1,
    h.1.no_ampersand⟩) nofun⟩
  | brr =>
    rw [takes_brr_iff]
    exact ⟨fun h => .inl ⟨h.1.1, h.1.2, nofun⟩, fun h => h.elim (fun h => ⟨⟨h.1, h.2.1⟩,
      h.1.no_ampersand⟩) nofun⟩
  | fnp =>
    rw [takes_fnp_true_iff]
    simp [Arg.SecondLetter]

theorem Taken.secondLetter (h : Taken args) : ∀ a ∈ args, a.SecondLetter := by
  obtain rfl | ⟨args, b, rfl⟩ := List.eq_nil_or_concat args
  · simp
  · rw [List.concat_eq_append] at *
    obtain ⟨hargs, hb⟩ := taken_concat.mp h
    rw [List.forall_mem_append, List.forall_mem_singleton]
    refine ⟨fun a ha => (takes_false_iff.mp (hargs a ha)).2, ?_⟩
    rcases takes_true_iff.mp hb with hb | rfl
    · exact hb.2.1
    · nofun

theorem Taken.last_length (h : Taken args) (hlast : args.getLast? = some ⟨.fnp, v⟩) : v.length ≠ 32 := by
  obtain rfl | ⟨args, b, rfl⟩ := List.eq_nil_or_concat args
  · cases hlast
  · rw [List.concat_eq_append] at *
    rw [List.getLast?_concat, Option.some.injEq] at hlast
    subst hlast
    rcases takes_true_iff.mp (taken_concat.mp h).2 with hb | hb
    · exact hb.2.2 rfl
    · cases hb
      decide

theorem taken_of_lists (h : Lists query args) (hbrr : ∀ a ∈ args, a.SecondLetter)
    (hfnp : ∀ v, args.getLast? = some ⟨.fnp, v⟩ → v.length ≠ 32) : Taken args := by
  obtain rfl | ⟨args, b, rfl⟩ := List.eq_nil_or_concat args
  · trivial
  · rw [List.concat_eq_append] at h hbrr hfnp ⊢
    have hadmitted := h.admitted
    rw [List.forall_mem_append, List.forall_mem_singleton] at hbrr hadmitted
    rw [taken_concat]
    refine ⟨fun a ha => takes_false_iff.mpr ⟨hadmitted.1 a ha, hbrr.1 a ha⟩, takes_true_iff.mpr ?_⟩
    refine .inl ⟨hadmitted.2, hbrr.2, fun hb => hfnp b.value ?_⟩
    rw [List.getLast?_concat, ← hb]

theorem lists_of_taken (hquery : query = joined args) (htaken : Taken args) (honce :
    (args.map Arg.qarg).Nodup)
    (hempty : ¬ EmptyPrefix query) : Lists query args := by
  refine ⟨hquery, honce, ?_⟩
  obtain rfl | ⟨args, b, rfl⟩ := List.eq_nil_or_concat args
  · simp
  · rw [List.concat_eq_append] at *
    obtain ⟨hargs, hb⟩ := taken_concat.mp htaken
    rw [List.forall_mem_append, List.forall_mem_singleton]
    rcases takes_true_iff.mp hb with hb | rfl
    · exact ⟨fun a ha => (takes_false_iff.mp (hargs a ha)).1, hb.1⟩
    · exact absurd ⟨args, hquery, honce, fun a ha => takes_false_iff.mp (hargs a ha)⟩ hempty

theorem holds_copy_none (size : ℕ) (hsize : 0 < size) : Holds size [] (copy_value query size none) := by
  refine ⟨_, rfl, List.length_replicate, ?_⟩
  obtain ⟨n, rfl⟩ := Nat.exists_eq_succ_of_ne_zero hsize.ne'
  exact ⟨List.replicate n '\x00', rfl⟩

theorem holds_copy_iff {pre post : Text} (hquery : query = pre ++ v ++ post) (size : ℕ) :
    Holds size v (copy_value query size (some (pre.length, v.length + if post = [] then 1 else 0))) ↔
      (v.length + if post = [] then 1 else 0) < size := by
  rw [copy_value]
  constructor
  · rintro ⟨b, hb, -⟩
    by_contra hlength
    rw [if_neg hlength] at hb
    cases hb
  · intro hlength
    rw [if_pos hlength]
    have hdrop : (query ++ ['\x00']).drop pre.length = v ++ (post ++ ['\x00']) := by
      rw [hquery, List.append_assoc, List.append_assoc, List.drop_left]
    obtain ⟨n, hn⟩ := Nat.exists_eq_succ_of_ne_zero (Nat.sub_ne_zero_of_lt hlength)
    refine ⟨_, rfl, ?_, ?_⟩
    · rw [hdrop, hn]
      split_ifs at hlength hn with hpost
      · simp [hpost]
        omega
      · simp [hpost]
        omega
    · rw [hdrop, hn, List.take_length_add_append, List.append_assoc]
      rw [List.prefix_append_right_inj]
      split_ifs with hpost
      · rw [hpost]
        exact List.prefix_append _ _
      · exact ⟨List.replicate n '\x00', rfl⟩

theorem points_given (hpoints : Points query seen args True) (honce : (args.map Arg.qarg).Nodup)
    (hgiven : Given args qarg v) : (seen qarg = none ∧ v = []) ∨ ∃ pre post, query = pre ++ v ++ post ∧
      (post = [] ↔ args.getLast? = some ⟨qarg, v⟩) ∧ ⟨qarg, v⟩ ∈ args ∧
      seen qarg = some (pre.length, qarg.length (post = []) v) := by
  rcases hpoints qarg with ⟨hnone, hargs⟩ | ⟨a, ha, rfl, pre, post, hquery, hpost, hsome⟩
  · rcases hgiven with hmem | ⟨hv, -⟩
    · exact absurd rfl (hargs _ hmem)
    · exact .inl ⟨hnone, hv⟩
  · rcases hgiven with hmem | ⟨-, hnot⟩
    · have heq : a = ⟨a.qarg, v⟩ := List.inj_on_of_nodup_map honce ha hmem rfl
      rw [← heq]
      obtain rfl : a.value = v := congrArg Arg.value heq
      exact .inr ⟨pre, post, hquery, by rw [hpost, true_and], ha, hsome⟩
    · exact absurd rfl (hnot a ha)

/-- A value has room in a buffer for the null that ends it, and as the last of a query for two. -/
theorem holds_given_iff (hpoints : Points query seen args True) (honce : (args.map Arg.qarg).Nodup)
    (hgiven : Given args qarg v) (hqarg : qarg ≠ .brr) {size : ℕ} (hsize : 1 < size) :
    Holds size v (copy_value query size (seen qarg)) ↔
      v.length < size ∧ (args.getLast? = some ⟨qarg, v⟩ → v.length + 1 < size) := by
  rcases points_given hpoints honce hgiven with ⟨hnone, rfl⟩ | ⟨pre, post, hquery, hpost, -, hsome⟩
  · rw [hnone]
    have hpos := Nat.zero_lt_of_lt hsize
    exact iff_of_true (holds_copy_none size hpos) ⟨hpos, fun _ => hsize⟩
  · have hlength : qarg.length (post = []) v = v.length + if post = [] then 1 else 0 := by
      cases qarg with
      | algo => rfl
      | brr => exact absurd rfl hqarg
      | fnp => rfl
    rw [hsome, hlength, holds_copy_iff hquery, ← hpost]
    by_cases hnil : post = []
    · simp only [hnil, if_true, forall_const]
      omega
    · simp [hnil]

theorem Lists.length_le (h : Lists query args) (hgiven : Given args qarg v) : v.length ≤ qarg.max_vlen := by
  rcases hgiven with hmem | ⟨rfl, -⟩
  · have hv := h.admitted _ hmem
    cases qarg with
    | algo =>
      obtain ⟨c, w, rfl, -, hw⟩ := hv
      exact Nat.succ_le_succ hw.upper
    | brr => exact hv.upper
    | fnp => exact hv.1.upper
  · exact Nat.zero_le _

theorem mask_digits : ∀ c ∈ nib2hex, ∀ d ∈ nib2hex,
    (mask_digit c <<< 4 ||| mask_digit d).toNat = 16 * nib2hex.idxOf c + nib2hex.idxOf d := by
  decide +kernel

theorem get_brr_mask_eq (hpoints : Points query seen args True) (h : Lists query args)
    (hgiven : Given args .brr v) : (get_brr_mask query seen).toNat = hex_number v := by
  rw [get_brr_mask]
  rcases points_given hpoints h.once hgiven with ⟨hnone, rfl⟩ | ⟨pre, post, hquery, -, hmem, hsome⟩
  · rw [hnone]
    rfl
  · have hv : Qarg.brr.Admits v := h.admitted _ hmem
    obtain ⟨c, d, rfl⟩ := List.length_eq_two.mp (le_antisymm hv.upper hv.lower)
    rw [hsome, hquery]
    have hdigits := mask_digits c (hv.subset c (by simp)) d (hv.subset d (by simp))
    simpa [hex_number] using hdigits

/-- What is wrong: a mask whose second digit is decimal and a last prefix of 32 characters are
refused, a last prefix without a character is accepted, and the null behind a last algorithm of
eight characters is copied along with it. -/
theorem frisks_right_iff (query : Text) :
    FrisksRight query ↔ (∀ args, Lists query args → Spared args) ∧ ¬ EmptyPrefix query := by
  constructor
  · rintro ⟨haccepts, hgets⟩
    have hunique : ∀ {args args'}, Lists query args → query = joined args' → Taken args' → args = args' :=
      fun h hquery htaken => joined_injective (fun a ha =>
        (h.admitted a ha).no_ampersand) htaken.no_ampersand
        (h.joined.symm.trans hquery)
    refine ⟨fun args h => ?_, ?_⟩
    · obtain ⟨seen, hseen⟩ := haccepts.mpr ⟨args, h⟩
      obtain ⟨args', hquery, htaken, honce, hpoints⟩ := frisk_qargs_ok hseen
      obtain rfl := hunique h hquery htaken
      refine ⟨htaken.secondLetter, fun v hlast => htaken.last_length hlast, fun v hlast hlength => ?_⟩
      have hgiven : Given args .algo v := .inl (List.mem_of_getLast? hlast)
      have hholds := (holds_given_iff hpoints honce hgiven nofun (by decide)).mp
        ((hgets seen args hseen h).algo v hgiven)
      have hlong := hholds.2 hlast
      omega
    · rintro ⟨args, hquery, honce, hargs⟩
      have htaken : Taken (args ++ [⟨.fnp, []⟩]) :=
        taken_concat.mpr ⟨fun a ha => takes_false_iff.mpr (hargs a ha), takes_true_iff.mpr (.inr rfl)⟩
      obtain ⟨args', h⟩ := haccepts.mp (hquery ▸ frisk_qargs_of_taken htaken honce)
      have hadmits := hunique h hquery htaken ▸ h.admitted
      exact absurd (hadmits ⟨.fnp, []⟩ (by simp)).1.lower (by decide)
  · rintro ⟨hspared, hempty⟩
    constructor
    · constructor
      · rintro ⟨seen, hseen⟩
        obtain ⟨args, hquery, htaken, honce, -⟩ := frisk_qargs_ok hseen
        exact ⟨args, lists_of_taken hquery htaken honce hempty⟩
      · rintro ⟨args, h⟩
        have hs := hspared args h
        exact h.joined ▸ frisk_qargs_of_taken (taken_of_lists h hs.brr hs.fnp) h.once
    · intro seen args hseen h
      have hs := hspared args h
      obtain ⟨args', hquery, htaken, honce, hpoints⟩ := frisk_qargs_ok hseen
      obtain rfl : args = args' := joined_injective (fun a ha => (h.admitted a ha).no_ampersand)
        htaken.no_ampersand (h.joined.symm.trans hquery)
      refine ⟨?_, fun v hgiven => get_brr_mask_eq hpoints h hgiven, ?_⟩
      · intro v hgiven
        have hlength := h.length_le hgiven
        refine (holds_given_iff hpoints honce hgiven nofun (by decide)).mpr ⟨Nat.lt_succ_of_le hlength, ?_⟩
        exact fun hlast => Nat.succ_lt_succ (lt_of_le_of_ne hlength (hs.algo v hlast))
      · intro v hgiven
        have hlength := h.length_le hgiven
        refine (holds_given_iff hpoints honce hgiven nofun (by decide)).mpr ⟨Nat.lt_succ_of_le hlength, ?_⟩
        exact fun hlast => Nat.succ_lt_succ (lt_of_le_of_ne hlength (hs.fnp v hlast))

/-- A mask with a decimal digit in its second place. -/
theorem decimal_mask_refused : ¬ ∀ query, FrisksRight query := by
  intro h
  have hlists : Lists "brr=10".toList [⟨.brr, "10".toList⟩] := by
    refine ⟨rfl, by decide, ?_⟩
    rw [List.forall_mem_singleton]
    exact ⟨by decide, le_rfl, le_rfl⟩
  obtain ⟨seen, hseen⟩ := (h "brr=10".toList).1.mpr ⟨_, hlists⟩
  have hrefused : frisk_arg "brr=10".toList (fun _ => none) "brr=10".toList = .error (.qae .brr .hex2) :=
    rfl
  rw [frisk_qargs] at hseen
  rcases frisk_loop_ok (by decide) hseen with hlast | ⟨_, _, _, hnext, _⟩
  · rw [hrefused] at hlast
    cases hlast
  · rw [hrefused] at hnext
    cases hnext

end Blobio.QueryArgs
