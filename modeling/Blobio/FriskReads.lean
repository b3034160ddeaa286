import Blobio.RecordGrammar

/-! What the scanners of `bio-frisk-brr` read, field by field, and from that which lines
they read as records. -/
namespace Blobio

namespace BrrFields

/-- A field of `scan_set` that is one short of its widest: the terminator is looked for
once more. -/
def ending (end_fld : Char) (limit : ℕ) (f : Text) : Text :=
  if f.length + 1 = limit then [end_fld, end_fld] else [end_fld]

/-- The line that the scanners read as the record. -/
def scanned (r : BrrFields) : Text :=
  r.start_time ++ '\t' :: (r.tag ++ ending '~' 8 r.tag ++ (r.detail ++ ending '\t' 128 r.detail ++
    (r.verb.text ++ '\t' :: (r.udig ++ '\t' :: (r.chat_history ++ '\t' ::
      (r.byte_count ++ ending '\t' 20 r.byte_count ++ (r.sec ++ ending '.' 10 r.sec ++ r.nsec)))))))

end BrrFields

/-- A line of the buffer: no new-line in it, and no null. -/
structure Clean (l : Text) : Prop where
  newline : '\n' ∉ l
  null : '\x00' ∉ l

/-- On a clean line the scanner takes the texts of a language off its front, whatever
the buffer holds behind the line. -/
def Reads (scan : Text → Option Text) (lang : Text → Prop) : Prop :=
  ∀ l r rest, Clean l → (scan (l ++ '\n' :: r) = some rest ↔
    ∃ f l', lang f ∧ l = f ++ l' ∧ rest = l' ++ '\n' :: r)

theorem Clean.tail {f l : Text} (h : Clean (f ++ l)) : Clean l :=
  ⟨fun hn => h.newline (List.mem_append_right _ hn), fun hn => h.null (List.mem_append_right _ hn)⟩

/-- A text without new-lines at the front of the buffer is a part of the line there. -/
theorem split_line {f rest l r : Text} (hf : '\n' ∉ f) (h : l ++ '\n' :: r = f ++ rest) :
    ∃ l', l = f ++ l' ∧ rest = l' ++ '\n' :: r := by
  rcases List.append_eq_append_iff.mp h with ⟨a, rfl, hrest⟩ | ⟨l', rfl, hrest⟩
  · cases a with
    | nil => exact ⟨[], by simp, by simpa using hrest.symm⟩
    | cons c a =>
      obtain ⟨rfl, -⟩ := List.cons.inj hrest
      simp at hf
  · exact ⟨l', rfl, hrest⟩

/-- From what a scanner takes off any buffer to what it takes off a line. -/
theorem reads_of_forall {scan : Text → Option Text} {lang : Text → Prop}
    (h : ∀ p rest, scan p = some rest ↔ ∃ f, lang f ∧ p = f ++ rest) (hlang : ∀ f, lang f → '\n' ∉ f) :
    Reads scan lang := by
  intro l r rest hl
  rw [h]
  constructor
  · rintro ⟨f, hf, heq⟩
    obtain ⟨l', hl', hrest⟩ := split_line (hlang f hf) heq
    exact ⟨f, l', hf, hl', hrest⟩
  · rintro ⟨f, l', hf, rfl, rfl⟩
    exact ⟨f, hf, by simp⟩

theorem scan_char_eq_some {ok : Char → Bool} {p rest : Text} :
    scan_char ok p = some rest ↔ ∃ c, ok c ∧ p = c :: rest := by
  cases p with
  | nil => simp [scan_char]
  | cons c p =>
    simp only [scan_char, List.cons.injEq]
    split <;> grind

/-- The scan of a text of fixed shape. -/
def scan_shape : List (Char → Bool) → Text → Option Text
  | [], p => some p
  | ok :: shape, p => (scan_char ok p).bind (scan_shape shape)

theorem scan_shape_eq_some {shape : List (Char → Bool)} {p rest : Text} :
    scan_shape shape p = some rest ↔ ∃ f, Fits shape f ∧ p = f ++ rest := by
  induction shape generalizing p with
  | nil =>
    constructor
    · intro h
      exact ⟨[], .nil, by simpa [scan_shape] using h⟩
    · rintro ⟨f, hf, rfl⟩
      cases hf
      rfl
  | cons ok shape ih =>
    simp only [scan_shape, Option.bind_eq_some_iff, scan_char_eq_some, ih]
    constructor
    · rintro ⟨q, ⟨c, hc, rfl⟩, f, hf, rfl⟩
      exact ⟨c :: f, .cons hc hf, rfl⟩
    · rintro ⟨f, hf, rfl⟩
      cases hf with
      | cons hc hf => exact ⟨_, ⟨_, hc, rfl⟩, _, hf, rfl⟩

theorem Fits.not_mem {shape : List (Char → Bool)} {f : Text} (hf : Fits shape f) {c : Char}
    (hok : ∀ ok ∈ shape, ok c = false) : c ∉ f := by
  induction hf with
  | nil => exact List.not_mem_nil
  | cons hc _ ih =>
    rw [List.mem_cons, not_or]
    refine ⟨?_, ih fun ok hmem => hok ok (List.mem_cons_of_mem _ hmem)⟩
    rintro rfl
    simp [hok _ List.mem_cons_self] at hc

theorem reads_scan_shape {shape : List (Char → Bool)} (hok : ∀ ok ∈ shape, ok '\n' = false) :
    Reads (scan_shape shape) (Fits shape) :=
  reads_of_forall (fun _ _ => scan_shape_eq_some) fun _ hf => hf.not_mem hok

theorem mem_digits {c : Char} : c ∈ digits ↔ isdigit c = true := by
  constructor
  · revert c
    decide
  · intro h
    have hn : 48 ≤ c.toNat ∧ c.toNat ≤ 57 := by
      simp only [isdigit, between, Bool.and_eq_true, decide_eq_true_eq] at h
      exact h
    obtain ⟨h₁, h₂⟩ := hn
    rw [← Char.ofNat_toNat c]
    interval_cases c.toNat <;> decide

theorem in_set_digits (n : ℕ) (p : Text) :
    in_set digits n p = scan_shape (List.replicate n isdigit) p := by
  induction n generalizing p with
  | zero => rfl
  | succ n ih =>
    cases p with
    | nil => rfl
    | cons c p =>
      simp only [in_set, List.replicate_succ, scan_shape, scan_char, strchr]
      by_cases hc : isdigit c
      · have hnull : c ≠ '\x00' := by
          rintro rfl
          simp [isdigit, between] at hc
        simp [hc, hnull, mem_digits, ih]
      · simp [hc, mem_digits]

theorem strchr_eq (set : Text) (c : Char) : strchr set c = decide (c ∈ '\x00' :: set) := by
  simp [strchr]

/-- The scan of a run of characters takes all it can on a line, up to the width, and nulls
like the others. -/
theorem in_range_run {set : Text} (hset : '\n' ∉ set) {seen left : ℕ} {l r rest : Text}
    (hl : '\n' ∉ l) :
    in_range set 1 seen left (l ++ '\n' :: r) = some rest ↔
      ∃ f l', (∀ c ∈ f, c ∈ '\x00' :: set) ∧ f.length ≤ left ∧
        (f.length = left ∨ 0 < seen + f.length ∧ ∀ c ∈ l'.head?, c ∉ '\x00' :: set) ∧
          l = f ++ l' ∧ rest = l' ++ '\n' :: r := by
  induction left generalizing seen l with
  | zero =>
    rw [in_range]
    constructor
    · intro h
      exact ⟨[], l, by simp, le_refl 0, .inl rfl, rfl, (Option.some.inj h).symm⟩
    · rintro ⟨f, l', -, hlen, -, rfl, rfl⟩
      rw [List.eq_nil_of_length_eq_zero (Nat.le_zero.mp hlen)]
      rfl
  | succ left ih =>
    cases l with
    | nil =>
      have hstop : strchr set '\n' = false := by simp [strchr, hset]
      simp only [List.nil_append, in_range, hstop, Bool.false_eq_true, if_false]
      constructor
      · intro h
        split at h
        · cases h
        · rename_i hlen
          refine ⟨[], [], by simp, by simp, .inr ⟨?_, by simp⟩, rfl, (Option.some.inj h).symm⟩
          rw [List.length_nil]
          omega
      · rintro ⟨f, l', -, -, hfull, heq, rfl⟩
        obtain ⟨rfl, rfl⟩ := List.append_eq_nil_iff.mp heq.symm
        rcases hfull with hlen | ⟨hpos, -⟩
        · cases hlen
        · rw [List.length_nil] at hpos
          rw [if_neg (by omega)]
          rfl
    | cons c l =>
      have hl' : '\n' ∉ l := fun h => hl (List.mem_cons_of_mem c h)
      simp only [List.cons_append, in_range, strchr_eq, decide_eq_true_eq]
      by_cases hc : c ∈ '\x00' :: set
      · rw [if_pos hc, ih hl']
        constructor
        · rintro ⟨f, l', hf, hlen, hfull, rfl, rfl⟩
          refine ⟨c :: f, l', List.forall_mem_cons.mpr ⟨hc, hf⟩, by simpa using hlen, ?_, rfl, rfl⟩
          rw [List.length_cons]
          rcases hfull with hfull | ⟨-, hstop⟩
          · exact .inl (by omega)
          · exact .inr ⟨by omega, hstop⟩
        · rintro ⟨f, l', hf, hlen, hfull, heq, rfl⟩
          cases f with
          | nil =>
            rcases hfull with hfull | ⟨-, hstop⟩
            · cases hfull
            · rw [List.nil_append] at heq
              exact absurd hc (hstop c (by simp [← heq]))
          | cons d f =>
            obtain ⟨rfl, rfl⟩ := List.cons.inj heq
            rw [List.length_cons] at hlen hfull
            refine ⟨f, l', fun x hx => hf x (List.mem_cons_of_mem _ hx), by omega, ?_, rfl, rfl⟩
            rcases hfull with hfull | ⟨-, hstop⟩
            · exact .inl (by omega)
            · exact .inr ⟨by omega, hstop⟩
      · rw [if_neg hc]
        constructor
        · intro h
          split at h
          · cases h
          · rename_i hlen
            refine ⟨[], c :: l, by simp, by simp, .inr ⟨?_, fun d hd => Option.some.inj hd ▸ hc⟩, rfl,
              (Option.some.inj h).symm⟩
            rw [List.length_nil]
            omega
        · rintro ⟨f, l', hf, -, hfull, heq, rfl⟩
          cases f with
          | nil =>
            rcases hfull with hfull | ⟨hpos, -⟩
            · cases hfull
            · rw [List.length_nil] at hpos
              rw [List.nil_append] at heq
              rw [if_neg (by omega), ← heq]
              rfl
          | cons d f =>
            obtain ⟨rfl, -⟩ := List.cons.inj heq
            exact absurd (hf c List.mem_cons_self) hc

theorem in_range_line {set : Text} (hset : '\n' ∉ set) {seen left : ℕ} {l r rest : Text}
    (hl : Clean l) :
    in_range set 1 seen left (l ++ '\n' :: r) = some rest ↔
      ∃ f l', (∀ c ∈ f, c ∈ set) ∧ f.length ≤ left ∧
        (f.length = left ∨ 0 < seen + f.length ∧ ∀ c ∈ l'.head?, c ∉ set) ∧
          l = f ++ l' ∧ rest = l' ++ '\n' :: r := by
  have hmem : ∀ c ∈ l, (c ∈ '\x00' :: set ↔ c ∈ set) := by
    intro c hc
    rw [List.mem_cons, or_iff_right]
    rintro rfl
    exact hl.null hc
  rw [in_range_run hset hl.newline]
  constructor
  · rintro ⟨f, l', hf, hlen, hfull, rfl, rfl⟩
    refine ⟨f, l', fun c hc => (hmem c (List.mem_append_left _ hc)).mp (hf c hc), hlen,
      hfull.imp_right fun h => ⟨h.1, fun c hc hset => h.2 c hc (List.mem_cons_of_mem _ hset)⟩, rfl, rfl⟩
  · rintro ⟨f, l', hf, hlen, hfull, rfl, rfl⟩
    refine ⟨f, l', fun c hc => List.mem_cons_of_mem _ (hf c hc), hlen, hfull.imp_right fun h => ⟨h.1, ?_⟩,
      rfl, rfl⟩
    intro c hc
    rw [hmem c (List.mem_append_right _ (List.mem_of_mem_head? hc))]
    exact h.2 c hc

/-- The set of a field holds ASCII characters, not the null and not the terminator. -/
def FieldSet (set : Text) (end_fld : Char) : Prop :=
  ∀ c ∈ set, c ≠ end_fld ∧ c ≠ '\x00' ∧ c.toNat ≤ 127

/-- What a field of `scan_set` is, and what its terminator is at each width. -/
theorem scan_set_eq_some {set : Text} {end_fld : Char} (hset : FieldSet set end_fld) {seen left : ℕ}
    (hpos : 0 < seen + left) {p rest : Text} :
    scan_set set end_fld seen left p = some rest ↔
      ∃ f, (∀ c ∈ f, c ∈ set) ∧ f.length ≤ left ∧ 0 < seen + f.length ∧
        p = f ++ BrrFields.ending end_fld left f ++ rest := by
  induction left generalizing seen p with
  | zero =>
    simp only [scan_set, scan_end, scan_char_eq_some, decide_eq_true_eq]
    constructor
    · rintro ⟨c, rfl, rfl⟩
      exact ⟨[], by simp, le_refl 0, hpos, rfl⟩
    · rintro ⟨f, -, hlen, -, rfl⟩
      rw [List.eq_nil_of_length_eq_zero (Nat.le_zero.mp hlen)]
      exact ⟨end_fld, rfl, rfl⟩
  | succ left ih =>
    have hend : end_fld ∉ set := fun h => (hset end_fld h).1 rfl
    cases p with
    | nil =>
      refine iff_of_false (by simp [scan_set]) ?_
      rintro ⟨f, -, -, -, heq⟩
      unfold BrrFields.ending at heq
      split at heq <;> simp at heq
    | cons c p =>
      by_cases hc : c ∈ set
      · obtain ⟨hne, hnull, hascii⟩ := hset c hc
        have hstep : scan_set set end_fld seen (left + 1) (c :: p) =
            scan_set set end_fld (seen + 1) left p := by
          simp [scan_set, hne, hnull, hascii, strchr, hc]
        have hending : ∀ f, BrrFields.ending end_fld (left + 1) (c :: f) =
            BrrFields.ending end_fld left f := by
          intro f
          simp [BrrFields.ending]
        rw [hstep, ih (by omega)]
        constructor
        · rintro ⟨f, hf, hlen, -, rfl⟩
          exact ⟨c :: f, by simpa [hc] using hf, by simpa using hlen, by simp,
            by rw [hending, List.cons_append, List.cons_append]⟩
        · rintro ⟨f, hf, hlen, hseen, heq⟩
          cases f with
          | nil =>
            -- the terminator is not in the set
            refine absurd hc ?_
            have hhead : c = end_fld := by
              unfold BrrFields.ending at heq
              split at heq <;> exact (List.cons.inj heq).1
            rw [hhead]
            exact hend
          | cons d f =>
            obtain ⟨rfl, heq⟩ := List.cons.inj heq
            rw [hending] at heq
            exact ⟨f, fun x hx => hf x (List.mem_cons_of_mem _ hx), by simpa using hlen, by omega, heq⟩
      · have hnil : (∃ f, (∀ x ∈ f, x ∈ set) ∧ f.length ≤ left + 1 ∧ 0 < seen + f.length ∧
            c :: p = f ++ BrrFields.ending end_fld (left + 1) f ++ rest) ↔
            0 < seen ∧ c :: p = BrrFields.ending end_fld (left + 1) [] ++ rest := by
          constructor
          · rintro ⟨f, hf, -, hseen, heq⟩
            cases f with
            | nil => exact ⟨hseen, heq⟩
            | cons d f =>
              obtain ⟨rfl, -⟩ := List.cons.inj heq
              exact absurd (hf c List.mem_cons_self) hc
          · rintro ⟨hseen, heq⟩
            exact ⟨[], by simp, by simp, hseen, heq⟩
        rw [hnil]
        by_cases hce : c = end_fld
        · subst hce
          simp only [scan_set, if_true, BrrFields.ending, List.length_nil, Nat.zero_add]
          by_cases hseen : seen = 0
          · simp [hseen]
          · by_cases hleft : left = 0
            · subst hleft
              simp [hseen, Nat.pos_of_ne_zero hseen, scan_end, scan_char_eq_some]
            · simp [hseen, Nat.pos_of_ne_zero hseen, hleft]
        · have hnone : scan_set set end_fld seen (left + 1) (c :: p) = none := by
            rw [scan_set, if_neg hce, if_pos]
            by_cases hnull : c = '\x00' <;> simp [strchr, hc, hnull]
          rw [hnone]
          refine iff_of_false (by simp) ?_
          rintro ⟨-, heq⟩
          unfold BrrFields.ending at heq
          split at heq <;> exact hce (List.cons.inj heq).1

/-! ### The fields -/

theorem fieldSet_lower_alnum : FieldSet lower_alnum '~' := by
  unfold FieldSet
  decide

theorem fieldSet_graph_set : FieldSet graph_set '\t' := by
  unfold FieldSet
  decide

theorem fieldSet_nok : FieldSet "nok,".toList '\t' := by
  unfold FieldSet
  decide

theorem fieldSet_digits_tab : FieldSet digits '\t' := by
  unfold FieldSet
  decide

theorem fieldSet_digits_dot : FieldSet digits '.' := by
  unfold FieldSet
  decide

theorem scan_chars_eq_some {w p rest : Text} : scan_chars w p = some rest ↔ p = w ++ rest := by
  induction w generalizing p with
  | nil => simp [scan_chars]
  | cons c w ih => simp [scan_chars, Option.bind_eq_some_iff, scan_char_eq_some, ih]

theorem Fits.singleton {ok : Char → Bool} {f : Text} : Fits [ok] f ↔ ∃ c, ok c ∧ f = [c] := by
  constructor
  · rintro (_ | ⟨hc, hnil⟩)
    cases hnil
    exact ⟨_, hc, rfl⟩
  · rintro ⟨c, hc, rfl⟩
    exact .cons hc .nil

theorem scan_rfc399nano_eq (p : Text) :
    scan_rfc399nano p = (((scan_shape date_shape p).bind (in_range digits 1 0 9)).bind
      (scan_shape zone_shape)).bind (scan_shape [fun c => c = '\t']) := by
  simp [scan_rfc399nano, scan_shape, date_shape, zone_shape, in_set_digits, isdigit,
    List.replicate, Option.bind_assoc, Option.bind_eq_bind]

/-- The start time and its tab. -/
theorem reads_start_time : Reads scan_rfc399nano fun f => ∃ t, StartTime t ∧ f = t ++ ['\t'] := by
  have hdate : ∀ ok ∈ date_shape, ok '\n' = false := by decide
  have hzone : ∀ ok ∈ zone_shape, ok '\n' = false := by decide
  have htab : ∀ ok ∈ ([fun c => c = '\t'] : List (Char → Bool)), ok '\n' = false := by decide
  intro l r rest hl
  simp only [scan_rfc399nano_eq, Option.bind_eq_some_iff]
  constructor
  · rintro ⟨p, ⟨q, ⟨o, ho, hq⟩, hp⟩, hrest⟩
    obtain ⟨date, l₁, hd, rfl, rfl⟩ := (reads_scan_shape hdate l r o hl).mp ho
    obtain ⟨fraction, l₂, hf, hlen, hfull, rfl, rfl⟩ := (in_range_line (by decide) hl.tail).mp hq
    obtain ⟨zone, l₃, hz, rfl, rfl⟩ := (reads_scan_shape hzone l₂ r p hl.tail.tail).mp hp
    obtain ⟨tab, l₄, ht, rfl, rfl⟩ := (reads_scan_shape htab l₃ r rest hl.tail.tail.tail).mp hrest
    obtain ⟨c, hc, rfl⟩ := Fits.singleton.mp ht
    simp only [decide_eq_true_eq] at hc
    subst hc
    refine ⟨date ++ fraction ++ zone ++ ['\t'], l₄, ⟨_, ⟨date, fraction, zone, rfl, hd, ?_, hz⟩, rfl⟩,
      by simp, rfl⟩
    exact ⟨hf, by omega, hlen⟩
  · rintro ⟨f, l', ⟨t, ⟨date, fraction, zone, rfl, hd, hf, hz⟩, rfl⟩, rfl, rfl⟩
    have hstop : ∀ c ∈ (zone ++ '\t' :: l').head?, c ∉ digits := by
      rcases hz with _ | ⟨hc, hz⟩
      intro c hc'
      cases hc'
      simp only [Bool.or_eq_true, decide_eq_true_eq] at hc
      rcases hc with rfl | rfl <;> decide
    have hl' : Clean (fraction ++ (zone ++ '\t' :: l')) := by
      simp only [List.append_assoc] at hl
      exact hl.tail
    have h₁ : scan_shape date_shape (date ++ fraction ++ zone ++ ['\t'] ++ l' ++ '\n' :: r) =
        some (fraction ++ (zone ++ '\t' :: l') ++ '\n' :: r) :=
      scan_shape_eq_some.mpr ⟨date, hd, by simp⟩
    have h₂ : in_range digits 1 0 9 (fraction ++ (zone ++ '\t' :: l') ++ '\n' :: r) =
        some (zone ++ '\t' :: l' ++ '\n' :: r) :=
      (in_range_line (by decide) hl').mpr ⟨fraction, zone ++ '\t' :: l', hf.subset, hf.upper,
        .inr ⟨Nat.lt_of_lt_of_le Nat.zero_lt_one (by simpa using hf.lower), hstop⟩, rfl, rfl⟩
    have h₃ : scan_shape zone_shape (zone ++ '\t' :: l' ++ '\n' :: r) =
        some ('\t' :: l' ++ '\n' :: r) :=
      scan_shape_eq_some.mpr ⟨zone, hz, by simp⟩
    exact ⟨_, ⟨_, ⟨_, h₁, h₂⟩, h₃⟩, rfl⟩

theorem scan_start_time {t l r : Text} (ht : StartTime t) (hl : Clean (t ++ '\t' :: l)) :
    scan_rfc399nano (t ++ '\t' :: l ++ '\n' :: r) = some (l ++ '\n' :: r) :=
  (reads_start_time _ r _ hl).mpr ⟨t ++ ['\t'], l, ⟨t, ht, rfl⟩, by simp, rfl⟩

/-- The part of a tag after its first character, and the tilde. -/
theorem scan_tag_eq_some {p rest : Text} : scan_tag p = some rest ↔
    ∃ f, Chars lower_alnum 0 7 f ∧ p = f ++ BrrFields.ending '~' 7 f ++ rest := by
  unfold scan_tag
  by_cases htilde : p.head? = some '~'
  · rw [if_pos htilde]
    obtain ⟨q, rfl⟩ : ∃ q, p = '~' :: q := List.head?_eq_some_iff.mp htilde
    constructor
    · intro h
      exact ⟨[], ⟨by simp, by simp, by simp⟩, by simpa [BrrFields.ending] using h⟩
    · rintro ⟨f, hf, heq⟩
      cases f with
      | nil => simpa [BrrFields.ending] using heq
      | cons c f =>
        obtain ⟨rfl, -⟩ := List.cons.inj heq
        exact absurd (hf.subset '~' List.mem_cons_self) (by decide)
  · rw [if_neg htilde, scan_set_eq_some fieldSet_lower_alnum (by omega)]
    constructor
    · rintro ⟨f, hf, hlen, -, heq⟩
      exact ⟨f, ⟨hf, Nat.zero_le _, hlen⟩, heq⟩
    · rintro ⟨f, hf, rfl⟩
      refine ⟨f, hf.subset, hf.upper, ?_, rfl⟩
      cases f with
      | nil => simp [BrrFields.ending] at htilde
      | cons c f => simp

theorem scan_transport_eq_some {p rest : Text} :
    scan_transport p = some rest ↔ ∃ tag detail, Tag tag ∧ Chars graph_set 1 128 detail ∧
      p = tag ++ BrrFields.ending '~' 8 tag ++ (detail ++ BrrFields.ending '\t' 128 detail) ++ rest := by
  simp only [scan_transport, Option.bind_eq_bind, Option.bind_eq_some_iff, scan_char_eq_some,
    scan_tag_eq_some, scan_set_eq_some fieldSet_graph_set (show 0 < 0 + 128 by omega)]
  have hending : ∀ (c : Char) (f : Text),
      BrrFields.ending '~' 8 (c :: f) = BrrFields.ending '~' 7 f := by
    intro c f
    simp [BrrFields.ending]
  constructor
  · rintro ⟨q, ⟨c, hc, rfl⟩, q', ⟨f, hf, rfl⟩, detail, hd, hupper, hlower, rfl⟩
    exact ⟨c :: f, detail, ⟨c, f, rfl, hc, hf⟩, ⟨hd, by omega, hupper⟩, by simp [hending]⟩
  · rintro ⟨tag, detail, ⟨c, f, rfl, hc, hf⟩, hd, rfl⟩
    have hlower := hd.lower
    rw [hending]
    refine ⟨f ++ BrrFields.ending '~' 7 f ++ (detail ++ BrrFields.ending '\t' 128 detail) ++ rest,
      ⟨c, hc, rfl⟩, detail ++ BrrFields.ending '\t' 128 detail ++ rest, ⟨f, hf, by simp⟩, ?_⟩
    exact ⟨detail, hd.subset, hd.upper, by omega, rfl⟩

theorem scan_verb_eq_some {p rest : Text} {verb : Verb} :
    scan_verb p = some (verb, rest) ↔ verb ≠ .cat ∧ p = verb.text ++ '\t' :: rest := by
  constructor
  · intro h
    simp only [scan_verb, Option.bind_eq_bind, Option.bind_eq_some_iff, scan_chars_eq_some,
      Option.some.injEq, Prod.mk.injEq] at h
    obtain ⟨v, hv, q, hq, rfl, rfl⟩ := h
    refine ⟨?_, by simpa using hq⟩
    rintro rfl
    unfold verb_at at hv
    split at hv <;> cases hv
  · rintro ⟨hcat, rfl⟩
    have hchars : ∀ v : Verb, scan_chars (v.text ++ ['\t']) (v.text ++ '\t' :: rest) = some rest :=
      fun v => scan_chars_eq_some.mpr (by simp)
    cases verb with
    | cat => exact absurd rfl hcat
    | get => exact congrArg (Option.map (Verb.get, ·)) (hchars .get)
    | put => exact congrArg (Option.map (Verb.put, ·)) (hchars .put)
    | give => exact congrArg (Option.map (Verb.give, ·)) (hchars .give)
    | take => exact congrArg (Option.map (Verb.take, ·)) (hchars .take)
    | eat => exact congrArg (Option.map (Verb.eat, ·)) (hchars .eat)
    | wrap => exact congrArg (Option.map (Verb.wrap, ·)) (hchars .wrap)
    | roll => exact congrArg (Option.map (Verb.roll, ·)) (hchars .roll)

theorem strchr_tab_eq_some {p u rest : Text} :
    strchr_tab p = some (u, rest) ↔ '\t' ∉ u ∧ '\x00' ∉ u ∧ p = u ++ '\t' :: rest := by
  induction p generalizing u with
  | nil => simp [strchr_tab]
  | cons c p ih =>
    by_cases htab : c = '\t'
    · subst htab
      simp only [strchr_tab, if_true, Option.some.injEq, Prod.mk.injEq]
      constructor
      · rintro ⟨rfl, rfl⟩
        simp
      · rintro ⟨hu, -, heq⟩
        cases u with
        | nil => exact ⟨rfl, (List.cons.inj heq).2⟩
        | cons d u =>
          obtain ⟨rfl, -⟩ := List.cons.inj heq
          exact absurd List.mem_cons_self hu
    · by_cases hnull : c = '\x00'
      · subst hnull
        refine iff_of_false (by simp [strchr_tab]) ?_
        rintro ⟨-, hu, heq⟩
        cases u with
        | nil => exact absurd (List.cons.inj heq).1 (by decide)
        | cons d u =>
          obtain ⟨rfl, -⟩ := List.cons.inj heq
          exact absurd List.mem_cons_self hu
      · rw [strchr_tab, if_neg htab, if_neg hnull, Option.map_eq_some_iff]
        constructor
        · rintro ⟨⟨u', rest'⟩, h, heq⟩
          cases heq
          obtain ⟨hu, hu', rfl⟩ := ih.mp h
          exact ⟨by simp [Ne.symm htab, hu], by simp [Ne.symm hnull, hu'], rfl⟩
        · rintro ⟨hu, hu', heq⟩
          cases u with
          | nil => exact absurd (List.cons.inj heq).1 htab
          | cons d u =>
            obtain ⟨rfl, rfl⟩ := List.cons.inj heq
            rw [List.mem_cons, not_or] at hu hu'
            exact ⟨(u, rest), ih.mpr ⟨hu.2, hu'.2, rfl⟩, rfl⟩

/-- The library's check of a udig does what its documentation says. -/
def ChecksUdigs (frisk_udig : Text → Bool) : Prop :=
  ∀ u, '\x00' ∉ u → (frisk_udig u = true ↔ UdigSyntax u)

theorem Tag.subset {f : Text} (hf : Tag f) : ∀ c ∈ f, c ∈ lower_alnum := by
  obtain ⟨c, rest, rfl, hc, hrest⟩ := hf.parts
  have hfirst : c ∈ lower_alnum := by
    simp only [between, Bool.and_eq_true, decide_eq_true_eq] at hc
    have hn : 97 ≤ c.toNat ∧ c.toNat ≤ 122 := hc
    obtain ⟨h₁, h₂⟩ := hn
    rw [← Char.ofNat_toNat c]
    interval_cases c.toNat <;> decide
  exact List.forall_mem_cons.mpr ⟨hfirst, hrest.subset⟩

theorem Tag.length_le {f : Text} (hf : Tag f) : f.length ≤ 8 := by
  obtain ⟨c, rest, rfl, hc, hrest⟩ := hf.parts
  exact Nat.succ_le_succ hrest.upper

theorem UdigSyntax.chars {u : Text} (h : UdigSyntax u) :
    34 ≤ u.length ∧ u.length ≤ 137 ∧ ∀ c ∈ u, c ∈ graph_set := by
  obtain ⟨algorithm, digest, rfl, halgorithm, hdigest⟩ := h.parts
  have hsub : ∀ c ∈ lower_alnum, c ∈ graph_set := by decide
  have hne : 0 < algorithm.length := by
    obtain ⟨c, rest, rfl, -, -⟩ := halgorithm.parts
    simp
  have h₁ := halgorithm.length_le
  have h₂ := hdigest.lower
  have h₃ := hdigest.upper
  refine ⟨by simp; omega, by simp; omega, fun d hd => ?_⟩
  rcases List.mem_append.mp hd with hd | hd
  · exact hsub d (halgorithm.subset d hd)
  · rcases List.mem_cons.mp hd with rfl | hd
    · decide
    · exact hdigest.subset d hd

theorem scan_udig_eq_some {frisk_udig : Text → Bool} (hudig : ChecksUdigs frisk_udig) {p rest : Text}
    {no_udig : Bool} : scan_udig frisk_udig p = some (no_udig, rest) ↔
      ∃ u, (u = [] ∨ UdigSyntax u) ∧ (no_udig = true ↔ u = []) ∧ p = u ++ '\t' :: rest := by
  simp only [scan_udig, Option.bind_eq_bind, Option.bind_eq_some_iff, Prod.exists, strchr_tab_eq_some]
  constructor
  · rintro ⟨u, q, ⟨htab, hnull, rfl⟩, h⟩
    split at h
    · cases h
      exact ⟨[], .inl rfl, by simp, by simp_all⟩
    · rename_i hne
      split at h
      · cases h
      · rename_i hcheck
        cases h
        simp only [Bool.or_eq_true, not_or, Bool.not_eq_true', Bool.not_eq_false] at hcheck
        exact ⟨u, .inr ((hudig u hnull).mp hcheck.2), by simp [hne], rfl⟩
  · rintro ⟨u, hu, hempty, rfl⟩
    rcases hu with rfl | hu
    · exact ⟨[], rest, by simp, by simp [hempty.mpr rfl]⟩
    · obtain ⟨hlower, hupper, hgraph⟩ := hu.chars
      have hnull : '\x00' ∉ u := fun h => absurd (hgraph _ h) (by decide)
      have htab : '\t' ∉ u := fun h => absurd (hgraph _ h) (by decide)
      have hne : u ≠ [] := by
        rintro rfl
        simp at hlower
      have hfalse : no_udig = false := by simpa [hne] using hempty
      refine ⟨u, rest, ⟨htab, hnull, rfl⟩, ?_⟩
      rw [if_neg hne, if_neg, hfalse]
      simp [(hudig u hnull).mpr hu, hlower, hupper]

theorem chat_ok_mem {verb : Verb} {ch : Text} (h : chat_ok verb ch) :
    ch ∈ ["no", "ok", "ok,ok", "ok,no", "ok,ok,ok", "ok,ok,no"].map String.toList := by
  simp only [chat_ok, Bool.or_eq_true, Bool.and_eq_true, decide_eq_true_eq] at h
  rcases h with ((rfl | ⟨rfl, -⟩) | ⟨rfl | rfl, -⟩) | ⟨rfl | rfl, -⟩ <;> decide

theorem chat_ok_chars {verb : Verb} {ch : Text} (h : chat_ok verb ch) :
    ch.getLast? ≠ some '\t' ∧ (∀ c ∈ ch, c ∈ "nok,".toList) ∧
      (ch.length = 2 ∨ ch.length = 5 ∨ ch.length = 8) := by
  have hall : ∀ ch ∈ ["no", "ok", "ok,ok", "ok,no", "ok,ok,ok", "ok,ok,no"].map String.toList,
      ch.getLast? ≠ some '\t' ∧ (∀ c ∈ ch, c ∈ "nok,".toList) ∧
        (ch.length = 2 ∨ ch.length = 5 ∨ ch.length = 8) := by
    decide
  exact hall ch (chat_ok_mem h)

theorem scan_chat_history_eq_some {verb : Verb} {p rest : Text} {is_no : Bool} :
    scan_chat_history verb p = some (is_no, rest) ↔ ∃ ch, chat_ok verb ch ∧
      is_no = decide (ch.getLast? = some 'o') ∧ p = ch ++ '\t' :: rest := by
  simp only [scan_chat_history, Option.bind_eq_bind, Option.bind_eq_some_iff,
    scan_set_eq_some fieldSet_nok (show 0 < 0 + 8 by omega)]
  have htake : ∀ (ch q : Text) (c : Char),
      (ch ++ c :: q).take ((ch ++ c :: q).length - q.length - 1) = ch := by
    intro ch q c
    rw [show (ch ++ c :: q).length - q.length - 1 = ch.length by simp; omega, List.take_left]
  constructor
  · rintro ⟨q, ⟨f, hf, hlen, hpos, rfl⟩, h⟩
    obtain ⟨ch, c, hch, hend⟩ : ∃ ch c, f ++ BrrFields.ending '\t' 8 f ++ q = ch ++ c :: q ∧
        (c = '\t' ∧ ch = f ∨ ch.getLast? = some '\t') := by
      unfold BrrFields.ending
      split
      · exact ⟨f ++ ['\t'], '\t', by simp, .inr (by simp)⟩
      · exact ⟨f, '\t', by simp, .inl ⟨rfl, rfl⟩⟩
    rw [hch, htake] at h
    split at h
    · cases h
    · split at h
      · rename_i hok
        cases h
        rcases hend with ⟨rfl, rfl⟩ | hlast
        · exact ⟨ch, hok, rfl, hch⟩
        · exact absurd hlast (chat_ok_chars hok).1
      · cases h
  · rintro ⟨ch, hok, rfl, rfl⟩
    obtain ⟨-, hset, hlen⟩ := chat_ok_chars hok
    refine ⟨rest, ⟨ch, hset, by omega, by omega, ?_⟩, ?_⟩
    · have hending : BrrFields.ending '\t' 8 ch = ['\t'] := if_neg (by omega)
      simp [hending]
    · rw [htake, if_neg (by omega), if_pos hok]

theorem strtoll_field {f rest : Text} {end_fld : Char} {limit : ℕ} (hf : ∀ c ∈ f, c ∈ digits)
    (hend : end_fld.isDigit = false) :
    strtoll (f ++ BrrFields.ending end_fld limit f ++ rest) = Nat.ofDigitChars 10 f 0 := by
  have hdigit : ∀ c ∈ digits, c.isDigit = true := by decide
  obtain ⟨q, hq⟩ : ∃ q, BrrFields.ending end_fld limit f ++ rest = end_fld :: q := by
    unfold BrrFields.ending
    split
    · exact ⟨end_fld :: rest, rfl⟩
    · exact ⟨rest, rfl⟩
  rw [List.append_assoc, hq, strtoll, List.takeWhile_append_of_pos fun c h => hdigit c (hf c h),
    List.takeWhile_cons, hend]
  simp

theorem scan_byte_count_eq_some {p rest : Text} : scan_byte_count p = some rest ↔
    ∃ f, Chars digits 1 20 f ∧ Nat.ofDigitChars 10 f 0 ≤ 2 ^ 63 - 1 ∧
      p = f ++ BrrFields.ending '\t' 20 f ++ rest := by
  simp only [scan_byte_count, Option.bind_eq_bind, Option.bind_eq_some_iff,
    scan_set_eq_some fieldSet_digits_tab (show 0 < 0 + 20 by omega)]
  constructor
  · rintro ⟨q, ⟨f, hf, hlen, hpos, rfl⟩, h⟩
    rw [strtoll_field hf rfl] at h
    split at h
    · cases h
    · rename_i hle
      cases h
      exact ⟨f, ⟨hf, by omega, hlen⟩, Nat.le_of_not_lt hle, rfl⟩
  · rintro ⟨f, hf, hle, rfl⟩
    have hlower := hf.lower
    refine ⟨rest, ⟨f, hf.subset, hf.upper, by omega, rfl⟩, ?_⟩
    rw [strtoll_field hf.subset rfl, if_neg (Nat.not_lt.mpr hle)]

/-- The wall duration ends the line. -/
theorem scan_wall_duration_line {l r rest : Text} (hl : Clean l) :
    scan_wall_duration (l ++ '\n' :: r) = some rest ↔
      ∃ sec nsec, Chars digits 1 10 sec ∧ Nat.ofDigitChars 10 sec 0 ≤ 2147483647 ∧
        Chars digits 1 9 nsec ∧ l = sec ++ BrrFields.ending '.' 10 sec ++ nsec ∧ rest = r := by
  simp only [scan_wall_duration, Option.bind_eq_bind, Option.bind_eq_some_iff,
    scan_set_eq_some fieldSet_digits_dot (show 0 < 0 + 10 by omega)]
  constructor
  · rintro ⟨q, ⟨sec, hsec, hlen, hpos, heq⟩, h⟩
    rw [heq, strtoll_field hsec rfl] at h
    split at h
    · cases h
    · rename_i hle
      obtain ⟨p, hp, hrest⟩ := Option.bind_eq_some_iff.mp h
      have hnl : '\n' ∉ sec ++ BrrFields.ending '.' 10 sec := by
        intro hmem
        rcases List.mem_append.mp hmem with hmem | hmem
        · exact absurd (hsec _ hmem) (by decide)
        · unfold BrrFields.ending at hmem
          split at hmem <;> simp at hmem
      obtain ⟨l', rfl, rfl⟩ := split_line hnl heq
      obtain ⟨nsec, l'', hn, hlen', hfull, rfl, rfl⟩ := (in_range_line (by decide) hl.tail).mp hp
      obtain ⟨c, hc, heq'⟩ := scan_char_eq_some.mp hrest
      cases l'' with
      | nil =>
        obtain ⟨-, rfl⟩ := List.cons.inj heq'
        exact ⟨sec, nsec, ⟨hsec, by omega, hlen⟩, Nat.le_of_not_lt hle, ⟨hn, by omega, hlen'⟩, by simp,
          rfl⟩
      | cons d l'' =>
        obtain ⟨rfl, -⟩ := List.cons.inj heq'
        simp only [decide_eq_true_eq] at hc
        subst hc
        refine absurd ?_ hl.newline
        simp
  · rintro ⟨sec, nsec, hsec, hle, hn, rfl, rfl⟩
    have hlower := hsec.lower
    have hlower' := hn.lower
    refine ⟨nsec ++ '\n' :: rest, ⟨sec, hsec.subset, hsec.upper, by omega, by simp⟩, ?_⟩
    rw [List.append_assoc, strtoll_field hsec.subset rfl, if_neg (Nat.not_lt.mpr hle),
      Option.bind_eq_some_iff]
    refine ⟨'\n' :: rest, ?_, rfl⟩
    exact (in_range_line (by decide) hl.tail).mpr ⟨nsec, [], hn.subset, hn.upper,
      .inr ⟨by omega, by simp⟩, by simp, rfl⟩

/-! ### The lines -/

section lines
variable {frisk_udig : Text → Bool}

theorem Chars.not_mem {set f : Text} {lower upper : ℕ} (hf : Chars set lower upper f) {c : Char}
    (hset : c ∉ set) : c ∉ f :=
  fun h => hset (hf.subset _ h)

theorem ending_newline {end_fld : Char} {limit : ℕ} {f : Text} (hend : '\n' ≠ end_fld) :
    '\n' ∉ BrrFields.ending end_fld limit f := by
  unfold BrrFields.ending
  split <;> simp [hend]

/-- What the fields before the byte count leave of a line. -/
theorem scan_fields_line (hudig : ChecksUdigs frisk_udig) {l r p : Text} (hl : Clean l) {verb : Verb}
    {no_udig is_no : Bool} :
    scan_fields frisk_udig (l ++ '\n' :: r) = some (verb, no_udig, is_no, p) ↔
      ∃ t tag detail u ch l', StartTime t ∧ Tag tag ∧ Chars graph_set 1 128 detail ∧ verb ≠ .cat ∧
        (u = [] ∨ UdigSyntax u) ∧ (no_udig = true ↔ u = []) ∧ chat_ok verb ch ∧
        is_no = decide (ch.getLast? = some 'o') ∧
        l = t ++ '\t' :: (tag ++ BrrFields.ending '~' 8 tag ++
          (detail ++ BrrFields.ending '\t' 128 detail ++ (verb.text ++ '\t' :: (u ++ '\t' ::
            (ch ++ '\t' :: l'))))) ∧ p = l' ++ '\n' :: r := by
  simp only [scan_fields, Option.bind_eq_bind, Option.bind_eq_some_iff, Prod.exists,
    Option.some.injEq, Prod.mk.injEq, scan_transport_eq_some, scan_verb_eq_some,
    scan_udig_eq_some hudig, scan_chat_history_eq_some]
  constructor
  · rintro ⟨p₁, h₁, p₂, ⟨tag, detail, htag, hdetail, rfl⟩, verb, p₃, ⟨hverb, rfl⟩, no_udig, p₄,
      ⟨u, hu, hempty, rfl⟩, is_no, p₅, ⟨ch, hch, hno, rfl⟩, rfl, rfl, rfl, rfl⟩
    obtain ⟨f, l₁, ⟨t, ht, rfl⟩, rfl, heq⟩ := (reads_start_time l r _ hl).mp h₁
    have hnl : '\n' ∉ tag ++ BrrFields.ending '~' 8 tag ++
        (detail ++ BrrFields.ending '\t' 128 detail ++ (verb.text ++ '\t' :: (u ++ '\t' ::
          (ch ++ ['\t'])))) := by
      have htag' : '\n' ∉ tag := fun h => absurd (htag.subset _ h) (by decide)
      have hverb' : '\n' ∉ verb.text := by cases verb <;> decide
      have hu' : '\n' ∉ u := by
        rcases hu with rfl | hu
        · simp
        · exact fun h => absurd (hu.chars.2.2 _ h) (by decide)
      have hch' : '\n' ∉ ch := fun h => absurd ((chat_ok_chars hch).2.1 _ h) (by decide)
      simp [htag', hdetail.not_mem (show '\n' ∉ graph_set by decide), hverb', hu', hch',
        ending_newline (show '\n' ≠ '~' by decide), ending_newline (show '\n' ≠ '\t' by decide)]
    obtain ⟨l', rfl, hrest⟩ := split_line hnl (show l₁ ++ '\n' :: r = _ ++ p₅ by simp [← heq])
    exact ⟨t, tag, detail, u, ch, l', ht, htag, hdetail, hverb, hu, hempty, hch, hno, by simp, hrest⟩
  · rintro ⟨t, tag, detail, u, ch, l', ht, htag, hdetail, hverb, hu, hempty, hch, hno, rfl, rfl⟩
    refine ⟨_, scan_start_time ht hl, _, ⟨tag, detail, htag, hdetail, by simp⟩, verb, _,
      ⟨hverb, rfl⟩, no_udig, _, ⟨u, hu, hempty, rfl⟩, is_no, _, ⟨ch, hch, hno, rfl⟩, rfl, rfl, rfl, rfl⟩

/-- A line is read as a record just when it is one with its odd terminators. -/
theorem scan_line_eq_ok (hudig : ChecksUdigs frisk_udig) {l r : Text} (hl : Clean l) :
    scan_line frisk_udig (l ++ '\n' :: r) = .ok () ↔ ∃ b : BrrFields, b.Matches ∧ l = b.scanned := by
  constructor
  · intro h
    unfold scan_line at h
    split at h
    · cases h
    · rename_i verb no_udig is_no p hfields
      obtain ⟨t, tag, detail, u, ch, l', ht, htag, hdetail, hverb, hu, hempty, hch, rfl, rfl, rfl⟩ :=
        (scan_fields_line hudig hl).mp hfields
      split at h
      · cases h
      · rename_i hwrapped
        split at h
        · rename_i hrest
          obtain ⟨q, hq⟩ := Option.isSome_iff_exists.mp hrest
          obtain ⟨p, hp, hwall⟩ := Option.bind_eq_some_iff.mp hq
          obtain ⟨n, hn, hle, heq⟩ := scan_byte_count_eq_some.mp hp
          have hnl : '\n' ∉ n ++ BrrFields.ending '\t' 20 n := by
            simp [hn.not_mem (show '\n' ∉ digits by decide), ending_newline]
          obtain ⟨l'', rfl, rfl⟩ := split_line hnl heq
          have hl'' : Clean l'' :=
            ⟨fun h => hl.newline (by simp [h]), fun h => hl.null (by simp [h])⟩
          obtain ⟨sec, nsec, hsec, hsec', hnsec, rfl, -⟩ := (scan_wall_duration_line hl'').mp hwall
          refine ⟨⟨t, tag, detail, verb, u, ch, n, sec, nsec⟩,
            ⟨ht, htag, hdetail, hverb, hu, hch, ?_, hn, hle, hsec, hsec', hnsec⟩, ?_⟩
          · intro hv
            rw [← hempty, Bool.eq_iff_iff.mp (not_not.mp fun hne => hwrapped ⟨hv, hne⟩),
              decide_eq_true_eq]
          · simp [BrrFields.scanned]
        · cases h
  · rintro ⟨b, hb, rfl⟩
    have hfields : scan_fields frisk_udig (b.scanned ++ '\n' :: r) = some (b.verb, decide (b.udig = []),
        decide (b.chat_history.getLast? = some 'o'),
          b.byte_count ++ BrrFields.ending '\t' 20 b.byte_count ++
          (b.sec ++ BrrFields.ending '.' 10 b.sec ++ b.nsec) ++ '\n' :: r) :=
            (scan_fields_line hudig hl).mpr
      ⟨b.start_time, b.tag, b.detail, b.udig, b.chat_history, _, hb.start_time, hb.tag, hb.detail,
        hb.verb, hb.udig, by simp, hb.chat_history, rfl, by simp [BrrFields.scanned], rfl⟩
    have hwall : Clean (b.sec ++ BrrFields.ending '.' 10 b.sec ++ b.nsec) := by
      refine ⟨fun h => hl.newline ?_, fun h => hl.null ?_⟩
      all_goals
        simp only [BrrFields.scanned, List.mem_append, List.mem_cons] at h ⊢
        tauto
    unfold scan_line
    rw [hfields]
    dsimp only
    rw [if_neg, if_pos]
    · have hcount : scan_byte_count (b.byte_count ++ BrrFields.ending '\t' 20 b.byte_count ++
          (b.sec ++ BrrFields.ending '.' 10 b.sec ++ b.nsec) ++ '\n' :: r) =
            some (b.sec ++ BrrFields.ending '.' 10 b.sec ++ b.nsec ++ '\n' :: r) :=
        scan_byte_count_eq_some.mpr ⟨b.byte_count, hb.byte_count, hb.byte_count_le, by simp⟩
      rw [hcount, Option.bind_some, (scan_wall_duration_line hwall).mpr ⟨b.sec, b.nsec, hb.sec,
        hb.sec_le, hb.nsec, rfl, rfl⟩]
      rfl
    · rintro ⟨hv, hne⟩
      exact hne (decide_eq_decide.mpr (hb.wrapped hv))

end lines

end Blobio
