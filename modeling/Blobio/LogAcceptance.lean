import Blobio.FriskReads
import Mathlib.Data.List.Forall2

/-! Which inputs `bio-frisk-brr` takes for logs of blob request records. -/
namespace Blobio

/-! ### Fields one short of their width -/

/-- A field of a line, counted from its tabs. -/
def field : ℕ → Text → Text
  | 0, l => l.takeWhile (· ≠ '\t')
  | n + 1, l => field n (l.dropWhile (· ≠ '\t')).tail

def tag_of (l : Text) : Text :=
  (field 1 l).takeWhile (· ≠ '~')

def detail_of (l : Text) : Text :=
  ((field 1 l).dropWhile (· ≠ '~')).tail

def sec_of (l : Text) : Text :=
  (field 6 l).takeWhile (· ≠ '.')

/-- Some field of the line is one short of the width that its scanner allows it. -/
def width_slip (l : Text) : Bool :=
  (tag_of l).length = 7 || (detail_of l).length = 127 || (field 5 l).length = 19 ||
    (sec_of l).length = 9

def BrrFields.Slips (b : BrrFields) : Prop :=
  b.tag.length = 7 ∨ b.detail.length = 127 ∨ b.byte_count.length = 19 ∨ b.sec.length = 9

@[simp] theorem field_zero {f : Text} (hf : '\t' ∉ f) (r : Text) : field 0 (f ++ '\t' :: r) = f :=
  takeWhile_ne hf r

@[simp] theorem field_succ {f : Text} (hf : '\t' ∉ f) (n : ℕ) (r : Text) :
    field (n + 1) (f ++ '\t' :: r) = field n r := by
  rw [field, dropWhile_ne hf, List.tail_cons]

/-- Up to a character other than the tab a field is as the text goes on there. -/
theorem field_zero_cut {c : Char} (hc : c ≠ '\t') {f : Text} (htab : '\t' ∉ f) (r : Text) :
    field 0 (f ++ c :: r) = f ++ c :: field 0 r := by
  have hne : ∀ d ∈ f, decide (d ≠ '\t') = true := fun d hd =>
    decide_eq_true fun h : d = '\t' => htab (h ▸ hd)
  rw [field, List.takeWhile_append_of_pos hne, List.takeWhile_cons, if_pos (by simpa using hc)]
  rfl

theorem verb_text_subset (verb : Verb) : ∀ c ∈ verb.text, c ∈ lower_alnum := by
  cases verb <;> decide

/-- The fields have none but the characters of the graph set and of a time stamp. -/
theorem BrrFields.Matches.not_mem_of {b : BrrFields} (hb : b.Matches) {c : Char} (hgraph : c ∉ graph_set)
    (hshapes : (∀ ok ∈ date_shape, ok c = false) ∧ ∀ ok ∈ zone_shape, ok c = false) :
    c ∉ b.start_time ∧ c ∉ b.tag ∧ c ∉ b.detail ∧ c ∉ b.verb.text ∧ c ∉ b.udig ∧ c ∉ b.chat_history ∧
      c ∉ b.byte_count ∧ c ∉ b.sec ∧ c ∉ b.nsec := by
  have hsets : (∀ d ∈ lower_alnum, d ∈ graph_set) ∧ (∀ d ∈ digits, d ∈ graph_set) ∧
      ∀ d ∈ "nok,".toList, d ∈ graph_set := by
    decide +kernel
  have halnum : c ∉ lower_alnum := fun h => hgraph (hsets.1 c h)
  have hdigits : c ∉ digits := fun h => hgraph (hsets.2.1 c h)
  have hchat : c ∉ "nok,".toList := fun h => hgraph (hsets.2.2 c h)
  refine ⟨?_, fun h => halnum (hb.tag.subset _ h), hb.detail.not_mem hgraph, ?_, ?_,
    fun h => hchat ((chat_ok_chars hb.chat_history).2.1 _ h), hb.byte_count.not_mem hdigits,
    hb.sec.not_mem hdigits, hb.nsec.not_mem hdigits⟩
  · obtain ⟨date, fraction, zone, heq, hd, hf, hz⟩ := hb.start_time.parts
    rw [heq, List.mem_append, List.mem_append, not_or, not_or]
    exact ⟨⟨hd.not_mem hshapes.1, hf.not_mem hdigits⟩, hz.not_mem hshapes.2⟩
  · exact fun h => halnum (verb_text_subset b.verb c h)
  · rcases hb.udig with h | h
    · rw [h]
      exact List.not_mem_nil
    · exact fun hmem => hgraph (h.chars.2.2 _ hmem)

theorem BrrFields.Matches.not_mem_line {b : BrrFields} (hb : b.Matches) {c : Char} (hgraph : c ∉ graph_set)
    (hshapes : (∀ ok ∈ date_shape, ok c = false) ∧ ∀ ok ∈ zone_shape, ok c = false)
    (hseparators : c ∉ ['\t', '~', '.']) : c ∉ b.line := by
  obtain ⟨htime, htag, hdetail, hverb, hudig, hchat, hbytes, hsec, hnsec⟩ := hb.not_mem_of hgraph hshapes
  simp only [List.mem_cons, List.not_mem_nil, or_false, not_or] at hseparators
  obtain ⟨htab, htilde, hpoint⟩ := hseparators
  simp [BrrFields.line, htime, htag, hdetail, hverb, hudig, hchat, hbytes, hsec, hnsec, htab, htilde,
    hpoint]

theorem separators_out : ∀ c ∈ ['\t', '\n', '\x00'], c ∉ graph_set ∧
    (∀ ok ∈ date_shape, ok c = false) ∧ ∀ ok ∈ zone_shape, ok c = false := by
  decide +kernel

/-- None of the fields has a character that ends a field, a line or a string. -/
theorem BrrFields.Matches.not_mem {b : BrrFields} (hb : b.Matches) {c : Char} (hc : c ∈ ['\t', '\n',
    '\x00']) :
    c ∉ b.start_time ∧ c ∉ b.tag ∧ c ∉ b.detail ∧ c ∉ b.verb.text ∧ c ∉ b.udig ∧ c ∉ b.chat_history ∧
      c ∉ b.byte_count ∧ c ∉ b.sec ∧ c ∉ b.nsec :=
  hb.not_mem_of (separators_out c hc).1 (separators_out c hc).2

theorem BrrFields.Matches.clean {b : BrrFields} (hb : b.Matches) : Clean b.line := by
  have hline : ∀ c ∈ ['\n', '\x00'], c ∉ b.line := by
    intro c hc
    obtain ⟨hgraph, hshapes⟩ := separators_out c (List.mem_cons_of_mem '\t' hc)
    refine hb.not_mem_line hgraph hshapes ?_
    clear * - hc
    revert c
    decide
  exact ⟨hline _ (by decide), hline _ (by decide)⟩

/-- A character behind the first 256 is in no test of a time stamp. -/
theorem shape_latin {c : Char} (hc : 256 ≤ c.toNat) : (∀ ok ∈ date_shape, ok c = false) ∧
    ∀ ok ∈ zone_shape, ok c = false := by
  have hbetween : ∀ lo hi : Char, hi.toNat < 256 → between lo hi c = false := by
    intro lo hi hhi
    have hlt : ¬ c ≤ hi := by
      intro hle
      have hnat : c.toNat ≤ hi.toNat := UInt32.le_iff_toNat_le.mp hle
      omega
    simp [between, hlt]
  have hne : ∀ d : Char, d.toNat < 256 → c ≠ d := by
    rintro d hd rfl
    omega
  constructor
  · simp [date_shape, isdigit, hbetween, hne]
  · simp [zone_shape, isdigit, hbetween, hne]

theorem BrrFields.Matches.latin {b : BrrFields} (hb : b.Matches) : ∀ c ∈ b.line, c.toNat < 256 := by
  intro c hmem
  by_contra hlt
  have hc : 256 ≤ c.toNat := Nat.le_of_not_lt hlt
  have hsets : (∀ d ∈ graph_set, d.toNat < 256) ∧ ∀ d ∈ ['\t', '~', '.'], d.toNat < 256 := by
    decide +kernel
  exact hb.not_mem_line (fun h => hlt (hsets.1 c h)) (shape_latin hc) (fun h => hlt (hsets.2 c h)) hmem

theorem tag_of_eq {t tag : Text} (ht : '\t' ∉ t) (htab : '\t' ∉ tag) (htilde : '~' ∉ tag) (x : Text) :
    tag_of (t ++ '\t' :: (tag ++ '~' :: x)) = tag := by
  rw [tag_of, field_succ ht, field_zero_cut (by decide) htab, takeWhile_ne htilde]

theorem detail_of_eq {t tag detail : Text} (ht : '\t' ∉ t) (htab : '\t' ∉ tag) (htilde : '~' ∉ tag)
    (hdetail : '\t' ∉ detail) (x : Text) :
    detail_of (t ++ '\t' :: (tag ++ '~' :: (detail ++ '\t' :: x))) = detail := by
  rw [detail_of, field_succ ht, field_zero_cut (by decide) htab, dropWhile_ne htilde, List.tail_cons,
    field_zero hdetail]

section slips
variable {b : BrrFields}

/-- The four fields stand in the line where they are looked for, as long as no earlier
terminator is doubled. -/
theorem width_slip_of_slips (hb : b.Matches) (hslips : b.Slips) (q₁ q₂ q₃ q₄ : Text)
    (h₁ : b.tag.length ≠ 7 → q₁ = []) (h₂ : b.detail.length ≠ 127 → q₂ = [])
    (h₃ : b.byte_count.length ≠ 19 → q₃ = []) :
    width_slip (b.start_time ++ '\t' :: (b.tag ++ '~' :: (q₁ ++ (b.detail ++ '\t' :: (q₂ ++
      (b.verb.text ++ '\t' :: (b.udig ++ '\t' :: (b.chat_history ++ '\t' ::
        (b.byte_count ++ '\t' :: (q₃ ++ (b.sec ++ '.' :: (q₄ ++ b.nsec)))))))))))) = true := by
  obtain ⟨ht, htab, hdetail, hverb, hudig, hchat, hcount, hsec', -⟩ := hb.not_mem (c :=
    '\t') List.mem_cons_self
  have htilde : '~' ∉ b.tag := fun h => absurd (hb.tag.subset _ h) (by decide)
  simp only [width_slip, Bool.or_eq_true, decide_eq_true_eq]
  by_cases htag : b.tag.length = 7
  · rw [tag_of_eq ht htab htilde]
    exact .inl (.inl (.inl htag))
  rw [h₁ htag, List.nil_append]
  by_cases hdet : b.detail.length = 127
  · rw [detail_of_eq ht htab htilde hdetail]
    exact .inl (.inl (.inr hdet))
  rw [h₂ hdet, List.nil_append]
  have htransport : '\t' ∉ b.tag ++ '~' :: b.detail := by
    simp [htab, hdetail]
  have hregroup : ∀ x : Text, b.tag ++ '~' :: (b.detail ++ '\t' :: x) =
      (b.tag ++ '~' :: b.detail) ++ '\t' :: x := by
    intro x
    simp
  rw [hregroup]
  by_cases hlen : b.byte_count.length = 19
  · refine .inl (.inr ?_)
    rw [field_succ ht, field_succ htransport, field_succ hverb, field_succ hudig, field_succ hchat,
      field_zero hcount]
    exact hlen
  · have hsec : b.sec.length = 9 := by
      rcases hslips with h | h | h | h
      · exact absurd h htag
      · exact absurd h hdet
      · exact absurd h hlen
      · exact h
    refine .inr ?_
    rw [h₃ hlen, List.nil_append, sec_of, field_succ ht, field_succ htransport, field_succ hverb,
      field_succ hudig, field_succ hchat, field_succ hcount,
      field_zero_cut (by decide) (hb.sec.not_mem (by decide)), takeWhile_ne (hb.sec.not_mem (by decide))]
    exact hsec

theorem line_width_slip (hb : b.Matches) (hslips : b.Slips) : width_slip b.line = true :=
  width_slip_of_slips hb hslips [] [] [] [] (fun _ => rfl) (fun _ => rfl) (fun _ => rfl)

theorem ending_of_ne {end_fld : Char} {limit : ℕ} {f : Text} (h : f.length + 1 ≠ limit) :
    BrrFields.ending end_fld limit f = [end_fld] :=
  if_neg h

theorem exists_ending (end_fld : Char) (limit : ℕ) (f : Text) :
    ∃ q, BrrFields.ending end_fld limit f = end_fld :: q ∧ (f.length + 1 ≠ limit → q = []) := by
  by_cases h : f.length + 1 = limit
  · exact ⟨[end_fld], if_pos h, fun hne => absurd h hne⟩
  · exact ⟨[], if_neg h, fun _ => rfl⟩

theorem scanned_width_slip (hb : b.Matches) (hslips : b.Slips) : width_slip b.scanned = true := by
  obtain ⟨q₁, he₁, h₁⟩ := exists_ending '~' 8 b.tag
  obtain ⟨q₂, he₂, h₂⟩ := exists_ending '\t' 128 b.detail
  obtain ⟨q₃, he₃, h₃⟩ := exists_ending '\t' 20 b.byte_count
  obtain ⟨q₄, he₄, -⟩ := exists_ending '.' 10 b.sec
  have hslip := width_slip_of_slips hb hslips q₁ q₂ q₃ q₄ (fun h => h₁ (by omega)) (fun h => h₂ (by omega))
    fun h => h₃ (by omega)
  simpa [BrrFields.scanned, he₁, he₂, he₃, he₄] using hslip

theorem scanned_eq_line (hslips : ¬ b.Slips) : b.scanned = b.line := by
  simp only [BrrFields.Slips, not_or] at hslips
  obtain ⟨h₁, h₂, h₃, h₄⟩ := hslips
  rw [BrrFields.scanned, BrrFields.line, ending_of_ne (by omega), ending_of_ne (by omega),
    ending_of_ne (by omega), ending_of_ne (by omega)]
  simp

end slips

/-- The line is one that the scanners read, and fits into the buffer. -/
def Scanned (l : Text) : Prop :=
  l.length < line_size - 1 ∧ ∃ b : BrrFields, b.Matches ∧ l = b.scanned

theorem BrrFields.Matches.length_lt {b : BrrFields} (hb : b.Matches) : b.line.length < line_size - 1 := by
  obtain ⟨date, fraction, zone, ht, hd, hf, hz⟩ := hb.start_time.parts
  have hdate : date.length = 20 := hd.length_eq.symm
  have hzone : zone.length = 6 := hz.length_eq.symm
  have htime : b.start_time.length ≤ 35 := by
    rw [ht, List.length_append, List.length_append]
    have := hf.upper
    omega
  have hverb : b.verb.text.length ≤ 4 := by
    cases b.verb <;> decide
  have hudig : b.udig.length ≤ 137 := by
    rcases hb.udig with h | h
    · simp [h]
    · exact h.chars.2.1
  have hchat : b.chat_history.length ≤ 8 := by
    have := (chat_ok_chars hb.chat_history).2.2
    omega
  have h₁ := hb.tag.length_le
  have h₂ := hb.detail.upper
  have h₃ := hb.byte_count.upper
  have h₄ := hb.sec.upper
  have h₅ := hb.nsec.upper
  simp only [BrrFields.line, List.length_append, List.length_cons, line_size]
  omega

/-- Where no field is one short of its width the lines read are the records. -/
theorem scanned_iff_isRecord {l : Text} (hwidth : width_slip l = false) : Scanned l ↔ IsRecord l := by
  constructor
  · rintro ⟨-, b, hb, rfl⟩
    refine ⟨b, hb, scanned_eq_line fun hslips => ?_⟩
    simp [scanned_width_slip hb hslips] at hwidth
  · rintro ⟨b, hb, rfl⟩
    refine ⟨hb.length_lt, b, hb, (scanned_eq_line fun hslips => ?_).symm⟩
    simp [line_width_slip hb hslips] at hwidth

section lines
variable {frisk_udig : Text → Bool}

theorem in_range_suffix {set p rest : Text} {lower seen left : ℕ}
    (h : in_range set lower seen left p = some rest) : rest <:+ p := by
  induction left generalizing seen p with
  | zero =>
    cases h
    exact List.suffix_refl _
  | succ left ih =>
    cases p with
    | nil => cases h
    | cons c p =>
      rw [in_range] at h
      split at h
      · exact (ih h).trans (List.suffix_cons c p)
      · split at h
        · cases h
        · cases h
          exact List.suffix_refl _

theorem scan_shape_suffix {shape : List (Char → Bool)} {p rest : Text}
    (h : scan_shape shape p = some rest) : rest <:+ p := by
  obtain ⟨f, -, rfl⟩ := scan_shape_eq_some.mp h
  exact List.suffix_append f rest

theorem scan_rfc399nano_suffix {p rest : Text} (h : scan_rfc399nano p = some rest) : rest <:+ p := by
  rw [scan_rfc399nano_eq] at h
  simp only [Option.bind_eq_some_iff] at h
  obtain ⟨p₃, ⟨p₂, ⟨p₁, h₁, h₂⟩, h₃⟩, h₄⟩ := h
  exact (scan_shape_suffix h₄).trans <| (scan_shape_suffix h₃).trans <|
    (in_range_suffix h₂).trans (scan_shape_suffix h₁)

/-- Only a buffer with a new-line in it is accepted: the wall duration ends in one. -/
theorem scan_line_newline (hudig : ChecksUdigs frisk_udig) {line : Text}
    (h : scan_line frisk_udig line = .ok ()) : '\n' ∈ line := by
  unfold scan_line at h
  split at h
  · cases h
  · rename_i verb no_udig is_no p hfields
    split at h
    · cases h
    · split at h
      · rename_i hrest
        have hp : p <:+ line := by
          simp only [scan_fields, Option.bind_eq_bind, Option.bind_eq_some_iff, Prod.exists,
            Option.some.injEq, Prod.mk.injEq, scan_transport_eq_some, scan_verb_eq_some,
            scan_udig_eq_some hudig, scan_chat_history_eq_some] at hfields
          obtain ⟨p₁, h₁, p₂, ⟨tag, detail, -, -, rfl⟩, v, p₃, ⟨-, rfl⟩, b, p₄, ⟨u, -, -, rfl⟩, d, p₅,
            ⟨ch, -, -, rfl⟩, rfl, rfl, rfl, rfl⟩ := hfields
          refine List.IsSuffix.trans ?_ (scan_rfc399nano_suffix h₁)
          refine ⟨tag ++ BrrFields.ending '~' 8 tag ++ (detail ++ BrrFields.ending '\t' 128 detail) ++
            v.text ++ '\t' :: u ++ '\t' :: ch ++ ['\t'], by simp⟩
        obtain ⟨q, hq⟩ := Option.isSome_iff_exists.mp hrest
        obtain ⟨p', hp', hwall⟩ := Option.bind_eq_some_iff.mp hq
        obtain ⟨n, -, -, rfl⟩ := scan_byte_count_eq_some.mp hp'
        have hnewline : '\n' ∈ p' := by
          simp only [scan_wall_duration, Option.bind_eq_bind, Option.bind_eq_some_iff,
            scan_set_eq_some fieldSet_digits_dot (show 0 < 0 + 10 by omega)] at hwall
          obtain ⟨q₁, ⟨sec, -, -, -, rfl⟩, hwall⟩ := hwall
          split at hwall
          · cases hwall
          · obtain ⟨q₂, hq₂, hend⟩ := Option.bind_eq_some_iff.mp hwall
            obtain ⟨c, hc, rfl⟩ := scan_char_eq_some.mp hend
            obtain rfl := of_decide_eq_true hc
            exact List.mem_append_right _ ((in_range_suffix hq₂).subset List.mem_cons_self)
        exact hp.subset (List.mem_append_right _ hnewline)
      · cases h

end lines

/-! ### The lines of the input -/

/-- A line that fits goes into the buffer whole. -/
theorem fgets_all_line {l : Text} (hl : '\n' ∉ l) {room : ℕ} (hroom : l.length < room) (chunk s : Text) :
    fgets_all room chunk (l ++ '\n' :: s) = (chunk ++ l ++ ['\n']) :: fgets_all (line_size - 1) [] s := by
  induction l generalizing room chunk with
  | nil => simp [fgets_all]
  | cons c l ih =>
    rw [List.mem_cons, not_or] at hl
    rw [List.length_cons] at hroom
    rw [List.cons_append, fgets_all, if_neg, ih hl.2 (by omega)]
    · simp
    · rintro (rfl | h)
      · exact hl.1 rfl
      · omega

/-- Of a longer line the buffer gets the front, without a new-line. -/
theorem fgets_all_long {l : Text} (hl : '\n' ∉ l) {room : ℕ} (hpos : 0 < room) (hroom : room ≤ l.length)
    (chunk s : Text) :
    ∃ chunks, fgets_all room chunk (l ++ s) = (chunk ++ l.take room) :: chunks := by
  induction l generalizing room chunk with
  | nil => exact absurd hroom (by simp; omega)
  | cons c l ih =>
    rw [List.mem_cons, not_or] at hl
    rw [List.length_cons] at hroom
    rw [List.cons_append, fgets_all]
    by_cases hone : room = 1
    · subst hone
      refine ⟨fgets_all (line_size - 1) [] (l ++ s), ?_⟩
      simp
    · rw [if_neg (by rintro (rfl | h); exacts [hl.1 rfl, by omega])]
      obtain ⟨chunks, h⟩ := @ih hl.2 (room - 1) (by omega) (by omega) (chunk ++ [c])
      refine ⟨chunks, ?_⟩
      obtain ⟨k, rfl⟩ : ∃ k, room = k + 1 := ⟨room - 1, by omega⟩
      rw [h, List.take_succ_cons]
      simp

/-- An input that ends inside its line. -/
theorem fgets_all_last {l : Text} (hl : '\n' ∉ l) {room : ℕ} (hroom : l.length < room) (chunk : Text)
    (hne : chunk ++ l ≠ []) : fgets_all room chunk l = [chunk ++ l] := by
  induction l generalizing room chunk with
  | nil =>
    rw [List.append_nil] at hne ⊢
    rw [fgets_all, if_neg hne]
  | cons c l ih =>
    rw [List.mem_cons, not_or] at hl
    rw [List.length_cons] at hroom
    rw [fgets_all, if_neg, ih hl.2 (by omega) _ (by simp)]
    · simp
    · rintro (rfl | h)
      · exact hl.1 rfl
      · omega

/-- Behind a line the buffer has no new-line that it had not before. -/
theorem fgets_line_newline {l buffer : Text} {n : ℕ} (hlen : l.length ≤ n)
    (h : '\n' ∉ buffer.drop (n + 1)) : '\n' ∉ (fgets buffer (l ++ ['\n'])).drop (n + 1) := by
  have hsplit : fgets buffer (l ++ ['\n']) =
      (l ++ ['\n']) ++ '\x00' :: buffer.drop (l.length + 2) := by
    simp [fgets]
  rw [hsplit, List.drop_append, List.drop_eq_nil_of_le (by simp; omega), List.nil_append,
    List.length_append,
    List.length_singleton, Nat.add_sub_add_right]
  intro hmem
  apply h
  obtain ⟨k, rfl⟩ := Nat.exists_eq_add_of_le hlen
  rw [Nat.add_sub_cancel_left] at hmem
  cases k with
  | zero =>
    rcases List.mem_cons.mp hmem with h | h
    · cases h
    · exact (List.drop_sublist_drop_left buffer (by omega)).subset h
  | succ k =>
    rw [List.drop_succ_cons, List.drop_drop] at hmem
    rwa [show l.length + (k + 1) + 1 = l.length + 2 + k by omega]

theorem fgets_length {buffer chunk : Text} (hbuffer : buffer.length = line_size)
    (hchunk : chunk.length < line_size) : (fgets buffer chunk).length = line_size := by
  simp [fgets, hbuffer]
  omega

section lines
variable {frisk_udig : Text → Bool}

theorem scan_line_error {line : Text} {e : Exit} (h : scan_line frisk_udig line = .error e) :
    e ≠ .is_brr := by
  unfold scan_line at h
  split at h
  · cases h
    decide
  · split at h
    · cases h
      decide
    · split at h
      · cases h
      · cases h
        decide

theorem frisk_lines_cons {buffer chunk : Text} {chunks : List Text} :
    frisk_lines frisk_udig buffer (chunk :: chunks) = .is_brr ↔
      scan_line frisk_udig (fgets buffer chunk) = .ok () ∧
        frisk_lines frisk_udig (fgets buffer chunk) chunks = .is_brr := by
  rw [frisk_lines]
  cases h : scan_line frisk_udig (fgets buffer chunk) with
  | ok => simp
  | error e => simp [scan_line_error h]

/-- Without a new-line of its own the buffer has none, as long as no earlier line has left
one behind it. -/
theorem frisk_lines_cut (hudig : ChecksUdigs frisk_udig) {buffer chunk : Text} {chunks : List Text}
    (hchunk : '\n' ∉ chunk) (hbuffer : '\n' ∉ buffer.drop (chunk.length + 1)) :
    frisk_lines frisk_udig buffer (chunk :: chunks) ≠ .is_brr := by
  rw [Ne, frisk_lines_cons]
  rintro ⟨h, -⟩
  have hmem : '\n' ∈ chunk ++ '\x00' :: buffer.drop (chunk.length + 1) := scan_line_newline hudig h
  simp [hchunk, hbuffer] at hmem

theorem frisk_lines_long (hudig : ChecksUdigs frisk_udig) {buffer l : Text} (s : Text)
    (hbuffer : buffer.length = line_size) (hl : '\n' ∉ l) (hlen : line_size - 1 ≤ l.length) :
    frisk_lines frisk_udig buffer (fgets_all (line_size - 1) [] (l ++ s)) ≠ .is_brr := by
  obtain ⟨chunks, h⟩ := fgets_all_long hl (by decide) hlen [] s
  have hdrop : buffer.drop ((l.take (line_size - 1)).length + 1) = [] := by
    rw [List.length_take_of_le hlen]
    exact List.drop_eq_nil_of_le (le_of_eq hbuffer)
  rw [h, List.nil_append]
  apply frisk_lines_cut hudig
  · exact fun hmem => hl (List.mem_of_mem_take hmem)
  · rw [hdrop]
    exact List.not_mem_nil

/-- What a run over lines and a cut line makes of them, from any buffer. -/
theorem frisk_lines_iff (hudig : ChecksUdigs frisk_udig) {lines : List Text} {last buffer : Text}
    (hlines : ∀ l ∈ lines, Clean l) (hlast : '\n' ∉ last)
    (hcut : last = [] ∨ ∀ l ∈ lines, l.length ≤ last.length) (hbuffer : buffer.length = line_size)
    (hbehind : last = [] ∨ '\n' ∉ buffer.drop (last.length + 1)) :
    frisk_lines frisk_udig buffer (fgets_all (line_size - 1) [] (lines.flatMap (· ++ ['\n']) ++ last)) =
      .is_brr ↔ last = [] ∧ ∀ l ∈ lines, Scanned l := by
  induction lines generalizing buffer with
  | nil =>
    rw [List.flatMap_nil, List.nil_append]
    by_cases hnil : last = []
    · subst hnil
      simp [fgets_all, frisk_lines]
    · refine iff_of_false ?_ fun h => hnil h.1
      rcases Nat.lt_or_ge last.length (line_size - 1) with hlen | hlen
      · rw [fgets_all_last hlast hlen [] (by simpa using hnil)]
        exact frisk_lines_cut hudig hlast (hbehind.resolve_left hnil)
      · have h := frisk_lines_long hudig [] hbuffer hlast hlen
        rwa [List.append_nil] at h
  | cons l lines ih =>
    have hl := hlines l List.mem_cons_self
    rw [List.flatMap_cons, List.append_assoc, List.append_assoc, List.singleton_append]
    rcases Nat.lt_or_ge l.length (line_size - 1) with hlen | hlen
    · have hline : scan_line frisk_udig (fgets buffer (l ++ ['\n'])) = .ok () ↔ Scanned l := by
        rw [fgets, List.append_assoc, List.singleton_append, scan_line_eq_ok hudig hl]
        exact (and_iff_right hlen).symm
      have hlength : (l ++ ['\n']).length < line_size := by
        rw [List.length_append, List.length_singleton]
        omega
      have hbehind' : last = [] ∨ '\n' ∉ (fgets buffer (l ++ ['\n'])).drop (last.length + 1) := by
        rcases hcut with h | h
        · exact .inl h
        · exact hbehind.imp_right (fgets_line_newline (h l List.mem_cons_self))
      have htail := ih (fun l' hl' => hlines l' (List.mem_cons_of_mem _ hl'))
        (hcut.imp_right fun h l' hl' => h l' (List.mem_cons_of_mem _ hl')) (fgets_length hbuffer hlength)
        hbehind'
      rw [fgets_all_line hl.newline hlen, List.nil_append, frisk_lines_cons, hline, htail,
        List.forall_mem_cons]
      exact and_left_comm
    · refine iff_of_false (frisk_lines_long hudig _ hbuffer hl.newline hlen) ?_
      rintro ⟨-, h⟩
      have := (h l List.mem_cons_self).1
      omega

theorem fgets_all_ne_nil {room : ℕ} {chunk stdin : Text} (h : stdin ≠ [] ∨ chunk ≠ []) :
    fgets_all room chunk stdin ≠ [] := by
  induction stdin generalizing room chunk with
  | nil =>
    rw [fgets_all, if_neg (h.resolve_left (· rfl))]
    exact List.cons_ne_nil _ _
  | cons c stdin ih =>
    rw [fgets_all]
    split
    · exact List.cons_ne_nil _ _
    · exact ih (.inr (by simp))

theorem frisk_main_eq {stdin : Text} (h : stdin ≠ []) : frisk_main frisk_udig stdin =
    frisk_lines frisk_udig (List.replicate line_size '\x00') (fgets_all (line_size - 1) [] stdin) := by
  unfold frisk_main
  split
  · rename_i hnil
    exact absurd hnil (fgets_all_ne_nil (.inl h))
  · rfl

theorem status_eq_zero {e : Exit} : e.status = 0 ↔ e = .is_brr := by
  cases e <;> decide

/-- The program exits 0 just on the nonempty inputs of lines that it reads. -/
theorem frisk_main_iff (hudig : ChecksUdigs frisk_udig) {lines : List Text} {last : Text}
    (hlines : ∀ l ∈ lines, Clean l) (hlast : '\n' ∉ last)
    (hcut : last = [] ∨ ∀ l ∈ lines, l.length ≤ last.length) :
    (frisk_main frisk_udig (lines.flatMap (· ++ ['\n']) ++ last)).status = 0 ↔
      last = [] ∧ lines ≠ [] ∧ ∀ l ∈ lines, Scanned l := by
  rw [status_eq_zero]
  by_cases hempty : lines.flatMap (· ++ ['\n']) ++ last = []
  · rw [hempty]
    refine iff_of_false (show Exit.is_empty ≠ .is_brr by decide) ?_
    rintro ⟨rfl, hne, -⟩
    obtain ⟨l, rest, rfl⟩ := List.exists_cons_of_ne_nil hne
    simp at hempty
  · have hzero : '\n' ∉ (List.replicate line_size '\x00').drop (last.length + 1) := by
      rw [List.drop_replicate]
      exact fun h => absurd (List.eq_of_mem_replicate h) (by decide)
    rw [frisk_main_eq hempty, frisk_lines_iff hudig hlines hlast hcut List.length_replicate (.inr hzero)]
    constructor
    · rintro ⟨rfl, hall⟩
      refine ⟨rfl, ?_, hall⟩
      rintro rfl
      exact hempty rfl
    · rintro ⟨hnil, -, hall⟩
      exact ⟨hnil, hall⟩

/-- The program exits 0 just on the nonempty logs of records, whatever a line before has
left in the buffer. -/
theorem log_accepted (hudig : ChecksUdigs frisk_udig) (lines : List Text) (last : Text)
    (hlines : ∀ l ∈ lines, '\n' ∉ l ∧ '\x00' ∉ l ∧ width_slip l = false) (hlast : '\n' ∉ last)
    (hcut : last = [] ∨ ∀ l ∈ lines, l.length ≤ last.length) :
    ((frisk_main frisk_udig (lines.flatMap (· ++ ['\n']) ++ last)).status = 0 ↔
      last = [] ∧ lines ≠ [] ∧ ∀ l ∈ lines, IsRecord l) ∧
        ∀ l ∈ lines, ∀ buffer : Text,
          scan_line frisk_udig (fgets buffer (l ++ ['\n'])) = .ok () ↔ IsRecord l := by
  have hclean : ∀ l ∈ lines, Clean l := fun l hl => ⟨(hlines l hl).1, (hlines l hl).2.1⟩
  have hscanned : ∀ l ∈ lines, (Scanned l ↔ IsRecord l) :=
    fun l hl => scanned_iff_isRecord (hlines l hl).2.2
  constructor
  · rw [frisk_main_iff hudig hclean hlast hcut, forall₂_congr hscanned]
  · intro l hl buffer
    rw [fgets, List.append_assoc, List.singleton_append, scan_line_eq_ok hudig (hclean l hl),
      ← hscanned l hl]
    constructor
    · rintro ⟨b, hb, rfl⟩
      refine ⟨?_, b, hb, rfl⟩
      rw [scanned_eq_line fun hslips => ?_]
      · exact hb.length_lt
      · simpa [scanned_width_slip hb hslips] using (hlines _ hl).2.2
    · exact fun h => h.2

end lines

/-! ### A check of udigs -/

def tag_ok : Text → Bool
  | [] => false
  | c :: rest => between 'a' 'z' c && rest.all (· ∈ lower_alnum) && rest.length ≤ 7

/-- A check of udigs as the library documents its own. -/
def udig_ok (u : Text) : Bool :=
  ':' ∈ u && tag_ok (u.takeWhile (· ≠ ':')) && (u.dropWhile (· ≠ ':')).tail.all (· ∈ graph_set) &&
    32 ≤ (u.dropWhile (· ≠ ':')).tail.length && (u.dropWhile (· ≠ ':')).tail.length ≤ 128

theorem tag_ok_iff {f : Text} : tag_ok f = true ↔ Tag f := by
  cases f with
  | nil =>
    refine iff_of_false (by decide) ?_
    rintro ⟨c, rest, h, -⟩
    cases h
  | cons c rest =>
    simp only [tag_ok, Bool.and_eq_true, List.all_eq_true, decide_eq_true_eq]
    constructor
    · rintro ⟨⟨hc, hrest⟩, hlen⟩
      exact ⟨c, rest, rfl, hc, hrest, Nat.zero_le _, hlen⟩
    · rintro ⟨c', rest', h, hc, hrest⟩
      obtain ⟨rfl, rfl⟩ := List.cons.inj h
      exact ⟨⟨hc, hrest.subset⟩, hrest.upper⟩

theorem udig_ok_checks : ChecksUdigs udig_ok := by
  intro u _
  simp only [udig_ok, Bool.and_eq_true, List.all_eq_true, decide_eq_true_eq, tag_ok_iff]
  constructor
  · rintro ⟨⟨⟨⟨hcolon, htag⟩, hsub⟩, hlower⟩, hupper⟩
    obtain ⟨algorithm, digest, rfl, hne⟩ := List.eq_append_cons_of_mem hcolon
    rw [takeWhile_ne hne] at htag
    rw [dropWhile_ne hne] at hsub hlower hupper
    exact ⟨algorithm, digest, rfl, htag, hsub, hlower, hupper⟩
  · rintro ⟨algorithm, digest, rfl, htag, hdigest⟩
    have hne : ':' ∉ algorithm := fun h => absurd (htag.subset _ h) (by decide)
    rw [takeWhile_ne hne, dropWhile_ne hne]
    exact ⟨⟨⟨⟨by simp, htag⟩, hdigest.subset⟩, hdigest.lower⟩, hdigest.upper⟩

def get_line : Text :=
  "2024-02-29T23:59:59.000000001+00:00\ttcp4~127.0.0.1:50000;127.0.0.1:1797\tget\tsha:da39a3ee5e6b4b0d3255bfef95601890afd80709\tok\t0\t0.000123456".toList

/-- A record with a longer line. -/
def give_line : Text :=
  "2024-02-29T23:59:58.000000001+00:00\ttcp4~127.0.0.1:50000;127.0.0.1:1797\tgive\tsha:a9993e364706816aba3e25717850c26c9cd0d89d\tok,ok,ok\t3\t0.000123456".toList

-- with the lines as lists of characters: the kernel is slow to take a string apart
set_option maxRecDepth 2000 in
theorem give_get_clean : ∀ l ∈ [give_line, get_line], '\n' ∉ l ∧ '\x00' ∉ l ∧ width_slip l = false := by
  unfold give_line get_line
  rw [String.toList_ofList, String.toList_ofList]
  decide +kernel

set_option maxRecDepth 2000 in
theorem give_get_status : (frisk_main udig_ok ([give_line, get_line].flatMap (· ++ ['\n']) ++ [])).status = 0 := by
  unfold give_line get_line
  rw [String.toList_ofList, String.toList_ofList]
  decide +kernel

theorem get_line_isRecord : IsRecord get_line := by
  have hclean : ∀ l ∈ [give_line, get_line], Clean l := fun l hl =>
    ⟨(give_get_clean l hl).1, (give_get_clean l hl).2.1⟩
  have hget : get_line ∈ [give_line, get_line] := List.mem_cons_of_mem _ List.mem_cons_self
  have hscanned := ((frisk_main_iff udig_ok_checks hclean List.not_mem_nil (.inl rfl)).mp give_get_status).2.2 _ hget
  exact (scanned_iff_isRecord (give_get_clean _ hget).2.2).mp hscanned

/-- A log of two lines, and the second of them behind the first one in the buffer. -/
theorem give_get_accepted : (IsRecord give_line ∧ IsRecord get_line) ∧
    scan_line udig_ok (fgets (fgets [] (give_line ++ ['\n'])) (get_line ++ ['\n'])) = .ok () := by
  obtain ⟨hstatus, hlines⟩ := log_accepted udig_ok_checks [give_line, get_line] [] give_get_clean List.not_mem_nil
    (.inl rfl)
  obtain ⟨-, -, hrecords⟩ := hstatus.mp give_get_status
  have hget : get_line ∈ [give_line, get_line] := List.mem_cons_of_mem _ List.mem_cons_self
  exact ⟨⟨hrecords _ List.mem_cons_self, hrecords _ hget⟩, (hlines _ hget _).mpr (hrecords _ hget)⟩

/-! ### The comment on top of the program -/

/-- `YYYY-MM-DDTHH:MM:SS.` -/
def stamp_shape : List (Char → Bool) :=
  [isdigit, isdigit, isdigit, isdigit, (· = '-'), isdigit, isdigit, (· = '-'), isdigit, isdigit, (· = 'T'),
    isdigit, isdigit, (· = ':'), isdigit, isdigit, (· = ':'), isdigit, isdigit, (· = '.')]

/-- The record grammar of that comment, taken at its word. -/
structure BrrFields.MatchesComment (r : BrrFields) : Prop where
  start_time : ∃ date fraction zone, r.start_time = date ++ fraction ++ zone ∧ Fits stamp_shape date ∧
    Chars digits 1 9 fraction ∧ (Fits zone_shape zone ∨ zone = ['Z'])
  tag : Tag r.tag
  detail : Chars graph_set 1 128 r.detail
  verb : r.verb ≠ .cat
  udig : ∃ c algorithm digest, r.udig = c :: algorithm ++ ':' :: digest ∧ between 'a' 'z' c ∧
    Chars lower_alnum 7 7 algorithm ∧ Chars graph_set 1 128 digest
  chat_history : r.chat_history ∈ ["ok", "no"].map String.toList ∨
    r.chat_history ∈ ["ok,ok", "ok,no"].map String.toList ∧ (r.verb = .give ∨ r.verb = .take) ∨
      r.chat_history ∈ ["ok,ok,ok", "ok,ok,no"].map String.toList ∧ r.verb = .take
  byte_count : Chars digits 1 20 r.byte_count ∧ Nat.ofDigitChars 10 r.byte_count 0 ≤ 2 ^ 63 - 1
  sec : Chars digits 1 10 r.sec ∧ Nat.ofDigitChars 10 r.sec 0 ≤ 2 ^ 31 - 1
  nsec : Chars digits 1 9 r.nsec

/-- A record of a get, in zulu time. -/
def zulu_get : BrrFields where
  start_time := "2024-02-29T23:59:59.000000001Z".toList
  tag := "tcp4".toList
  detail := "127.0.0.1:50000;127.0.0.1:1797".toList
  verb := .get
  udig := "sha12345:da39a3ee5e6b4b0d3255bfef95601890afd80709".toList
  chat_history := "ok".toList
  byte_count := "0".toList
  sec := "0".toList
  nsec := "000123456".toList

/-- The program turns away the zone `Z` that the comment on top of it allows. -/
theorem zulu_get_not_accepted :
    zulu_get.MatchesComment ∧ (frisk_main udig_ok (zulu_get.line ++ ['\n'])).status = 1 := by
  constructor
  · constructor
    case start_time =>
      exact ⟨"2024-02-29T23:59:59.".toList, "000000001".toList, ['Z'], by decide⟩
    case tag => exact ⟨'t', "cp4".toList, by decide⟩
    case udig =>
      exact ⟨'s', "ha12345".toList, "da39a3ee5e6b4b0d3255bfef95601890afd80709".toList, by decide⟩
    all_goals decide
  · decide +kernel

end Blobio
