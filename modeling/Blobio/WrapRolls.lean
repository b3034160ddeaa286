import Blobio.RollBlobs

/-! A wrap and the rolls behind it: the blob of a wrap is parsed into the set that it was made from,
and a roll of it removes the logs of that set. -/
namespace Blobio.WrapRolls
open BlobSets RequestChild RollBlobs TerminatedLines WrapSets

/-! ### A roll -/

def unlink (entries : List Dirent) (name : Text) : List Dirent :=
  entries.filter (·.d_name ≠ name)

def bytes (t : Text) : Bytes :=
  t.map Char.toUInt8

/-- What the loop over the directory leaves there. -/
def roll_logs (installed : Installed) (udig_set : HashSet) (entries : List Dirent) : List Dirent :=
  entries.foldl (fun left dp =>
    match WrapSets.wrapped_udig installed dp with
    | none => left
    | some udig =>
      if blob_set_exists udig_set (bytes udig) udig.length ≠ 0 then unlink left dp.d_name else left) entries

/-- The reply and the directory behind it. The blob is none where the store does not have it. Behind
a panic there is no reply, and behind a write outside of the blob, which is freed next, nothing is
known. -/
def roll (installed : Installed) (blob : Option Bytes) (entries : List Dirent) :
    Except Stop Reply × List Dirent :=
  match blob with
  | none => (.ok .no, entries)
  | some [] => (.ok .ok, entries)
  | some blob =>
    match blob2udig_set blob with
    | .error .croak => (.ok .no, entries)
    | .error stop => (.error stop, entries)
    | .ok (udig_set, _) => (.ok .ok, roll_logs installed udig_set entries)

section rolls
variable {installed : Installed} {blob : Bytes} {entries : List Dirent}

theorem roll_of_parsed {uset aset : HashSet} (hne : blob ≠ []) (h : blob2udig_set blob = .ok (uset, aset)) :
    roll installed (some blob) entries = (.ok .ok, roll_logs installed uset entries) := by
  cases blob with
  | nil => exact absurd rfl hne
  | cons c blob => simp only [roll, h]

theorem roll_of_croak (hne : blob ≠ []) (h : blob2udig_set blob = .error .croak) :
    roll installed (some blob) entries = (.ok .no, entries) := by
  cases blob with
  | nil => exact absurd rfl hne
  | cons c blob => simp only [roll, h]

theorem roll_of_overrun (hne : blob ≠ []) (h : blob2udig_set blob = .error .overrun) :
    roll installed (some blob) entries = (.error .overrun, entries) := by
  cases blob with
  | nil => exact absurd rfl hne
  | cons c blob => simp only [roll, h]

/-- A blob of lines that are no set is refused as long as it is more than the length of a digest that
makes it none, and the line that is there already is not the last. -/
theorem roll_refuses_lines {lines : List Bytes} (hne : lines ≠ []) (hlines : ∀ l ∈ lines, 10 ∉ l)
    (h : ¬ WellFormed (chars (terminated 10 lines))) :
    roll installed (some (terminated 10 lines)) entries = (.ok .no, entries) ↔
      ¬ Overlooked (chars (terminated 10 lines)) ∧ ¬ RepeatsAtEnd (chars (terminated 10 lines)) := by
  have hnil : terminated 10 lines ≠ [] := by
    intro hnil
    have hlast : (terminated 10 lines).getLast? = some 10 := getLast?_terminated hne
    rw [hnil] at hlast
    cases hlast
  rcases blob2udig_set_cases hne hlines with ⟨⟨hnodup, hreads⟩, -, uset, aset, hparse, -⟩ |
    ⟨hnot, ⟨hrepeats, hparse⟩ | ⟨hrepeats, hparse⟩⟩
  · rw [roll_of_parsed hnil hparse]
    refine iff_of_false nofun fun hno => hno.1 ?_
    refine ⟨lines.map chars, chars_terminated lines, hnodup, hreads, ?_⟩
    by_contra hlengths
    push Not at hlengths
    refine h ⟨lines.map chars, chars_terminated lines, hnodup, fun l hl => ?_⟩
    obtain ⟨a, d, hread⟩ := hreads l hl
    exact ⟨a, d, hread.udigLine (hlengths l hl a d hread)⟩
  · rw [roll_of_overrun hnil hparse]
    exact iff_of_false nofun fun hno => hno.2 hrepeats
  · rw [roll_of_croak hnil hparse]
    refine iff_of_true rfl ⟨?_, hrepeats⟩
    rintro ⟨lines', heq, hnodup, hreads, -⟩
    rw [chars_terminated] at heq
    cases terminated_injective (chars_no_newline hlines) (not_newline_of_reads hreads) heq
    exact hnot ⟨hnodup, hreads⟩

theorem roll_refuses_iff (h : ¬ WellFormed (chars blob)) :
    roll installed (some blob) entries = (.ok .no, entries) ↔
      ¬ Overlooked (chars blob) ∧ ¬ RepeatsAtEnd (chars blob) := by
  by_cases hlast : blob.getLast? = some 10
  · obtain ⟨lines, hne, hlines, rfl⟩ := exists_terminated hlast
    exact roll_refuses_lines hne hlines h
  · have hne : blob ≠ [] := by
      rintro rfl
      exact h ⟨[], rfl, List.nodup_nil, nofun⟩
    have hcroak : blob2udig_set blob = .error .croak := by
      rw [blob2udig_set, if_neg hne, if_pos hlast]
    rw [roll_of_croak hne hcroak]
    refine iff_of_true rfl ⟨?_, ?_⟩
    · rintro ⟨lines, heq, -, -, l, hl, -⟩
      exact hlast (last_of_lines (List.ne_nil_of_mem hl) heq)
    · rintro ⟨init, l, heq, -⟩
      exact hlast (last_of_lines (List.append_ne_nil_of_right_ne_nil _ (List.cons_ne_nil _ _)) heq)

end rolls

/-! ### A roll of a wrap -/

section wraps
variable {installed : Installed} {dir : SpoolWrap}

theorem chars_bytes {t : Text} (h : ∀ c ∈ t, c.toNat < 256) : chars (bytes t) = t := by
  rw [chars, bytes, List.map_map]
  conv_rhs => rw [← List.map_id t]
  refine List.map_congr_left fun c hc => ?_
  have hbyte : c.toUInt8.toNat = c.toNat := Nat.mod_eq_of_lt (h c hc)
  rw [Function.comp_apply, char_of, hbyte, Char.ofNat_toNat, id]

theorem text_latin (u : Udig) : ∀ c ∈ u.text, c.toNat < 256 := by
  have hname : ∀ c ∈ u.algorithm.name, c.toNat < 256 := by
    cases u.algorithm <;> decide
  have hhex : ∀ c ∈ nib2hex, c.toNat < 256 := by decide
  rw [Udig.text, List.forall_mem_append, List.forall_mem_cons]
  exact ⟨hname, by decide, fun c hc => hhex c (u.digest.hex_chars c hc)⟩

theorem bytes_terminated (lines : List Text) : bytes (terminated '\n' lines) = terminated 10 (lines.map bytes) := by
  induction lines with
  | nil => rfl
  | cons l lines ih =>
    rw [terminated_cons, List.map_cons, terminated_cons, bytes, List.map_append, List.map_append]
    exact congrArg _ ih

/-- The udigs in their bytes. -/
def udig_bytes (u : Udig) : Bytes :=
  bytes u.text

theorem chars_udig_bytes (u : Udig) : chars (udig_bytes u) = u.text :=
  chars_bytes (text_latin u)

theorem udig_bytes_injective : Function.Injective udig_bytes := by
  intro u v h
  exact Udig.text_injective (by rw [← chars_udig_bytes, h, chars_udig_bytes])

theorem not_newline_udig_bytes (u : Udig) : 10 ∉ udig_bytes u := by
  rw [← newline_mem_chars, chars_udig_bytes]
  have hread := readAs_text u
  rw [hread.text]
  exact not_newline_of_graphic hread.graphic hread.graphic_digest

/-- A list of udigs is parsed into the set of them. -/
theorem blob2udig_set_of_udigs {us : List Udig} (hne : us ≠ []) (hnodup : us.Nodup) :
    ∃ uset aset, blob2udig_set (bytes (terminated '\n' (us.map Udig.text))) = .ok (uset, aset) ∧
      uset.Represents (us.map udig_bytes) := by
  have hlines : ∀ l ∈ us.map udig_bytes, 10 ∉ l :=
    List.forall_mem_map.mpr fun u _ => not_newline_udig_bytes u
  have htexts : (us.map udig_bytes).map chars = us.map Udig.text := by
    rw [List.map_map]
    exact List.map_congr_left fun u _ => chars_udig_bytes u
  have hreads : ∀ l ∈ us.map Udig.text, ∃ a d, ReadAs l a d :=
    List.forall_mem_map.mpr fun u _ => ⟨_, _, readAs_text u⟩
  have hdistinct : (us.map Udig.text).Nodup := hnodup.map fun _ _ h => Udig.text_injective h
  have hblob : bytes (terminated '\n' (us.map Udig.text)) = terminated 10 (us.map udig_bytes) := by
    rw [bytes_terminated, List.map_map]
    rfl
  rw [hblob]
  rcases blob2udig_set_cases (List.map_eq_nil_iff.not.mpr hne) hlines with ⟨-, -, hparse⟩ | ⟨hnot, -⟩
  · exact hparse
  · rw [htexts] at hnot
    exact absurd ⟨hdistinct, hreads⟩ hnot

/-- Each log of the set goes, and nothing else. -/
theorem roll_logs_eq {us : List Udig} {uset : HashSet} (hset : uset.Represents (us.map udig_bytes))
    (hus : ∀ u ∈ us, u.algorithm ∈ installed.modules) :
    roll_logs installed uset dir.entries = dir.entries.filter (· ∉ us.map log_entry) := by
  have hexists : ∀ u : Udig, blob_set_exists uset (bytes u.text) u.text.length ≠ 0 ↔ u ∈ us := by
    intro u
    have hmem : udig_bytes u ∈ us.map udig_bytes ↔ u ∈ us := List.mem_map_of_injective udig_bytes_injective
    have hexists := exists_iff hset (udig_bytes u)
    have hlength : (udig_bytes u).length = u.text.length := List.length_map _
    rw [hlength] at hexists
    rw [← hmem]
    change blob_set_exists uset (udig_bytes u) u.text.length ≠ 0 ↔ _
    rw [hexists]
    split
    · exact iff_of_true one_ne_zero ‹_›
    · exact iff_of_false (not_not.mpr rfl) ‹_›
  have hloop : ∀ entries left : List Dirent, entries.foldl (fun left dp =>
      match WrapSets.wrapped_udig installed dp with
      | none => left
      | some udig =>
        if blob_set_exists uset (bytes udig) udig.length ≠ 0 then unlink left dp.d_name else left) left =
      left.filter fun e => ∀ dp ∈ entries, dp ∈ us.map log_entry → e.d_name ≠ dp.d_name := by
    intro entries
    induction entries with
    | nil =>
      intro left
      simp
    | cons dp entries ih =>
      intro left
      have hstep : (match WrapSets.wrapped_udig installed dp with
          | none => left
          | some udig =>
            if blob_set_exists uset (bytes udig) udig.length ≠ 0 then unlink left dp.d_name else left) =
          left.filter fun e => dp ∈ us.map log_entry → e.d_name ≠ dp.d_name := by
        by_cases hdp : dp ∈ us.map log_entry
        · obtain ⟨u, hu, rfl⟩ := List.mem_map.mp hdp
          rw [wrapped_udig_eq_some.mpr ⟨u, hus u hu, rfl, rfl⟩]
          simp only [if_pos ((hexists u).mpr hu), hdp, forall_const, unlink]
        · cases h : WrapSets.wrapped_udig installed dp with
          | none => simp [hdp]
          | some t =>
            obtain ⟨u, -, rfl, rfl⟩ := wrapped_udig_eq_some.mp h
            have hu : u ∉ us := fun hu => hdp (List.mem_map_of_mem hu)
            simp only [if_neg (mt (hexists u).mp hu), hdp, false_imp_iff, decide_true, List.filter_true]
      rw [List.foldl_cons, hstep, ih, List.filter_filter]
      refine List.filter_congr fun e _ => ?_
      simp [and_comm]
  rw [roll_logs, hloop]
  refine List.filter_congr fun e he => decide_eq_decide.mpr ?_
  constructor
  · intro h hmem
    exact h e he hmem rfl
  · intro h dp hdp hmem hname
    rw [List.inj_on_of_nodup_map dir.nodup_names he hdp hname] at h
    exact h hmem

end wraps

section examples

/-- The empty log under the udigs of two modules, and a file that is no log. -/
def two_logs : SpoolWrap where
  entries := [⟨".".toList, .other⟩, ⟨"..".toList, .other⟩, log_entry ⟨.bc160, DigestModule.bc160.empty⟩,
    ⟨"sha:.brr".toList, .DT_REG⟩, log_entry empty_log]
  nodup_names := by decide +kernel

/-- The udig of a log, and one with a digest of 129 characters. -/
def long_digest : Text :=
  terminated '\n' [empty_log.text, "sha:".toList ++ List.replicate 129 'a']

theorem long_digest_overlooked : Overlooked long_digest := by
  have hlong : ReadAs ("sha:".toList ++ List.replicate 129 'a') "sha".toList (List.replicate 129 'a') :=
    ⟨rfl, ⟨'s', "ha".toList, by decide⟩, by decide, by decide, fun c hc => by
      rw [List.eq_of_mem_replicate hc]
      decide⟩
  refine ⟨_, rfl, by decide +kernel, ?_, _, List.mem_cons_of_mem _ List.mem_cons_self, _, _, hlong, ?_⟩
  · intro l hl
    rcases List.mem_pair.mp hl with rfl | rfl
    · exact ⟨_, _, readAs_text empty_log⟩
    · exact ⟨_, _, hlong⟩
  · right
    rw [List.length_replicate]
    decide

end examples

end Blobio.WrapRolls
