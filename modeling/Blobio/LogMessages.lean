import Blobio.CharArrays
import Blobio.FsHistories

/-! The messages of the server's log: the five functions that join the parts of a message in a
buffer. -/
namespace Blobio.LogMessages
open CharArrays
open FsService (Library)

/-- The concatenation of the library. Of a null pointer nothing is copied, if the call comes back. -/
structure Strcat where
  lib : Library
  survives_null : Bool

/-- `msg && *msg` -/
def given (msg : Option CString) : Option CString :=
  msg.filter (·.val ≠ [])

def separator : CString := ⟨": ".toList, by decide⟩

section calls
variable (cat : Strcat) (buf : List Char) (buf_size : ℕ) (msg1 msg2 msg3 msg4 : Option CString)

/-- The target must hold a string. -/
def jmscott_strcat (src : Option CString) : Option (List Char) :=
  match src with
  | none => if cat.survives_null then some buf else none
  | some s => (strlen buf).bind fun _ => write buf 0 (cat.lib.strcat buf_size (text buf) s.val ++ [null])

/-- `strncat(buf, s, buf_size - (strlen(buf) + 1))` -/
def strncat_rest (s : CString) : Option (List Char) :=
  (strlen buf).bind fun len => strncat buf s (buf_size - (len + 1))

def log_strcpy2 : Option (List Char) :=
  match given msg1, given msg2 with
  | some m1, some m2 => (strncpy buf m1 buf_size).bind fun buf =>
      (strncat_rest buf buf_size separator).bind fun buf => strncat_rest buf buf_size m2
  | some m1, none => strncpy buf m1 buf_size
  | none, some m2 => strncpy buf m2 buf_size
  | none, none => write buf 0 [null]

/-- `if (buf[0])` -/
def separated (strcat : List Char → Option (List Char)) : Option (List Char) :=
  if buf.head? ≠ some null then strcat buf else some buf

/-- Without a first message, it is the first message that is appended for the second one. -/
def log_strcat2 : Option (List Char) :=
  match given msg1, given msg2 with
  | some _, second => (separated buf fun buf => jmscott_strcat cat buf buf_size separator).bind fun buf =>
      (jmscott_strcat cat buf buf_size msg1).bind fun buf =>
        match second with
        | some m2 => (jmscott_strcat cat buf buf_size separator).bind fun buf => jmscott_strcat cat buf buf_size (some m2)
        | none => some buf
  | none, some _ => (separated buf fun buf => jmscott_strcat cat buf buf_size separator).bind fun buf =>
      jmscott_strcat cat buf buf_size msg1
  | none, none => some buf

def log_strcat3 : Option (List Char) :=
  match given msg1 with
  | some m1 => (separated buf fun buf => strncat_rest buf buf_size separator).bind fun buf =>
      (strncat_rest buf buf_size m1).bind fun buf => log_strcat2 cat buf buf_size msg2 msg3
  | none => log_strcat2 cat buf buf_size msg2 msg3

def log_strcpy3 : Option (List Char) :=
  match given msg1 with
  | some m1 => (strncpy buf m1 buf_size).bind fun buf => log_strcat2 cat buf buf_size msg2 msg3
  | none => (write buf 0 [null]).bind fun buf => log_strcpy2 buf buf_size msg2 msg3

def log_strcpy4 : Option (List Char) :=
  match given msg1 with
  | some m1 => (strncpy buf m1 buf_size).bind fun buf => log_strcat3 cat buf buf_size msg2 msg3 msg4
  | none => (write buf 0 [null]).bind fun buf => log_strcpy3 cat buf buf_size msg2 msg3 msg4

end calls

/-- The five functions with their messages. -/
inductive Call
  | log_strcpy2 (msg1 msg2 : Option CString)
  | log_strcat2 (msg1 msg2 : Option CString)
  | log_strcat3 (msg1 msg2 msg3 : Option CString)
  | log_strcpy3 (msg1 msg2 msg3 : Option CString)
  | log_strcpy4 (msg1 msg2 msg3 msg4 : Option CString)

namespace Call

def run (cat : Strcat) (buf : List Char) : Call → Option (List Char)
  | log_strcpy2 msg1 msg2 => LogMessages.log_strcpy2 buf buf.length msg1 msg2
  | log_strcat2 msg1 msg2 => LogMessages.log_strcat2 cat buf buf.length msg1 msg2
  | log_strcat3 msg1 msg2 msg3 => LogMessages.log_strcat3 cat buf buf.length msg1 msg2 msg3
  | log_strcpy3 msg1 msg2 msg3 => LogMessages.log_strcpy3 cat buf buf.length msg1 msg2 msg3
  | log_strcpy4 msg1 msg2 msg3 msg4 => LogMessages.log_strcpy4 cat buf buf.length msg1 msg2 msg3 msg4

def msgs : Call → List (Option CString)
  | log_strcpy2 msg1 msg2 | log_strcat2 msg1 msg2 => [msg1, msg2]
  | log_strcat3 msg1 msg2 msg3 | log_strcpy3 msg1 msg2 msg3 => [msg1, msg2, msg3]
  | log_strcpy4 msg1 msg2 msg3 msg4 => [msg1, msg2, msg3, msg4]

def appends : Call → Bool
  | log_strcat2 .. | log_strcat3 .. => true
  | _ => false

end Call

/-! ### What should be in the buffer -/

/-- The texts that are not empty, with colons between them. -/
def joined (parts : List Text) : Text :=
  separator.val.intercalate (parts.filter (· ≠ []))

def said (msg : Option CString) : Text :=
  (msg.map Subtype.val).getD []

/-- What comes before some messages of a call. -/
def Call.before (c : Call) (buf : List Char) (msgs : List (Option CString)) : Text :=
  joined ((if c.appends then [text buf] else []) ++ msgs.map said)

/-- The buffer holds a string, which is the text as far as there is room for it. -/
structure Holds (buf : List Char) (size : ℕ) (t : Text) : Prop where
  length : buf.length = size
  ended : null ∈ buf
  cut : text buf = t.take (size - 1)

/-- The messages that are not missing are joined, behind what was in the buffer or in its place. -/
def Call.Right (cat : Strcat) (buf : List Char) (c : Call) : Prop :=
  ∃ buf', c.run cat buf = some buf' ∧ Holds buf' buf.length (c.before buf c.msgs)

/-- log_strcat2 has a second message and no first one, and there is room for some of it, or the null
pointer is fatal. -/
structure Lost (cat : Strcat) (size : ℕ) (t : Text) (msg1 msg2 : Option CString) : Prop where
  missing : given msg1 = none
  there : given msg2 ≠ none
  room : (msg1 = none ∧ cat.survives_null = false) ∨ if t = [] then 1 < size else t.length + 3 < size

namespace Call

/-- The first message that is copied leaves no room for its null. -/
def Long (buf : List Char) (c : Call) : Prop :=
  c.appends = false ∧ ∃ m, c.msgs.findSome? given = some m ∧ buf.length ≤ m.val.length

/-- The last message is appended to something without the one before it. -/
def Loses (cat : Strcat) (buf : List Char) (c : Call) : Prop :=
  ∃ front msg1 msg2, c.msgs = front ++ [msg1, msg2] ∧ (c.appends = true ∨ c.before buf front ≠ []) ∧
    Lost cat buf.length (c.before buf front) msg1 msg2

end Call

/-! ### The join, message by message -/

/-- A text goes on with a message. -/
def add (t : Text) (msg : Option CString) : Text :=
  match given msg with
  | none => t
  | some m => if t = [] then m.val else t ++ separator.val ++ m.val

section join
variable {t : Text} {msg : Option CString} {m : CString} {parts : List Text}

theorem given_eq_some : given msg = some m ↔ msg = some m ∧ m.val ≠ [] := by
  rw [given, Option.filter_eq_some_iff, decide_eq_true_eq]

theorem said_of_given (h : given msg = some m) : said msg = m.val := by
  rw [(given_eq_some.mp h).1]
  rfl

theorem said_of_missing (h : given msg = none) : said msg = [] := by
  cases msg with
  | none => rfl
  | some s =>
    by_contra hne
    have hgiven : given (some s) = some s := given_eq_some.mpr ⟨rfl, hne⟩
    rw [h] at hgiven
    cases hgiven

theorem intercalate_concat (sep p : Text) (hne : parts ≠ []) :
    sep.intercalate (parts ++ [p]) = sep.intercalate parts ++ sep ++ p := by
  induction parts with
  | nil => exact absurd rfl hne
  | cons q parts ih =>
    cases parts with
    | nil => simp [List.intercalate]
    | cons q' parts =>
      rw [List.cons_append, List.cons_append, List.intercalate_cons_cons, ← List.cons_append,
        ih (List.cons_ne_nil _ _), List.intercalate_cons_cons]
      simp only [List.append_assoc]

theorem joined_eq_nil : joined parts = [] ↔ parts.filter (· ≠ []) = [] := by
  constructor
  · intro h
    by_contra hne
    obtain ⟨q, qs, hq⟩ := List.exists_cons_of_ne_nil hne
    have hmem : q ∈ parts.filter (· ≠ []) := hq ▸ List.mem_cons_self
    have hnot : q ≠ [] := by simpa using (List.mem_filter.mp hmem).2
    rw [joined, hq] at h
    cases qs with
    | nil => exact hnot (by simpa [List.intercalate] using h)
    | cons q' qs =>
      rw [List.intercalate_cons_cons, List.append_eq_nil_iff] at h
      exact hnot (List.append_eq_nil_iff.mp h.1).1
  · intro h
    rw [joined, h]
    rfl

theorem joined_concat (parts : List Text) (msg : Option CString) :
    joined (parts ++ [said msg]) = add (joined parts) msg := by
  unfold add
  cases h : given msg with
  | none =>
    rw [said_of_missing h, joined, List.filter_append]
    simp [joined]
  | some m =>
    have hm := (given_eq_some.mp h).2
    have hlast : [m.val].filter (· ≠ []) = [m.val] := List.filter_cons_of_pos (by simpa using hm)
    rw [said_of_given h]
    change joined (parts ++ [m.val]) =
      if joined parts = [] then m.val else joined parts ++ separator.val ++ m.val
    by_cases hnil : joined parts = []
    · rw [if_pos hnil, joined, List.filter_append, joined_eq_nil.mp hnil, hlast]
      simp [List.intercalate]
    · rw [if_neg hnil, joined, List.filter_append, hlast,
        intercalate_concat _ _ fun hno => hnil (joined_eq_nil.mpr hno)]
      rfl

theorem Call.before_concat (c : Call) (buf : List Char) (msgs : List (Option CString)) :
    c.before buf (msgs ++ [msg]) = add (c.before buf msgs) msg := by
  rw [Call.before, List.map_append, ← List.append_assoc]
  exact joined_concat _ msg

theorem add_of_missing (h : given msg = none) : add t msg = t := by
  rw [add, h]

theorem add_of_given (h : given msg = some m) :
    add t msg = if t = [] then m.val else t ++ separator.val ++ m.val := by
  rw [add, h]

theorem add_ne_nil (h : given msg ≠ none) : add t msg ≠ [] := by
  obtain ⟨m, hm⟩ := Option.ne_none_iff_exists'.mp h
  rw [add_of_given hm]
  have hne := (given_eq_some.mp hm).2
  split_ifs
  · exact hne
  · simp [hne]

end join

/-! ### What the copies leave -/

section holds
variable {cat : Strcat} {buf buf' : List Char} {size : ℕ} {t : Text} {m : CString}

theorem Holds.text_eq_nil (h : Holds buf size t) : buf.head? = some null ↔ text buf = [] := by
  obtain ⟨rest, hrest⟩ := text_append h.ended
  constructor
  · intro hhead
    cases htext : text buf with
    | nil => rfl
    | cons c s =>
      rw [hrest, htext] at hhead
      have hc : c = null := Option.some.inj hhead
      have hmem : null ∈ text buf := by rw [htext, hc]; exact List.mem_cons_self
      exact absurd hmem (not_mem_text buf)
  · intro htext
    rw [hrest, htext]
    rfl

theorem Holds.of_text (h : null ∈ buf) : Holds buf buf.length (text buf) :=
  ⟨rfl, h, (List.take_of_length_le (Nat.le_sub_one_of_lt (length_text_lt h))).symm⟩

theorem cut_append {size : ℕ} (t s : Text) : (t.take size ++ s).take size = (t ++ s).take size := by
  rw [List.take_append, List.take_append, List.take_take, Nat.min_self, List.length_take]
  by_cases hle : size ≤ t.length
  · rw [Nat.min_eq_left hle, Nat.sub_self, Nat.sub_eq_zero_of_le hle]
  · rw [Nat.min_eq_right (Nat.le_of_not_le hle)]

theorem Holds.strcat (h : Holds buf size t) (cat : Strcat) (m : CString) :
    ∃ buf', jmscott_strcat cat buf size (some m) = some buf' ∧ Holds buf' size (t ++ m.val) := by
  have hlt := length_text_lt h.ended
  rw [h.length] at hlt
  have hcut := cat.lib.strcat_eq size (text buf) m.val hlt
  have hnull : null ∉ (text buf ++ m.val).take (size - 1) := by
    intro hmem
    rcases List.mem_append.mp (List.mem_of_mem_take hmem) with hmem | hmem
    · exact not_mem_text buf hmem
    · exact m.2 hmem
  have hroom : ((text buf ++ m.val).take (size - 1)).length < buf.length := by
    rw [List.length_take, h.length]
    omega
  obtain ⟨buf', hwrite, hlength, hended, htext⟩ := write_front hnull hroom
  refine ⟨buf', ?_, hlength.trans h.length, hended, ?_⟩
  · rw [jmscott_strcat, strlen_of_mem h.ended, Option.bind_some, hcut, hwrite]
  · rw [htext, h.cut, cut_append]

theorem Holds.strncat (h : Holds buf size t) (m : CString) :
    ∃ buf', strncat_rest buf size m = some buf' ∧ Holds buf' size (t ++ m.val) := by
  obtain ⟨buf', hcat, hlength, hended, htext⟩ := strncat_cut h.ended m
  rw [h.length] at hcat hlength htext
  refine ⟨buf', ?_, hlength, hended, ?_⟩
  · rw [strncat_rest, strlen_of_mem h.ended, Option.bind_some, hcat]
  · rw [htext, h.cut, cut_append]

/-- The separator goes behind what is there. -/
theorem Holds.separated (h : Holds buf size t) (strcat : List Char → Option (List Char))
    (hcat : ∃ buf', strcat buf = some buf' ∧ Holds buf' size (t ++ separator.val)) :
    ∃ buf', separated buf strcat = some buf' ∧ Holds buf' size
      (if t = [] then [] else t ++ separator.val) := by
  unfold LogMessages.separated
  by_cases hempty : text buf = []
  · rw [if_neg (not_not_intro (h.text_eq_nil.mpr hempty))]
    refine ⟨buf, rfl, h.length, h.ended, ?_⟩
    by_cases ht : t = []
    · rw [if_pos ht, hempty, List.take_nil]
    · have hsize : size - 1 = 0 := by
        have hcut := h.cut
        rw [hempty] at hcut
        rcases List.take_eq_nil_iff.mp hcut.symm with hzero | hnil
        · exact hzero
        · exact absurd hnil ht
      rw [hempty, hsize, List.take_zero]
  · have ht : t ≠ [] := by
      rintro rfl
      exact hempty (h.cut.trans List.take_nil)
    rw [if_pos fun hhead => hempty (h.text_eq_nil.mp hhead), if_neg ht]
    exact hcat

end holds

/-! ### The messages of log_strcat2 -/

section strcat2
variable {cat : Strcat} {buf buf' : List Char} {size : ℕ} {t : Text} {m : CString}
  {msg1 msg2 msg3 : Option CString}

/-- A message behind the separator, by either way to append. -/
theorem Holds.add_by (h : Holds buf size t) (strcat : List Char → CString → Option (List Char))
    (hcat : ∀ {buf t} (s : CString), Holds buf size t →
      ∃ buf', strcat buf s = some buf' ∧ Holds buf' size (t ++ s.val))
    (hm : given msg1 = some m) :
    ∃ buf', ((LogMessages.separated buf fun buf => strcat buf separator).bind fun buf => strcat buf m) = some buf' ∧
      Holds buf' size (add t msg1) := by
  obtain ⟨buf₁, hsep, h₁⟩ := h.separated (fun buf => strcat buf separator) (hcat separator h)
  obtain ⟨buf₂, hcat₂, h₂⟩ := hcat m h₁
  refine ⟨buf₂, by rw [hsep, Option.bind_some, hcat₂], ?_⟩
  rw [add_of_given hm]
  split_ifs with ht
  · rwa [if_pos ht, List.nil_append] at h₂
  · rwa [if_neg ht] at h₂

/-- With a first message, the second one is appended behind it. -/
theorem log_strcat2_given (h : Holds buf size t) (hm : given msg1 = some m) :
    ∃ buf', log_strcat2 cat buf size msg1 msg2 = some buf' ∧ Holds buf' size (add (add t msg1) msg2) := by
  obtain ⟨buf₁, hcat₁, h₁⟩ := h.add_by (fun buf s => jmscott_strcat cat buf size (some s))
    (fun s h => h.strcat cat s) hm
  have hne : add t msg1 ≠ [] := add_ne_nil (by rw [hm]; simp)
  obtain ⟨buf₀, hsep, hcat₁⟩ := Option.bind_eq_some_iff.mp hcat₁
  obtain ⟨rfl, -⟩ := given_eq_some.mp hm
  unfold log_strcat2
  rw [hm]
  cases hm2 : given msg2 with
  | none =>
    refine ⟨buf₁, ?_, by rwa [add_of_missing hm2]⟩
    simp only [hsep, Option.bind_some, hcat₁]
  | some m2 =>
    obtain ⟨buf₂, hcat₂, h₂⟩ := h₁.strcat cat separator
    obtain ⟨buf₃, hcat₃, h₃⟩ := h₂.strcat cat m2
    refine ⟨buf₃, by simp only [hsep, Option.bind_some, hcat₁, hcat₂, hcat₃], ?_⟩
    rwa [add_of_given hm2, if_neg hne]

/-- Without one, nothing is appended to the separator. -/
theorem log_strcat2_missing (cat : Strcat) (h : Holds buf size t) (hm1 : given msg1 = none)
    (hm2 : given msg2 = some m) :
    (msg1 = none ∧ cat.survives_null = false ∧ log_strcat2 cat buf size msg1 msg2 = none) ∨
    ¬ (msg1 = none ∧ cat.survives_null = false) ∧
      ∃ buf', log_strcat2 cat buf size msg1 msg2 = some buf' ∧
        Holds buf' size (if t = [] then [] else t ++ separator.val) := by
  obtain ⟨buf₁, hsep, h₁⟩ :=
    h.separated (fun buf => jmscott_strcat cat buf size (some separator)) (h.strcat cat separator)
  have hrun : log_strcat2 cat buf size msg1 msg2 = jmscott_strcat cat buf₁ size msg1 := by
    unfold log_strcat2
    simp only [hm1, hm2, hsep, Option.bind_some]
  rw [hrun]
  cases hmsg : msg1 with
  | none =>
    by_cases hnull : cat.survives_null = true
    · exact .inr ⟨by simp [hnull], buf₁, if_pos hnull, h₁⟩
    · exact .inl ⟨rfl, Bool.eq_false_of_not_eq_true hnull, if_neg hnull⟩
  | some s =>
    have hs : s.val = [] := by
      have hsaid := said_of_missing hm1
      rwa [hmsg] at hsaid
    obtain ⟨buf₂, hcat, h₂⟩ := h₁.strcat cat s
    rw [hs, List.append_nil] at h₂
    exact .inr ⟨by simp, buf₂, hcat, h₂⟩

/-- The buffer of the text with a message behind it is that of the text if there is no room for more. -/
theorem Holds.append_iff {s : Text} (h : Holds buf size t) (hs : s ≠ []) :
    Holds buf size (t ++ s) ↔ size - 1 ≤ t.length := by
  constructor
  · intro h'
    by_contra hlt
    have hlen := congrArg List.length (h.cut.symm.trans h'.cut)
    have hpos := List.length_pos_iff.mpr hs
    rw [List.length_take, List.length_take, List.length_append] at hlen
    omega
  · intro hroom
    refine ⟨h.length, h.ended, ?_⟩
    rw [h.cut, List.take_append_of_le_length hroom]

theorem log_strcat2_right (h : Holds buf size t) (h0 : 0 < size) :
    (∃ buf', log_strcat2 cat buf size msg1 msg2 = some buf' ∧ Holds buf' size (add (add t msg1) msg2)) ↔
      ¬ Lost cat size t msg1 msg2 := by
  cases hm1 : given msg1 with
  | some m1 =>
    refine iff_of_true (log_strcat2_given h hm1) fun hlost => ?_
    have hno := hlost.missing
    rw [hm1] at hno
    cases hno
  | none =>
    cases hm2 : given msg2 with
    | none =>
      refine iff_of_true ⟨buf, ?_, by rwa [add_of_missing hm2,
        add_of_missing hm1]⟩ fun hlost => hlost.there hm2
      unfold log_strcat2
      simp only [hm1, hm2]
    | some m =>
      have hm := (given_eq_some.mp hm2).2
      have hlost : Lost cat size t msg1 msg2 ↔
          (msg1 = none ∧ cat.survives_null = false) ∨ if t = [] then 1 < size else t.length + 3 < size :=
        ⟨Lost.room, fun hroom => ⟨hm1, by rw [hm2]; simp, hroom⟩⟩
      rw [add_of_missing hm1, add_of_given hm2, hlost]
      rcases log_strcat2_missing cat h hm1 hm2 with ⟨hnone, hfatal, hrun⟩ | ⟨hsafe, buf₁, hrun, h₁⟩
      · refine iff_of_false ?_ (not_not_intro (.inl ⟨hnone, hfatal⟩))
        rintro ⟨buf', hrun', -⟩
        rw [hrun] at hrun'
        cases hrun'
      · have hiff : (∃ buf', log_strcat2 cat buf size msg1 msg2 = some buf' ∧
            Holds buf' size (if t = [] then m.val else t ++ separator.val ++ m.val)) ↔
            Holds buf₁ size (if t = [] then m.val else t ++ separator.val ++ m.val) := by
          rw [hrun]
          simp
        rw [hiff, or_iff_right hsafe]
        by_cases ht : t = []
        · rw [if_pos ht] at h₁
          rw [if_pos ht, if_pos ht, ← List.nil_append m.val, h₁.append_iff hm, List.length_nil]
          omega
        · rw [if_neg ht] at h₁
          rw [if_neg ht, if_neg ht, h₁.append_iff hm, List.length_append]
          have hsep : separator.val.length = 2 := rfl
          omega

end strcat2

/-! ### The other functions -/

section strcat3
variable {cat : Strcat} {buf buf' : List Char} {size : ℕ} {t : Text} {msg1 msg2 msg3 : Option CString}

theorem log_strcat3_right (h : Holds buf size t) (h0 : 0 < size) :
    (∃ buf', log_strcat3 cat buf size msg1 msg2 msg3 = some buf' ∧
        Holds buf' size (add (add (add t msg1) msg2) msg3)) ↔
      ¬ Lost cat size (add t msg1) msg2 msg3 := by
  cases hm : given msg1 with
  | none =>
    have hrun : log_strcat3 cat buf size msg1 msg2 msg3 = log_strcat2 cat buf size msg2 msg3 := by
      unfold log_strcat3
      rw [hm]
    rw [hrun, add_of_missing hm]
    exact log_strcat2_right h h0
  | some m =>
    obtain ⟨buf₁, hcat, h₁⟩ := h.add_by (fun buf s => strncat_rest buf size s) (fun s h => h.strncat s) hm
    have hrun : log_strcat3 cat buf size msg1 msg2 msg3 = log_strcat2 cat buf₁ size msg2 msg3 := by
      obtain ⟨buf₀, hsep, hcat⟩ := Option.bind_eq_some_iff.mp hcat
      unfold log_strcat3
      rw [hm]
      simp only [hsep, Option.bind_some, hcat]
    rw [hrun]
    exact log_strcat2_right h₁ h0

/-- Nothing can be appended where no string ends. -/
theorem separated_unended (h : null ∉ buf) {strcat : List Char → Option (List Char)}
    (hcat : strcat buf = none) :
    separated buf strcat = none := by
  have hhead : buf.head? ≠ some null := fun hhead => h (List.mem_of_head? hhead)
  rw [separated, if_pos hhead, hcat]

theorem log_strcat2_unended (h : null ∉ buf)
    (hrun : log_strcat2 cat buf size msg1 msg2 = some buf') : buf' = buf := by
  have hsep : separated buf (fun buf => jmscott_strcat cat buf size separator) = none := by
    refine separated_unended h ?_
    rw [jmscott_strcat, strlen_of_not_mem h, Option.bind_none]
  unfold log_strcat2 at hrun
  cases hm1 : given msg1 with
  | some m1 =>
    simp only [hm1, hsep, Option.bind_none] at hrun
    cases hrun
  | none =>
    cases hm2 : given msg2 with
    | some m2 =>
      simp only [hm1, hm2, hsep, Option.bind_none] at hrun
      cases hrun
    | none =>
      simp only [hm1, hm2] at hrun
      exact (Option.some.inj hrun).symm

theorem log_strcat3_unended (h : null ∉ buf) (hrun : log_strcat3 cat buf size msg1 msg2 msg3 = some buf') :
    buf' = buf := by
  unfold log_strcat3 at hrun
  cases hm : given msg1 with
  | none =>
    rw [hm] at hrun
    exact log_strcat2_unended h hrun
  | some m =>
    have hsep : separated buf (fun buf => strncat_rest buf size separator) = none := by
      refine separated_unended h ?_
      rw [strncat_rest, strlen_of_not_mem h, Option.bind_none]
    simp only [hm, hsep, Option.bind_none] at hrun
    cases hrun

end strcat3

section strcpy
variable {cat : Strcat} {buf : List Char} {m : CString} {msg1 msg2 msg3 msg4 : Option CString}

theorem clear (h0 : 0 < buf.length) : ∃ buf', write buf 0 [null] = some buf' ∧ Holds buf' buf.length [] :=
    by
  obtain ⟨buf', hwrite, hlength, hended, htext⟩ := write_front (s := []) List.not_mem_nil h0
  exact ⟨buf', hwrite, hlength, hended, htext.trans List.take_nil.symm⟩

/-- A call that starts with a copy of its first message, and appends the others to it. -/
theorem copied_right (next : List Char → Option (List Char)) (t : Text) (lost : Prop) (m : CString)
    (hnext : ∀ buf', Holds buf' buf.length m.val →
      ((∃ buf'', next buf' = some buf'' ∧ Holds buf'' buf.length t) ↔ ¬ lost))
    (hunended : ∀ buf' buf'', null ∉ buf' → next buf' = some buf'' → buf'' = buf') :
    (∃ buf'', (strncpy buf m buf.length).bind next = some buf'' ∧ Holds buf'' buf.length t) ↔
      m.val.length < buf.length ∧ ¬ lost := by
  by_cases hshort : m.val.length < buf.length
  · obtain ⟨buf₁, hcopy, hlength, hended, htext⟩ := strncpy_short hshort
    have hcut : m.val.take (buf.length - 1) = m.val := List.take_of_length_le (by omega)
    rw [hcopy, Option.bind_some, hnext buf₁ ⟨hlength, hended, htext.trans hcut.symm⟩, and_iff_right hshort]
  · obtain ⟨buf₁, hcopy, hno⟩ := strncpy_long (Nat.le_of_not_lt hshort)
    refine iff_of_false ?_ fun h => hshort h.1
    rintro ⟨buf'', hrun, hholds⟩
    rw [hcopy, Option.bind_some] at hrun
    exact hno (hunended buf₁ buf'' hno hrun ▸ hholds.ended)

/-- The first message that is there has room for its null. -/
def Short (buf : List Char) (msgs : List (Option CString)) : Prop :=
  ∀ m, msgs.findSome? given = some m → m.val.length < buf.length

theorem short_of_given {msgs : List (Option CString)} (hm : given msg1 = some m) :
    Short buf (msg1 :: msgs) ↔ m.val.length < buf.length := by
  simp [Short, hm]

theorem short_of_missing {msgs : List (Option CString)} (hm : given msg1 = none) :
    Short buf (msg1 :: msgs) ↔ Short buf msgs := by
  simp [Short, hm]

theorem log_strcpy2_right (h0 : 0 < buf.length) :
    (∃ buf', log_strcpy2 buf buf.length msg1 msg2 = some buf' ∧ Holds buf' buf.length (add
      (add [] msg1) msg2)) ↔
      Short buf [msg1, msg2] := by
  have hcopy : ∀ {t} (m : CString), m.val = t →
      ((∃ buf', strncpy buf m buf.length = some buf' ∧ Holds buf' buf.length t) ↔
        m.val.length < buf.length) := by
    rintro t m rfl
    have hright := @copied_right buf some m.val False m
      (fun buf' h => iff_of_true ⟨buf', rfl, h⟩ not_false) (fun _ _ _ h => (Option.some.inj h).symm)
    rwa [Option.bind_fun_some, and_iff_left not_false] at hright
  unfold log_strcpy2
  cases hm1 : given msg1 with
  | some m1 =>
    have hfirst : add [] msg1 = m1.val := by rw [add_of_given hm1, if_pos rfl]
    rw [short_of_given hm1, hfirst]
    cases hm2 : given msg2 with
    | none =>
      rw [add_of_missing hm2]
      exact hcopy m1 rfl
    | some m2 =>
      have hne := (given_eq_some.mp hm1).2
      rw [add_of_given hm2, if_neg hne]
      refine (copied_right _ _ False m1 (fun buf' h => iff_of_true ?_ not_false) ?_).trans
        (and_iff_left not_false)
      · obtain ⟨buf₁, hcat₁, h₁⟩ := h.strncat separator
        obtain ⟨buf₂, hcat₂, h₂⟩ := h₁.strncat m2
        exact ⟨buf₂, by simp only [hcat₁, Option.bind_some, hcat₂], h₂⟩
      · intro buf' buf'' hno hrun
        rw [strncat_rest, strlen_of_not_mem hno, Option.bind_none, Option.bind_none] at hrun
        cases hrun
  | none =>
    rw [short_of_missing hm1, add_of_missing hm1]
    cases hm2 : given msg2 with
    | some m2 =>
      rw [short_of_given hm2]
      exact hcopy m2 (by rw [add_of_given hm2, if_pos rfl])
    | none =>
      rw [short_of_missing hm2, add_of_missing hm2]
      refine iff_of_true (clear h0) fun m hm => ?_
      cases hm

theorem log_strcpy3_right (h0 : 0 < buf.length) :
    (∃ buf', log_strcpy3 cat buf buf.length msg1 msg2 msg3 = some buf' ∧
        Holds buf' buf.length (add (add (add [] msg1) msg2) msg3)) ↔
      Short buf [msg1, msg2, msg3] ∧ ¬ (add [] msg1 ≠ [] ∧ Lost cat buf.length (add [] msg1) msg2 msg3) :=
        by
  unfold log_strcpy3
  cases hm : given msg1 with
  | some m =>
    have hfirst : add [] msg1 = m.val := by rw [add_of_given hm, if_pos rfl]
    rw [short_of_given hm, hfirst, and_iff_right (given_eq_some.mp hm).2]
    exact copied_right _ _ _ m (fun buf' h => log_strcat2_right h h0) fun _ _ => log_strcat2_unended
  | none =>
    obtain ⟨buf₁, hclear, h₁⟩ := clear h0
    rw [short_of_missing hm, add_of_missing hm]
    simp only [hclear, Option.bind_some, ne_eq, not_true_eq_false, false_and, not_false_eq_true, and_true]
    have hlen := h₁.length
    have hright := @log_strcpy2_right buf₁ msg2 msg3 (by omega)
    unfold Short at hright ⊢
    rwa [hlen] at hright

theorem log_strcpy4_right (h0 : 0 < buf.length) :
    (∃ buf', log_strcpy4 cat buf buf.length msg1 msg2 msg3 msg4 = some buf' ∧
        Holds buf' buf.length (add (add (add (add [] msg1) msg2) msg3) msg4)) ↔
      Short buf [msg1, msg2, msg3, msg4] ∧
        ¬ (add (add [] msg1) msg2 ≠ [] ∧ Lost cat buf.length (add (add [] msg1) msg2) msg3 msg4) := by
  unfold log_strcpy4
  cases hm : given msg1 with
  | some m =>
    have hfirst : add [] msg1 = m.val := by rw [add_of_given hm, if_pos rfl]
    have hne : add m.val msg2 ≠ [] := by
      have hm1 := (given_eq_some.mp hm).2
      cases hm2 : given msg2 with
      | none => rwa [add_of_missing hm2]
      | some m2 => exact add_ne_nil (by rw [hm2]; simp)
    rw [short_of_given hm, hfirst, and_iff_right hne]
    exact copied_right _ _ _ m (fun buf' h => log_strcat3_right h h0) fun _ _ => log_strcat3_unended
  | none =>
    obtain ⟨buf₁, hclear, h₁⟩ := clear h0
    rw [short_of_missing hm, add_of_missing hm]
    simp only [hclear, Option.bind_some]
    have hlen := h₁.length
    have hright := @log_strcpy3_right cat buf₁ msg2 msg3 msg4 (by omega)
    unfold Short at hright ⊢
    rwa [hlen] at hright

end strcpy

/-! ### All five -/

namespace Call

variable {cat : Strcat} {buf : List Char} {c : Call} {msg1 msg2 msg3 msg4 : Option CString}

theorem before_nil (c : Call) (buf : List Char) : c.before buf [] = if c.appends then text buf else [] := by
  unfold before
  split_ifs
  · by_cases hnil : text buf = []
    · simp [joined, hnil, List.intercalate]
    · simp [joined, hnil, List.intercalate]
  · rfl

theorem before_cons (c : Call) (buf : List Char) (msg : Option CString) (msgs : List (Option CString)) :
    c.before buf (msg :: msgs) = (msg :: msgs).foldl add (c.before buf []) := by
  induction msgs using List.reverseRecOn generalizing msg with
  | nil => exact c.before_concat buf []
  | append_singleton msgs last ih =>
    rw [← List.cons_append, c.before_concat, ih, List.foldl_append]
    rfl

theorem not_long_iff (h : c.appends = false) : ¬ c.Long buf ↔ Short buf c.msgs := by
  unfold Long Short
  rw [and_iff_right h]
  push Not
  rfl

theorem loses_iff (front : List (Option CString)) (h : c.msgs = front ++ [msg1, msg2]) :
    c.Loses cat buf ↔ (c.appends = true ∨ c.before buf front ≠ []) ∧
      Lost cat buf.length (c.before buf front) msg1 msg2 := by
  constructor
  · rintro ⟨front', msg1', msg2', h', hloses⟩
    obtain ⟨rfl, hlast⟩ := List.append_inj' (h.symm.trans h') rfl
    simp only [List.cons.injEq, and_true] at hlast
    obtain ⟨rfl, rfl⟩ := hlast
    exact hloses
  · exact fun hloses => ⟨front, msg1, msg2, h, hloses⟩

/-- Exactly then the buffer holds the join: no copy is without its null, and no second message of
log_strcat2 comes without a first one. -/
theorem log_right_iff (cat : Strcat) (buf : List Char) (c : Call) (h0 : 0 < buf.length)
    (h : c.appends = true → null ∈ buf) :
    c.Right cat buf ↔ ¬ c.Long buf ∧ ¬ c.Loses cat buf := by
  unfold Right
  cases c with
  | log_strcpy2 msg1 msg2 =>
    have hloses : ¬ (log_strcpy2 msg1 msg2).Loses cat buf := by
      rw [loses_iff [] rfl, before_nil]
      simp [appends]
    rw [not_long_iff rfl, and_iff_left hloses]
    simp only [msgs, before_cons, before_nil, appends, List.foldl_cons, List.foldl_nil]
    exact log_strcpy2_right h0
  | log_strcat2 msg1 msg2 =>
    have hlong : ¬ (log_strcat2 msg1 msg2).Long buf := fun hlong => Bool.noConfusion hlong.1
    rw [and_iff_right hlong, loses_iff [] rfl]
    simp only [msgs, before_cons, before_nil, appends, List.foldl_cons, List.foldl_nil, if_true, true_or,
      true_and]
    exact log_strcat2_right (Holds.of_text (h rfl)) h0
  | log_strcat3 msg1 msg2 msg3 =>
    have hlong : ¬ (log_strcat3 msg1 msg2 msg3).Long buf := fun hlong => Bool.noConfusion hlong.1
    rw [and_iff_right hlong, loses_iff [msg1] rfl]
    simp only [msgs, before_cons, before_nil, appends, List.foldl_cons, List.foldl_nil, if_true, true_or,
      true_and]
    exact log_strcat3_right (Holds.of_text (h rfl)) h0
  | log_strcpy3 msg1 msg2 msg3 =>
    rw [not_long_iff rfl, loses_iff [msg1] rfl]
    simp only [msgs, before_cons, before_nil, appends, List.foldl_cons, List.foldl_nil, Bool.false_eq_true,
      if_false, false_or]
    exact log_strcpy3_right h0
  | log_strcpy4 msg1 msg2 msg3 msg4 =>
    rw [not_long_iff rfl, loses_iff [msg1, msg2] rfl]
    simp only [msgs, before_cons, before_nil, appends, List.foldl_cons, List.foldl_nil, Bool.false_eq_true,
      if_false, false_or]
    exact log_strcpy4_right h0

end Call

/-- The concatenation as the library has it. -/
def strcat : Strcat := ⟨FsService.cutting, true⟩

def message (s : String) (h : null ∉ s.toList) : Option CString := some ⟨s.toList, h⟩

/-- A buffer that holds one character and has room for six more. -/
def small : List Char := 'a' :: List.replicate 7 null

/-- Two messages go behind it, and the second one is cut. -/
theorem small_join : ∃ buf, (Call.log_strcat3 (message "b" (by decide)) (message "cd" (by decide)) none).run
    strcat small = some buf ∧ text buf = "a: b: c".toList := by
  let c := Call.log_strcat3 (message "b" (by decide)) (message "cd" (by decide)) none
  have hkept : ¬ c.Loses strcat small := fun h =>
    absurd ((Call.loses_iff [message "b" (by decide)] rfl).mp h).2.missing (by decide)
  have hright : c.Right strcat small := (Call.log_right_iff strcat small c (by decide) fun _ => by decide).mpr
    ⟨fun h => Bool.noConfusion h.1, hkept⟩
  obtain ⟨buf, hrun, hholds⟩ := hright
  exact ⟨buf, hrun, hholds.cut.trans (by decide)⟩

/-- A buffer with room for three characters. -/
def blank : List Char := [null, null, null, null]

/-- The second of two messages is gone where the first one is missing. -/
theorem second_message_gone : ¬ ∀ (cat : Strcat) (buf : List Char) (c : Call), 0 < buf.length →
    (c.appends = true → null ∈ buf) → c.Right cat buf := by
  intro h
  have hright := h strcat blank (.log_strcat2 none (message "a" (by decide))) (by decide)
    (fun _ => by decide)
  obtain ⟨buf', hrun, hholds⟩ := hright
  obtain rfl : blank = buf' := Option.some.inj hrun
  have hcut := hholds.cut
  revert hcut
  decide

end Blobio.LogMessages
