import Blobio.DecimalNumerals
import Blobio.GoTexts
import Blobio.HexDigests

/-! The lexer of flow configurations: its one character of lookahead over the stream, and the
tokens it makes. -/
namespace Blobio.Flowd.Lexer

/-- `unicode.ReplacementChar`, which also stands for a sequence that is no character. -/
def ReplacementChar : Char := '\ufffd'

/-- The stream, and a character pushed back; the zero character is none. -/
structure yyLexState where
  input : Text
  eof : Bool
  peek : Char
  line_no : ℕ
  err : Option Text

def mkerror (msg : Text) (l : yyLexState) : Text :=
  msg ++ ", near line ".toList ++ Nat.toDigits 10 l.line_no

inductive Ref
  | COMMAND_REF
  | SYNC_MAP_REF
  | TAIL_REF
  | SQL_QUERY_ROW_REF
  | SQL_EXEC_REF
  | SQL_DATABASE_REF
  deriving DecidableEq

/-- A token with its value; `char` is that of a character for itself. -/
inductive Tok
  | eof
  | PARSE_ERROR
  | UINT64 (n : ℕ)
  | STRING (s : Text)
  | keyword (w : Text)
  | ref (r : Ref) (w : Text)
  | NAME (w : Text)
  | EQ
  | MATCH
  | NEQ
  | NO_MATCH
  | char (c : Char)
  deriving DecidableEq

inductive Got
  | rune (c : Char)
  | eof
  | err (e : Text)

def get (l : yyLexState) : Got × yyLexState :=
  if l.eof then (.eof, l)
  else if l.peek ≠ '\x00' then
    (.rune l.peek, { l with peek := '\x00', line_no := if l.peek = '\n' then l.line_no + 1 else l.line_no })
  else
    match l.input with
    | [] => (.eof, { l with eof := true })
    | c :: input =>
      if c = ReplacementChar then (.err (mkerror "get: invalid unicode sequence".toList l), { l with input := input })
      else (.rune c, { l with input := input, line_no := if c = '\n' then l.line_no + 1 else l.line_no })

/-- The callers have just taken the character, so that there is no other one. -/
def pushback (c : Char) (l : yyLexState) : yyLexState :=
  { l with peek := c, line_no := if c = '\n' then l.line_no - 1 else l.line_no }

def lookahead (l : yyLexState) (peek : Char) (ifyes ifno : Tok) : Except Text Tok × yyLexState :=
  match get l with
  | (.err e, l) => (.error e, l)
  | (.eof, l) => (.ok ifno, l)
  | (.rune next, l) => if next = peek then (.ok ifyes, l) else (.ok ifno, pushback next l)

/-- What the lexer has still to read. -/
def rest (l : yyLexState) : Text :=
  if l.eof then [] else if l.peek ≠ '\x00' then l.peek :: l.input else l.input

/-! Every turn of a loop takes a character of the rest, whose length bounds the turns. -/

def skip_comment : ℕ → yyLexState → Option Text × yyLexState
  | 0, l => (none, l)
  | n + 1, l =>
    match get l with
    | (.rune c, l) => if c = '\n' then (none, l) else skip_comment n l
    | (.eof, l) => (none, l)
    | (.err e, l) => (some e, l)

/-- `unicode.IsSpace` -/
def IsSpace (c : Char) : Bool :=
  c ∈ ['\t', '\n', '\x0b', '\x0c', '\r', ' ', '\u0085', '\u00a0', '\u1680', '\u2028', '\u2029', '\u202f', '\u205f',
    '\u3000'] || ('\u2000' ≤ c && c ≤ '\u200a')

def skip_space : ℕ → yyLexState → Got × yyLexState
  | 0, l => (.eof, l)
  | n + 1, l =>
    match get l with
    | (.rune c, l) =>
      if IsSpace c then skip_space n l
      else if c ≠ '#' then (.rune c, l)
      else
        match skip_comment n l with
        | (some e, l) => (.err e, l)
        | (none, l) => skip_space n l
    | (.eof, l) => (.eof, l)
    | (.err e, l) => (.err e, l)

/-- The words that are tokens of their own, and those declared so far. -/
structure Declared where
  keyword : Text → Bool
  command : Text → Bool
  sync_map : Text → Bool
  tail : Text → Bool
  sql_query_row : Text → Bool
  sql_exec : Text → Bool
  sql_database : Text → Bool
  in_boot : Bool

def Declared.ref (d : Declared) (w : Text) : Option Ref :=
  if d.command w then some .COMMAND_REF
  else if d.sync_map w then some .SYNC_MAP_REF
  else if d.tail w then some .TAIL_REF
  else if d.sql_query_row w then some .SQL_QUERY_ROW_REF
  else if d.sql_exec w then some .SQL_EXEC_REF
  else if d.sql_database w then some .SQL_DATABASE_REF
  else none

def max_command_name : ℕ := 128
def max_name_rune_count : ℕ := 64

def word_tok (d : Declared) (w : Text) (l : yyLexState) : Except Text Tok :=
  if d.keyword w then .ok (.keyword w)
  else if w.length > max_name_rune_count then
    .error (mkerror ("name too long: expected ".toList ++ Nat.toDigits 10 max_name_rune_count ++
      " chars, got ".toList ++ Nat.toDigits 10 w.length) l)
  else
    match d.ref w with
    | some r => .ok (.ref r w)
    | none =>
      if d.in_boot then .error (mkerror ("unknown variable in boot\x7b\x7d: '".toList ++ w ++ ['\'']) l)
      else .ok (.NAME w)

def scan_word (d : Declared) : ℕ → Text → yyLexState → Except Text Tok × yyLexState
  | 0, w, l => (word_tok d w l, l)
  | n + 1, w, l =>
    match get l with
    | (.err e, l) => (.error e, l)
    | (.eof, l) => (word_tok d w l, l)
    | (.rune c, l) =>
      if c.toNat > 127 ∨ c ≠ '_' ∧ ¬ c.isAlpha ∧ ¬ c.isDigit then
        let l := pushback c l
        (word_tok d w l, l)
      else if w.length + 1 > max_command_name then
        (.error (mkerror ("name too many characters: max=".toList ++ Nat.toDigits 10 max_command_name) l), l)
      else scan_word d n (w ++ [c]) l

/-- `strconv.ParseUint`, of digits only. -/
def uint64_tok (ui64 : Text) : Except Text Tok :=
  match GoTexts.parse_uint ui64 with
  | some n => .ok (.UINT64 n)
  | none => .error ("strconv.ParseUint: parsing \"".toList ++ ui64 ++ "\": value out of range".toList)

def scan_uint64 : ℕ → Text → yyLexState → Except Text Tok × yyLexState
  | 0, ui64, l => (uint64_tok ui64, l)
  | n + 1, ui64, l =>
    match get l with
    | (.err e, l) => (.error e, l)
    | (.eof, l) => (uint64_tok ui64, l)
    | (.rune c, l) =>
      if ui64.length + 1 > 20 then (.error (mkerror "uint64 > 20 digits".toList l), l)
      else if c.toNat > 127 ∨ ¬ c.isDigit then (uint64_tok ui64, pushback c l)
      else scan_uint64 n (ui64 ++ [c]) l

def string_error : Char → Option Text
  | '\n' => some "new line in string".toList
  | '\r' => some "carriage return in string".toList
  | '\t' => some "tab in string".toList
  | '\\' => some "backslash in string".toList
  | _ => none

/-- No text is there at the end of the stream. -/
def scan_string : ℕ → Text → yyLexState → Except Text (Option Text) × yyLexState
  | 0, _, l => (.ok none, l)
  | n + 1, s, l =>
    match get l with
    | (.err e, l) => (.error e, l)
    | (.eof, l) => (.ok none, l)
    | (.rune c, l) =>
      if c = '"' then (.ok (some s), l)
      else
        match string_error c with
        | some msg => (.error (mkerror msg l), l)
        | none => scan_string n (s ++ [c]) l

def scan_raw_string : ℕ → Text → yyLexState → Except Text (Option Text) × yyLexState
  | 0, _, l => (.ok none, l)
  | n + 1, s, l =>
    match get l with
    | (.err e, l) => (.error e, l)
    | (.eof, l) => (.ok none, l)
    | (.rune c, l) =>
      if c = '\r' then scan_raw_string n s l
      else if c = '\x60' then (.ok (some s), l)
      else scan_raw_string n (s ++ [c]) l

/-- The label `PARSE_ERROR`, or the token. -/
def or_error : Except Text Tok × yyLexState → Tok × yyLexState
  | (.error e, l) => (.PARSE_ERROR, { l with err := some e })
  | (.ok tok, l) => (tok, l)

/-- The end of the stream in a string is an error at the line where the string began. -/
def string_tok (lno : ℕ) (unended : Text) : Except Text (Option Text) × yyLexState → Tok × yyLexState
  | (.error e, l) => (.PARSE_ERROR, { l with err := some e })
  | (.ok none, l) =>
    let l := { l with line_no := lno }
    (.PARSE_ERROR, { l with err := some (mkerror unended l) })
  | (.ok (some s), l) => (.STRING s, l)

/-- The two looks ahead behind an equal sign or an exclamation mark, which both end in the token of
the equal sign. -/
def lex_operator (equal regexp : Tok) (l : yyLexState) : Tok × yyLexState :=
  match lookahead l '=' equal .eof with
  | (.error e, l) => (.PARSE_ERROR, { l with err := some e })
  | (.ok tok, l) => if tok = equal then (tok, l) else or_error (lookahead l '~' regexp (.char '='))

/-- The token that starts with a character. -/
def lex_char (d : Declared) (c : Char) (l : yyLexState) : Tok × yyLexState :=
  let n := (rest l).length + 1
  if c.toNat > 127 then (.PARSE_ERROR, { l with err := none })
  else if c.isAlpha ∨ c = '_' then or_error (scan_word d n [c] l)
  else if c.isDigit then or_error (scan_uint64 n [c] l)
  else if c = '"' then string_tok l.line_no "unexpected end of file in string".toList (scan_string n [] l)
  else if c = '\x60' then
    string_tok l.line_no "unexpected end of file in raw string".toList (scan_raw_string n [] l)
  else if c = '=' then lex_operator .EQ .MATCH l
  else if c = '!' then lex_operator .NEQ .NO_MATCH l
  else (.char c, l)

def Lex (d : Declared) (l : yyLexState) : Tok × yyLexState :=
  if l.err.isSome then (.PARSE_ERROR, l)
  else if l.eof then (.eof, l)
  else
    match skip_space ((rest l).length + 1) l with
    | (.err e, l) => (.PARSE_ERROR, { l with err := some e })
    | (.eof, l) => (.eof, l)
    | (.rune c, l) => lex_char d c l

/-! ### The character of lookahead -/

section reads
variable {l l' : yyLexState} {c : Char} {r : Text}

/-- No character is pushed back that `get` would not have given. -/
def Ready (l : yyLexState) : Prop := l.peek ≠ ReplacementChar

/-- A character has just been taken. -/
structure Taken (r : Text) (l : yyLexState) : Prop where
  peek : l.peek = '\x00'
  eof : l.eof = false
  input : l.input = r

theorem Taken.ready (h : Taken r l) : Ready l := by
  rw [Ready, h.peek]
  decide

theorem Taken.rest (h : Taken r l) : rest l = r := by
  simp [Lexer.rest, h.eof, h.peek, h.input]

theorem Taken.pushback_rest (h : Taken r l) :
    Lexer.rest (pushback c l) = if c = '\x00' then r else c :: r := by
  simp only [Lexer.rest, pushback, h.eof, h.input, Bool.false_eq_true, if_false]
  split_ifs <;> simp_all

/-- Where the next character comes from. -/
theorem rest_cases (l : yyLexState) :
    l.eof = true ∧ rest l = [] ∨
      l.eof = false ∧ l.peek ≠ '\x00' ∧ rest l = l.peek :: l.input ∨
        l.eof = false ∧ l.peek = '\x00' ∧ rest l = l.input := by
  unfold rest
  cases l.eof with
  | true => exact .inl ⟨rfl, rfl⟩
  | false =>
    by_cases hpeek : l.peek = '\x00'
    · exact .inr (.inr ⟨rfl, hpeek, by simp [hpeek]⟩)
    · exact .inr (.inl ⟨rfl, hpeek, by simp [hpeek]⟩)

theorem get_nil (h : Ready l) (hr : rest l = []) : ∃ l', get l = (.eof, l') ∧ rest l' = [] ∧ Ready l' := by
  rcases rest_cases l with ⟨heof, -⟩ | ⟨-, -, hrest⟩ | ⟨heof, hpeek, hrest⟩
  · exact ⟨l, by simp [get, heof], hr, h⟩
  · rw [hr] at hrest
    cases hrest
  · have hin : l.input = [] := hrest ▸ hr
    have hget : get l = (.eof, { l with eof := true }) := by simp [get, heof, hpeek, hin]
    exact ⟨_, hget, rfl, h⟩

theorem get_cons (hr : rest l = c :: r) (hc : c ≠ ReplacementChar) :
    ∃ l', get l = (.rune c, l') ∧ Taken r l' := by
  rcases rest_cases l with ⟨-, hrest⟩ | ⟨heof, hpeek, hrest⟩ | ⟨heof, hpeek, hrest⟩
  · rw [hr] at hrest
    cases hrest
  · obtain ⟨rfl, rfl⟩ := List.cons.inj (hr.symm.trans hrest)
    have hget : get l = (.rune l.peek, { l with
        peek := '\x00', line_no := if l.peek = '\n' then l.line_no + 1 else l.line_no }) := by
      simp [get, heof, hpeek]
    exact ⟨_, hget, rfl, heof, rfl⟩
  · have hin : l.input = c :: r := hrest ▸ hr
    have hget : get l = (.rune c, { l with
        input := r, line_no := if c = '\n' then l.line_no + 1 else l.line_no }) := by
      simp [get, heof, hpeek, hin, hc]
    exact ⟨_, hget, hpeek, heof, rfl⟩

theorem get_replacement (h : Ready l) (hr : rest l = ReplacementChar :: r) :
    ∃ e l', get l = (.err e, l') ∧ Taken r l' := by
  rcases rest_cases l with ⟨-, hrest⟩ | ⟨-, -, hrest⟩ | ⟨heof, hpeek, hrest⟩
  · rw [hr] at hrest
    cases hrest
  · exact absurd (List.cons.inj (hr.symm.trans hrest)).1.symm h
  · have hin : l.input = ReplacementChar :: r := hrest ▸ hr
    have hget : get l = (.err (mkerror "get: invalid unicode sequence".toList l), { l with input := r }) := by
      simp [get, heof, hpeek, hin]
    exact ⟨_, _, hget, hpeek, heof, rfl⟩

theorem lookahead_nil (t : Char) (ifyes ifno : Tok) (h : Ready l) (hr : rest l = []) :
    ∃ l', lookahead l t ifyes ifno = (.ok ifno, l') ∧ rest l' = [] ∧ Ready l' := by
  obtain ⟨l', hget, hrest, hready⟩ := get_nil h hr
  exact ⟨l', by rw [lookahead, hget], hrest, hready⟩

theorem lookahead_self (ifyes ifno : Tok) (hr : rest l = c :: r) (hc : c ≠ ReplacementChar) :
    ∃ l', lookahead l c ifyes ifno = (.ok ifyes, l') ∧ Taken r l' := by
  obtain ⟨l', hget, htaken⟩ := get_cons hr hc
  exact ⟨l', by rw [lookahead, hget]; simp, htaken⟩

/-- Another character is pushed back, but for the zero character, which is lost. -/
theorem lookahead_other {t : Char} (ifyes ifno : Tok) (hr : rest l = c :: r)
    (hc : c ≠ ReplacementChar) (hne : c ≠ t) :
    ∃ l', lookahead l t ifyes ifno = (.ok ifno, l') ∧ rest l' = (if c = '\x00' then r else c :: r) ∧ Ready l' := by
  obtain ⟨l', hget, htaken⟩ := get_cons hr hc
  exact ⟨pushback c l', by simp only [lookahead, hget, if_neg hne], htaken.pushback_rest, hc⟩

theorem lookahead_replacement (t : Char) (ifyes ifno : Tok) (h : Ready l) (hr : rest l = ReplacementChar :: r) :
    ∃ e l', lookahead l t ifyes ifno = (.error e, l') := by
  obtain ⟨e, l', hget, -⟩ := get_replacement h hr
  exact ⟨e, l', by rw [lookahead, hget]⟩

end reads

/-! ### Spaces and comments -/

/-- What is left behind spaces and comments, unless a character is none; the flag says that a
comment has begun. -/
def skip : Bool → Text → Option Text
  | _, [] => some []
  | false, c :: r =>
    if c = ReplacementChar then none
    else if IsSpace c then skip false r
    else if c = '#' then skip true r
    else some (c :: r)
  | true, c :: r =>
    if c = ReplacementChar then none else if c = '\n' then skip false r else skip true r

section spaces
variable {l : yyLexState} {n : ℕ}

theorem skip_comment_of_rest (h : Ready l) (hn : (rest l).length < n) :
    (∃ e l', skip_comment n l = (some e, l') ∧ skip true (rest l) = none) ∨
      ∃ l', skip_comment n l = (none, l') ∧ Ready l' ∧ (rest l').length ≤ (rest l).length ∧
        skip false (rest l') = skip true (rest l) := by
  induction n generalizing l with
  | zero => exact absurd hn (Nat.not_lt_zero _)
  | succ n ih =>
    cases hr : rest l with
    | nil =>
      obtain ⟨l', hget, hrest, hready⟩ := get_nil h hr
      exact .inr ⟨l', by rw [skip_comment, hget], hready, by rw [hrest], by rw [hrest]; rfl⟩
    | cons c r =>
      rw [hr, List.length_cons] at hn
      by_cases hc : c = ReplacementChar
      · subst hc
        obtain ⟨e, l', hget, -⟩ := get_replacement h hr
        exact .inl ⟨e, l', by rw [skip_comment, hget], by simp [skip]⟩
      · obtain ⟨l', hget, htaken⟩ := get_cons hr hc
        by_cases hline : c = '\n'
        · refine .inr ⟨l', by simp [skip_comment, hget, hline], htaken.ready, ?_, ?_⟩
          · rw [htaken.rest]
            exact Nat.le_succ _
          · rw [htaken.rest, skip, if_neg hc, if_pos hline]
        · have hturn : skip_comment (n + 1) l = skip_comment n l' := by
            simp [skip_comment, hget, hline]
          have hskip : skip true (c :: r) = skip true (rest l') := by
            rw [htaken.rest, skip, if_neg hc, if_neg hline]
          rw [hturn, hskip]
          rcases ih htaken.ready (by rw [htaken.rest]; omega) with hfail | ⟨l'', hdone, hready, hlen, heq⟩
          · exact .inl hfail
          · refine .inr ⟨l'', hdone, hready, hlen.trans ?_, heq⟩
            rw [htaken.rest]
            exact Nat.le_succ _

/-- What a skip over spaces comes to, by the text that it leaves. -/
def SkipsTo (n : ℕ) (l : yyLexState) : Option Text → Prop
  | none => ∃ e l', skip_space n l = (.err e, l')
  | some [] => ∃ l', skip_space n l = (.eof, l')
  | some (c :: r) => ∃ l', skip_space n l = (.rune c, l') ∧ Taken r l' ∧ c ≠ ReplacementChar

theorem SkipsTo.of_eq {m : ℕ} {l' : yyLexState} (h : skip_space n l = skip_space m l') {left : Option Text}
    (hskips : SkipsTo m l' left) : SkipsTo n l left := by
  unfold SkipsTo at *
  rwa [h]

theorem skip_space_of_rest (h : Ready l) (hn : (rest l).length < n) : SkipsTo n l (skip false (rest l)) := by
  induction n generalizing l with
  | zero => exact absurd hn (Nat.not_lt_zero _)
  | succ n ih =>
    cases hr : rest l with
    | nil =>
      obtain ⟨l', hget, -, -⟩ := get_nil h hr
      exact ⟨l', by rw [skip_space, hget]⟩
    | cons c r =>
      rw [hr, List.length_cons] at hn
      rw [skip]
      split_ifs with hc hspace hcomment
      · subst hc
        obtain ⟨e, l', hget, -⟩ := get_replacement h hr
        exact ⟨e, l', by rw [skip_space, hget]⟩
      · obtain ⟨l', hget, htaken⟩ := get_cons hr hc
        have hturn : skip_space (n + 1) l = skip_space n l' := by simp [skip_space, hget, hspace]
        rw [← htaken.rest]
        exact .of_eq hturn (ih htaken.ready (by rw [htaken.rest]; omega))
      · obtain ⟨l', hget, htaken⟩ := get_cons hr hc
        have hturn : skip_space (n + 1) l = match skip_comment n l' with
            | (some e, l) => (.err e, l)
            | (none, l) => skip_space n l := by
          simp only [skip_space, hget, if_neg hspace, if_neg (not_not_intro hcomment)]
        rcases skip_comment_of_rest htaken.ready (n := n) (by rw [htaken.rest]; omega) with
          ⟨e, l'', hfail, hnone⟩ | ⟨l'', hdone, hready, hlen, heq⟩
        · rw [← htaken.rest, hnone]
          exact ⟨e, l'', by rw [hturn, hfail]⟩
        · rw [← htaken.rest, ← heq]
          exact .of_eq (by rw [hturn, hdone]) (ih hready (by rw [htaken.rest] at hlen; omega))
      · obtain ⟨l', hget, htaken⟩ := get_cons hr hc
        exact ⟨l', by simp [skip_space, hget, hspace, hcomment], htaken, hc⟩

end spaces

/-! ### Numerals -/

section numerals
variable {l : yyLexState} {n : ℕ} {ui64 ds r : Text} {t : Char}

theorem not_ends_numeral {c : Char} (h : c.isDigit) : ¬ (c.toNat > 127 ∨ ¬ c.isDigit) := by
  have hle := GoTexts.digit_le h
  simp only [h, not_true, or_false]
  have hzero : '0'.toNat = 48 := rfl
  omega

theorem digit_ne_replacement {c : Char} (h : c.isDigit) : c ≠ ReplacementChar := by
  rintro rfl
  exact absurd h (by decide)

/-- A digit that there is room for. -/
theorem scan_uint64_digit {c : Char} (n : ℕ) (ui64 : Text) (htaken : Taken (c :: r) l) (hc : c.isDigit) (hlen : ui64.length < 20) :
    ∃ l', Taken r l' ∧ scan_uint64 (n + 1) ui64 l = scan_uint64 n (ui64 ++ [c]) l' := by
  obtain ⟨l', hget, htaken'⟩ := get_cons htaken.rest (digit_ne_replacement hc)
  refine ⟨l', htaken', ?_⟩
  rw [scan_uint64, hget]
  simp only [if_neg (not_ends_numeral hc), if_neg (show ¬ ui64.length + 1 > 20 by omega)]

theorem scan_uint64_eof (htaken : Taken ds l) (hds : ∀ c ∈ ds, c.isDigit) (hlen : ui64.length + ds.length ≤ 20)
    (hn : ds.length < n) : ∃ l', scan_uint64 n ui64 l = (uint64_tok (ui64 ++ ds), l') ∧ rest l' = [] := by
  induction ds generalizing l n ui64 with
  | nil =>
    obtain ⟨n, rfl⟩ := Nat.exists_eq_add_one.mpr hn
    obtain ⟨l', hget, hrest, -⟩ := get_nil htaken.ready htaken.rest
    exact ⟨l', by rw [scan_uint64, hget, List.append_nil], hrest⟩
  | cons c ds ih =>
    obtain ⟨n, rfl⟩ := Nat.exists_eq_add_one.mpr (Nat.zero_lt_of_lt hn)
    rw [List.forall_mem_cons] at hds
    rw [List.length_cons] at hlen hn
    obtain ⟨l', htaken', hturn⟩ := scan_uint64_digit n ui64 htaken hds.1 (by omega)
    rw [hturn, List.append_cons ui64 c ds]
    refine ih htaken' hds.2 ?_ (Nat.lt_of_succ_lt_succ hn)
    rw [List.length_append, List.length_singleton]
    omega

theorem scan_uint64_stop (htaken : Taken (ds ++ t :: r) l) (hds : ∀ c ∈ ds, c.isDigit) (ht : ¬ t.isDigit)
    (ht' : t ≠ ReplacementChar) (hlen : ui64.length + ds.length < 20) (hn : ds.length < n) :
    ∃ l', scan_uint64 n ui64 l = (uint64_tok (ui64 ++ ds), l') ∧ rest l' = if t = '\x00' then r else t :: r := by
  induction ds generalizing l n ui64 with
  | nil =>
    obtain ⟨n, rfl⟩ := Nat.exists_eq_add_one.mpr hn
    obtain ⟨l', hget, htaken'⟩ := get_cons htaken.rest ht'
    refine ⟨pushback t l', ?_, htaken'.pushback_rest⟩
    rw [List.length_nil] at hlen
    rw [scan_uint64, hget, List.append_nil]
    simp only [if_neg (show ¬ ui64.length + 1 > 20 by omega), if_pos (Or.inr ht)]
  | cons c ds ih =>
    obtain ⟨n, rfl⟩ := Nat.exists_eq_add_one.mpr (Nat.zero_lt_of_lt hn)
    rw [List.forall_mem_cons] at hds
    rw [List.length_cons] at hlen hn
    obtain ⟨l', htaken', hturn⟩ := scan_uint64_digit n ui64 htaken hds.1 (by omega)
    rw [hturn, List.append_cons ui64 c ds]
    refine ih htaken' hds.2 ?_ (Nat.lt_of_succ_lt_succ hn)
    rw [List.length_append, List.length_singleton]
    omega

/-- The character behind the digits counts as one of them, and must be one. -/
theorem scan_uint64_fails {tail : Text} (htaken : Taken (ds ++ tail) l) (hds : ∀ c ∈ ds, c.isDigit)
    (hroom : ui64.length ≤ 20)
    (hlong : 20 < ui64.length + ds.length ∨ ∃ t r, tail = t :: r ∧
      (20 ≤ ui64.length + ds.length ∨ t = ReplacementChar)) (hn : ds.length < n) :
    ∃ e l', scan_uint64 n ui64 l = (.error e, l') := by
  induction ds generalizing l n ui64 with
  | nil =>
    obtain ⟨n, rfl⟩ := Nat.exists_eq_add_one.mpr hn
    rw [List.length_nil] at hlong
    obtain ⟨t, r, rfl, hstop⟩ := hlong.resolve_left (by omega)
    by_cases ht : t = ReplacementChar
    · subst ht
      obtain ⟨e, l', hget, -⟩ := get_replacement htaken.ready htaken.rest
      exact ⟨e, l', by rw [scan_uint64, hget]⟩
    · obtain ⟨l', hget, -⟩ := get_cons htaken.rest ht
      have hfull : ui64.length + 1 > 20 := by have := hstop.resolve_right ht; omega
      exact ⟨_, l', by rw [scan_uint64, hget]; simp only [if_pos hfull]; rfl⟩
  | cons c ds ih =>
    obtain ⟨n, rfl⟩ := Nat.exists_eq_add_one.mpr (Nat.zero_lt_of_lt hn)
    rw [List.forall_mem_cons] at hds
    rw [List.length_cons] at hlong hn
    by_cases hlen : ui64.length < 20
    · obtain ⟨l', htaken', hturn⟩ := scan_uint64_digit n ui64 htaken hds.1 hlen
      rw [hturn]
      refine ih htaken' hds.2 ?_ ?_ (Nat.lt_of_succ_lt_succ hn)
      · rw [List.length_append, List.length_singleton]
        omega
      rw [List.length_append, List.length_singleton, Nat.add_assoc, Nat.add_comm 1]
      exact hlong
    · obtain ⟨l', hget, -⟩ := get_cons htaken.rest (digit_ne_replacement hds.1)
      exact ⟨_, l', by rw [scan_uint64, hget]; simp only [if_pos (show ui64.length + 1 > 20 by omega)]; rfl⟩

end numerals

/-! ### Tokens -/

/-- A number, or one of `==`, `=`, `=~`, `!=` and `!~`. -/
def Tok.IsSpecial : Tok → Bool
  | .UINT64 _ | .EQ | .MATCH | .NEQ | .NO_MATCH => true
  | .char c => c = '='
  | _ => false

/-- The operator that a text starts with, and what follows it. -/
def operator : Text → Option (Tok × Text)
  | '=' :: '=' :: r => some (.EQ, r)
  | '=' :: '~' :: r => some (.MATCH, r)
  | '=' :: r => some (.char '=', r)
  | '!' :: '=' :: r => some (.NEQ, r)
  | '!' :: '~' :: r => some (.NO_MATCH, r)
  | _ => none

def numeral (cs : Text) : Text := cs.takeWhile Char.isDigit

/-- The token of some digits, whose text goes on with the tail. -/
def NumeralRight (tok : Tok) (left ds tail : Text) : Prop :=
  if GoTexts.decimal ds < 2 ^ 64 then tok = .UINT64 (GoTexts.decimal ds) ∧ left = tail else tok = .PARSE_ERROR

def OperatorRight (tok : Tok) (left cs : Text) : Prop :=
  match operator cs with
  | some (op, r) => tok = op ∧ left = r
  | none => ¬ tok.IsSpecial

/-- What a token is to be, and to leave, for a text without spaces before it. -/
def TokenRight (tok : Tok) (left cs : Text) : Prop :=
  if numeral cs ≠ [] then NumeralRight tok left (numeral cs) (cs.dropWhile Char.isDigit)
  else OperatorRight tok left cs

/-- A call of the lexer makes numbers and operators just of what stands for them. -/
def LexRight (d : Declared) (l : yyLexState) : Prop :=
  match skip false (rest l) with
  | some cs => TokenRight (Lex d l).1 (rest (Lex d l).2) cs
  | none => ¬ (Lex d l).1.IsSpecial

/-- The character behind a token can be given back. -/
def CanFollow (t : Char) : Prop := t ≠ '\x00' ∧ t ≠ ReplacementChar

/-- Nineteen digits, or twenty at the end of the stream; any number that is too large. -/
def ReadableNumeral (ds tail : Text) : Prop :=
  2 ^ 64 ≤ GoTexts.decimal ds ∨
    match tail with
    | [] => ds.length ≤ 20
    | t :: _ => ds.length < 20 ∧ CanFollow t

/-- No exclamation mark for itself, unless what follows it is no character. -/
def ReadableOperator : Text → Prop
  | '=' :: t :: _ => CanFollow t
  | ['!'] => False
  | '!' :: t :: r => t ∈ ['=', '~', ReplacementChar] ∨ t = '\x00' ∧ r.head? = some ReplacementChar
  | _ => True

/-- The texts whose first token the lexer gets right. -/
def Readable (cs : Text) : Prop :=
  if numeral cs ≠ [] then ReadableNumeral (numeral cs) (cs.dropWhile Char.isDigit) else ReadableOperator cs

section tokens
variable {d : Declared} {l l' : yyLexState} {n : ℕ} {tok : Tok} {w r : Text} {c : Char}

theorem word_tok_not_special (h : word_tok d w l = .ok tok) : ¬ tok.IsSpecial := by
  unfold word_tok at h
  split_ifs at h
  · obtain rfl := Except.ok.inj h
    exact Bool.false_ne_true
  all_goals
    split at h
    · obtain rfl := Except.ok.inj h
      exact Bool.false_ne_true
    · cases h
      all_goals exact Bool.false_ne_true

theorem scan_word_not_special (h : (scan_word d n w l).1 = .ok tok) : ¬ tok.IsSpecial := by
  induction n generalizing w l with
  | zero => exact word_tok_not_special h
  | succ n ih =>
    rw [scan_word] at h
    split at h
    · cases h
    · exact word_tok_not_special h
    · split_ifs at h
      · exact word_tok_not_special h
      · exact ih h

theorem or_error_not_special {res : Except Text Tok × yyLexState}
    (h : ∀ tok, res.1 = .ok tok → ¬ tok.IsSpecial) : ¬ (or_error res).1.IsSpecial := by
  obtain ⟨res, l⟩ := res
  cases res with
  | error e => exact Bool.false_ne_true
  | ok tok => exact h tok rfl

theorem string_tok_not_special (lno : ℕ) (unended : Text) (res : Except Text (Option Text) × yyLexState) :
    ¬ (string_tok lno unended res).1.IsSpecial := by
  obtain ⟨res, l⟩ := res
  rcases res with e | (_ | s)
  · exact Bool.false_ne_true
  · exact Bool.false_ne_true
  · exact Bool.false_ne_true

/-- Nothing else is taken for a number or an operator. -/
theorem lex_char_not_special (hdigit : ¬ c.isDigit) (heq : c ≠ '=') (hnot : c ≠ '!') :
    ¬ (lex_char d c l).1.IsSpecial := by
  unfold lex_char
  simp only [if_neg hdigit, if_neg heq, if_neg hnot]
  split_ifs
  · exact Bool.false_ne_true
  · exact or_error_not_special fun tok h => scan_word_not_special h
  · exact string_tok_not_special _ _ _
  · exact string_tok_not_special _ _ _
  · simpa [Tok.IsSpecial] using heq

theorem uint64_tok_eq (hne : w ≠ []) (hw : ∀ c ∈ w, c.isDigit) :
    uint64_tok w = if GoTexts.decimal w < 2 ^ 64 then .ok (.UINT64 (GoTexts.decimal w))
      else .error ("strconv.ParseUint: parsing \"".toList ++ w ++ "\": value out of range".toList) := by
  have hall : w.all Char.isDigit = true := List.all_eq_true.mpr hw
  unfold uint64_tok GoTexts.parse_uint
  simp only [hne, hall, ne_eq, not_false_eq_true, true_and]
  split_ifs <;> rfl

/-- The digits come to an end the lexer has room for. -/
def Ended (ds : Text) : Text → Prop
  | [] => ds.length ≤ 20
  | t :: _ => ds.length < 20 ∧ t ≠ ReplacementChar

variable {ds tail : Text}

theorem scan_ended (htaken : Taken (ds ++ tail) l) (hds : ∀ t ∈ ds, t.isDigit)
    (htail : ∀ t ∈ tail.head?, ¬ t.isDigit) (hn : ds.length < n) (hended : Ended (c :: ds) tail) :
    ∃ l', scan_uint64 n [c] l = (uint64_tok (c :: ds), l') ∧ (rest l' = tail ↔ tail.head? ≠ some '\x00') := by
  cases tail with
  | nil =>
    have hroom : [c].length + ds.length ≤ 20 := by simpa [Ended, Nat.add_comm] using hended
    rw [List.append_nil] at htaken
    obtain ⟨l', hscan, hrest⟩ := scan_uint64_eof htaken hds hroom hn
    exact ⟨l', hscan, by simp [hrest]⟩
  | cons t tail =>
    have hroom : [c].length + ds.length < 20 := by simpa [Nat.add_comm] using hended.1
    obtain ⟨l', hscan, hrest⟩ := scan_uint64_stop htaken hds (htail t rfl) hended.2 hroom hn
    refine ⟨l', hscan, ?_⟩
    rw [hrest]
    split_ifs with ht
    · simp [ht]
    · simp [ht]

theorem scan_not_ended (htaken : Taken (ds ++ tail) l) (hds : ∀ t ∈ ds, t.isDigit) (hn : ds.length < n)
    (hended : ¬ Ended (c :: ds) tail) : ∃ e l', scan_uint64 n [c] l = (.error e, l') := by
  have hlen : [c].length + ds.length = (c :: ds).length := by simp [Nat.add_comm]
  refine scan_uint64_fails htaken hds (Nat.succ_le_succ (Nat.zero_le 19)) ?_ hn
  rw [hlen]
  cases tail with
  | nil => exact .inl (not_le.mp hended)
  | cons t tail =>
    rw [Ended, not_and_or, not_lt, not_not] at hended
    exact .inr ⟨t, tail, rfl, hended⟩

theorem readable_numeral_iff (h : ¬ 2 ^ 64 ≤ GoTexts.decimal ds) :
    ReadableNumeral ds tail ↔ Ended ds tail ∧ tail.head? ≠ some '\x00' := by
  rw [ReadableNumeral.eq_def, or_iff_right h]
  cases tail with
  | nil => simp [Ended]
  | cons t tail =>
    simp only [Ended, CanFollow, List.head?_cons, ne_eq, Option.some.injEq]
    tauto

/-- The digits behind the first one are read as a number just when there is room for them, and what
follows them can be given back. -/
theorem numeral_right_iff (hc : c.isDigit) (htaken : Taken (ds ++ tail) l)
    (hds : ∀ t ∈ ds, t.isDigit) (htail : ∀ t ∈ tail.head?, ¬ t.isDigit) (hn : ds.length < n) :
    NumeralRight (or_error (scan_uint64 n [c] l)).1 (rest (or_error (scan_uint64 n [c] l)).2) (c :: ds) tail ↔
      ReadableNumeral (c :: ds) tail := by
  have htok := uint64_tok_eq (List.cons_ne_nil c ds) (List.forall_mem_cons.mpr ⟨hc, hds⟩)
  rw [NumeralRight]
  by_cases hbig : 2 ^ 64 ≤ GoTexts.decimal (c :: ds)
  · rw [if_neg (not_lt.mpr hbig)] at htok ⊢
    refine iff_of_true ?_ (.inl hbig)
    by_cases hended : Ended (c :: ds) tail
    · obtain ⟨l', hscan, -⟩ := scan_ended htaken hds htail hn hended
      rw [hscan, htok]
      rfl
    · obtain ⟨e, l', hscan⟩ := scan_not_ended htaken hds hn hended
      rw [hscan]
      rfl
  · rw [if_pos (not_le.mp hbig)] at htok ⊢
    rw [readable_numeral_iff hbig]
    by_cases hended : Ended (c :: ds) tail
    · obtain ⟨l', hscan, hrest⟩ := scan_ended htaken hds htail hn hended
      rw [hscan, htok, or_error, hrest]
      simp [hended]
    · obtain ⟨e, l', hscan⟩ := scan_not_ended htaken hds hn hended
      rw [hscan, or_error]
      simp [hended]

/-! ### Operators -/

/-- The zero character cannot be given back. -/
def given_back (r : Text) : Text :=
  if r.head? = some '\x00' then r.tail else r

/-- The second look, for a tilde. -/
def second_look (regexp : Tok) (r : Text) : Tok × Text :=
  if r.head? = some '~' then (regexp, r.tail)
  else if r.head? = some ReplacementChar then (.PARSE_ERROR, [])
  else (.char '=', given_back r)

/-- What both looks come to, and leave unless they fail. -/
def two_looks (equal regexp : Tok) (r : Text) : Tok × Text :=
  if r.head? = some '=' then (equal, r.tail)
  else if r.head? = some ReplacementChar then (.PARSE_ERROR, [])
  else second_look regexp (given_back r)

theorem lookahead_of_rest {t : Char} (ifyes ifno : Tok) (h : Ready l) (ht : t ≠ ReplacementChar) :
    if (rest l).head? = some ReplacementChar then ∃ e l', lookahead l t ifyes ifno = (.error e, l')
    else if (rest l).head? = some t then
      ∃ l', lookahead l t ifyes ifno = (.ok ifyes, l') ∧ rest l' = (rest l).tail ∧ Ready l'
    else ∃ l', lookahead l t ifyes ifno = (.ok ifno, l') ∧ rest l' = given_back (rest l) ∧ Ready l' := by
  cases hr : rest l with
  | nil => exact lookahead_nil t ifyes ifno h hr
  | cons c r =>
    simp only [List.head?_cons, Option.some.injEq, List.tail_cons, given_back]
    split_ifs with hc hct hzero
    · exact lookahead_replacement t ifyes ifno h (hc ▸ hr)
    · subst hct
      obtain ⟨l', hlook, htaken⟩ := lookahead_self ifyes ifno hr hc
      exact ⟨l', hlook, htaken.rest, htaken.ready⟩
    · obtain ⟨l', hlook, hrest, hready⟩ := lookahead_other ifyes ifno hr hc hct
      exact ⟨l', hlook, by rw [hrest, if_pos hzero], hready⟩
    · obtain ⟨l', hlook, hrest, hready⟩ := lookahead_other ifyes ifno hr hc hct
      exact ⟨l', hlook, by rw [hrest, if_neg hzero], hready⟩

/-- A token that is not that of an error comes with what it leaves. -/
def Makes (res : Tok × yyLexState) (made : Tok × Text) : Prop :=
  res.1 = made.1 ∧ (made.1 ≠ .PARSE_ERROR → rest res.2 = made.2)

theorem second_look_of_rest (regexp : Tok) (h : Ready l) :
    Makes (or_error (lookahead l '~' regexp (.char '='))) (second_look regexp (rest l)) := by
  have hlook := lookahead_of_rest regexp (.char '=') h (t := '~') (by decide)
  have hne : some ReplacementChar ≠ some '~' := by decide
  unfold second_look
  by_cases hbad : (rest l).head? = some ReplacementChar
  · obtain ⟨e, l', hlook⟩ := by simpa only [if_pos hbad] using hlook
    rw [hlook, hbad, if_neg hne, if_pos rfl]
    exact ⟨rfl, fun hne => absurd rfl hne⟩
  · rw [if_neg hbad] at hlook ⊢
    split_ifs at hlook ⊢
    · obtain ⟨l', hlook, hrest, -⟩ := hlook
      rw [hlook]
      exact ⟨rfl, fun _ => hrest⟩
    · obtain ⟨l', hlook, hrest, -⟩ := hlook
      rw [hlook]
      exact ⟨rfl, fun _ => hrest⟩

theorem lex_operator_of_rest (equal regexp : Tok) (hequal : equal ≠ .eof) (h : Ready l) :
    Makes (lex_operator equal regexp l) (two_looks equal regexp (rest l)) := by
  have hlook := lookahead_of_rest equal .eof h (t := '=') (by decide)
  have hne : some ReplacementChar ≠ some '=' := by decide
  unfold two_looks lex_operator
  by_cases hbad : (rest l).head? = some ReplacementChar
  · obtain ⟨e, l', hlook⟩ := by simpa only [if_pos hbad] using hlook
    rw [hlook, hbad, if_neg hne, if_pos rfl]
    exact ⟨rfl, fun hne => absurd rfl hne⟩
  · rw [if_neg hbad] at hlook ⊢
    split_ifs at hlook ⊢
    · obtain ⟨l', hlook, hrest, -⟩ := hlook
      rw [hlook]
      simp only [if_true]
      exact ⟨rfl, fun _ => hrest⟩
    · obtain ⟨l', hlook, hrest, hready⟩ := hlook
      rw [hlook, ← hrest]
      simp only [if_neg hequal.symm]
      exact second_look_of_rest regexp hready

theorem length_given_back (r : Text) : (given_back r).length ≤ r.length := by
  unfold given_back
  split_ifs
  · exact (List.length_tail ▸ Nat.sub_le _ _)
  · exact le_rfl

/-- Whatever follows a zero character, one look at least is wrong. -/
theorem second_look_lost (regexp : Tok) (hregexp : regexp ≠ .char '=') (t : Char) (r : Text) :
    second_look regexp r ≠ (.char '=', t :: r) := by
  unfold second_look
  intro h
  split_ifs at h
  · exact hregexp (Prod.mk.inj h).1
  · cases (Prod.mk.inj h).1
  · have hlen := length_given_back r
    rw [(Prod.mk.inj h).2, List.length_cons] at hlen
    omega

theorem operator_ne_error {cs left : Text} {op : Tok} (h : operator cs = some (op, left)) : op ≠ .PARSE_ERROR := by
  unfold operator at h
  split at h
  · cases h
    exact Tok.noConfusion
  · cases h
    exact Tok.noConfusion
  · cases h
    exact Tok.noConfusion
  · cases h
    exact Tok.noConfusion
  · cases h
    exact Tok.noConfusion
  · cases h

/-- What is left behind an error does not matter. -/
theorem Makes.right_iff {res : Tok × yyLexState} {made : Tok × Text} (h : Makes res made) (cs : Text) :
    OperatorRight res.1 (rest res.2) cs ↔ OperatorRight made.1 made.2 cs := by
  unfold OperatorRight
  rw [h.1]
  cases hop : operator cs with
  | none => rfl
  | some op =>
    obtain ⟨op, left⟩ := op
    by_cases herr : made.1 = .PARSE_ERROR
    · have hne := (operator_ne_error hop).symm
      simp only [herr, hne, false_and]
    · rw [h.2 herr]

theorem two_looks_equal (r : Text) :
    OperatorRight (two_looks .EQ .MATCH r).1 (two_looks .EQ .MATCH r).2 ('=' :: r) ↔ ReadableOperator ('=' :: r) := by
  rcases r with _ | ⟨t, r⟩
  · simp [OperatorRight, operator, two_looks, second_look, given_back, ReadableOperator]
  by_cases heq : t = '='
  · subst heq
    simp [OperatorRight, operator, two_looks, ReadableOperator, CanFollow, ReplacementChar]
  by_cases htilde : t = '~'
  · subst htilde
    simp [OperatorRight, operator, two_looks, second_look, given_back, ReadableOperator, CanFollow, ReplacementChar]
  have hop : operator ('=' :: t :: r) = some (.char '=', t :: r) := by simp [operator, heq, htilde]
  simp only [OperatorRight, hop, ReadableOperator, CanFollow]
  by_cases hbad : t = ReplacementChar
  · subst hbad
    simp [two_looks, heq]
  by_cases hzero : t = '\x00'
  · subst hzero
    have hlost := second_look_lost .MATCH Tok.noConfusion '\x00' r
    rw [Ne, Prod.ext_iff] at hlost
    simpa [two_looks, heq, hbad, given_back] using hlost
  · simp [two_looks, second_look, given_back, heq, htilde, hbad, hzero]

/-- A second look that finds no tilde ends in the token of the equal sign, unless it fails. -/
theorem second_look_special (r : Text) :
    ¬ (second_look .NO_MATCH r).1.IsSpecial ↔ r.head? = some ReplacementChar := by
  unfold second_look
  split_ifs with htilde hbad
  · rw [htilde]
    exact iff_of_false (not_not_intro rfl) (by decide)
  · exact iff_of_true Bool.false_ne_true hbad
  · simp [Tok.IsSpecial, hbad]

theorem two_looks_not (r : Text) :
    OperatorRight (two_looks .NEQ .NO_MATCH r).1 (two_looks .NEQ .NO_MATCH r).2 ('!' :: r) ↔
      ReadableOperator ('!' :: r) := by
  rcases r with _ | ⟨t, r⟩
  · simp [OperatorRight, operator, two_looks, second_look, given_back, ReadableOperator, Tok.IsSpecial]
  by_cases heq : t = '='
  · subst heq
    simp [OperatorRight, operator, two_looks, ReadableOperator]
  by_cases htilde : t = '~'
  · subst htilde
    simp [OperatorRight, operator, two_looks, second_look, given_back, ReadableOperator, ReplacementChar]
  have hop : operator ('!' :: t :: r) = none := by simp [operator, heq, htilde]
  simp only [OperatorRight, hop, ReadableOperator]
  by_cases hbad : t = ReplacementChar
  · subst hbad
    simp [two_looks, heq, Tok.IsSpecial]
  by_cases hzero : t = '\x00'
  · subst hzero
    have hlook : two_looks .NEQ .NO_MATCH ('\x00' :: r) = second_look .NO_MATCH r := by
      simp [two_looks, given_back, heq, hbad]
    rw [hlook, second_look_special]
    simp [heq, htilde, hbad]
  · simp [two_looks, second_look, given_back, heq, htilde, hbad, hzero, Tok.IsSpecial]

/-! ### A call -/

theorem digit_not_alpha (hc : c.isDigit) : ¬ (c.isAlpha ∨ c = '_') := by
  rintro (halpha | rfl)
  · exact DecimalNumerals.not_isAlpha_of_isDigit hc halpha
  · exact absurd hc (by decide)

theorem lex_char_digit (d : Declared) (l : yyLexState) (hc : c.isDigit) :
    lex_char d c l = or_error (scan_uint64 ((rest l).length + 1) [c] l) := by
  have hascii : ¬ c.toNat > 127 := fun h => not_ends_numeral hc (.inl h)
  simp only [lex_char, if_neg hascii, if_neg (digit_not_alpha hc), if_pos hc]

theorem lex_char_right_iff (d : Declared) (htaken : Taken r l) :
    TokenRight (lex_char d c l).1 (rest (lex_char d c l).2) (c :: r) ↔ Readable (c :: r) := by
  unfold TokenRight Readable
  by_cases hc : c.isDigit
  · have hnum : numeral (c :: r) = c :: r.takeWhile Char.isDigit := List.takeWhile_cons_of_pos hc
    have htail : (c :: r).dropWhile Char.isDigit = r.dropWhile Char.isDigit := List.dropWhile_cons_of_pos hc
    rw [hnum, htail, if_pos (List.cons_ne_nil _ _), if_pos (List.cons_ne_nil _ _), lex_char_digit d l hc, htaken.rest]
    refine numeral_right_iff hc ?_ ?_ ?_ ?_
    · rw [List.takeWhile_append_dropWhile]
      exact htaken
    · exact List.all_eq_true.mp List.all_takeWhile
    · intro t ht
      have hhead := List.head?_dropWhile_not Char.isDigit r
      rw [Option.mem_def.mp ht] at hhead
      exact Bool.eq_false_iff.mp hhead
    · exact Nat.lt_succ_of_le (List.takeWhile_sublist Char.isDigit).length_le
  · have hnum : numeral (c :: r) = [] := List.takeWhile_cons_of_neg hc
    simp only [hnum, ne_eq, not_true, if_false]
    by_cases heq : c = '='
    · subst heq
      have hmakes := lex_operator_of_rest .EQ .MATCH Tok.noConfusion htaken.ready
      rw [htaken.rest] at hmakes
      exact (hmakes.right_iff _).trans (two_looks_equal r)
    by_cases hnot : c = '!'
    · subst hnot
      have hmakes := lex_operator_of_rest .NEQ .NO_MATCH Tok.noConfusion htaken.ready
      rw [htaken.rest] at hmakes
      exact (hmakes.right_iff _).trans (two_looks_not r)
    have hop : operator (c :: r) = none := by
      unfold operator
      split <;> simp_all
    have hread : ReadableOperator (c :: r) := by
      unfold ReadableOperator
      split <;> simp_all
    refine iff_of_true ?_ hread
    rw [OperatorRight, hop]
    exact lex_char_not_special hc heq hnot

theorem lex_right_of_ready (d : Declared) (hready : Ready l) (herr : l.err = none) :
    LexRight d l ↔ ∀ cs, skip false (rest l) = some cs → Readable cs := by
  have hstart : Lex d l = if l.eof then (.eof, l) else
      match skip_space ((rest l).length + 1) l with
      | (.err e, l) => (.PARSE_ERROR, { l with err := some e })
      | (.eof, l) => (.eof, l)
      | (.rune c, l) => lex_char d c l := by
    rw [Lex, herr]
    rfl
  rw [LexRight, hstart]
  by_cases heof : l.eof = true
  · have hrest : rest l = [] := if_pos heof
    rw [if_pos heof, hrest]
    simp only [skip, Option.some.injEq, forall_eq']
    exact iff_of_true Bool.false_ne_true trivial
  rw [if_neg heof]
  have hskips := skip_space_of_rest hready (Nat.lt_succ_self (rest l).length)
  cases hskip : skip false (rest l) with
  | none =>
    rw [hskip] at hskips
    obtain ⟨e, l', hspace⟩ := hskips
    rw [hspace]
    exact iff_of_true Bool.false_ne_true fun cs h => absurd h (Option.some_ne_none cs).symm
  | some cs =>
    rw [hskip] at hskips
    simp only [Option.some.injEq, forall_eq']
    rcases cs with _ | ⟨c, r⟩
    · obtain ⟨l', hspace⟩ := hskips
      rw [hspace]
      exact iff_of_true Bool.false_ne_true trivial
    · obtain ⟨l', hspace, htaken, -⟩ := hskips
      rw [hspace]
      exact lex_char_right_iff d htaken

end tokens

/-! ### All calls on a stream -/

section calls
variable {l l' : yyLexState} {c : Char} {n : ℕ}

/-- What a function of the lexer keeps: it goes on in the same stream, and gives back what can be
given back. -/
structure GoesOn (l l' : yyLexState) : Prop where
  suffix : rest l' <:+ rest l
  ready : Ready l'

theorem GoesOn.refl (h : Ready l) : GoesOn l l := ⟨List.suffix_rfl, h⟩

theorem GoesOn.trans {l'' : yyLexState} (h : GoesOn l l') (h' : GoesOn l' l'') : GoesOn l l'' :=
  ⟨h'.suffix.trans h.suffix, h'.ready⟩

/-- What `get` gives: a character, which can be given back, the end, or an error. -/
theorem get_cases (h : Ready l) :
    (∃ c l', get l = (.rune c, l') ∧ GoesOn l l' ∧ GoesOn l (pushback c l')) ∨
      (∃ l', get l = (.eof, l') ∧ GoesOn l l') ∨ ∃ e l', get l = (.err e, l') ∧ GoesOn l l' := by
  cases hr : rest l with
  | nil =>
    obtain ⟨l', hget, hrest, hready⟩ := get_nil h hr
    exact .inr (.inl ⟨l', hget, hr ▸ hrest ▸ List.suffix_rfl, hready⟩)
  | cons c r =>
    by_cases hc : c = ReplacementChar
    · subst hc
      obtain ⟨e, l', hget, htaken⟩ := get_replacement h hr
      refine .inr (.inr ⟨e, l', hget, ?_, htaken.ready⟩)
      rw [htaken.rest, hr]
      exact List.suffix_cons _ r
    · obtain ⟨l', hget, htaken⟩ := get_cons hr hc
      refine .inl ⟨c, l', hget, ⟨?_, htaken.ready⟩, ?_, hc⟩
      · rw [htaken.rest, hr]
        exact List.suffix_cons c r
      · rw [htaken.pushback_rest, hr]
        split_ifs
        · exact List.suffix_cons c r
        · exact List.suffix_rfl

theorem lookahead_goes_on (t : Char) (ifyes ifno : Tok) (h : Ready l) :
    GoesOn l (lookahead l t ifyes ifno).2 := by
  rcases get_cases h with ⟨c, l', hget, hgo, hback⟩ | ⟨l', hget, hgo⟩ | ⟨e, l', hget, hgo⟩
  all_goals rw [lookahead, hget]
  · dsimp only
    split_ifs
    · exact hgo
    · exact hback
  · exact hgo
  · exact hgo

theorem skip_comment_goes_on (h : Ready l) : GoesOn l (skip_comment n l).2 := by
  induction n generalizing l with
  | zero => exact .refl h
  | succ n ih =>
    rcases get_cases h with ⟨c, l', hget, hgo, -⟩ | ⟨l', hget, hgo⟩ | ⟨e, l', hget, hgo⟩
    all_goals rw [skip_comment, hget]
    · dsimp only
      split_ifs
      · exact hgo
      · exact hgo.trans (ih hgo.ready)
    · exact hgo
    · exact hgo

theorem skip_space_goes_on (h : Ready l) : GoesOn l (skip_space n l).2 := by
  induction n generalizing l with
  | zero => exact .refl h
  | succ n ih =>
    rcases get_cases h with ⟨c, l', hget, hgo, -⟩ | ⟨l', hget, hgo⟩ | ⟨e, l', hget, hgo⟩
    all_goals rw [skip_space, hget]
    · dsimp only
      split_ifs
      · exact hgo.trans (ih hgo.ready)
      · exact hgo
      · have hcomment := skip_comment_goes_on (n := n) hgo.ready
        rcases hskip : skip_comment n l' with ⟨_ | e, l''⟩
        all_goals rw [hskip] at hcomment
        · exact (hgo.trans hcomment).trans (ih hcomment.ready)
        · exact hgo.trans hcomment
    · exact hgo
    · exact hgo

theorem scan_word_goes_on {d : Declared} {w : Text} (h : Ready l) : GoesOn l (scan_word d n w l).2 := by
  induction n generalizing w l with
  | zero => exact .refl h
  | succ n ih =>
    rcases get_cases h with ⟨c, l', hget, hgo, hback⟩ | ⟨l', hget, hgo⟩ | ⟨e, l', hget, hgo⟩
    all_goals rw [scan_word, hget]
    · dsimp only
      split_ifs
      · exact hback
      · exact hgo
      · exact hgo.trans (ih hgo.ready)
    · exact hgo
    · exact hgo

theorem scan_uint64_goes_on {ui64 : Text} (h : Ready l) : GoesOn l (scan_uint64 n ui64 l).2 := by
  induction n generalizing ui64 l with
  | zero => exact .refl h
  | succ n ih =>
    rcases get_cases h with ⟨c, l', hget, hgo, hback⟩ | ⟨l', hget, hgo⟩ | ⟨e, l', hget, hgo⟩
    all_goals rw [scan_uint64, hget]
    · dsimp only
      split_ifs
      · exact hgo
      · exact hback
      · exact hgo.trans (ih hgo.ready)
    · exact hgo
    · exact hgo

theorem scan_string_goes_on {s : Text} (h : Ready l) : GoesOn l (scan_string n s l).2 := by
  induction n generalizing s l with
  | zero => exact .refl h
  | succ n ih =>
    rcases get_cases h with ⟨c, l', hget, hgo, -⟩ | ⟨l', hget, hgo⟩ | ⟨e, l', hget, hgo⟩
    all_goals rw [scan_string, hget]
    · dsimp only
      split_ifs
      · exact hgo
      · cases string_error c with
        | some msg => exact hgo
        | none => exact hgo.trans (ih hgo.ready)
    · exact hgo
    · exact hgo

theorem scan_raw_string_goes_on {s : Text} (h : Ready l) : GoesOn l (scan_raw_string n s l).2 := by
  induction n generalizing s l with
  | zero => exact .refl h
  | succ n ih =>
    rcases get_cases h with ⟨c, l', hget, hgo, -⟩ | ⟨l', hget, hgo⟩ | ⟨e, l', hget, hgo⟩
    all_goals rw [scan_raw_string, hget]
    · dsimp only
      split_ifs
      · exact hgo.trans (ih hgo.ready)
      · exact hgo
      · exact hgo.trans (ih hgo.ready)
    · exact hgo
    · exact hgo

theorem or_error_goes_on {res : Except Text Tok × yyLexState} (h : GoesOn l res.2) : GoesOn l (or_error res).2 := by
  obtain ⟨_ | _, l'⟩ := res
  · exact ⟨h.suffix, h.ready⟩
  · exact h

theorem string_tok_goes_on {lno : ℕ} {unended : Text} {res : Except Text (Option Text) × yyLexState}
    (h : GoesOn l res.2) : GoesOn l (string_tok lno unended res).2 := by
  obtain ⟨_ | _ | _, l'⟩ := res
  · exact ⟨h.suffix, h.ready⟩
  · exact ⟨h.suffix, h.ready⟩
  · exact h

theorem lex_operator_goes_on (equal regexp : Tok) (h : Ready l) : GoesOn l (lex_operator equal regexp l).2 := by
  have hequal := lookahead_goes_on '=' equal .eof h
  unfold lex_operator
  rcases hlook : lookahead l '=' equal .eof with ⟨e | tok, l'⟩
  all_goals rw [hlook] at hequal
  · exact ⟨hequal.suffix, hequal.ready⟩
  · dsimp only
    split_ifs
    · exact hequal
    · exact hequal.trans (or_error_goes_on (lookahead_goes_on '~' regexp (.char '=') hequal.ready))

theorem lex_char_goes_on (d : Declared) (c : Char) (h : Ready l) : GoesOn l (lex_char d c l).2 := by
  unfold lex_char
  dsimp only
  split_ifs
  · exact ⟨List.suffix_rfl, h⟩
  · exact or_error_goes_on (scan_word_goes_on h)
  · exact or_error_goes_on (scan_uint64_goes_on h)
  · exact string_tok_goes_on (scan_string_goes_on h)
  · exact string_tok_goes_on (scan_raw_string_goes_on h)
  · exact lex_operator_goes_on _ _ h
  · exact lex_operator_goes_on _ _ h
  · exact .refl h

theorem lex_goes_on (d : Declared) (h : Ready l) : GoesOn l (Lex d l).2 := by
  unfold Lex
  split_ifs
  · exact .refl h
  · exact .refl h
  · have hspace := skip_space_goes_on (n := (rest l).length + 1) h
    rcases hskip : skip_space ((rest l).length + 1) l with ⟨c | _ | e, l'⟩
    all_goals rw [hskip] at hspace
    · exact hspace.trans (lex_char_goes_on d c hspace.ready)
    · exact hspace
    · exact ⟨hspace.suffix, hspace.ready⟩

/-- The lexer of `parse`, which has read nothing yet. -/
def opened (stream : Text) : yyLexState := ⟨stream, false, '\x00', 1, none⟩

/-- The calls on a stream, none behind an error; what is declared may change from one to the next. -/
inductive Calls (stream : Text) : yyLexState → Prop
  | start : Calls stream (opened stream)
  | call {l : yyLexState} (d : Declared) (h : Calls stream l) (herr : (Lex d l).2.err = none) : Calls stream (Lex d l).2

theorem Calls.no_error {stream : Text} (h : Calls stream l) : l.err = none := by
  cases h with
  | start => rfl
  | call d h herr => exact herr

/-- What the lexer has still to read is always an end of the stream. -/
theorem Calls.goes_on {stream : Text} (h : Calls stream l) : GoesOn (opened stream) l := by
  induction h with
  | start => exact .refl (show '\x00' ≠ ReplacementChar by decide)
  | call d _ _ ih => exact ih.trans (lex_goes_on d ih.ready)

/-- Every call on a stream, whatever was called before, makes a number or an operator of the longest
run of digits or of the characters of one, of nothing else, and goes on right behind it, just when
the text it finds is one that the lexer can read. -/
theorem lex_right_iff {stream : Text} (h : Calls stream l) (d : Declared) :
    LexRight d l ↔ ∀ cs, skip false (rest l) = some cs → Readable cs :=
  lex_right_of_ready d h.goes_on.ready h.no_error

def nothing_declared : Declared :=
  ⟨fun _ => false, fun _ => false, fun _ => false, fun _ => false, fun _ => false, fun _ => false, fun _ => false, false⟩

theorem lex_right_iff_eq : LexRight nothing_declared (opened "==7".toList) ↔
    ∀ cs, skip false "==7".toList = some cs → Readable cs :=
  lex_right_iff .start nothing_declared

/-- The largest number is an error before a semicolon. -/
theorem max_uint64_refused : Calls "18446744073709551615;".toList (opened "18446744073709551615;".toList) ∧
    (Lex nothing_declared (opened "18446744073709551615;".toList)).1 = .PARSE_ERROR ∧
      ¬ LexRight nothing_declared (opened "18446744073709551615;".toList) := by
  have htok : (Lex nothing_declared (opened "18446744073709551615;".toList)).1 = .PARSE_ERROR := by decide +kernel
  have hskip : skip false (rest (opened "18446744073709551615;".toList)) = some "18446744073709551615;".toList := by
    decide +kernel
  refine ⟨.start, htok, ?_⟩
  rw [LexRight, hskip]
  simp only [htok]
  rw [TokenRight, if_pos (by decide +kernel), NumeralRight, if_pos (by decide +kernel)]
  exact fun h => Tok.noConfusion h.1

/-- An exclamation mark for itself is the token of an equal sign. -/
example : (Lex nothing_declared (opened "!x".toList)).1 = .char '=' := by decide +kernel

end calls

end Blobio.Flowd.Lexer
