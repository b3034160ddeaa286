import Blobio.HexDigests

/-! The program `bio-frisk-brr`: hand-written scanners of the seven fields of a blob
request record, over one line buffer that is filled again for each line. A byte of
standard input is the character of its code. -/
namespace Blobio

def digits : Text := "0123456789".toList

def lower_alnum : Text := "abcdefghijklmnopqrstuvwxyz0123456789".toList

/-- The graphical characters of ASCII. -/
def graph_set : Text :=
  "!\"#$%&\x27()*+,-./".toList ++ "0123456789:;<=>?".toList ++ "@ABCDEFGHIJKLMNO".toList ++
    "PQRSTUVWXYZ[\\]^_".toList ++ "`abcdefghijklmno".toList ++ "pqrstuvwxyz\x7b|\x7d~".toList

inductive Exit
  | is_brr
  | is_not_brr
  | is_empty
  | error
  deriving DecidableEq

def Exit.status : Exit → ℕ
  | is_brr => 0
  | is_not_brr => 1
  | is_empty => 2
  | error => 3

/-! ### The scanners

Each takes what the buffer holds from its field on, and gives what it holds behind the
field, or nothing where the program calls `sexit`. -/

/-- The C library finds the null that ends the set, too. -/
def strchr (set : Text) (c : Char) : Bool :=
  c = '\x00' || c ∈ set

def scan_char (ok : Char → Bool) : Text → Option Text
  | [] => none
  | c :: p => if ok c then some p else none

def between (lo hi c : Char) : Bool :=
  lo ≤ c && c ≤ hi

def in_set (set : Text) : ℕ → Text → Option Text
  | 0, p => some p
  | _ + 1, [] => none
  | n + 1, c :: p => if c = '\x00' || !strchr set c then none else in_set set n p

/-- The first argument after the set counts the characters seen, the second those that
may still come. -/
def in_range (set : Text) (lower : ℕ) : ℕ → ℕ → Text → Option Text
  | _, 0, p => some p
  | _, _ + 1, [] => none
  | seen, left + 1, c :: p =>
    if strchr set c then in_range set lower (seen + 1) left p
    else if seen + 1 ≤ lower then none
    else some (c :: p)

/-- The test behind the loop of `scan_set`, at the end of the field's width. -/
def scan_end (end_fld : Char) : Text → Option Text :=
  scan_char (· = end_fld)

/-- A terminator that fills the width to its last character is followed by that test, too. -/
def scan_set (set : Text) (end_fld : Char) : ℕ → ℕ → Text → Option Text
  | _, 0, p => scan_end end_fld p
  | _, _ + 1, [] => none
  | seen, left + 1, c :: p =>
    if c = end_fld then
      if seen = 0 then none else if left = 0 then scan_end end_fld p else some p
    else if c = '\x00' || 127 < c.toNat || !strchr set c then none
    else scan_set set end_fld (seen + 1) left p

def scan_rfc399nano (p : Text) : Option Text := do
  -- year
  let p ← scan_char (between '2' '5') p
  let p ← in_set digits 3 p
  -- month
  let p ← scan_char (· = '-') p
  let p ← scan_char (between '0' '1') p
  let p ← scan_char (between '0' '9') p
  -- day
  let p ← scan_char (· = '-') p
  let p ← scan_char (between '0' '3') p
  let p ← scan_char (between '0' '9') p
  -- hour
  let p ← scan_char (· = 'T') p
  let p ← scan_char (between '0' '2') p
  let p ← scan_char (between '0' '9') p
  -- minute
  let p ← scan_char (· = ':') p
  let p ← scan_char (between '0' '5') p
  let p ← scan_char (between '0' '9') p
  -- second
  let p ← scan_char (· = ':') p
  let p ← scan_char (between '0' '5') p
  let p ← scan_char (between '0' '9') p
  let p ← scan_char (· = '.') p
  let p ← in_range digits 1 0 9 p
  -- the time zone, where `Z` is not allowed
  let p ← scan_char (fun c => c = '+' || c = '-') p
  let p ← in_set digits 2 p
  let p ← scan_char (· = ':') p
  let p ← in_set digits 2 p
  scan_char (· = '\t') p

/-- The rest of the transport's tag, which may be one character long. -/
def scan_tag (p : Text) : Option Text :=
  if p.head? = some '~' then some p.tail else scan_set lower_alnum '~' 0 7 p

def scan_transport (p : Text) : Option Text := do
  let p ← scan_char (between 'a' 'z') p
  let p ← scan_tag p
  scan_set graph_set '\t' 0 128 p

/-- The verbs of the blobio protocol. -/
inductive Verb
  | get
  | put
  | give
  | take
  | eat
  | wrap
  | roll
  | cat
  deriving DecidableEq

def Verb.text : Verb → Text
  | get => "get".toList
  | put => "put".toList
  | give => "give".toList
  | take => "take".toList
  | eat => "eat".toList
  | wrap => "wrap".toList
  | roll => "roll".toList
  | cat => "cat".toList

def scan_chars : Text → Text → Option Text
  | [], p => some p
  | c :: cs, p => (scan_char (· = c) p).bind (scan_chars cs)

/-- The verb that the first characters leave; `cat` is no verb of a record. -/
def verb_at : Text → Option Verb
  | 'g' :: 'e' :: _ => some .get
  | 'g' :: 'i' :: _ => some .give
  | 'p' :: _ => some .put
  | 't' :: _ => some .take
  | 'e' :: _ => some .eat
  | 'w' :: _ => some .wrap
  | 'r' :: _ => some .roll
  | _ => none

def scan_verb (p : Text) : Option (Verb × Text) := do
  let verb ← verb_at p
  let p ← scan_chars (verb.text ++ ['\t']) p
  some (verb, p)

/-- The text up to the first tab, and what follows the tab. -/
def strchr_tab : Text → Option (Text × Text)
  | [] => none
  | c :: p =>
    if c = '\t' then some ([], p)
    else if c = '\x00' then none
    else (strchr_tab p).map fun (field, rest) => (c :: field, rest)

/-- The result says whether the udig is empty. `frisk_udig` is the check of the library
that the program is linked with. -/
def scan_udig (frisk_udig : Text → Bool) (p : Text) : Option (Bool × Text) := do
  let (udig, rest) ← strchr_tab p
  if udig = [] then some (true, rest)
  else if udig.length < 34 || 137 < udig.length || !frisk_udig udig then none
  else some (false, rest)

/-- The chat histories that a verb may have. -/
def chat_ok (verb : Verb) (ch : Text) : Bool :=
  ch = "no".toList ||
  ch = "ok".toList && (verb = .get || verb = .eat || verb = .wrap || verb = .roll) ||
  (ch = "ok,ok".toList || ch = "ok,no".toList) && (verb = .give || verb = .take || verb = .put) ||
  (ch = "ok,ok,ok".toList || ch = "ok,ok,no".toList) && (verb = .take || verb = .give)

/-- The result says whether the history ends in a no. -/
def scan_chat_history (verb : Verb) (p : Text) : Option (Bool × Text) := do
  let rest ← scan_set "nok,".toList '\t' 0 8 p
  let ch := p.take (p.length - rest.length - 1)
  if ch.length ≠ 2 ∧ ch.length ≠ 5 ∧ ch.length ≠ 8 then none
  else if chat_ok verb ch then some (ch.getLast? = some 'o', rest)
  else none

def strtoll (p : Text) : ℕ :=
  Nat.ofDigitChars 10 (p.takeWhile Char.isDigit) 0

def scan_byte_count (p : Text) : Option Text := do
  let rest ← scan_set digits '\t' 0 20 p
  if 2 ^ 63 - 1 < strtoll p then none else some rest

def scan_wall_duration (p : Text) : Option Text := do
  let rest ← scan_set digits '.' 0 10 p
  if 2147483647 < strtoll p then none
  else
    let p ← in_range digits 1 0 9 rest
    scan_char (· = '\n') p

/-! ### The program -/

section main
variable (frisk_udig : Text → Bool)

/-- The fields up to the chat history, which `main` looks at together. -/
def scan_fields (line : Text) : Option (Verb × Bool × Bool × Text) := do
  let p ← scan_rfc399nano line
  let p ← scan_transport p
  let (verb, p) ← scan_verb p
  let (no_udig, p) ← scan_udig frisk_udig p
  let (is_no, p) ← scan_chat_history verb p
  some (verb, no_udig, is_no, p)

/-- One turn of the loop of `main`, on the buffer that `fgets` has filled. A wrap or a
roll that has a udig and a no, or neither, is an error. -/
def scan_line (line : Text) : Except Exit Unit :=
  match scan_fields frisk_udig line with
  | none => .error .is_not_brr
  | some (verb, no_udig, is_no, p) =>
    if (verb = .wrap ∨ verb = .roll) ∧ no_udig ≠ is_no then .error .error
    else if ((scan_byte_count p).bind scan_wall_duration).isSome then .ok ()
    else .error .is_not_brr

def line_size : ℕ := 372

/-- The strings that `fgets` puts into the buffer one after the other: to the next
new-line, to the end of the input, or to the size of the buffer less its null. -/
def fgets_all (room : ℕ) (chunk : Text) : Text → List Text
  | [] => if chunk = [] then [] else [chunk]
  | c :: stdin =>
    if c = '\n' ∨ room ≤ 1 then (chunk ++ [c]) :: fgets_all (line_size - 1) [] stdin
    else fgets_all (room - 1) (chunk ++ [c]) stdin

/-- What `fgets` leaves in the buffer: behind its null the bytes of earlier lines. -/
def fgets (line chunk : Text) : Text :=
  chunk ++ '\x00' :: line.drop (chunk.length + 1)

def frisk_lines (line : Text) : List Text → Exit
  | [] => .is_brr
  | chunk :: chunks =>
    match scan_line frisk_udig (fgets line chunk) with
    | .error e => e
    | .ok () => frisk_lines (fgets line chunk) chunks

/-- `main`, with no argument. -/
def frisk_main (stdin : Text) : Exit :=
  match fgets_all (line_size - 1) [] stdin with
  | [] => .is_empty
  | chunks => frisk_lines frisk_udig (List.replicate line_size '\x00') chunks

end main

end Blobio
