import Blobio.FriskScanners

/-! The grammar of a blob request record, as the comment on top of `bio-frisk-brr` and
the comments of its scanners give it. -/
namespace Blobio

/-- Characters of a set, at least and at most so many. -/
structure Chars (set : Text) (lower upper : ℕ) (f : Text) : Prop where
  subset : ∀ c ∈ f, c ∈ set
  lower : lower ≤ f.length
  upper : f.length ≤ upper

instance (set : Text) (lower upper : ℕ) (f : Text) : Decidable (Chars set lower upper f) :=
  decidable_of_iff ((∀ c ∈ f, c ∈ set) ∧ lower ≤ f.length ∧ f.length ≤ upper)
    ⟨fun ⟨h, h', h''⟩ => ⟨h, h', h''⟩, fun ⟨h, h', h''⟩ => ⟨h, h', h''⟩⟩

/-- The text fits a list of tests, character by character. -/
def Fits (shape : List (Char → Bool)) (f : Text) : Prop :=
  List.Forall₂ (fun ok c => ok c = true) shape f

instance (shape : List (Char → Bool)) (f : Text) : Decidable (Fits shape f) :=
  inferInstanceAs (Decidable (List.Forall₂ _ shape f))

def isdigit : Char → Bool :=
  between '0' '9'

/-- `YYYY-MM-DDTHH:MM:SS.` with a year from 2000 to 5999 and no number checked further
than its first digit. -/
def date_shape : List (Char → Bool) :=
  [between '2' '5', isdigit, isdigit, isdigit, (· = '-'), between '0' '1', isdigit, (· = '-'),
    between '0' '3', isdigit, (· = 'T'), between '0' '2', isdigit, (· = ':'), between '0' '5', isdigit,
    (· = ':'), between '0' '5', isdigit, (· = '.')]

def zone_shape : List (Char → Bool) :=
  [fun c => c = '+' || c = '-', isdigit, isdigit, (· = ':'), isdigit, isdigit]

/-- A time stamp to the nanosecond, with a numeric zone. -/
structure StartTime (f : Text) : Prop where
  parts : ∃ date fraction zone, f = date ++ fraction ++ zone ∧ Fits date_shape date ∧
    Chars digits 1 9 fraction ∧ Fits zone_shape zone

/-- `[a-z][a-z0-9]{0,7}`, the name of a transport or of a digest algorithm. -/
structure Tag (f : Text) : Prop where
  parts : ∃ c rest, f = c :: rest ∧ between 'a' 'z' c ∧ Chars lower_alnum 0 7 rest

/-- `[a-z][a-z0-9]{0,7}:[[:graph:]]{32,128}` -/
structure UdigSyntax (f : Text) : Prop where
  parts : ∃ algorithm digest, f = algorithm ++ ':' :: digest ∧ Tag algorithm ∧
    Chars graph_set 32 128 digest

/-- The fields of a record, the transport and the wall duration in their two parts. -/
structure BrrFields where
  start_time : Text
  tag : Text
  detail : Text
  verb : Verb
  udig : Text
  chat_history : Text
  byte_count : Text
  sec : Text
  nsec : Text

namespace BrrFields

/-- The line of a record, without its new-line. -/
def line (r : BrrFields) : Text :=
  r.start_time ++ '\t' :: (r.tag ++ '~' :: (r.detail ++ '\t' :: (r.verb.text ++ '\t' :: (r.udig ++ '\t' ::
    (r.chat_history ++ '\t' :: (r.byte_count ++ '\t' :: (r.sec ++ '.' :: r.nsec)))))))

structure Matches (r : BrrFields) : Prop where
  start_time : StartTime r.start_time
  tag : Tag r.tag
  detail : Chars graph_set 1 128 r.detail
  verb : r.verb ≠ .cat
  udig : r.udig = [] ∨ UdigSyntax r.udig
  chat_history : chat_ok r.verb r.chat_history
  /-- A wrap or a roll has a udig just when it does not end in a no. -/
  wrapped : r.verb = .wrap ∨ r.verb = .roll → (r.udig = [] ↔ r.chat_history.getLast? = some 'o')
  byte_count : Chars digits 1 20 r.byte_count
  byte_count_le : Nat.ofDigitChars 10 r.byte_count 0 ≤ 2 ^ 63 - 1
  sec : Chars digits 1 10 r.sec
  sec_le : Nat.ofDigitChars 10 r.sec 0 ≤ 2147483647
  nsec : Chars digits 1 9 r.nsec

end BrrFields

/-- The line is that of a record. -/
def IsRecord (line : Text) : Prop :=
  ∃ r : BrrFields, r.Matches ∧ line = r.line

end Blobio
