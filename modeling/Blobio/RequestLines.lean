import Blobio.ChunkedScans
import Blobio.RecordGrammar
import Mathlib.Data.List.TakeWhile

/-! The lexer of request lines, which a request process feeds with what it reads from its
client, and the choice of the verb's callback. A byte of the client is the character of its
code. -/
namespace Blobio
open ChunkedScans

def MAX_VERB_SIZE : ℕ := 5

def MAX_ALGORITHM_SIZE : ℕ := 8

def MAX_DIGEST_SIZE : ℕ := 128

def isalnum (c : Char) : Bool :=
  isalpha c || isdigit c

def isgraph : Char → Bool :=
  between '!' '~'

inductive ScanState
  | scan_verb
  | scan_algorithm
  | scan_new_line
  | scan_digest
  deriving DecidableEq

/-- What the lexer keeps from one read to the next. -/
structure Scan where
  state : ScanState
  verb : Text
  algorithm : Text
  digest : Text
  deriving DecidableEq

def Scan.start : Scan :=
  ⟨.scan_verb, [], [], []⟩

/-- The end of a scan: the call of `bio4d`, or a death with or without a no to the client. -/
inductive ScanEnd
  | go (verb algorithm digest : Text)
  | die_NO
  | die
  deriving DecidableEq

/-- `STATE_go` -/
def Scan.go (s : Scan) : Scan ⊕ ScanEnd :=
  .inr (.go s.verb s.algorithm s.digest)

/-- One turn of the lexer's inner loop. -/
def scan_request (s : Scan) (c : Char) : Scan ⊕ ScanEnd :=
  match s.state with
  | .scan_verb =>
    if c = ' ' then .inl { s with state := .scan_algorithm }
    else if c = '\n' then s.go
    else if c = '\r' then .inl { s with state := .scan_new_line }
    else if isalpha c then
      if s.verb.length = MAX_VERB_SIZE then .inr .die_NO else .inl { s with verb := s.verb ++ [c] }
    else .inr .die_NO
  | .scan_algorithm =>
    if c = ':' then .inl { s with state := .scan_digest }
    else if c = '\n' then s.go
    else if c = '\r' then .inl { s with state := .scan_new_line }
    else if isalnum c then
      if s.algorithm.length = MAX_ALGORITHM_SIZE then .inr .die_NO
      else if s.algorithm = [] ∧ ¬ isalpha c then .inr .die_NO
      else .inl { s with algorithm := s.algorithm ++ [c] }
    else .inr .die_NO
  | .scan_new_line => if c ≠ '\n' then .inr .die else s.go
  | .scan_digest =>
    if c = '\n' then s.go
    else if c = '\r' then .inl { s with state := .scan_new_line }
    else if isgraph c then
      if s.digest.length = MAX_DIGEST_SIZE then .inr .die_NO
      else .inl { s with digest := s.digest ++ [c] }
    else .inr .die_NO

/-! ### The callback -/

/-- The digest modules that are compiled in, and the one that the operator chose for
wraps, which the server looks up when it starts. -/
structure Installed where
  modules : List DigestModule
  wrap_algorithm : DigestModule
  wrap_mem : wrap_algorithm ∈ modules

/-- What a callback is called with. -/
structure Requested where
  verb : Verb
  algorithm : DigestModule
  digest : Text
  deriving DecidableEq

inductive Dispatched
  | callback (r : Requested)
  | die_NO
  | panic
  deriving DecidableEq

section dispatch
variable (installed : Installed)

def module_get (name : Text) : Option DigestModule :=
  installed.modules.find? (·.name = name)

def verb_callback (verb : Text) : Option Verb :=
  if verb = "get".toList then some .get
  else if verb = "put".toList then some .put
  else if verb = "take".toList then some .take
  else if verb = "give".toList then some .give
  else if verb = "eat".toList then some .eat
  else if verb = "wrap".toList then some .wrap
  else if verb = "roll".toList then some .roll
  else if verb = "cat".toList then some .cat
  else none

/-- From the look-up of the module on. -/
def dispatch_module (verb algorithm digest : Text) : Dispatched :=
  match module_get installed algorithm with
  | none => .panic
  | some mp =>
    if digest ≠ [] ∧ mp.is_digest digest = 0 then .die_NO
    else
      match verb_callback verb with
      | none => .die_NO
      | some v => .callback ⟨v, mp, digest⟩

/-- `bio4d`, up to the call of the callback. -/
def dispatch (verb algorithm digest : Text) : Dispatched :=
  if verb = "wrap".toList then
    if algorithm ≠ [] then .die_NO
    else dispatch_module installed verb installed.wrap_algorithm.name digest
  else if algorithm = [] ∨ digest = [] then .die_NO
  else dispatch_module installed verb algorithm digest

/-- What the client's reads lead to: a callback, with the bytes that the last read has
brought beyond the line and the reads that are still to come. -/
def request_callback (reads : List Text) : Option (Requested × Text × List Text) :=
  match scan_reads scan_request .start (reads.takeWhile (· ≠ [])) with
  | .stopped (.go verb algorithm digest) scan_buf unread =>
    match dispatch installed verb algorithm digest with
    | .callback r => some (r, scan_buf, unread)
    | _ => none
  | _ => none

end dispatch

/-! ### What the states collect -/

/-- The end of a line. -/
def LineEnd (eol : Text) : Prop :=
  eol = ['\n'] ∨ eol = ['\r', '\n']

/-- From the scan's state on the text is the rest of a line with these fields. -/
def Ends (s : Scan) (l verb algorithm digest : Text) : Prop :=
  scan scan_request s l = .stop (.go verb algorithm digest) []

theorem ends_nil {s : Scan} {v a d : Text} : ¬ Ends s [] v a d := by
  intro h
  cases h

theorem ends_cons {s : Scan} {c : Char} {l v a d : Text} : Ends s (c :: l) v a d ↔
    (∃ s', scan_request s c = .inl s' ∧ Ends s' l v a d) ∨
      scan_request s c = .inr (.go v a d) ∧ l = [] := by
  unfold Ends
  cases h : scan_request s c with
  | inl s' => simp [scan_cons_inl h]
  | inr w => simp [scan_cons_inr h]

theorem ends_go {s : Scan} {c : Char} {l v a d : Text} (h : scan_request s c = s.go) :
    Ends s (c :: l) v a d ↔ v = s.verb ∧ a = s.algorithm ∧ d = s.digest ∧ l = [] := by
  rw [ends_cons, h, Scan.go]
  simp only [reduceCtorEq, false_and, exists_false, false_or, Sum.inr.injEq, ScanEnd.go.injEq]
  constructor
  · rintro ⟨⟨rfl, rfl, rfl⟩, rfl⟩
    exact ⟨rfl, rfl, rfl, rfl⟩
  · rintro ⟨rfl, rfl, rfl, rfl⟩
    exact ⟨⟨rfl, rfl, rfl⟩, rfl⟩

theorem ends_new_line {s : Scan} (hs : s.state = .scan_new_line) {l v a d : Text} :
    Ends s l v a d ↔ l = ['\n'] ∧ v = s.verb ∧ a = s.algorithm ∧ d = s.digest := by
  cases l with
  | nil => simp [ends_nil]
  | cons c l =>
    by_cases hc : c = '\n'
    · rw [ends_go (by simp [scan_request, hs, hc])]
      simp only [List.cons.injEq, hc, true_and]
      tauto
    · rw [ends_cons]
      simp [scan_request, hs, hc]

/-- The end of a line in a state that ends at a new-line and at a carriage return. -/
theorem ends_line_end {s : Scan} (hnl : scan_request s '\n' = s.go)
    (hcr : scan_request s '\r' = .inl { s with state := .scan_new_line }) {c : Char} {l v a d : Text}
    (hc : c = '\n' ∨ c = '\r') :
    Ends s (c :: l) v a d ↔ LineEnd (c :: l) ∧ v = s.verb ∧ a = s.algorithm ∧ d = s.digest := by
  rcases hc with rfl | rfl
  · rw [ends_go hnl]
    simp only [LineEnd, List.cons.injEq, true_and, show ('\n' = '\r') = False by decide, false_and, or_false]
    tauto
  · rw [ends_cons, hcr]
    simp only [Sum.inl.injEq, exists_eq_left', reduceCtorEq, false_and, or_false, LineEnd, List.cons.injEq,
      true_and, show ('\r' = '\n') = False by decide, false_or]
    exact ends_new_line rfl

/-! A field is collected character by character in one state, up to a character that ends
it. -/

section collect
variable {collect : Text → Scan} {ends good first : Char → Bool} {max : ℕ}

/-- The lexer may add the character to what it has collected. -/
def Collects (good first : Char → Bool) (max : ℕ) (f : Text) (c : Char) : Prop :=
  good c ∧ (f = [] → first c) ∧ f.length < max

/-- How a state that collects a field takes a character. -/
structure CollectsField (collect : Text → Scan) (ends good first : Char → Bool) (max : ℕ) : Prop where
  disjoint : ∀ c, good c → ends c = false
  takes : ∀ f c, Collects good first max f c → scan_request (collect f) c = .inl (collect (f ++ [c]))
  refuses : ∀ f c, f.length ≤ max → ends c = false → ¬ Collects good first max f c →
    scan_request (collect f) c = .inr .die_NO

theorem ends_collect (h : CollectsField collect ends good first max) {f l v a d : Text}
    (hlen : f.length ≤ max) : Ends (collect f) l v a d ↔
      ∃ g c l', l = g ++ c :: l' ∧ ends c ∧ (∀ x ∈ g, good x) ∧ (f = [] → ∀ x ∈ g.head?, first x) ∧
        (f ++ g).length ≤ max ∧ Ends (collect (f ++ g)) (c :: l') v a d := by
  induction l generalizing f with
  | nil =>
    refine iff_of_false ends_nil ?_
    rintro ⟨g, c, l', heq, -⟩
    simp at heq
  | cons c l ih =>
    by_cases hend : ends c
    · constructor
      · intro hl
        exact ⟨[], c, l, rfl, hend, by simp, by simp, by simpa using hlen, by simpa using hl⟩
      · rintro ⟨g, c', l', heq, -, hgood, -, -, hl⟩
        cases g with
        | nil =>
          rw [List.nil_append] at heq
          rw [heq]
          simpa using hl
        | cons b g =>
          obtain ⟨rfl, -⟩ := List.cons.inj heq
          have hb := h.disjoint c (hgood c List.mem_cons_self)
          rw [hend] at hb
          cases hb
    · rw [Bool.not_eq_true] at hend
      by_cases hc : Collects good first max f c
      · have hlen' : (f ++ [c]).length ≤ max := by
          rw [List.length_append, List.length_singleton]
          exact hc.2.2
        rw [ends_cons, h.takes f c hc]
        simp only [Sum.inl.injEq, exists_eq_left', reduceCtorEq, false_and, or_false]
        rw [ih hlen']
        constructor
        · rintro ⟨g, c', l', rfl, hend', hgood, -, hmax, hl⟩
          rw [List.append_assoc, List.singleton_append] at hmax hl
          exact ⟨c :: g, c', l', rfl, hend', by simpa [hc.1] using hgood,
            by simpa using hc.2.1, hmax, hl⟩
        · rintro ⟨g, c', l', heq, hend', hgood, -, hmax, hl⟩
          cases g with
          | nil =>
            obtain ⟨rfl, -⟩ := List.cons.inj heq
            rw [hend] at hend'
            cases hend'
          | cons b g =>
            obtain ⟨rfl, rfl⟩ := List.cons.inj heq
            exact ⟨g, c', l', rfl, hend', fun x hx => hgood x (List.mem_cons_of_mem _ hx), by simp,
              by simpa using hmax, by simpa using hl⟩
      · rw [ends_cons, h.refuses f c hlen hend hc]
        refine iff_of_false (by simp) ?_
        rintro ⟨g, c', l', heq, hend', hgood, hfirst, hmax, -⟩
        cases g with
        | nil =>
          obtain ⟨rfl, -⟩ := List.cons.inj heq
          rw [hend] at hend'
          cases hend'
        | cons b g =>
          obtain ⟨rfl, -⟩ := List.cons.inj heq
          refine hc ⟨hgood c List.mem_cons_self, fun hf => hfirst hf c rfl, ?_⟩
          rw [List.length_append, List.length_cons] at hmax
          omega

end collect

theorem isalnum_of_isalpha {c : Char} (h : isalpha c) : isalnum c := by
  rw [isalnum, h]
  rfl

/-- The characters that end a field are neither letters nor digits. -/
theorem isalnum_stop {c : Char} (h : isalnum c) : c ≠ ' ' ∧ c ≠ ':' ∧ c ≠ '\n' ∧ c ≠ '\r' := by
  refine ⟨?_, ?_, ?_, ?_⟩
  all_goals
    rintro rfl
    revert h
    decide

theorem isgraph_stop {c : Char} (h : isgraph c) : c ≠ '\n' ∧ c ≠ '\r' := by
  constructor
  all_goals
    rintro rfl
    revert h
    decide

theorem collects_verb {a d : Text} : CollectsField (fun v => ⟨.scan_verb, v, a, d⟩)
    (fun c => c = ' ' || c = '\n' || c = '\r') isalpha (fun _ => true) MAX_VERB_SIZE where
  disjoint c hc := by
    obtain ⟨h₁, -, h₂, h₃⟩ := isalnum_stop (isalnum_of_isalpha hc)
    simp [h₁, h₂, h₃]
  takes f c h := by
    obtain ⟨hc, -, hlen⟩ := h
    obtain ⟨h₁, -, h₂, h₃⟩ := isalnum_stop (isalnum_of_isalpha hc)
    simp [scan_request, h₁, h₂, h₃, hc, Nat.ne_of_lt hlen]
  refuses f c hlen hend hc := by
    simp only [Bool.or_eq_false_iff, decide_eq_false_iff_not] at hend
    obtain ⟨⟨h₁, h₂⟩, h₃⟩ := hend
    by_cases halpha : isalpha c
    · have hfull : f.length = MAX_VERB_SIZE := by
        by_contra hne
        exact hc ⟨halpha, fun _ => rfl, by omega⟩
      simp [scan_request, h₁, h₂, h₃, halpha, hfull]
    · simp [scan_request, h₁, h₂, h₃, halpha]

theorem collects_algorithm {v d : Text} : CollectsField (fun a => ⟨.scan_algorithm, v, a, d⟩)
    (fun c => c = ':' || c = '\n' || c = '\r') isalnum isalpha MAX_ALGORITHM_SIZE where
  disjoint c hc := by
    obtain ⟨-, h₁, h₂, h₃⟩ := isalnum_stop hc
    simp [h₁, h₂, h₃]
  takes f c h := by
    obtain ⟨hc, hfirst, hlen⟩ := h
    obtain ⟨-, h₁, h₂, h₃⟩ := isalnum_stop hc
    have halpha : ¬ (f = [] ∧ isalpha c = false) := by
      rintro ⟨hf, hnot⟩
      rw [hfirst hf] at hnot
      cases hnot
    simp [scan_request, h₁, h₂, h₃, hc, Nat.ne_of_lt hlen, halpha]
  refuses f c hlen hend hc := by
    simp only [Bool.or_eq_false_iff, decide_eq_false_iff_not] at hend
    obtain ⟨⟨h₁, h₂⟩, h₃⟩ := hend
    by_cases halnum : isalnum c
    · by_cases hfull : f.length = MAX_ALGORITHM_SIZE
      · simp [scan_request, h₁, h₂, h₃, halnum, hfull]
      · have hfirst : f = [] ∧ isalpha c = false := by
          by_contra hne
          refine hc ⟨halnum, fun hf => ?_, by omega⟩
          by_contra hnot
          exact hne ⟨hf, by simpa using hnot⟩
        simp [scan_request, h₁, h₂, h₃, halnum, hfirst.1, hfirst.2]
    · simp [scan_request, h₁, h₂, h₃, halnum]

theorem collects_digest {v a : Text} : CollectsField (fun d => ⟨.scan_digest, v, a, d⟩)
    (fun c => c = '\n' || c = '\r') isgraph (fun _ => true) MAX_DIGEST_SIZE where
  disjoint c hc := by
    obtain ⟨h₁, h₂⟩ := isgraph_stop hc
    simp [h₁, h₂]
  takes f c h := by
    obtain ⟨hc, -, hlen⟩ := h
    obtain ⟨h₁, h₂⟩ := isgraph_stop hc
    simp [scan_request, h₁, h₂, hc, Nat.ne_of_lt hlen]
  refuses f c hlen hend hc := by
    simp only [Bool.or_eq_false_iff, decide_eq_false_iff_not] at hend
    obtain ⟨h₁, h₂⟩ := hend
    by_cases hgraph : isgraph c
    · have hfull : f.length = MAX_DIGEST_SIZE := by
        by_contra hne
        exact hc ⟨hgraph, fun _ => rfl, by omega⟩
      simp [scan_request, h₁, h₂, hgraph, hfull]
    · simp [scan_request, h₁, h₂, hgraph]

/-! ### The lexer's language -/

def VerbChars (verb : Text) : Prop :=
  (∀ c ∈ verb, isalpha c) ∧ verb.length ≤ MAX_VERB_SIZE

def AlgorithmChars (algorithm : Text) : Prop :=
  (∀ c ∈ algorithm, isalnum c) ∧ (∀ c ∈ algorithm.head?, isalpha c) ∧
    algorithm.length ≤ MAX_ALGORITHM_SIZE

def DigestChars (digest : Text) : Prop :=
  (∀ c ∈ digest, isgraph c) ∧ digest.length ≤ MAX_DIGEST_SIZE

theorem LineEnd.exists_cons {eol : Text} (h : LineEnd eol) :
    ∃ c l, eol = c :: l ∧ (c = '\n' ∨ c = '\r') := by
  rcases h with rfl | rfl
  · exact ⟨_, _, rfl, .inl rfl⟩
  · exact ⟨_, _, rfl, .inr rfl⟩

theorem ends_digest {v a l v' a' d' : Text} : Ends ⟨.scan_digest, v, a, []⟩ l v' a' d' ↔
    v' = v ∧ a' = a ∧ DigestChars d' ∧ ∃ eol, LineEnd eol ∧ l = d' ++ eol := by
  have hend : ∀ {g : Text} {c : Char} {l' : Text}, c = '\n' ∨ c = '\r' →
      (Ends ⟨.scan_digest, v, a, g⟩ (c :: l') v' a' d' ↔ LineEnd (c :: l') ∧ v' = v ∧ a' = a ∧ d' = g) :=
    fun hc => ends_line_end (by simp [scan_request]) (by simp [scan_request]) hc
  rw [ends_collect (collects_digest (v := v) (a := a)) (Nat.zero_le _)]
  simp only [List.nil_append]
  constructor
  · rintro ⟨g, c, l', rfl, hc, hgood, -, hmax, hl⟩
    obtain ⟨heol, rfl, rfl, rfl⟩ := (hend (by simpa using hc)).mp hl
    exact ⟨rfl, rfl, ⟨hgood, hmax⟩, c :: l', heol, rfl⟩
  · rintro ⟨rfl, rfl, ⟨hgood, hmax⟩, eol, heol, rfl⟩
    obtain ⟨c, l', rfl, hc⟩ := heol.exists_cons
    exact ⟨d', c, l', rfl, by simpa using hc, hgood, by simp, hmax, (hend hc).mpr ⟨heol, rfl, rfl, rfl⟩⟩

theorem ends_algorithm {v l v' a' d' : Text} : Ends ⟨.scan_algorithm, v, [], []⟩ l v' a' d' ↔
    v' = v ∧ AlgorithmChars a' ∧ ((d' = [] ∧ ∃ eol, LineEnd eol ∧ l = a' ++ eol) ∨
      DigestChars d' ∧ ∃ eol, LineEnd eol ∧ l = a' ++ ':' :: (d' ++ eol)) := by
  have hend : ∀ {g : Text} {c : Char} {l' : Text}, c = '\n' ∨ c = '\r' →
      (Ends ⟨.scan_algorithm, v, g, []⟩ (c :: l') v' a' d' ↔
        LineEnd (c :: l') ∧ v' = v ∧ a' = g ∧ d' = []) :=
    fun hc => ends_line_end (by simp [scan_request]) (by simp [scan_request]) hc
  have hcolon : ∀ {g l' : Text}, Ends ⟨.scan_algorithm, v, g, []⟩ (':' :: l') v' a' d' ↔
      v' = v ∧ a' = g ∧ DigestChars d' ∧ ∃ eol, LineEnd eol ∧ l' = d' ++ eol := by
    intro g l'
    rw [ends_cons, ← ends_digest]
    simp [scan_request]
  rw [ends_collect (collects_algorithm (v := v) (d := [])) (Nat.zero_le _)]
  simp only [List.nil_append, true_implies]
  constructor
  · rintro ⟨g, c, l', rfl, hc, hgood, hfirst, hmax, hl⟩
    simp only [Bool.or_eq_true, decide_eq_true_eq, or_assoc] at hc
    rcases hc with rfl | hc
    · obtain ⟨rfl, rfl, hdigest, eol, heol, rfl⟩ := hcolon.mp hl
      exact ⟨rfl, ⟨hgood, hfirst, hmax⟩, .inr ⟨hdigest, eol, heol, rfl⟩⟩
    · obtain ⟨heol, rfl, rfl, rfl⟩ := (hend hc).mp hl
      exact ⟨rfl, ⟨hgood, hfirst, hmax⟩, .inl ⟨rfl, c :: l', heol, rfl⟩⟩
  · rintro ⟨rfl, ⟨hgood, hfirst, hmax⟩, ⟨rfl, eol, heol, rfl⟩ | ⟨hdigest, eol, heol, rfl⟩⟩
    · obtain ⟨c, l', rfl, hc⟩ := heol.exists_cons
      exact ⟨a', c, l', rfl, by simp [hc, or_assoc], hgood, hfirst, hmax,
        (hend hc).mpr ⟨heol, rfl, rfl, rfl⟩⟩
    · exact ⟨a', ':', d' ++ eol, rfl, by simp, hgood, hfirst, hmax,
        hcolon.mpr ⟨rfl, rfl, hdigest, eol, heol, rfl⟩⟩

/-- The lines that the lexer takes, and the fields it finds in them. -/
theorem ends_start {l v' a' d' : Text} : Ends .start l v' a' d' ↔ VerbChars v' ∧
    ((a' = [] ∧ d' = [] ∧ ∃ eol, LineEnd eol ∧ l = v' ++ eol) ∨
      AlgorithmChars a' ∧ ((d' = [] ∧ ∃ eol, LineEnd eol ∧ l = v' ++ ' ' :: (a' ++ eol)) ∨
        DigestChars d' ∧ ∃ eol, LineEnd eol ∧ l = v' ++ ' ' :: (a' ++ ':' :: (d' ++ eol)))) := by
  have hend : ∀ {g : Text} {c : Char} {l' : Text}, c = '\n' ∨ c = '\r' →
      (Ends ⟨.scan_verb, g, [], []⟩ (c :: l') v' a' d' ↔
        LineEnd (c :: l') ∧ v' = g ∧ a' = [] ∧ d' = []) :=
    fun hc => ends_line_end (by simp [scan_request]) (by simp [scan_request]) hc
  have hspace : ∀ {g l' : Text}, Ends ⟨.scan_verb, g, [], []⟩ (' ' :: l') v' a' d' ↔
      Ends ⟨.scan_algorithm, g, [], []⟩ l' v' a' d' := by
    intro g l'
    rw [ends_cons]
    simp [scan_request]
  rw [Scan.start, ends_collect (collects_verb (a := []) (d := [])) (Nat.zero_le _)]
  simp only [List.nil_append]
  constructor
  · rintro ⟨g, c, l', rfl, hc, hgood, -, hmax, hl⟩
    simp only [Bool.or_eq_true, decide_eq_true_eq, or_assoc] at hc
    rcases hc with rfl | hc
    · obtain ⟨rfl, halgorithm, hrest⟩ := ends_algorithm.mp (hspace.mp hl)
      refine ⟨⟨hgood, hmax⟩, .inr ⟨halgorithm, ?_⟩⟩
      rcases hrest with ⟨rfl, eol, heol, rfl⟩ | ⟨hdigest, eol, heol, rfl⟩
      · exact .inl ⟨rfl, eol, heol, rfl⟩
      · exact .inr ⟨hdigest, eol, heol, rfl⟩
    · obtain ⟨heol, rfl, rfl, rfl⟩ := (hend hc).mp hl
      exact ⟨⟨hgood, hmax⟩, .inl ⟨rfl, rfl, c :: l', heol, rfl⟩⟩
  · rintro ⟨⟨hgood, hmax⟩, ⟨rfl, rfl, eol, heol, rfl⟩ | ⟨halgorithm, hrest⟩⟩
    · obtain ⟨c, l', rfl, hc⟩ := heol.exists_cons
      exact ⟨v', c, l', rfl, by simp [hc, or_assoc], hgood, by simp, hmax,
        (hend hc).mpr ⟨heol, rfl, rfl, rfl⟩⟩
    · obtain ⟨l', rfl, hl'⟩ : ∃ l', l = v' ++ ' ' :: l' ∧ ((d' = [] ∧ ∃ eol, LineEnd eol ∧ l' = a' ++ eol) ∨
          DigestChars d' ∧ ∃ eol, LineEnd eol ∧ l' = a' ++ ':' :: (d' ++ eol)) := by
        rcases hrest with ⟨rfl, eol, heol, rfl⟩ | ⟨hdigest, eol, heol, rfl⟩
        · exact ⟨a' ++ eol, rfl, .inl ⟨rfl, eol, heol, rfl⟩⟩
        · exact ⟨_, rfl, .inr ⟨hdigest, eol, heol, rfl⟩⟩
      exact ⟨v', ' ', l', rfl, by simp, hgood, by simp, hmax,
        hspace.mpr (ends_algorithm.mpr ⟨rfl, halgorithm, hl'⟩)⟩

/-! ### The requests -/

theorem DigestModule.name_injective {m m' : DigestModule} (h : m.name = m'.name) : m = m' := by
  cases m <;> cases m' <;> first | rfl | (revert h; decide)

theorem algorithmChars_name (m : DigestModule) : AlgorithmChars m.name := by
  unfold AlgorithmChars
  cases m <;> decide

theorem verbChars_text (v : Verb) : VerbChars v.text := by
  unfold VerbChars
  cases v <;> decide

theorem digestChars_of_is_digest {m : DigestModule} {d : Text} (h : m.is_digest d ≠ 0) : DigestChars d := by
  obtain ⟨hlen, hhex⟩ := (is_digest_ne_zero m d).mp h
  have hgraph : ∀ c ∈ nib2hex, isgraph c := by decide
  refine ⟨fun c hc => hgraph c (hhex c hc), ?_⟩
  rw [hlen]
  decide

section requests
variable {installed : Installed}

theorem module_get_eq_some {name : Text} {mp : DigestModule} :
    module_get installed name = some mp ↔ mp ∈ installed.modules ∧ mp.name = name := by
  constructor
  · intro h
    exact ⟨List.mem_of_find?_eq_some h, by simpa using List.find?_some h⟩
  · rintro ⟨hmem, rfl⟩
    have hsome : (module_get installed mp.name).isSome :=
      List.find?_isSome.mpr ⟨mp, hmem, by simp⟩
    obtain ⟨m, hm⟩ := Option.isSome_iff_exists.mp hsome
    have hname : m.name = mp.name := by simpa using List.find?_some hm
    rw [hm, DigestModule.name_injective hname]

theorem verb_callback_eq_some {verb : Text} {v : Verb} : verb_callback verb = some v ↔ verb = v.text := by
  constructor
  · intro h
    unfold verb_callback at h
    repeat'
      split at h
      · cases h
        assumption
    cases h
  · rintro rfl
    cases v <;> decide

theorem dispatch_module_eq_callback {verb algorithm digest : Text} {r : Requested} :
    dispatch_module installed verb algorithm digest = .callback r ↔
      verb = r.verb.text ∧ digest = r.digest ∧ r.algorithm ∈ installed.modules ∧
        r.algorithm.name = algorithm ∧ (digest ≠ [] → r.algorithm.is_digest digest ≠ 0) := by
  unfold dispatch_module
  constructor
  · intro h
    split at h
    · cases h
    · rename_i mp hmp
      obtain ⟨hmem, hname⟩ := module_get_eq_some.mp hmp
      split at h
      · cases h
      · rename_i hdigest
        split at h
        · cases h
        · rename_i v hv
          cases h
          exact ⟨verb_callback_eq_some.mp hv, rfl, hmem, hname, fun hne hzero => hdigest ⟨hne, hzero⟩⟩
  · rintro ⟨rfl, rfl, hmem, hname, hdigest⟩
    rw [module_get_eq_some.mpr ⟨hmem, hname⟩, verb_callback_eq_some.mpr rfl]
    exact if_neg fun h => hdigest h.1 h.2

/-- The lines of requests: a verb and a udig of an installed module, or a wrap. -/
def RequestLine (installed : Installed) (r : Requested) (line : Text) : Prop :=
  (r.verb = .wrap ∧ r.algorithm = installed.wrap_algorithm ∧ r.digest = [] ∧
    ∃ eol, LineEnd eol ∧ line = r.verb.text ++ eol) ∨
  (r.verb ≠ .wrap ∧ r.algorithm ∈ installed.modules ∧ r.algorithm.is_digest r.digest ≠ 0 ∧
    ∃ eol, LineEnd eol ∧ line = r.verb.text ++ ' ' :: (r.algorithm.name ++ ':' :: (r.digest ++ eol)))

theorem is_digest_nil (m : DigestModule) : m.is_digest [] = 0 := by
  cases m <;> decide

theorem text_eq_wrap {v : Verb} : v.text = "wrap".toList ↔ v = .wrap := by
  cases v <;> decide

/-- A line that the lexer takes and that reaches a callback is a line of a request, as
long as it does not go on behind a wrap. -/
theorem requestLine_of_ends {line v a d : Text} {r : Requested} (h : Ends .start line v a d)
    (hr : dispatch installed v a d = .callback r) (hwrap : ¬ "wrap ".toList <+: line) :
    RequestLine installed r line := by
  obtain ⟨-, hfields⟩ := ends_start.mp h
  unfold dispatch at hr
  split at hr
  · rename_i hv
    split at hr
    · cases hr
    · rename_i ha
      rw [not_not] at ha
      obtain ⟨hverb, rfl, -, hname, -⟩ := dispatch_module_eq_callback.mp hr
      rcases hfields with ⟨-, hd, hline⟩ | ⟨-, hrest⟩
      · rw [hverb] at hline hv
        exact .inl ⟨text_eq_wrap.mp hv, DigestModule.name_injective hname, hd, hline⟩
      · refine absurd ?_ hwrap
        rcases hrest with ⟨-, eol, -, rfl⟩ | ⟨-, eol, -, rfl⟩
        · exact ⟨a ++ eol, by rw [hv]; simp⟩
        · exact ⟨a ++ ':' :: (r.digest ++ eol), by rw [hv]; simp⟩
  · rename_i hv
    split at hr
    · cases hr
    · rename_i hempty
      rw [not_or] at hempty
      obtain ⟨rfl, rfl, hmem, rfl, hdigest⟩ := dispatch_module_eq_callback.mp hr
      rcases hfields with ⟨ha, -⟩ | ⟨-, ⟨hd, -⟩ | ⟨-, eol, heol, rfl⟩⟩
      · exact absurd ha hempty.1
      · exact absurd hd hempty.2
      · exact .inr ⟨fun hwrap => hv (text_eq_wrap.mpr hwrap), hmem, hdigest hempty.2, eol, heol, rfl⟩

/-- A line of a request is taken by the lexer, and reaches its callback. -/
theorem ends_of_requestLine {line : Text} {r : Requested} (h : RequestLine installed r line) :
    ∃ a, Ends .start line r.verb.text a r.digest ∧
      dispatch installed r.verb.text a r.digest = .callback r := by
  rcases h with ⟨hverb, halgorithm, hdigest, eol, heol, rfl⟩ | ⟨hverb, hmem, hdigest, eol, heol, rfl⟩
  · refine ⟨[], ends_start.mpr ⟨verbChars_text _, .inl ⟨rfl, hdigest, eol, heol, rfl⟩⟩, ?_⟩
    rw [dispatch, if_pos (text_eq_wrap.mpr hverb), if_neg (by simp)]
    refine dispatch_module_eq_callback.mpr ⟨rfl, rfl, ?_, by rw [halgorithm], fun hne => absurd hdigest hne⟩
    rw [halgorithm]
    exact installed.wrap_mem
  · refine ⟨r.algorithm.name, ends_start.mpr ⟨verbChars_text _, .inr ⟨algorithmChars_name _,
      .inr ⟨digestChars_of_is_digest hdigest, eol, heol, rfl⟩⟩⟩, ?_⟩
    have hname : r.algorithm.name ≠ [] := by
      cases r.algorithm <;> decide
    have hne : r.digest ≠ [] := by
      intro hnil
      rw [hnil] at hdigest
      exact hdigest (is_digest_nil _)
    rw [dispatch, if_neg fun hwrap => hverb (text_eq_wrap.mp hwrap), if_neg (by simp [hname, hne])]
    exact dispatch_module_eq_callback.mpr ⟨rfl, rfl, hmem, rfl, fun _ => hdigest⟩

theorem request_callback_eq_some {reads : List Text} (hreads : ∀ chunk ∈ reads, chunk ≠ [])
    {r : Requested} {scan_buf : Text} {unread : List Text} :
    request_callback installed reads = some (r, scan_buf, unread) ↔ ∃ v a d,
      scan_reads scan_request .start reads = .stopped (.go v a d) scan_buf unread ∧
        dispatch installed v a d = .callback r := by
  have htake : reads.takeWhile (· ≠ []) = reads :=
    List.takeWhile_eq_self_iff.mpr fun chunk hmem => decide_eq_true (hreads chunk hmem)
  unfold request_callback
  rw [htake]
  constructor
  · intro h
    split at h
    · rename_i v a d buf rest hscan
      split at h
      · rename_i r' hr'
        cases h
        exact ⟨v, a, d, hscan, hr'⟩
      · cases h
    · cases h
  · rintro ⟨v, a, d, hscan, hr⟩
    simp only [hscan, hr]

/-- A callback is reached just from a line of a request at the start of the stream,
however that arrives, and gets the line's fields and the bytes received behind it. -/
theorem request_line_lexed (reads : List Text) (hreads : ∀ chunk ∈ reads, chunk ≠ [])
    (hwrap : ¬ "wrap ".toList <+: reads.flatten) :
    (∀ r, (∃ scan_buf unread, request_callback installed reads = some (r, scan_buf, unread)) ↔
      ∃ line rest, RequestLine installed r line ∧ reads.flatten = line ++ rest) ∧
    ∀ r scan_buf unread, request_callback installed reads = some (r, scan_buf, unread) →
      ∃ line read last, RequestLine installed r line ∧ reads = read ++ last :: unread ∧
        read.flatten ++ last = line ++ scan_buf ∧ scan_buf.length < last.length := by
  have hlexed : ∀ r scan_buf unread, request_callback installed reads = some (r, scan_buf, unread) →
      ∃ line read last, RequestLine installed r line ∧ reads = read ++ last :: unread ∧
        read.flatten ++ last = line ++ scan_buf ∧ scan_buf.length < last.length := by
    intro r scan_buf unread h
    obtain ⟨v, a, d, hscan, hr⟩ := (request_callback_eq_some hreads).mp h
    obtain ⟨read, last, taken, rfl, rfl, hne, hstop⟩ := scan_reads_split hscan
    refine ⟨read.flatten ++ taken, read, taken ++ scan_buf, requestLine_of_ends hstop hr ?_, rfl, by simp, ?_⟩
    · intro hfront
      refine hwrap (hfront.trans ?_)
      exact ⟨scan_buf ++ unread.flatten, by simp⟩
    · have hpos := List.length_pos_iff.mpr hne
      rw [List.length_append]
      omega
  refine ⟨fun r => ⟨?_, ?_⟩, hlexed⟩
  · rintro ⟨scan_buf, unread, h⟩
    obtain ⟨line, read, last, hline, rfl, heq, -⟩ := hlexed r scan_buf unread h
    refine ⟨line, scan_buf ++ unread.flatten, hline, ?_⟩
    rw [List.flatten_append, List.flatten_cons, ← List.append_assoc, heq, List.append_assoc]
  · rintro ⟨line, rest, hline, hflatten⟩
    obtain ⟨a, hends, hr⟩ := ends_of_requestLine hline
    have hstop : scan scan_request .start reads.flatten = .stop (.go r.verb.text a r.digest) rest := by
      rw [hflatten]
      exact scan_append_stop hends
    obtain ⟨scan_buf, unread, hscan, -⟩ := scan_reads_of_flatten hstop
    exact ⟨scan_buf, unread, (request_callback_eq_some hreads).mpr ⟨_, a, _, hscan, hr⟩⟩

end requests

def every_module : Installed where
  modules := [.bc160, .btc20, .sha]
  wrap_algorithm := .sha
  wrap_mem := by decide

def get_request : Requested :=
  ⟨.get, .sha, "da39a3ee5e6b4b0d3255bfef95601890afd80709".toList⟩

/-- A get that arrives in two reads, the second with a byte behind the line. -/
theorem get_request_lexed : ∃ line rest, RequestLine every_module get_request line ∧
    ["get sha:da39a3ee5e6b4b0d3255bf".toList, "ef95601890afd80709\r\nx".toList].flatten = line ++ rest :=
  ((request_line_lexed _ (by decide) (by decide +kernel)).1 get_request).mp
    ⟨['x'], [], by decide +kernel⟩

/-- The server has a callback for the verb `cat`, too. -/
theorem cat_reaches_callback :
    (request_callback every_module ["cat sha:da39a3ee5e6b4b0d3255bfef95601890afd80709\n".toList]).isSome ∧
      ∀ v ∈ [Verb.get, .put, .give, .take, .eat, .roll, .wrap],
        ¬ v.text <+: "cat sha:da39a3ee5e6b4b0d3255bfef95601890afd80709\n".toList := by
  decide +kernel

end Blobio
