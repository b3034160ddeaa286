import Blobio.AppendXdr
import Blobio.ClientDigests
import Blobio.EarlyExits
import Blobio.FsPaths
import Mathlib.Data.List.Perm.Basic

/-! The command line of the client: its options, in whatever order they come, and which of them a verb
needs or must not have. -/
namespace Blobio.Cli
open Client EarlyExits

inductive Driver | bio4 | fs deriving DecidableEq

def Driver.name : Driver → Text
  | bio4 => "bio4".toList
  | fs => "fs".toList

def services : List Driver := [.bio4, .fs]

/-- A service that an option names, and what its query arguments set. A value of these that does not fit
in its buffer is none. -/
structure Service where
  driver : Driver
  end_point : Text
  query : Text
  algo : Option Text
  brr_mask : UInt8
  fnp : Option Text

/-- What the program uses of the library. -/
structure Library where
  frisk_udig : Text → Option Text
  frisk_udig_eq_none : ∀ t, frisk_udig t = none ↔ UdigSyntax t
  a2ui63 : Text → Except Text ℕ

/-- The globals that the options set. -/
structure Globals where
  verb : Text := []
  algorithm : Text := []
  ascii_digest : Text := []
  udig : Text := []
  digest_module : Option DigestModule := none
  input_path : Option Text := none
  output_path : Option Text := none
  service : Option Service := none
  io_timeout : ℤ := -1
  tracing : Bool := false
  rm_output_path_error : Bool := true

/-- The ends of the process that come before any request. -/
inductive Exit
  | help
  | die (msg : Text)

abbrev Run := Program Globals Exit

inductive Opt | udig | algorithm | input_path | output_path | service | trace | io_timeout | help
  deriving DecidableEq

def Opt.name : Opt → Text
  | udig => "udig".toList
  | algorithm => "algorithm".toList
  | input_path => "input-path".toList
  | output_path => "output-path".toList
  | service => "service".toList
  | trace => "trace".toList
  | io_timeout => "io-timeout".toList
  | help => "help".toList

def opts : List Opt := [.udig, .algorithm, .input_path, .output_path, .service, .trace, .io_timeout, .help]

/-! ### Messages -/

def die {α : Type} (msg : Text) : Run α := stop (.die msg)

def die2 {α : Type} (msg1 msg2 : Text) : Run α := die (msg1 ++ ": ".toList ++ msg2)

def eopt (option why : Text) : Text := "option --".toList ++ option ++ ": ".toList ++ why

def eopt2 (option why1 why2 : Text) : Text :=
  eopt option ((if why1 = [] then [] else why1 ++ ": ".toList) ++ why2)

def eservice2 (why1 why2 : Text) : Text :=
  if why2 = [] then eopt "service".toList why1 else eopt2 "service".toList why1 why2

def eservice (why : Text) : Text := eopt "service".toList why

def no_opt (option : Text) : Text := "missing required option: --".toList ++ option

def emany (option : Text) : Text := "option given more than once: --".toList ++ option

def enot (option : Text) : Text := eopt option "not needed".toList

/-! ### The values of the options -/

section values
variable (lib : Library) (digests : List DigestModule)

def take_udig (ud : Text) : Except Text (Globals → Globals) :=
  match lib.frisk_udig ud with
  | some err => .error (eopt2 "udig".toList err ud)
  | none =>
    let algorithm := ud.takeWhile (· ≠ ':')
    match find_digest digests algorithm with
    | none => .error (eopt2 "udig".toList "unknown algorithm".toList algorithm)
    | some d =>
      let ascii_digest := ud.drop (algorithm.length + 1)
      if syntax_of d ascii_digest = 0 then
        .error (eopt2 "udig".toList "bad syntax for digest".toList ascii_digest)
      else
        .ok fun g => { g with
          algorithm := algorithm, ascii_digest := ascii_digest, digest_module := some d, udig := ud }

def take_algorithm (n : Text) : Except Text (Globals → Globals) :=
  if n = [] then .error (eopt "algorithm".toList "empty name".toList)
  else
    match find_digest digests n with
    | none => .error (eopt2 "algorithm".toList "unknown algorithm".toList n)
    | some d => .ok fun g => { g with algorithm := d.name, digest_module := some d }

def take_input_path (path : Text) : Except Text (Globals → Globals) :=
  if path = [] then .error (eopt "input-path".toList "empty file path".toList)
  else .ok fun g => { g with input_path := some path }

def take_output_path (path : Text) : Except Text (Globals → Globals) :=
  .ok fun g => { g with output_path := some path }

/-- The loop over the end point; the first question mark introduces the query. -/
def frisk_end_point : Bool → Text → Option Text
  | _, [] => none
  | query, c :: p =>
    if ¬ isgraph c then some "non graph char in query arg".toList
    else if c = '?' then
      if query then some "multiple \"?\" are forbidden".toList else frisk_end_point true p
    else if c = '&' ∧ ¬ query then some "missing \"?\" before \"&\"".toList
    else frisk_end_point query p

def fs_end_point_syntax (root_dir : Text) : Except Text Unit :=
  if max_fs_path - 1 < root_dir.length then .error "too many chars in root directory path".toList else .ok ()

def end_point_error : Bio4.EndPointError → Text
  | .no_colon => "no colon at after hostname or ip4".toList
  | .non_ascii => "non ascii character in host".toList
  | .non_alpha_numeric => "non alpha numeric or . char in host".toList
  | .port_before_query => "no port number before query argument".toList
  | .long_port => "> 5 chars in port number".toList
  | .no_port => "no port number after colon".toList
  | .port_zero => "port number can not be 0".toList
  | .large_port => "port number > 65535".toList

def Driver.end_point_syntax : Driver → Text → Except Text Unit
  | bio4, endp => (Bio4.bio4_end_point_syntax endp).mapError end_point_error
  | fs, endp => fs_end_point_syntax endp

/-- The file system's driver names the records of its requests when no query argument does. -/
def Driver.default_fnp : Driver → Option Text → Option Text
  | bio4, fnp => fnp
  | fs, fnp => fnp.map fun b => if b.head? = some '\x00' then "fs".toList ++ '\x00' :: b.drop 3 else b

/-- What a query sets, none being there for an end point without a question mark. -/
def query_args (query : Option Text) : Except Text (Text × Option Text × UInt8 × Option Text) :=
  match query with
  | none => .ok ([], QueryArgs.get_algo [] fun _ => none, 0, QueryArgs.get_fnp [] fun _ => none)
  | some query =>
    match QueryArgs.frisk_qargs query with
    | .error err => .error (eservice2 "query arg: frisk".toList err.text.toList)
    | .ok seen => .ok (query, QueryArgs.get_algo query seen, QueryArgs.get_brr_mask query seen,
        QueryArgs.get_fnp query seen)

/-- The end of the service's option, from the end point of its driver on. -/
def parse_end_point (sp : Driver) (s p : Text) : Except Text Service :=
  if 128 ≤ p.length then .error (eservice2 "end point >= 128 characters".toList s)
  else if p = [] then .error (eservice2 "empty <end point>".toList s)
  else if p.head? = some '?' then .error (eservice2 "empty <end point> before ? char".toList s)
  else
    match frisk_end_point false p with
    | some why => .error (eservice why)
    | none =>
      let endp := p.takeWhile (· ≠ '?')
      match query_args (if '?' ∈ p then some (p.drop (endp.length + 1)) else none) with
      | .error msg => .error msg
      | .ok (query, algo, brr_mask, fnp) =>
        match sp.end_point_syntax endp with
        | .error err => .error (eservice2 err endp)
        | .ok () => .ok ⟨sp, endp, query, algo, brr_mask, sp.default_fnp fnp⟩

def parse_service (s : Text) : Except Text Service :=
  let name := s.takeWhile (· ≠ ':')
  if ':' ∉ s then .error (eservice2 "no colon in <name:end_point>".toList s)
  else if 8 < name.length then .error (eservice2 "name > 8 chars".toList s)
  else if name = [] then .error (eservice2 "empty name".toList s)
  else
    match services.find? (·.name = name) with
    | none => .error (eservice2 "unknown service".toList name)
    | some sp => parse_end_point sp s (s.drop (name.length + 1))

def take_service (s : Text) : Except Text (Globals → Globals) :=
  match parse_service s with
  | .error msg => .error msg
  | .ok service => .ok fun g => { g with service := some service }

def take_io_timeout (seconds : Text) : Except Text (Globals → Globals) :=
  match lib.a2ui63 seconds with
  | .error err => .error (eopt2 "io-timeout".toList "can not parse seconds".toList err)
  | .ok ull =>
    if 255 < ull then .error (eopt "io-timeout".toList "seconds > 255".toList)
    else .ok fun g => { g with io_timeout := ull }

/-- What an option's value sets. -/
def Opt.take : Opt → Text → Except Text (Globals → Globals)
  | udig => take_udig lib digests
  | algorithm => take_algorithm digests
  | input_path => take_input_path
  | output_path => take_output_path
  | service => take_service
  | io_timeout => take_io_timeout lib
  | trace | help => fun _ => .ok id

end values

/-! ### The options -/

/-- The message of an option that must not be there by those before it. -/
def Opt.refused (g : Globals) : Opt → Option Text
  | udig =>
    if g.ascii_digest ≠ [] then some (emany "udig".toList)
    else if g.algorithm ≠ [] then some (eopt "udig".toList "option --algorithm conflicts".toList)
    else none
  | algorithm =>
    if g.ascii_digest ≠ [] then some (eopt "algorithm".toList "option --udig conflicts".toList)
    else if g.algorithm ≠ [] then some (emany "algorithm".toList)
    else none
  | input_path => if g.input_path.isSome then some (emany "input-path".toList) else none
  | output_path => if g.output_path.isSome then some (emany "output-path".toList) else none
  | service => if g.service.isSome then some (emany "service".toList) else none
  | trace => if g.tracing then some (emany "trace".toList) else none
  | io_timeout => if 0 ≤ g.io_timeout then some (emany "io-timeout".toList) else none
  | help => none

/-- The message of an option without its value. -/
def Opt.missing : Opt → Text
  | udig => eopt "udig".toList "missing <algorithm:digest>".toList
  | algorithm => eopt "algorithm".toList "missing <name>".toList
  | input_path => eopt "input-path".toList "requires file path".toList
  | output_path => eopt "output-path".toList "missing <file path>".toList
  | service => eservice "missing <name:end_point>".toList
  | io_timeout => emany "io-timeout".toList
  | trace | help => []

/-- The option of an argument, which starts with two hyphens. -/
def opt_of (arg : Text) : Option Opt :=
  opts.find? fun o => arg = '-' :: '-' :: o.name

def verbs : List Text :=
  ["get".toList, "put".toList, "eat".toList, "give".toList, "take".toList, "wrap".toList, "roll".toList,
    "empty".toList]

section parse
variable (lib : Library) (digests : List DigestModule)

/-- The loop over the arguments behind the verb. -/
def parse_options : List Text → Run Unit
  | [] => pure ()
  | arg :: args =>
    match opt_of arg with
    | none => die2 "unknown option".toList arg
    | some opt => do
      if opt = .help then stop .help
      else
        let g ← get
        match opt.refused g with
        | some msg => die msg
        | none =>
          if opt = .trace then
            modify fun g => { g with tracing := true }
            parse_options args
          else
            match args with
            | [] => die opt.missing
            | value :: args =>
              match opt.take lib digests value with
              | .error msg => die msg
              | .ok set => do
                modify set
                parse_options args

/-- Only the file system's driver writes records of its requests. -/
def Driver.brr_frisk : Driver → Bool
  | bio4 => false
  | fs => true

/-- The arguments are those behind the name of the program. -/
def parse_argv : List Text → Run Unit
  | [] => die "no command line arguments".toList
  | verb :: args => do
    if verb = "help".toList ∨ verb = "--help".toList then stop .help
    else if verb ∉ verbs then die2 "unknown verb".toList verb
    else
      modify fun g => { g with verb := verb }
      parse_options lib digests args
      let g ← get
      match g.service with
      | some sp =>
        if 0 < sp.brr_mask ∧ ¬ sp.driver.brr_frisk then
          die2 "brr mask not supported for service".toList sp.driver.name
      | none => pure ()
      if g.io_timeout = -1 then modify fun g => { g with io_timeout := 0 }

end parse

/-! ### The options of a verb -/

/-- The branches of `xref_argv`. -/
inductive Branch
  | blob (forbidden : List Opt)
  | eat
  | empty
  | wrap
  | none

/-- A verb is told by its first two letters. -/
def branch_of (verb : Text) : Branch :=
  match verb[0]?, verb[1]? with
  | some 'g', some 'i' => .blob [.output_path]
  | some 'g', some 'e' => .blob [.input_path]
  | some 't', some 'a' => .blob [.input_path]
  | some 'p', _ => .blob [.output_path]
  | some 'r', _ => .blob [.input_path, .output_path]
  | some 'e', some 'a' => .eat
  | some 'e', _ => .empty
  | some 'w', _ => .wrap
  | _, _ => .none

def Globals.has (g : Globals) : Opt → Bool
  | .udig => g.ascii_digest ≠ []
  | .algorithm => g.algorithm ≠ []
  | .input_path => g.input_path.isSome
  | .output_path => g.output_path.isSome
  | .service => g.service.isSome
  | .trace => g.tracing
  | .io_timeout => 0 ≤ g.io_timeout
  | .help => false

/-- The message when an option is missing. -/
def needs (g : Globals) (opt : Opt) : Option Text :=
  if g.has opt then none else some (no_opt opt.name)

/-- The message when an option is there. -/
def forbids (g : Globals) (opt : Opt) : Option Text :=
  if g.has opt then some (enot opt.name) else none

/-- The message of the first option that the verb lacks or must not have. -/
def xref_argv (g : Globals) : Option Text :=
  match branch_of g.verb with
  | .blob forbidden => ([needs g .service, needs g .udig] ++ forbidden.map (forbids g)).findSome? id
  | .eat =>
    if g.has .service then
      [forbids g .input_path, forbids g .output_path,
        if g.has .algorithm then if g.has .udig then none else some (enot Opt.algorithm.name)
        else some (no_opt Opt.udig.name)].findSome? id
    else if g.has .udig then some (no_opt Opt.service.name)
    else needs g .algorithm
  | .empty =>
    [forbids g .output_path, forbids g .input_path, forbids g .service,
      if ¬ g.has .udig ∧ ¬ g.has .algorithm then some (no_opt "\x7budig,algorithm\x7d".toList)
      else none].findSome? id
  | .wrap =>
    [needs g .service, forbids g .input_path, forbids g .udig, forbids g .algorithm].findSome? id
  | .none => none

/-! ### What the values stand for -/

section spelled
variable {lib : Library} {digests : List DigestModule} {g g' : Globals}

theorem frisk_query_eq_none {q : Text} : frisk_end_point true q = none ↔ ∀ c ∈ q, isgraph c ∧ c ≠ '?' := by
  induction q with
  | nil => exact iff_of_true rfl fun c hc => absurd hc List.not_mem_nil
  | cons c q ih =>
    rw [frisk_end_point, List.forall_mem_cons, ← ih]
    by_cases hgraph : isgraph c
    · rw [if_neg (not_not_intro hgraph)]
      by_cases hc : c = '?'
      · rw [if_pos hc, if_pos rfl]
        exact iff_of_false (Option.some_ne_none _) fun h => h.1.2 hc
      · rw [if_neg hc, if_neg fun h => h.2 rfl]
        exact (and_iff_right ⟨hgraph, hc⟩).symm
    · rw [if_pos hgraph]
      exact iff_of_false (Option.some_ne_none _) fun h => hgraph h.1.1

theorem frisk_end_point_eq_none {p : Text} : frisk_end_point false p = none ↔
    (∀ c ∈ p.takeWhile (· ≠ '?'), isgraph c ∧ c ≠ '&') ∧
      ∀ c ∈ (p.dropWhile (· ≠ '?')).tail, isgraph c ∧ c ≠ '?' := by
  induction p with
  | nil => exact iff_of_true rfl ⟨fun c hc => absurd hc List.not_mem_nil, fun c hc => absurd hc List.not_mem_nil⟩
  | cons c p ih =>
    rw [frisk_end_point]
    by_cases hc : c = '?'
    · have hgraph : isgraph c := by
        rw [hc]
        decide
      rw [List.takeWhile_cons_of_neg (by simp [hc]), List.dropWhile_cons_of_neg (by simp [hc]),
        if_neg (not_not_intro hgraph), if_pos hc, if_neg Bool.false_ne_true, frisk_query_eq_none]
      exact (and_iff_right fun c hc => absurd hc List.not_mem_nil).symm
    · rw [List.takeWhile_cons_of_pos (by simp [hc]), List.dropWhile_cons_of_pos (by simp [hc]), if_neg hc,
        List.forall_mem_cons, and_assoc, ← ih]
      by_cases hgraph : isgraph c
      · rw [if_neg (not_not_intro hgraph)]
        by_cases hamp : c = '&'
        · rw [if_pos ⟨hamp, Bool.false_ne_true⟩]
          exact iff_of_false (Option.some_ne_none _) fun h => h.1.2 hamp
        · rw [if_neg fun h => hamp h.1]
          exact (and_iff_right ⟨hgraph, hamp⟩).symm
      · rw [if_pos hgraph]
        exact iff_of_false (Option.some_ne_none _) fun h => hgraph h.1.1

/-- What stands behind an end point. -/
def query_text : Option Text → Text
  | none => []
  | some query => '?' :: query

theorem exists_query (p : Text) : ∃ endp query, '?' ∉ endp ∧ p = endp ++ query_text query := by
  by_cases hmem : '?' ∈ p
  · obtain ⟨endp, query, rfl, hendp⟩ := List.eq_append_cons_of_mem hmem
    exact ⟨endp, some query, hendp, rfl⟩
  · exact ⟨p, none, hmem, (List.append_nil p).symm⟩

section query
variable {endp : Text} {query : Option Text}

theorem takeWhile_query (h : '?' ∉ endp) : (endp ++ query_text query).takeWhile (· ≠ '?') = endp := by
  cases query with
  | none =>
    rw [query_text, List.append_nil, List.takeWhile_eq_self_iff]
    exact fun c hc => decide_eq_true fun heq => h (heq ▸ hc)
  | some query => exact takeWhile_ne h query

theorem dropWhile_query (h : '?' ∉ endp) :
    ((endp ++ query_text query).dropWhile (· ≠ '?')).tail = query.getD [] := by
  cases query with
  | none =>
    rw [query_text, List.append_nil, List.dropWhile_eq_nil_iff.mpr]
    · rfl
    · exact fun c hc => decide_eq_true fun heq => h (heq ▸ hc)
  | some query => rw [query_text, dropWhile_ne h, List.tail_cons, Option.getD_some]

theorem query_behind (h : '?' ∉ endp) : (if '?' ∈ endp ++ query_text query then
    some ((endp ++ query_text query).drop (endp.length + 1)) else none) = query := by
  cases query with
  | none => rw [query_text, List.append_nil, if_neg h]
  | some query =>
    rw [query_text, if_pos (List.mem_append_right _ List.mem_cons_self), ← List.drop_drop, List.drop_left]
    rfl

/-- How an end point is spelled. -/
structure Service.SpelledAt (sv : Service) (query : Option Text) : Prop where
  end_point_ne : sv.end_point ≠ []
  end_point_chars : ∀ c ∈ sv.end_point, isgraph c ∧ c ≠ '?' ∧ c ≠ '&'
  query_chars : ∀ c ∈ query.getD [], isgraph c ∧ c ≠ '?'
  length : (sv.end_point ++ query_text query).length < 128
  accepted : sv.driver.end_point_syntax sv.end_point = .ok ()
  args : ∃ fnp, query_args query = .ok (sv.query, sv.algo, sv.brr_mask, fnp) ∧ sv.fnp = sv.driver.default_fnp fnp

theorem parse_end_point_of_query {sp : Driver} {s : Text} {sv : Service} (h : '?' ∉ endp) :
    parse_end_point sp s (endp ++ query_text query) = .ok sv ↔
      sv.driver = sp ∧ sv.end_point = endp ∧ sv.SpelledAt query := by
  have hhead : endp ++ query_text query ≠ [] ∧ (endp ++ query_text query).head? ≠ some '?' ↔ endp ≠ [] := by
    cases endp with
    | nil => cases query <;> simp [query_text]
    | cons c endp =>
      have hc : c ≠ '?' := fun heq => h (heq ▸ List.mem_cons_self)
      simp [hc]
  have hfrisk := frisk_end_point_eq_none (p := endp ++ query_text query)
  rw [takeWhile_query h, dropWhile_query h] at hfrisk
  unfold parse_end_point
  rw [takeWhile_query h]
  dsimp only
  rw [query_behind h]
  constructor
  · intro hok
    split_ifs at hok with hlen hnil hquery
    have hne := hhead.mp ⟨hnil, hquery⟩
    split at hok
    · cases hok
    · rename_i hnone
      obtain ⟨hchars, hquery_chars⟩ := hfrisk.mp hnone
      split at hok
      · cases hok
      · rename_i q algo brr_mask fnp hargs
        split at hok
        · cases hok
        · rename_i hend
          cases hok
          refine ⟨rfl, rfl, hne, fun c hc => ⟨(hchars c hc).1, ?_, (hchars c hc).2⟩, hquery_chars,
            Nat.lt_of_not_le hlen, hend, fnp, hargs, rfl⟩
          rintro rfl
          exact h hc
  · rintro ⟨rfl, rfl, hne, hchars, hquery_chars, hlen, hend, fnp, hargs, hfnp⟩
    obtain ⟨hnil, hquery⟩ := hhead.mpr hne
    have hnone := hfrisk.mpr ⟨fun c hc => ⟨(hchars c hc).1, (hchars c hc).2.2⟩, hquery_chars⟩
    rw [if_neg (Nat.not_le_of_lt hlen), if_neg hnil, if_neg hquery, hnone]
    dsimp only
    rw [hargs]
    dsimp only
    rw [hend, ← hfnp]

end query

theorem driver_found (d : Driver) : services.find? (·.name = d.name) = some d := by
  cases d <;> rfl

theorem driver_name (d : Driver) : ':' ∉ d.name ∧ d.name.length ≤ 8 ∧ d.name ≠ [] := by
  cases d <;> decide

/-- How a service is spelled: its driver's name, its end point, and a query behind a question mark or
none. -/
def Service.Spelled (sv : Service) (s : Text) : Prop :=
  ∃ query, s = sv.driver.name ++ ':' :: (sv.end_point ++ query_text query) ∧ sv.SpelledAt query

theorem parse_service_eq_ok {s : Text} {sv : Service} : parse_service s = .ok sv ↔ sv.Spelled s := by
  constructor
  · intro h
    unfold parse_service at h
    dsimp only at h
    split_ifs at h with hcolon hlen hne
    split at h
    · cases h
    · rename_i sp hsp
      obtain ⟨name, p, rfl, hname⟩ := List.eq_append_cons_of_mem hcolon
      rw [takeWhile_ne hname] at h hsp
      have heq : sp.name = name := by simpa using List.find?_some hsp
      obtain ⟨endp, query, hendp, rfl⟩ := exists_query p
      rw [← List.drop_drop, List.drop_left, List.drop_one, List.tail_cons, parse_end_point_of_query hendp] at h
      obtain ⟨rfl, rfl, hat⟩ := h
      exact ⟨query, by rw [← heq], hat⟩
  · rintro ⟨query, rfl, hat⟩
    obtain ⟨hcolon, hlen, hne⟩ := driver_name sv.driver
    have hendp : '?' ∉ sv.end_point := fun hmem => (hat.end_point_chars _ hmem).2.1 rfl
    unfold parse_service
    dsimp only
    rw [takeWhile_ne hcolon, if_neg (not_not_intro (List.mem_append_right _ List.mem_cons_self)),
      if_neg (Nat.not_lt_of_le hlen), if_neg hne, driver_found]
    dsimp only
    rw [← List.drop_drop, List.drop_left, List.drop_one, List.tail_cons, parse_end_point_of_query hendp]
    exact ⟨rfl, rfl, hat⟩

theorem find_digest_eq_some {name : Text} {m : DigestModule} :
    find_digest digests name = some m ↔ m ∈ digests ∧ m.name = name := by
  unfold find_digest
  constructor
  · intro h
    have hname : name = m.name := by simpa using List.find?_some h
    exact ⟨List.mem_of_find?_eq_some h, hname.symm⟩
  · rintro ⟨hmem, rfl⟩
    cases h : digests.find? fun d => m.name = d.name with
    | none => simpa using List.find?_eq_none.mp h m hmem
    | some n =>
      have hname : m.name = n.name := by simpa using List.find?_some h
      rw [DigestModule.name_injective hname]

def Globals.with_udig (u : Udig) (g : Globals) : Globals :=
  { g with
    algorithm := u.algorithm.name, ascii_digest := u.digest.chars, digest_module := some u.algorithm, udig := u.text }

theorem udig_text_fits (u : Udig) : UdigSyntax u.text := by
  have htag : Tag u.algorithm.name := by
    cases u.algorithm
    · exact ⟨'b', "c160".toList, by decide⟩
    · exact ⟨'b', "tc20".toList, by decide⟩
    · exact ⟨'s', "ha".toList, by decide⟩
  have hhex : ∀ c ∈ nib2hex, c ∈ graph_set := by decide
  refine ⟨u.algorithm.name, u.digest.chars, rfl, htag, fun c hc => hhex c (u.digest.hex_chars c hc), ?_, ?_⟩
  · rw [u.digest.length_chars]
    decide
  · rw [u.digest.length_chars]
    decide

theorem colon_not_mem_tag {t : Text} (h : Tag t) : ':' ∉ t := by
  obtain ⟨c, rest, rfl, hc, hrest, -, -⟩ := h
  have hlower : ':' ∉ lower_alnum := by decide
  rintro (_ | hmem)
  · exact absurd hc (by decide)
  · exact hlower (hrest _ ‹_›)

theorem take_udig_eq_ok {ud : Text} {set : Globals → Globals} : take_udig lib digests ud = .ok set ↔
    ∃ u : Udig, u.algorithm ∈ digests ∧ ud = u.text ∧ set = Globals.with_udig u := by
  constructor
  · intro h
    unfold take_udig at h
    split at h
    · cases h
    · rename_i hfrisk
      obtain ⟨⟨name, digest, rfl, htag, -⟩⟩ := (lib.frisk_udig_eq_none ud).mp hfrisk
      dsimp only at h
      rw [takeWhile_ne (colon_not_mem_tag htag), ← List.drop_drop, List.drop_left, List.drop_one, List.tail_cons] at h
      split at h
      · cases h
      · rename_i m hm
        obtain ⟨hmem, rfl⟩ := find_digest_eq_some.mp hm
        split_ifs at h with hdigest
        obtain ⟨hlen, hhex⟩ := syntax_of_ne_zero.mp hdigest
        cases h
        exact ⟨⟨m, digest, hlen, hhex⟩, hmem, rfl, rfl⟩
  · rintro ⟨u, hmem, rfl, rfl⟩
    have hcolon : ':' ∉ u.algorithm.name := by
      cases u.algorithm <;> decide
    have hdigest := (syntax_of_ne_zero (m := u.algorithm)).mpr ⟨u.digest.length_chars, u.digest.hex_chars⟩
    unfold take_udig
    rw [(lib.frisk_udig_eq_none _).mpr (udig_text_fits u)]
    dsimp only
    rw [Udig.text, takeWhile_ne hcolon, ← List.drop_drop, List.drop_left, List.drop_one, List.tail_cons,
      find_digest_eq_some.mpr ⟨hmem, rfl⟩]
    dsimp only
    rw [if_neg hdigest]
    rfl

theorem take_algorithm_eq_ok {n : Text} {set : Globals → Globals} : take_algorithm digests n = .ok set ↔
    ∃ m ∈ digests, n = m.name ∧ set = fun g => { g with algorithm := m.name, digest_module := some m } := by
  constructor
  · intro h
    unfold take_algorithm at h
    split_ifs at h with hne
    split at h
    · cases h
    · rename_i m hm
      obtain ⟨hmem, rfl⟩ := find_digest_eq_some.mp hm
      cases h
      exact ⟨m, hmem, rfl, rfl⟩
  · rintro ⟨m, hmem, rfl, rfl⟩
    have hne : m.name ≠ [] := by
      cases m <;> decide
    unfold take_algorithm
    rw [if_neg hne, find_digest_eq_some.mpr ⟨hmem, rfl⟩]

/-! ### The options of a command line -/

/-- An option as it is written, a trace without a value. -/
def Opt.words : Opt × Text → List Text
  | (trace, _) => ['-' :: '-' :: trace.name]
  | (opt, value) => ['-' :: '-' :: opt.name, value]

def words (os : List (Opt × Text)) : List Text := os.flatMap Opt.words

variable (lib digests) in
/-- The values that an option takes. -/
def Opt.Takes : Opt → Text → Prop
  | udig, value => ∃ u : Udig, u.algorithm ∈ digests ∧ value = u.text
  | algorithm, value => ∃ m ∈ digests, value = m.name
  | input_path, value => value ≠ []
  | output_path, _ => True
  | service, value => ∃ sv : Service, sv.Spelled value
  | trace, value => value = []
  | io_timeout, value => ∃ n ≤ 255, lib.a2ui63 value = .ok n
  | help, _ => False

/-- What an option sets, when it takes its value. -/
def Opt.set (lib : Library) (digests : List DigestModule) (g : Globals) : Opt × Text → Globals
  | (trace, _) => { g with tracing := true }
  | (opt, value) =>
    match opt.take lib digests value with
    | .ok set => set g
    | .error _ => g

variable (lib digests) in
/-- The options of a command line: each at most once, not both a udig and an algorithm, and values that
they take. -/
structure Accepted (os : List (Opt × Text)) : Prop where
  takes : ∀ o ∈ os, o.1.Takes lib digests o.2
  once : (os.map Prod.fst).Nodup
  one_digest : ¬ (.udig ∈ os.map Prod.fst ∧ .algorithm ∈ os.map Prod.fst)

theorem opt_of_eq_some {arg : Text} {opt : Opt} : opt_of arg = some opt ↔ arg = '-' :: '-' :: opt.name := by
  constructor
  · intro h
    simpa using List.find?_some h
  · rintro rfl
    cases opt <;> rfl

theorem take_eq_ok {opt : Opt} (hopt : opt ≠ .trace ∧ opt ≠ .help) {value : Text} :
    (∃ set, opt.take lib digests value = .ok set) ↔ opt.Takes lib digests value := by
  cases opt with
  | udig =>
    constructor
    · rintro ⟨set, h⟩
      obtain ⟨u, hmem, hvalue, -⟩ := take_udig_eq_ok.mp h
      exact ⟨u, hmem, hvalue⟩
    · rintro ⟨u, hmem, hvalue⟩
      exact ⟨_, take_udig_eq_ok.mpr ⟨u, hmem, hvalue, rfl⟩⟩
  | algorithm =>
    constructor
    · rintro ⟨set, h⟩
      obtain ⟨m, hmem, hvalue, -⟩ := take_algorithm_eq_ok.mp h
      exact ⟨m, hmem, hvalue⟩
    · rintro ⟨m, hmem, hvalue⟩
      exact ⟨_, take_algorithm_eq_ok.mpr ⟨m, hmem, hvalue, rfl⟩⟩
  | input_path =>
    change (∃ set, take_input_path value = .ok set) ↔ value ≠ []
    unfold take_input_path
    split_ifs with hnil <;> simp [hnil]
  | output_path => exact iff_of_true ⟨_, rfl⟩ trivial
  | service =>
    change (∃ set, take_service value = .ok set) ↔ ∃ sv : Service, sv.Spelled value
    simp only [← parse_service_eq_ok]
    unfold take_service
    cases parse_service value <;> simp
  | io_timeout =>
    change (∃ set, take_io_timeout lib value = .ok set) ↔ ∃ n ≤ 255, lib.a2ui63 value = .ok n
    unfold take_io_timeout
    cases lib.a2ui63 value with
    | error err => simp
    | ok n =>
      dsimp only
      split_ifs with hlarge
      · simp [Nat.not_le.mpr hlarge]
      · simp [Nat.le_of_not_lt hlarge]
  | trace => exact absurd rfl hopt.1
  | help => exact absurd rfl hopt.2

/-- What the globals tell of the options read so far. -/
structure Globals.Reads (g : Globals) (os : List (Opt × Text)) : Prop where
  ascii_digest : g.ascii_digest ≠ [] ↔ .udig ∈ os.map Prod.fst
  algorithm : g.algorithm ≠ [] ↔ .udig ∈ os.map Prod.fst ∨ .algorithm ∈ os.map Prod.fst
  input_path : g.input_path.isSome ↔ .input_path ∈ os.map Prod.fst
  output_path : g.output_path.isSome ↔ .output_path ∈ os.map Prod.fst
  service : g.service.isSome ↔ .service ∈ os.map Prod.fst
  tracing : g.tracing ↔ .trace ∈ os.map Prod.fst
  io_timeout : 0 ≤ g.io_timeout ↔ .io_timeout ∈ os.map Prod.fst

/-- What an option sets. -/
inductive Setting
  | udig (u : Udig)
  | algorithm (m : DigestModule)
  | input_path (path : Text)
  | output_path (path : Text)
  | service (sv : Service)
  | trace
  | io_timeout (n : ℕ)

def Setting.opt : Setting → Opt
  | udig _ => .udig
  | algorithm _ => .algorithm
  | input_path _ => .input_path
  | output_path _ => .output_path
  | service _ => .service
  | trace => .trace
  | io_timeout _ => .io_timeout

def Setting.apply (g : Globals) : Setting → Globals
  | udig u => g.with_udig u
  | algorithm m => { g with algorithm := m.name, digest_module := some m }
  | input_path path => { g with input_path := some path }
  | output_path path => { g with output_path := some path }
  | service sv => { g with service := some sv }
  | trace => { g with tracing := true }
  | io_timeout n => { g with io_timeout := n }

/-- The module that a setting names is compiled in. -/
def Setting.Installed (digests : List DigestModule) : Setting → Prop
  | udig u => u.algorithm ∈ digests
  | algorithm m => m ∈ digests
  | _ => True

theorem exists_setting {opt : Opt} {value : Text} (h : opt.Takes lib digests value) :
    ∃ s : Setting, s.opt = opt ∧ s.Installed digests ∧ ∀ g, Opt.set lib digests g (opt, value) = s.apply g := by
  cases opt with
  | udig =>
    obtain ⟨u, hu, rfl⟩ := h
    refine ⟨.udig u, rfl, hu, fun g => ?_⟩
    simp only [Opt.set, Opt.take, take_udig_eq_ok.mpr ⟨u, hu, rfl, rfl⟩]
    rfl
  | algorithm =>
    obtain ⟨m, hm, rfl⟩ := h
    refine ⟨.algorithm m, rfl, hm, fun g => ?_⟩
    simp only [Opt.set, Opt.take, take_algorithm_eq_ok.mpr ⟨m, hm, rfl, rfl⟩]
    rfl
  | input_path =>
    refine ⟨.input_path value, rfl, trivial, fun g => ?_⟩
    simp only [Opt.set, Opt.take, take_input_path, if_neg (show value ≠ [] from h)]
    rfl
  | output_path => exact ⟨.output_path value, rfl, trivial, fun _ => rfl⟩
  | service =>
    obtain ⟨sv, hsv⟩ := h
    refine ⟨.service sv, rfl, trivial, fun g => ?_⟩
    simp only [Opt.set, Opt.take, take_service, parse_service_eq_ok.mpr hsv]
    rfl
  | trace => exact ⟨.trace, rfl, trivial, fun _ => rfl⟩
  | io_timeout =>
    obtain ⟨n, hn, hvalue⟩ := h
    refine ⟨.io_timeout n, rfl, trivial, fun g => ?_⟩
    simp only [Opt.set, Opt.take, take_io_timeout, hvalue, if_neg (Nat.not_lt.mpr hn)]
    rfl
  | help => exact h.elim

/-- Settings of different options do not touch the same globals, but for a udig and an algorithm. -/
theorem Setting.comm {s t : Setting} (hne : s.opt ≠ t.opt) (h : ¬ (s.opt = .udig ∧ t.opt = .algorithm))
    (h' : ¬ (s.opt = .algorithm ∧ t.opt = .udig)) : t.apply (s.apply g) = s.apply (t.apply g) := by
  cases s <;> cases t
  case udig.algorithm => exact absurd ⟨rfl, rfl⟩ h
  case algorithm.udig => exact absurd ⟨rfl, rfl⟩ h'
  all_goals first | rfl | exact absurd rfl hne

theorem chars_ne_nil (d : Digest) : d.chars ≠ [] :=
  List.ne_nil_of_length_pos (by rw [d.length_chars]; decide)

theorem name_ne_nil (m : DigestModule) : m.name ≠ [] := by
  cases m <;> decide

theorem reads_apply {os : List (Opt × Text)} (h : g.Reads os) (s : Setting) (value : Text) :
    (s.apply g).Reads (os ++ [(s.opt, value)]) := by
  have hmem : ∀ opt opt', opt' ∈ (os ++ [(opt, value)]).map Prod.fst ↔ opt' ∈ os.map Prod.fst ∨ opt' = opt := by
    simp
  cases s with
  | udig u =>
    constructor <;>
      simp only [Setting.apply, Setting.opt, Globals.with_udig, hmem, h.input_path, h.output_path, h.service, h.tracing, h.io_timeout,
        chars_ne_nil u.digest, name_ne_nil u.algorithm,
        ne_eq, not_false_eq_true, reduceCtorEq, or_false, or_true, true_or]
  | algorithm m =>
    constructor <;>
      simp only [Setting.apply, Setting.opt, hmem, h.ascii_digest, h.input_path, h.output_path, h.service, h.tracing, h.io_timeout, name_ne_nil m,
        ne_eq, not_false_eq_true, reduceCtorEq, or_false, or_true]
  | input_path path =>
    constructor <;>
      simp only [Setting.apply, Setting.opt, hmem, h.ascii_digest, h.algorithm, h.output_path, h.service, h.tracing, h.io_timeout,
        Option.isSome_some, reduceCtorEq, or_false, or_true]
  | output_path path =>
    constructor <;>
      simp only [Setting.apply, Setting.opt, hmem, h.ascii_digest, h.algorithm, h.input_path, h.service, h.tracing, h.io_timeout,
        Option.isSome_some, reduceCtorEq, or_false, or_true]
  | service sv =>
    constructor <;>
      simp only [Setting.apply, Setting.opt, hmem, h.ascii_digest, h.algorithm, h.input_path, h.output_path, h.tracing, h.io_timeout,
        Option.isSome_some, reduceCtorEq, or_false, or_true]
  | trace =>
    constructor <;>
      simp only [Setting.apply, Setting.opt, hmem, h.ascii_digest, h.algorithm, h.input_path, h.output_path, h.service, h.io_timeout,
        reduceCtorEq, or_false, or_true]
  | io_timeout n =>
    constructor <;>
      simp only [Setting.apply, Setting.opt, hmem, h.ascii_digest, h.algorithm, h.input_path, h.output_path, h.service, h.tracing,
        Int.natCast_nonneg, reduceCtorEq, or_false, or_true]

theorem reads_concat {os : List (Opt × Text)} (h : g.Reads os) {opt : Opt} {value : Text}
    (htakes : opt.Takes lib digests value) :
    (Opt.set lib digests g (opt, value)).Reads (os ++ [(opt, value)]) := by
  obtain ⟨s, rfl, -, hset⟩ := exists_setting htakes
  rw [hset]
  exact reads_apply h s value

theorem message_eq_none {p : Prop} [Decidable p] {msg : Text} {next : Option Text} :
    (if p then some msg else next) = none ↔ ¬ p ∧ next = none := by
  split_ifs with hp <;> simp [hp]

/-- An option is let in when it has not been there, and a udig and an algorithm keep each other out. -/
theorem refused_eq_none {os : List (Opt × Text)} (h : g.Reads os) {opt : Opt} (hopt : opt ≠ .help) :
    opt.refused g = none ↔ opt ∉ os.map Prod.fst ∧ ¬ (opt = .udig ∧ .algorithm ∈ os.map Prod.fst) ∧
      ¬ (opt = .algorithm ∧ .udig ∈ os.map Prod.fst) := by
  cases opt with
  | udig =>
    rw [Opt.refused, message_eq_none, message_eq_none, h.ascii_digest, h.algorithm]
    simp only [true_and, reduceCtorEq, false_and, not_false_eq_true, and_true]
    tauto
  | algorithm =>
    rw [Opt.refused, message_eq_none, message_eq_none, h.ascii_digest, h.algorithm]
    simp only [true_and, reduceCtorEq, false_and, not_false_eq_true, and_true]
    tauto
  | input_path =>
    rw [Opt.refused, message_eq_none, h.input_path]
    simp only [reduceCtorEq, false_and, not_false_eq_true, and_true]
  | output_path =>
    rw [Opt.refused, message_eq_none, h.output_path]
    simp only [reduceCtorEq, false_and, not_false_eq_true, and_true]
  | service =>
    rw [Opt.refused, message_eq_none, h.service]
    simp only [reduceCtorEq, false_and, not_false_eq_true, and_true]
  | trace =>
    rw [Opt.refused, message_eq_none, h.tracing]
    simp only [reduceCtorEq, false_and, not_false_eq_true, and_true]
  | io_timeout =>
    rw [Opt.refused, message_eq_none, h.io_timeout]
    simp only [reduceCtorEq, false_and, not_false_eq_true, and_true]
  | help => exact absurd rfl hopt

theorem Opt.Takes.ne_help {opt : Opt} {value : Text} (h : opt.Takes lib digests value) : opt ≠ .help := by
  rintro rfl
  exact h

theorem Accepted.of_append {os os' : List (Opt × Text)} (h : Accepted lib digests (os ++ os')) :
    Accepted lib digests os where
  takes o ho := h.takes o (List.mem_append_left _ ho)
  once := by
    have honce := h.once
    rw [List.map_append] at honce
    exact honce.of_append_left
  one_digest hboth := by
    refine h.one_digest ?_
    rw [List.map_append]
    exact ⟨List.mem_append_left _ hboth.1, List.mem_append_left _ hboth.2⟩

theorem accepted_concat {os : List (Opt × Text)} {opt : Opt} {value : Text} (h : g.Reads os) :
    Accepted lib digests (os ++ [(opt, value)]) ↔
      Accepted lib digests os ∧ opt.Takes lib digests value ∧ opt.refused g = none := by
  have hmap : (os ++ [(opt, value)]).map Prod.fst = os.map Prod.fst ++ [opt] := List.map_append
  have honce : ((os ++ [(opt, value)]).map Prod.fst).Nodup ↔ (os.map Prod.fst).Nodup ∧ opt ∉ os.map Prod.fst := by
    rw [hmap, List.nodup_append]
    simp only [List.nodup_singleton, true_and, List.mem_singleton, forall_eq]
    refine and_congr_right fun _ => ⟨fun h hmem => h _ hmem rfl, ?_⟩
    rintro h opt' hmem rfl
    exact h hmem
  constructor
  · intro hacc
    have htakes : opt.Takes lib digests value := hacc.takes _ (List.mem_append_right _ List.mem_cons_self)
    refine ⟨hacc.of_append, htakes, (refused_eq_none h htakes.ne_help).mpr ⟨(honce.mp hacc.once).2, ?_, ?_⟩⟩
    · rintro ⟨rfl, hmem⟩
      refine hacc.one_digest ?_
      rw [hmap]
      exact ⟨List.mem_append_right _ List.mem_cons_self, List.mem_append_left _ hmem⟩
    · rintro ⟨rfl, hmem⟩
      refine hacc.one_digest ?_
      rw [hmap]
      exact ⟨List.mem_append_left _ hmem, List.mem_append_right _ List.mem_cons_self⟩
  · rintro ⟨hacc, htakes, hrefused⟩
    obtain ⟨hnew, hudig, halgorithm⟩ := (refused_eq_none h htakes.ne_help).mp hrefused
    refine ⟨?_, honce.mpr ⟨hacc.once, hnew⟩, ?_⟩
    · rw [List.forall_mem_append, List.forall_mem_singleton]
      exact ⟨hacc.takes, htakes⟩
    · rw [hmap, List.mem_append, List.mem_append, List.mem_singleton, List.mem_singleton]
      rintro ⟨hu | rfl, ha | ha⟩
      · exact hacc.one_digest ⟨hu, ha⟩
      · exact halgorithm ⟨ha.symm, hu⟩
      · exact hudig ⟨rfl, ha⟩
      · cases ha

theorem parse_options_trace (hrefused : Opt.trace.refused g = none) (args : List Text) :
    parse_options lib digests (('-' :: '-' :: Opt.trace.name) :: args) g =
      parse_options lib digests args { g with tracing := true } := by
  rw [parse_options, opt_of_eq_some.mpr rfl]
  dsimp only
  rw [if_neg (by decide), bind_ok (get_apply g), hrefused]
  rfl

theorem parse_options_value {opt : Opt} (hopt : opt ≠ .trace ∧ opt ≠ .help) (hrefused : opt.refused g = none)
    {value : Text} {set : Globals → Globals} (hset : opt.take lib digests value = .ok set) (args : List Text) :
    parse_options lib digests (('-' :: '-' :: opt.name) :: value :: args) g =
      parse_options lib digests args (set g) := by
  rw [parse_options, opt_of_eq_some.mpr rfl]
  dsimp only
  rw [if_neg hopt.2, bind_ok (get_apply g), hrefused]
  dsimp only
  rw [if_neg hopt.1, hset]
  rfl

theorem set_value {opt : Opt} (hopt : opt ≠ .trace) {value : Text} {set : Globals → Globals}
    (hset : opt.take lib digests value = .ok set) : Opt.set lib digests g (opt, value) = set g := by
  cases opt
  case trace => exact absurd rfl hopt
  all_goals simp only [Opt.set, hset]

theorem parse_options_cons {opt : Opt} {value : Text} (htakes : opt.Takes lib digests value)
    (hrefused : opt.refused g = none) (args : List Text) :
    parse_options lib digests (Opt.words (opt, value) ++ args) g =
      parse_options lib digests args (Opt.set lib digests g (opt, value)) := by
  by_cases htrace : opt = .trace
  · subst htrace
    exact parse_options_trace hrefused args
  · have hopt : opt ≠ .trace ∧ opt ≠ .help := ⟨htrace, htakes.ne_help⟩
    obtain ⟨set, hset⟩ := (take_eq_ok hopt).mpr htakes
    rw [set_value htrace hset, ← parse_options_value hopt hrefused hset args]
    cases opt
    case trace => exact absurd rfl htrace
    all_goals rfl

/-- The options that are read are those of the arguments, and the globals what they set. -/
theorem parse_options_of_accepted {os os' : List (Opt × Text)} (h : g.Reads os)
    (hacc : Accepted lib digests (os ++ os')) :
    parse_options lib digests (words os') g = .ok ((), os'.foldl (Opt.set lib digests) g) := by
  induction os' generalizing os g with
  | nil => rfl
  | cons o os' ih =>
    rw [List.append_cons] at hacc
    obtain ⟨-, htakes, hrefused⟩ := (accepted_concat h).mp hacc.of_append
    rw [words, List.flatMap_cons, parse_options_cons htakes hrefused]
    exact ih (reads_concat h htakes) hacc

theorem accepted_of_parse_options {args : List Text} {os : List (Opt × Text)} (h : g.Reads os)
    (hacc : Accepted lib digests os) (hok : parse_options lib digests args g = .ok ((), g')) :
    ∃ os', args = words os' ∧ Accepted lib digests (os ++ os') := by
  induction hn : args.length using Nat.strong_induction_on generalizing args g os with
  | h n ih =>
    cases args with
    | nil => exact ⟨[], rfl, by rwa [List.append_nil]⟩
    | cons arg args =>
      cases hopt : opt_of arg with
      | none =>
        rw [parse_options, hopt] at hok
        cases hok
      | some opt =>
        obtain rfl := opt_of_eq_some.mp hopt
        by_cases hhelp : opt = .help
        · rw [parse_options, hopt] at hok
          dsimp only at hok
          rw [if_pos hhelp] at hok
          cases hok
        · cases hrefused : opt.refused g with
          | some msg =>
            rw [parse_options, hopt] at hok
            dsimp only at hok
            rw [if_neg hhelp, bind_ok (get_apply g), hrefused] at hok
            cases hok
          | none =>
            by_cases htrace : opt = .trace
            · subst htrace
              rw [parse_options_trace hrefused] at hok
              have htakes : Opt.trace.Takes lib digests [] := rfl
              have hacc' := (accepted_concat h).mpr ⟨hacc, htakes, hrefused⟩
              obtain ⟨os', rfl, hos⟩ := ih args.length (by rw [← hn]; exact Nat.lt_succ_self _)
                (reads_concat h htakes) hacc' hok rfl
              exact ⟨(.trace, []) :: os', rfl, by rwa [List.append_cons]⟩
            · cases args with
              | nil =>
                rw [parse_options, hopt] at hok
                dsimp only at hok
                rw [if_neg hhelp, bind_ok (get_apply g), hrefused] at hok
                dsimp only at hok
                rw [if_neg htrace] at hok
                cases hok
              | cons value args =>
                cases htake : opt.take lib digests value with
                | error msg =>
                  rw [parse_options, hopt] at hok
                  dsimp only at hok
                  rw [if_neg hhelp, bind_ok (get_apply g), hrefused] at hok
                  dsimp only at hok
                  rw [if_neg htrace, htake] at hok
                  cases hok
                | ok set =>
                  have htakes := (take_eq_ok ⟨htrace, hhelp⟩).mp ⟨set, htake⟩
                  rw [parse_options_value ⟨htrace, hhelp⟩ hrefused htake, ← set_value htrace htake] at hok
                  have hacc' := (accepted_concat h).mpr ⟨hacc, htakes, hrefused⟩
                  obtain ⟨os', rfl, hos⟩ := ih args.length (by rw [← hn, List.length_cons, List.length_cons]; omega)
                    (reads_concat h htakes) hacc' hok rfl
                  refine ⟨(opt, value) :: os', ?_, by rwa [List.append_cons]⟩
                  cases opt
                  case trace => exact absurd rfl htrace
                  all_goals rfl

/-! ### The whole command line -/

/-- Without a timeout there is none. -/
def Globals.timed (g : Globals) : Globals :=
  if g.io_timeout = -1 then { g with io_timeout := 0 } else g

variable (lib digests) in
/-- What the options of a verb come to. -/
def Globals.of (verb : Text) (os : List (Opt × Text)) : Globals :=
  os.foldl (Opt.set lib digests) { verb := verb }

/-- The service writes the records that its query asks for. -/
def Globals.Records (g : Globals) : Prop :=
  ∀ sv ∈ g.service, 0 < sv.brr_mask → sv.driver.brr_frisk

theorem reads_nil (verb : Text) : Globals.Reads { verb := verb } [] where
  ascii_digest := iff_of_false (not_not_intro rfl) List.not_mem_nil
  algorithm := iff_of_false (not_not_intro rfl) fun h => h.elim List.not_mem_nil List.not_mem_nil
  input_path := iff_of_false Bool.false_ne_true List.not_mem_nil
  output_path := iff_of_false Bool.false_ne_true List.not_mem_nil
  service := iff_of_false Bool.false_ne_true List.not_mem_nil
  tracing := iff_of_false Bool.false_ne_true List.not_mem_nil
  io_timeout := iff_of_false (show ¬ (0 : ℤ) ≤ -1 by decide) List.not_mem_nil

theorem accepted_nil : Accepted lib digests [] where
  takes _ ho := absurd ho List.not_mem_nil
  once := List.nodup_nil
  one_digest h := absurd h.1 List.not_mem_nil

theorem timed_eq : (if g.io_timeout = -1 then modify fun g => { g with io_timeout := 0 } else pure () : Run Unit) g =
    .ok ((), g.timed) := by
  unfold Globals.timed
  split <;> rfl

theorem no_help_verb {verb : Text} (hverb : verb ∈ verbs) : ¬ (verb = "help".toList ∨ verb = "--help".toList) := by
  rintro (rfl | rfl)
  · exact absurd hverb (by decide)
  · exact absurd hverb (by decide)

theorem parse_argv_of_verb {verb : Text} (hverb : verb ∈ verbs) {args : List Text}
    (hok : parse_options lib digests args { verb := verb } = .ok ((), g)) :
    parse_argv lib digests (verb :: args) {} = .ok ((), g') ↔ g.Records ∧ g' = g.timed := by
  have htimed : ∀ g', (.ok ((), g.timed) : Except (Exit × Globals) (Unit × Globals)) = .ok ((), g') ↔ g' = g.timed := by
    intro g'
    simp [eq_comm]
  rw [parse_argv, if_neg (no_help_verb hverb), if_neg (not_not_intro hverb), bind_ok (modify_apply _ _), bind_ok hok,
    bind_ok (get_apply g)]
  cases hsv : g.service with
  | none =>
    have hrecords : g.Records := by
      intro sv hmem
      rw [hsv] at hmem
      cases hmem
    refine Iff.trans ?_ (and_iff_right hrecords).symm
    rw [← htimed, ← timed_eq]
  | some sv =>
    have hrecords : g.Records ↔ ¬ (0 < sv.brr_mask ∧ ¬ sv.driver.brr_frisk) := by
      unfold Globals.Records
      rw [hsv]
      simp
    dsimp only
    by_cases hmask : 0 < sv.brr_mask ∧ ¬ sv.driver.brr_frisk
    · rw [if_pos hmask]
      refine iff_of_false (fun h => ?_) fun h => (hrecords.mp h.1) hmask
      cases h
    · rw [if_neg hmask]
      refine Iff.trans ?_ (and_iff_right (hrecords.mpr hmask)).symm
      rw [← htimed, ← timed_eq]

theorem accepted_of_parse_argv {argv : List Text} (h : parse_argv lib digests argv {} = .ok ((), g)) :
    ∃ verb os, argv = verb :: words os ∧ verb ∈ verbs ∧ Accepted lib digests os ∧
      (Globals.of lib digests verb os).Records ∧ g = (Globals.of lib digests verb os).timed := by
  cases argv with
  | nil => cases h
  | cons verb args =>
    have hverb : verb ∈ verbs := by
      by_contra hverb
      rw [parse_argv] at h
      split_ifs at h
      all_goals cases h
    cases hok : parse_options lib digests args { verb := verb } with
    | error x =>
      rw [parse_argv, if_neg (no_help_verb hverb), if_neg (not_not_intro hverb), bind_ok (modify_apply _ _),
        bind_error hok] at h
      cases h
    | ok x =>
      obtain ⟨os, rfl, hacc⟩ := accepted_of_parse_options (reads_nil verb) accepted_nil hok
      have hof := parse_options_of_accepted (reads_nil verb) hacc
      exact ⟨verb, os, rfl, hverb, hacc, (parse_argv_of_verb hverb hof).mp h⟩

/-- The command lines that are accepted, and the globals that they leave. -/
theorem command_line_accepted_iff (argv : List Text) : parse_argv lib digests argv {} = .ok ((), g) ↔
    ∃ verb os, argv = verb :: words os ∧ verb ∈ verbs ∧ Accepted lib digests os ∧
      (Globals.of lib digests verb os).Records ∧ g = (Globals.of lib digests verb os).timed := by
  refine ⟨accepted_of_parse_argv, ?_⟩
  rintro ⟨verb, os, rfl, hverb, hacc, h⟩
  exact (parse_argv_of_verb hverb (parse_options_of_accepted (reads_nil verb) hacc)).mpr h

theorem Accepted.perm {os os' : List (Opt × Text)} (h : Accepted lib digests os) (hperm : os.Perm os') :
    Accepted lib digests os' where
  takes o ho := h.takes o (hperm.mem_iff.mpr ho)
  once := (hperm.map Prod.fst).nodup_iff.mp h.once
  one_digest hboth := h.one_digest
    ⟨(hperm.map Prod.fst).mem_iff.mpr hboth.1, (hperm.map Prod.fst).mem_iff.mpr hboth.2⟩

theorem of_perm {os os' : List (Opt × Text)} (h : Accepted lib digests os) (hperm : os.Perm os') (verb : Text) :
    Globals.of lib digests verb os = Globals.of lib digests verb os' := by
  refine hperm.foldl_eq' (fun o ho o' ho' g => ?_) _
  by_cases hsame : o.1 = o'.1
  · rw [List.inj_on_of_nodup_map h.once ho ho' hsame]
  · obtain ⟨s, hs, -, hset⟩ := exists_setting (h.takes o ho)
    obtain ⟨t, ht, -, hset'⟩ := exists_setting (h.takes o' ho')
    have hmem : s.opt ∈ os.map Prod.fst := hs ▸ List.mem_map_of_mem ho
    have hmem' : t.opt ∈ os.map Prod.fst := ht ▸ List.mem_map_of_mem ho'
    rw [show o = (o.1, o.2) from rfl, show o' = (o'.1, o'.2) from rfl, hset, hset', hset', hset]
    refine Setting.comm (by rwa [hs, ht]) ?_ ?_
    · rintro ⟨hs', ht'⟩
      exact h.one_digest ⟨hs' ▸ hmem, ht' ▸ hmem'⟩
    · rintro ⟨hs', ht'⟩
      exact h.one_digest ⟨ht' ▸ hmem', hs' ▸ hmem⟩

/-- The order of the options makes no difference to what is accepted. -/
theorem options_commute {os os' : List (Opt × Text)} (h : Accepted lib digests os) (hperm : os.Perm os') (verb : Text) :
    parse_argv lib digests (verb :: words os') {} = .ok ((), g) ↔
      parse_argv lib digests (verb :: words os) {} = .ok ((), g) := by
  have hnot : ∀ os, parse_argv lib digests (verb :: words os) {} = .ok ((), g) → verb ∈ verbs := by
    intro os hok
    obtain ⟨verb', os₁, hwords, hverb, -⟩ := accepted_of_parse_argv hok
    exact (List.cons.inj hwords).1 ▸ hverb
  by_cases hverb : verb ∈ verbs
  · rw [parse_argv_of_verb hverb (parse_options_of_accepted (reads_nil verb) (h.perm hperm)),
      parse_argv_of_verb hverb (parse_options_of_accepted (reads_nil verb) h)]
    rw [show os'.foldl (Opt.set lib digests) { verb := verb } = Globals.of lib digests verb os' from rfl,
      ← of_perm h hperm verb]
    rfl
  · exact iff_of_false (fun hok => hverb (hnot _ hok)) fun hok => hverb (hnot _ hok)

theorem takes_of_isSome {opt : Opt} (hopt : opt ≠ .trace ∧ opt ≠ .help) {value : Text}
    (h : (opt.take lib digests value).toOption.isSome) : opt.Takes lib digests value := by
  refine (take_eq_ok hopt).mp ?_
  cases htake : opt.take lib digests value with
  | error msg =>
    rw [htake] at h
    cases h
  | ok set => exact ⟨set, rfl⟩

theorem null_not_mem_udig {t : Text} (h : UdigSyntax t) : '\x00' ∉ t := by
  obtain ⟨name, digest, rfl, htag, hdigest⟩ := h
  have hlower : '\x00' ∉ lower_alnum := by decide
  have hgraph : '\x00' ∉ graph_set := by decide
  rw [List.mem_append, List.mem_cons]
  rintro (hmem | hmem | hmem)
  · exact hlower (htag.subset _ hmem)
  · exact absurd hmem (by decide)
  · exact hgraph (hdigest.subset _ hmem)

def plain_library : Library where
  frisk_udig t := if udig_ok t ∧ '\x00' ∉ t then none else some "not a udig".toList
  frisk_udig_eq_none t := by
    split_ifs with ht
    · exact iff_of_true rfl ((udig_ok_checks t ht.2).mp ht.1)
    · refine iff_of_false (by simp) fun h => ht ?_
      exact ⟨(udig_ok_checks t (null_not_mem_udig h)).mpr h, null_not_mem_udig h⟩
  a2ui63 := AppendXdr.decimal

def get_options : List (Opt × Text) :=
  [(.service, "bio4:localhost:1797".toList), (.udig, "sha:da39a3ee5e6b4b0d3255bfef95601890afd80709".toList),
    (.output_path, "blob".toList)]

theorem get_options_accepted : Accepted plain_library [.sha] get_options where
  takes := by
    rw [get_options, List.forall_mem_cons, List.forall_mem_cons, List.forall_mem_singleton]
    exact ⟨takes_of_isSome (by decide) (by decide +kernel), takes_of_isSome (by decide) (by decide +kernel), trivial⟩
  once := by decide
  one_digest := by decide

theorem get_options_parsed : ∃ g, parse_argv plain_library [.sha] ("get".toList :: words get_options) {} =
    .ok ((), g) ∧ xref_argv g = none := by
  have hpasses : (match parse_argv plain_library [.sha] ("get".toList :: words get_options) {} with
      | .ok (_, g) => (xref_argv g).isNone
      | .error _ => false) = true := by
    decide +kernel
  split at hpasses
  · rename_i g h
    exact ⟨g, h, Option.isNone_iff_eq_none.mp hpasses⟩
  · cases hpasses

theorem get_options_commute :
    ∃ g, parse_argv plain_library [.sha] ("get".toList :: words get_options.reverse) {} = .ok ((), g) ∧
      parse_argv plain_library [.sha] ("get".toList :: words get_options) {} = .ok ((), g) := by
  obtain ⟨g, h, -⟩ := get_options_parsed
  exact ⟨g, (options_commute get_options_accepted get_options.reverse_perm.symm "get".toList).mpr h, h⟩

/-! ### What a verb runs on -/

/-- The digest that a request is about: none, that of the empty blob or of an input by its module, or the one
of a udig. -/
def Globals.Digested (digests : List DigestModule) (g : Globals) : Prop :=
  (g.algorithm = [] ∧ g.ascii_digest = [] ∧ g.digest_module = none) ∨
    (∃ m ∈ digests, g.algorithm = m.name ∧ g.ascii_digest = [] ∧ g.digest_module = some m) ∨
    ∃ u : Udig, u.algorithm ∈ digests ∧ g.algorithm = u.algorithm.name ∧ g.ascii_digest = u.digest.chars ∧
      g.digest_module = some u.algorithm ∧ g.udig = u.text

theorem digested_apply (h : g.Digested digests) {s : Setting} (hs : s.Installed digests)
    (hrefused : s.opt.refused g = none) : (s.apply g).Digested digests := by
  cases s with
  | udig u => exact .inr (.inr ⟨u, hs, rfl, rfl, rfl, rfl⟩)
  | algorithm m =>
    have hnone := hrefused
    rw [Setting.opt, Opt.refused, message_eq_none] at hnone
    exact .inr (.inl ⟨m, hs, rfl, not_not.mp hnone.1, rfl⟩)
  | input_path path => exact h
  | output_path path => exact h
  | service sv => exact h
  | trace => exact h
  | io_timeout n => exact h

theorem digested_of_accepted {os os' : List (Opt × Text)} (h : g.Reads os) (hg : g.Digested digests)
    (hacc : Accepted lib digests (os ++ os')) : (os'.foldl (Opt.set lib digests) g).Digested digests := by
  induction os' generalizing os g with
  | nil => exact hg
  | cons o os' ih =>
    rw [List.append_cons] at hacc
    obtain ⟨-, htakes, hrefused⟩ := (accepted_concat h).mp hacc.of_append
    obtain ⟨s, hs, hinstalled, hset⟩ := exists_setting htakes
    rw [← hs] at hrefused
    refine ih (reads_concat h htakes) ?_ hacc
    rw [show o = (o.1, o.2) from rfl, hset]
    exact digested_apply hg hinstalled hrefused

theorem verb_of (verb : Text) {os : List (Opt × Text)} (hacc : Accepted lib digests os) :
    (Globals.of lib digests verb os).verb = verb := by
  have hkeeps : ∀ (os : List (Opt × Text)) (g : Globals), (∀ o ∈ os, o.1.Takes lib digests o.2) →
      (os.foldl (Opt.set lib digests) g).verb = g.verb := by
    intro os
    induction os with
    | nil => exact fun _ _ => rfl
    | cons o os ih =>
      intro g htakes
      obtain ⟨ho, hos⟩ := List.forall_mem_cons.mp htakes
      obtain ⟨s, -, -, hset⟩ := exists_setting ho
      rw [List.foldl_cons, ih _ hos, show o = (o.1, o.2) from rfl, hset]
      cases s <;> rfl
  exact hkeeps os _ hacc.takes

/-- What the verb of a command line that has passed the checks runs on. -/
inductive Ready (digests : List DigestModule) (g : Globals) : Prop
  | request (verb : Verb) (u : Udig) (hverb : verb ≠ .wrap ∧ verb ≠ .cat) (hmem : u.algorithm ∈ digests)
      (hrequest : g.verb = verb.text ∧ g.algorithm = u.algorithm.name ∧ g.ascii_digest = u.digest.chars)
      (hmodule : g.digest_module = some u.algorithm) (hservice : g.service.isSome)
      (hinput : g.input_path.isSome → verb = .put ∨ verb = .give)
      (houtput : g.output_path.isSome → verb = .get ∨ verb = .take)
  | wrap (hrequest : g.verb = Verb.wrap.text ∧ g.algorithm = [] ∧ g.ascii_digest = [])
      (hmodule : g.digest_module = none) (hservice : g.service.isSome) (hinput : g.input_path = none)
  | eat_input (m : DigestModule) (hmem : m ∈ digests) (hverb : g.verb = Verb.eat.text)
      (hdigest : g.ascii_digest = []) (hmodule : g.digest_module = some m) (hservice : g.service = none)
  | empty (m : DigestModule) (hmem : m ∈ digests) (hverb : g.verb = "empty".toList)
      (hmodule : g.digest_module = some m) (hservice : g.service = none)
      (hpaths : g.input_path = none ∧ g.output_path = none)

theorem needs_eq_none {opt : Opt} : needs g opt = none ↔ g.has opt := by
  unfold needs
  split_ifs with h <;> simp [h]

theorem forbids_eq_none {opt : Opt} : forbids g opt = none ↔ g.has opt = false := by
  unfold forbids
  split_ifs with h <;> simp [h]

theorem isSome_eq_false {α : Type} {o : Option α} : o.isSome = false ↔ o = none := by
  cases o <;> simp

theorem branch_of_verb : branch_of "get".toList = .blob [.input_path] ∧
    branch_of "put".toList = .blob [.output_path] ∧ branch_of "eat".toList = .eat ∧
    branch_of "give".toList = .blob [.output_path] ∧ branch_of "take".toList = .blob [.input_path] ∧
    branch_of "wrap".toList = .wrap ∧ branch_of "roll".toList = .blob [.input_path, .output_path] ∧
    branch_of "empty".toList = .empty :=
  ⟨rfl, rfl, rfl, rfl, rfl, rfl, rfl, rfl⟩

theorem ready_of_blob {verb : Verb} (hverb : g.verb = verb.text) (hv : verb ≠ .wrap ∧ verb ≠ .cat)
    (hdigested : g.Digested digests) (hservice : g.has .service) (hudig : g.has .udig)
    (hinput : g.has .input_path → verb = .put ∨ verb = .give)
    (houtput : g.has .output_path → verb = .get ∨ verb = .take) : Ready digests g := by
  have hne : g.ascii_digest ≠ [] := of_decide_eq_true hudig
  rcases hdigested with ⟨-, hnil, -⟩ | ⟨m, -, -, hnil, -⟩ | ⟨u, hmem, halgorithm, hdigest, hmodule, -⟩
  · exact absurd hnil hne
  · exact absurd hnil hne
  · exact .request verb u hv hmem ⟨hverb, halgorithm, hdigest⟩ hmodule hservice hinput houtput

theorem ready_of_xref (hverb : g.verb ∈ verbs) (hdigested : g.Digested digests) (h : xref_argv g = none) :
    Ready digests g := by
  obtain ⟨hget, hput, heat, hgive, htake, hwrap, hroll, hempty⟩ := branch_of_verb
  have hblob : ∀ verb : Verb, g.verb = verb.text → verb ≠ .wrap ∧ verb ≠ .cat → ∀ forbidden,
      branch_of verb.text = .blob forbidden → (.input_path ∈ forbidden ∨ verb = .put ∨ verb = .give) →
        (.output_path ∈ forbidden ∨ verb = .get ∨ verb = .take) → Ready digests g := by
    intro verb hv hverb forbidden hbranch hinput houtput
    rw [xref_argv, hv, hbranch] at h
    dsimp only at h
    simp only [List.findSome?_eq_none_iff, List.mem_append, List.mem_cons, List.not_mem_nil, or_false, List.mem_map,
      id] at h
    refine ready_of_blob hv hverb hdigested (needs_eq_none.mp (h _ (.inl (.inl rfl))))
      (needs_eq_none.mp (h _ (.inl (.inr rfl)))) (fun hhas => hinput.resolve_left fun hmem => ?_)
      fun hhas => houtput.resolve_left fun hmem => ?_
    · rw [forbids_eq_none.mp (h _ (.inr ⟨_, hmem, rfl⟩))] at hhas
      cases hhas
    · rw [forbids_eq_none.mp (h _ (.inr ⟨_, hmem, rfl⟩))] at hhas
      cases hhas
  simp only [verbs, List.mem_cons, List.not_mem_nil, or_false] at hverb
  rcases hverb with hv | hv | hv | hv | hv | hv | hv | hv
  · exact hblob .get hv (by decide) _ hget (.inl (by decide)) (.inr (.inl rfl))
  · exact hblob .put hv (by decide) _ hput (.inr (.inl rfl)) (.inl (by decide))
  · rw [xref_argv, hv, heat] at h
    dsimp only at h
    split_ifs at h with hservice halgorithm hudig hudig
    · simp only [List.findSome?_eq_none_iff, List.mem_cons, List.not_mem_nil, or_false, id, forall_eq_or_imp,
        forall_eq, forbids_eq_none] at h
      obtain ⟨hinput, houtput, -⟩ := h
      refine @ready_of_blob _ _ .eat hv (by decide) hdigested hservice hudig ?_ ?_
      · rw [hinput]
        exact fun hfalse => absurd hfalse Bool.false_ne_true
      · rw [houtput]
        exact fun hfalse => absurd hfalse Bool.false_ne_true
    · simp at h
    · simp at h
    · have hne : g.algorithm ≠ [] := of_decide_eq_true (needs_eq_none.mp h)
      have hnil : g.ascii_digest = [] := not_not.mp fun hne => hudig (decide_eq_true hne)
      have hnone : g.service = none := Option.not_isSome_iff_eq_none.mp hservice
      rcases hdigested with ⟨halgorithm, -, -⟩ | ⟨m, hmem, -, -, hmodule⟩ | ⟨u, -, -, hdigest, -, -⟩
      · exact absurd halgorithm hne
      · exact .eat_input m hmem hv hnil hmodule hnone
      · exact absurd (hdigest.symm.trans hnil) (chars_ne_nil u.digest)
  · exact hblob .give hv (by decide) _ hgive (.inr (.inr rfl)) (.inl (by decide))
  · exact hblob .take hv (by decide) _ htake (.inl (by decide)) (.inr (.inr rfl))
  · rw [xref_argv, hv, hwrap] at h
    dsimp only at h
    simp only [List.findSome?_eq_none_iff, List.mem_cons, List.not_mem_nil, or_false, id, forall_eq_or_imp,
      forall_eq, forbids_eq_none, needs_eq_none] at h
    obtain ⟨hservice, hinput, hudig, halgorithm⟩ := h
    have hnil : g.algorithm = [] := not_not.mp (of_decide_eq_false halgorithm)
    have hnil' : g.ascii_digest = [] := not_not.mp (of_decide_eq_false hudig)
    rcases hdigested with ⟨-, -, hmodule⟩ | ⟨m, -, hm, -⟩ | ⟨u, -, hm, -⟩
    · exact .wrap ⟨hv, hnil, hnil'⟩ hmodule hservice (isSome_eq_false.mp hinput)
    · exact absurd (hm.symm.trans hnil) (name_ne_nil m)
    · exact absurd (hm.symm.trans hnil) (name_ne_nil u.algorithm)
  · exact hblob .roll hv (by decide) _ hroll (.inl (by decide)) (.inl (by decide))
  · rw [xref_argv, hv, hempty] at h
    dsimp only at h
    simp only [List.findSome?_eq_none_iff, List.mem_cons, List.not_mem_nil, or_false, id, forall_eq_or_imp,
      forall_eq, forbids_eq_none] at h
    obtain ⟨houtput, hinput, hservice, hdigest⟩ := h
    have hpaths := And.intro (isSome_eq_false.mp hinput) (isSome_eq_false.mp houtput)
    have hnone : g.service = none := isSome_eq_false.mp hservice
    rcases hdigested with ⟨halgorithm, hnil, -⟩ | ⟨m, hmem, -, -, hmodule⟩ | ⟨u, hmem, -, -, hmodule, -⟩
    · rw [if_pos ⟨by simp [Globals.has, hnil], by simp [Globals.has, halgorithm]⟩] at hdigest
      cases hdigest
    · exact .empty m hmem hv hmodule hnone hpaths
    · exact .empty u.algorithm hmem hv hmodule hnone hpaths

/-- A command line that passes the checks has what its verb runs on, a digest's module and a service
among it. -/
theorem accepted_ready (argv : List Text) (h : parse_argv lib digests argv {} = .ok ((), g))
    (hxref : xref_argv g = none) : Ready digests g := by
  obtain ⟨verb, os, rfl, hverb, hacc, -, rfl⟩ := accepted_of_parse_argv h
  have hdigested : (Globals.of lib digests verb os).timed.Digested digests := by
    have hof := @digested_of_accepted lib digests _ _ _ (reads_nil verb) (.inl ⟨rfl, rfl, rfl⟩) hacc
    unfold Globals.timed
    split <;> exact hof
  refine ready_of_xref ?_ hdigested hxref
  have hv : (Globals.of lib digests verb os).timed.verb = verb := by
    unfold Globals.timed
    split <;> exact verb_of verb hacc
  rw [hv]
  exact hverb

end spelled

end Blobio.Cli
