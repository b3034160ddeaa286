import Blobio.Bio4Puts
import Blobio.CommandLines
import Mathlib.Logic.Function.Basic

/-! A run of the client, from its arguments to its exit status and to the files that it leaves. -/
namespace Blobio.Cli
open Client EarlyExits

/-- Files by the paths that name them. -/
abbrev Files := Text → Option Bytes

/-- What a process meets: files, the errors of calls on them that are not of the files' own making, how
reads cut a file, and a server. -/
structure Env where
  files : Files
  stat_error : Text → Option Text
  open_error : Text → Option Text
  unlink_error : Text → Option Text
  read : Bytes → Stream
  read_beginning : ∀ b, (read b).chunks.flatten <+: b
  read_whole : ∀ b, (read b).err = none → (read b).chunks.flatten = b
  stdin : Stream
  connect : Text → ℕ → Option Text
  /-- What is written behind a buffer kills the process, or does it no harm. -/
  overflow_kills : Bool
  /-- So does a null text among those of a message. -/
  null_text_kills : Bool
  server : Stream
  write : ℕ → Written
  junk : ℕ → Char × Char × Char

/-- The end of a process: its exit status, or none where a signal kills it. -/
structure Ended where
  status : Option ℕ
  files : Files
  stdout : Bytes
  to_server : Bytes

def null_device : Text := "/dev/null".toList

section process
variable (lib : Library) (digests : List DigestModule) (env : Env)

/-- The unlink of a file, which is not there any more unless that fails. -/
def unlink (path : Text) (files : Files) : Files :=
  if (env.unlink_error path).isSome then files else Function.update files path none

/-- What `cleanup` leaves of the file that `--output-path` names. -/
def cleanup (status : ℕ) (g : Globals) (files : Files) : Files :=
  match g.output_path with
  | some path =>
    if 1 < status ∧ g.rm_output_path_error ∧ path ≠ null_device then unlink env path files else files
  | none => files

/-- The error of a `stat`, nothing for a file that is not there. -/
def stat (path : Text) : Except (Option Text) Unit :=
  match env.stat_error path with
  | some err => .error (some err)
  | none => if (env.files path).isNone then .error none else .ok ()

def stat_input_path : Run Unit := do
  let g ← get
  match g.input_path with
  | none => pure ()
  | some path =>
    match stat env path with
    | .ok () => pure ()
    | .error none => die (eopt2 "input-path".toList "no file".toList path)
    | .error (some err) => die (eopt2 "input-path".toList err path)

def stat_output_path : Run Unit := do
  let g ← get
  match g.output_path with
  | none => pure ()
  | some path =>
    if path = null_device then pure ()
    else
      match stat env path with
      | .ok () =>
        modify fun g => { g with rm_output_path_error := false }
        die (eopt2 "output-path".toList "refuse to overwrite file".toList path)
      | .error none => pure ()
      | .error (some err) => die (eopt2 "output-path".toList err path)

/-- The beginning of `main`, up to where a service is opened. -/
def checks (argv : List Text) : Run Unit := do
  parse_argv lib digests argv
  let g ← get
  match xref_argv g with
  | some msg => die msg
  | none =>
    stat_input_path env
    stat_output_path env

/-! ### Open files -/

/-- `open` to write to a new file, or to the null device. -/
def open_output (path : Text) (files : Files) : Option Files :=
  if (env.open_error path).isSome then none
  else if path = null_device then some files
  else if (files path).isSome then none
  else some (Function.update files path (some []))

/-- `bio4_open_output` takes a file that cannot be opened for an open one. -/
def bio4_open_output (g : Globals) : Bool × Files :=
  match g.output_path with
  | none => (true, env.files)
  | some path =>
    match open_output env path env.files with
    | some files => (true, files)
    | none => (false, env.files)

/-- What `bio4_open` comes to behind its output. -/
inductive Opening | refused | killed | connected
  deriving DecidableEq

def bio4_open (sv : Service) : Opening :=
  if sv.algo.bind List.head? ≠ some '\x00' then .refused
  else
    match Bio4.bio4_open sv.end_point with
    | none => .killed
    | some ⟨host, pbuf, overflow⟩ =>
      if overflow ∧ env.overflow_kills then .killed
      else if (env.connect host (Bio4.atoi (pbuf.takeWhile isdigit))).isSome then .refused
      else .connected

/-- The input of a request, none where it cannot be opened: `main` puts a null text in the message of that. -/
def open_input (g : Globals) : Option Stream :=
  match g.input_path with
  | none => some env.stdin
  | some path => if (env.open_error path).isSome then none else (env.files path).map env.read

/-- What has been put out lies in the file that is open, or went to the standard output. -/
def Globals.place (g : Globals) (output_open : Bool) (out : Bytes) (files : Files) : Files :=
  match g.output_path with
  | some path => if output_open ∧ path ≠ null_device then Function.update files path (some out) else files
  | none => files

def Globals.standard (g : Globals) (out : Bytes) : Bytes :=
  if g.output_path.isNone then out else []

/-! ### Requests to a server -/

def Globals.request (g : Globals) : Client.Request :=
  ⟨g.verb, g.algorithm, g.ascii_digest, g.input_path.isSome⟩

def Env.world (g : Globals) : World where
  write := env.write
  junk := env.junk
  frisk_udig := lib.frisk_udig
  unlink := g.input_path.bind env.unlink_error

/-- The callback of the verb, which `main` tells by its first two letters. -/
def bio4_request {ssl : OpenSSL} {m : DigestModule} (g : Globals) : Client.Run ssl m Unit :=
  let w := env.world lib g
  match g.verb[0]?, g.verb[1]? with
  | some 'g', some 'e' => bio4_get w g.request
  | some 'g', _ => bio4_give w g.request
  | some 'e', _ => bio4_eat w g.request
  | some 'p', _ => bio4_put w g.request
  | some 't', _ => bio4_take w g.request
  | some 'w', _ => bio4_wrap w g.request
  | _, _ => bio4_roll w g.request

/-- The end of `main` behind a request that has been answered. -/
def answered {ssl : OpenSSL} {m : DigestModule} (g : Globals) (s : Session ssl m) (files : Files) : Ended :=
  let died : Ended := ⟨some 3, cleanup env 3 g files, g.standard s.output, s.to_server⟩
  let done : Ended := ⟨some s.ok_no.toNat, files, g.standard s.output, s.to_server⟩
  match g.verb[0]?, g.verb[1]? with
  | some 'g', some 'i' =>
    match g.input_path with
    | some path =>
      if s.ok_no = 0 then
        if (env.unlink_error path).isSome then died else { done with files := unlink env path files }
      else done
    | none => done
  | some 'w', _ =>
    if s.udig ≠ [] then
      let w := env.write s.writes
      let stdout := g.standard (s.output ++ w.sent (bytes (s.udig ++ ['\n'])))
      match w with
      | .all => { done with stdout := stdout }
      | .killed _ => { done with status := none, stdout := stdout }
      | .failed _ _ | .timed_out _ => { died with stdout := stdout }
    else if s.ok_no = 0 then died
    else done
  | _, _ => done

/-- `main` from the opening of the service on. Its records are left out, as this driver writes none. -/
def main_bio4 (ssl : OpenSSL) (g : Globals) (sv : Service) (m : DigestModule) : Ended :=
  let (output_open, files) := bio4_open_output env g
  match bio4_open env sv with
  | .refused => ⟨some 3, cleanup env 3 g files, [], []⟩
  | .killed => ⟨none, files, [], []⟩
  | .connected =>
    match open_input env g with
    | none => ⟨if env.null_text_kills then none else some 3, files, [], []⟩
    | some input =>
      let reopened := match g.verb[0]?, g.output_path with
        | some 'w', some path | some 'r', some path => open_output env path files
        | _, _ => some files
      match reopened with
      | none => ⟨some 3, files, [], []⟩
      | some files =>
        let s := { Session.opened ssl m env.server input with output_open := output_open }
        let left := fun s : Session ssl m => g.place output_open s.output
          (if s.input_removed then (g.input_path.map (Function.update files · none)).getD files else files)
        match bio4_request lib env g s with
        | .error (.write_timed_out, s) => ⟨some 2, left s, g.standard s.output, s.to_server⟩
        | .error (.killed, s) => ⟨none, left s, g.standard s.output, s.to_server⟩
        | .error (_, s) => ⟨some 3, cleanup env 3 g (left s), g.standard s.output, s.to_server⟩
        | .ok (_, s) => answered env g s (left s)

/-! ### Requests without a server -/

/-- `main` for an input that is digested, and for the empty digest of a module, whose writes are not
checked. -/
def main_local (ssl : OpenSSL) (g : Globals) (m : DigestModule) : Ended :=
  if g.verb = "empty".toList then
    if g.ascii_digest ≠ [] then ⟨some (if is_empty m g.ascii_digest then 0 else 1), env.files, [], []⟩
    else
      let out := (env.write 0).sent (bytes m.empty_ascii)
      if (env.write 0).kills then ⟨none, env.files, out, []⟩
      else ⟨if (env.write 1).kills then none else some 0, env.files, out ++ (env.write 1).sent (bytes ['\n']), []⟩
  else
    match open_input env g with
    | none => ⟨if env.null_text_kills then none else some 3, env.files, [], []⟩
    | some input =>
      match (match g.output_path with
        | none => some env.files
        | some path => open_output env path env.files) with
      | none => ⟨some 3, env.files, [], []⟩
      | some files =>
        match eat_input ssl m input.chunks input.err with
        | .error _ => ⟨some 3, cleanup env 3 g files, [], []⟩
        | .ok ascii_digest =>
          let out := (env.write 0).sent (bytes (ascii_digest ++ ['\n']))
          let left := g.place true out files
          match env.write 0 with
          | .all => ⟨some 0, left, g.standard out, []⟩
          | .killed _ => ⟨none, left, g.standard out, []⟩
          | .failed _ _ | .timed_out _ => ⟨some 3, cleanup env 3 g left, g.standard out, []⟩

/-- The whole process. A request to the other driver is a parameter, and so is the text of the help. -/
def main (ssl : OpenSSL) (fs : Globals → Ended) (usage : Bytes) (argv : List Text) : Ended :=
  match checks lib digests env argv {} with
  | .error (.help, g) => ⟨some 0, cleanup env 0 g env.files, usage, []⟩
  | .error (.die _, g) => ⟨some 3, cleanup env 3 g env.files, [], []⟩
  | .ok (_, g) =>
    match g.service with
    | some sv => if sv.driver = .bio4 then main_bio4 lib env ssl g sv (g.digest_module.getD .sha) else fs g
    | none => main_local env ssl g (g.digest_module.getD .sha)

end process

/-! ### Files that were there -/

section there
variable {lib : Library} {digests : List DigestModule} {env : Env} {g : Globals} {argv : List Text} {path : Text}

/-- What the options leave as it was, and what they check: the end point of a service. -/
structure Globals.Kept (g : Globals) : Prop where
  rm : g.rm_output_path_error = true
  end_point : ∀ sv ∈ g.service, sv.driver.end_point_syntax sv.end_point = .ok ()

theorem kept_nil : ({} : Globals).Kept where
  rm := rfl
  end_point _ h := by cases h

theorem take_keeps {opt : Opt} {value : Text} {set : Globals → Globals} (h : opt.take lib digests value = .ok set)
    (hg : g.Kept) : (set g).Kept := by
  by_cases hservice : opt = .service
  · subst hservice
    change take_service value = .ok set at h
    rw [take_service] at h
    split at h
    · cases h
    · rename_i sv hsv
      cases h
      obtain ⟨query, -, hspelled⟩ := parse_service_eq_ok.mp hsv
      refine ⟨hg.rm, fun sv' hsv' => ?_⟩
      cases hsv'
      exact hspelled.accepted
  by_cases hopt : opt ≠ .trace ∧ opt ≠ .help
  · obtain ⟨s, hs, -, hset⟩ := exists_setting ((take_eq_ok hopt).mp ⟨set, h⟩)
    rw [← set_value hopt.1 h, hset]
    cases s
    case service => exact absurd hs.symm hservice
    all_goals exact ⟨hg.rm, hg.end_point⟩
  · have hid : set = id := by
      rcases Classical.not_and_iff_not_or_not.mp hopt with h' | h'
      · rw [not_not] at h'
        subst h'
        cases h
        rfl
      · rw [not_not] at h'
        subst h'
        cases h
        rfl
    rw [hid]
    exact hg

theorem parse_options_keeps (args : List Text) (g : Globals) (hg : g.Kept) :
    wp (parse_options lib digests args) (fun _ => Globals.Kept) (fun _ => Globals.Kept) g := by
  induction hn : args.length using Nat.strong_induction_on generalizing args g with
  | h n ih =>
    cases args with
    | nil => exact hg
    | cons arg args =>
      rw [parse_options]
      cases opt_of arg with
      | none => exact hg
      | some opt =>
        dsimp only
        by_cases hhelp : opt = .help
        · rw [if_pos hhelp]
          exact hg
        · rw [if_neg hhelp, wp_bind, wp_get]
          cases opt.refused g with
          | some msg => exact hg
          | none =>
            dsimp only
            by_cases htrace : opt = .trace
            · rw [if_pos htrace, wp_bind, wp_modify]
              exact ih args.length (by rw [← hn]; exact Nat.lt_succ_self _) args _ ⟨hg.rm, hg.end_point⟩ rfl
            · rw [if_neg htrace]
              cases args with
              | nil => exact hg
              | cons value args =>
                dsimp only
                cases htake : opt.take lib digests value with
                | error msg => exact hg
                | ok set =>
                  dsimp only
                  rw [wp_bind, wp_modify]
                  refine ih args.length ?_ args (set g) (take_keeps htake hg) rfl
                  rw [← hn, List.length_cons, List.length_cons]
                  omega

theorem parse_argv_keeps (argv : List Text) (g : Globals) (hg : g.Kept) :
    wp (parse_argv lib digests argv) (fun _ => Globals.Kept) (fun _ => Globals.Kept) g := by
  cases argv with
  | nil => exact hg
  | cons verb args =>
    rw [parse_argv]
    by_cases hhelp : verb = "help".toList ∨ verb = "--help".toList
    · rw [if_pos hhelp]
      exact hg
    · rw [if_neg hhelp]
      by_cases hverb : verb ∈ verbs
      swap
      · rw [if_pos hverb]
        exact hg
      rw [if_neg (not_not_intro hverb), wp_bind, wp_modify]
      refine wp_seq (parse_options_keeps args _ ⟨hg.rm, hg.end_point⟩) ?_ fun _ _ h => h
      intro _ g' h
      have htimed : wp (if g'.io_timeout = -1 then modify fun g => { g with io_timeout := 0 } else pure () : Run Unit)
          (fun _ => Globals.Kept) (fun _ => Globals.Kept) g' := by
        split_ifs
        · exact ⟨h.rm, h.end_point⟩
        · exact h
      rw [wp_bind, wp_get]
      cases g'.service with
      | none => exact htimed
      | some sv =>
        dsimp only
        by_cases hmask : 0 < sv.brr_mask ∧ ¬ sv.driver.brr_frisk
        · rw [if_pos hmask]
          exact h
        · rw [if_neg hmask]
          exact htimed

theorem kept_of_parse_ok (h : parse_argv lib digests argv {} = .ok ((), g)) : g.Kept :=
  (wp_of_ok h).mp (parse_argv_keeps argv {} kept_nil)

theorem rm_of_parse_error {why : Exit} (h : parse_argv lib digests argv {} = .error (why, g)) :
    g.rm_output_path_error = true :=
  ((wp_of_error h).mp (parse_argv_keeps argv {} kept_nil)).rm

theorem checks_of_error {why : Exit} (h : parse_argv lib digests argv {} = .error (why, g)) :
    checks lib digests env argv {} = .error (why, g) :=
  bind_error h

/-- The input path names a file, if there is one. -/
def InputThere (env : Env) (g : Globals) : Prop :=
  ∀ path ∈ g.input_path, stat env path = .ok ()

theorem stat_input_path_of_there (h : InputThere env g) : stat_input_path env g = .ok ((), g) := by
  rw [stat_input_path, bind_ok (get_apply g)]
  cases hpath : g.input_path with
  | none => rfl
  | some path =>
    dsimp only
    rw [h path hpath]
    rfl

theorem stat_input_path_of_not_there (h : ¬ InputThere env g) :
    ∃ msg, stat_input_path env g = .error (.die msg, g) := by
  rw [stat_input_path, bind_ok (get_apply g)]
  cases hpath : g.input_path with
  | none =>
    refine absurd (fun path hmem => ?_) h
    rw [hpath] at hmem
    cases hmem
  | some path =>
    dsimp only
    cases hstat : stat env path with
    | ok _ =>
      refine absurd (fun path' hmem => ?_) h
      rw [hpath] at hmem
      cases hmem
      exact hstat
    | error err => cases err with
      | none => exact ⟨_, rfl⟩
      | some err => exact ⟨_, rfl⟩

theorem checks_of_ok (h : parse_argv lib digests argv {} = .ok ((), g)) (hxref : xref_argv g = none)
    (hinput : InputThere env g) : checks lib digests env argv {} = stat_output_path env g := by
  rw [checks, bind_ok h, bind_ok (get_apply g), hxref]
  exact bind_ok (stat_input_path_of_there hinput)

/-- A command line that is refused behind its options, or for its input. -/
theorem checks_of_refused (h : parse_argv lib digests argv {} = .ok ((), g))
    (hrefused : ¬ (xref_argv g = none ∧ InputThere env g)) :
    ∃ msg, checks lib digests env argv {} = .error (.die msg, g) := by
  rw [checks, bind_ok h, bind_ok (get_apply g)]
  cases hxref : xref_argv g with
  | some msg => exact ⟨msg, rfl⟩
  | none =>
    obtain ⟨msg, hmsg⟩ := stat_input_path_of_not_there fun hinput => hrefused ⟨hxref, hinput⟩
    exact ⟨msg, bind_error hmsg⟩

theorem cleanup_of_output (hout : g.output_path = some path) (hrm : g.rm_output_path_error = true)
    (hnull : path ≠ null_device) (hunlink : env.unlink_error path = none) (files : Files) :
    cleanup env 3 g files = Function.update files path none := by
  rw [cleanup, hout]
  dsimp only
  rw [if_pos ⟨by decide, hrm, hnull⟩, unlink, hunlink, if_neg (by decide)]

/-- A process without errors, whose server says ok to everything. -/
def plain_env (files : Files) : Env where
  files := files
  stat_error _ := none
  open_error _ := none
  unlink_error _ := none
  read b := ⟨[b], none⟩
  read_beginning b := by rw [List.flatten_singleton]
  read_whole b _ := List.flatten_singleton
  stdin := ⟨[], none⟩
  connect _ _ := none
  overflow_kills := true
  null_text_kills := true
  server := ⟨[ok_line, ok_line, ok_line], none⟩
  write _ := .all
  junk _ := ('0', '0', '0')

/-- A command line that passes the checks of a process, which the checks tell by running. -/
theorem exists_checks {P : Globals → Prop} [DecidablePred P]
    (h : (match checks lib digests env argv {} with
      | .ok (_, g) => decide (P g)
      | .error _ => false) = true) : ∃ g, checks lib digests env argv {} = .ok ((), g) ∧ P g := by
  split at h
  · rename_i g hg
    exact ⟨g, hg, of_decide_eq_true h⟩
  · cases h

/-- A driver that does nothing. -/
def no_fs (_ : Globals) : Ended := ⟨some 0, fun _ => none, [], []⟩

/-- Some file at the path blob, and no other. -/
def one_file : Files := Function.update (fun _ => none) "blob".toList (some [97])

theorem one_file_there : (plain_env one_file).files "blob".toList = some [97] := by
  change one_file "blob".toList = _
  rw [one_file, Function.update_self]

/-- A file that `--output-path` names is removed although it was there before: by each refusal of the command
line behind that option, and of its input, but not by the check that is there for it. -/
theorem existing_output_removed_iff (ssl : OpenSSL) (fs : Globals → Ended) (usage : Bytes) (argv : List Text)
    {b : Bytes} (hthere : env.files path = some b) (hnull : path ≠ null_device)
    (hunlink : env.unlink_error path = none) :
    (∀ msg g, parse_argv lib digests argv {} = .error (.die msg, g) → g.output_path = some path →
      (main lib digests env ssl fs usage argv).files path = none) ∧
    (∀ g, parse_argv lib digests argv {} = .ok ((), g) → g.output_path = some path →
      (main lib digests env ssl fs usage argv).status = some 3 ∧
        (xref_argv g = none ∧ InputThere env g ∧ env.stat_error path = none →
          (main lib digests env ssl fs usage argv).files path = some b) ∧
        (¬ (xref_argv g = none ∧ InputThere env g ∧ env.stat_error path = none) →
          (main lib digests env ssl fs usage argv).files path = none)) := by
  constructor
  · intro msg g h hout
    rw [main, checks_of_error h]
    dsimp only
    rw [cleanup_of_output hout (rm_of_parse_error h) hnull hunlink, Function.update_self]
  · intro g h hout
    have hremoved : cleanup env 3 g env.files path = none := by
      rw [cleanup_of_output hout (kept_of_parse_ok h).rm hnull hunlink, Function.update_self]
    by_cases hinput : xref_argv g = none ∧ InputThere env g
    · have hchecks : checks lib digests env argv {} = _ := checks_of_ok h hinput.1 hinput.2
      rw [stat_output_path, bind_ok (get_apply g), hout] at hchecks
      dsimp only at hchecks
      rw [if_neg hnull, stat] at hchecks
      cases herr : env.stat_error path with
      | none =>
        rw [herr] at hchecks
        dsimp only at hchecks
        rw [hthere, Option.isNone_some, if_neg Bool.false_ne_true] at hchecks
        rw [main, hchecks]
        refine ⟨rfl, fun _ => ?_, fun hnot => absurd ⟨hinput.1, hinput.2, rfl⟩ hnot⟩
        change cleanup env 3 { g with rm_output_path_error := false } env.files path = _
        rw [cleanup, hout]
        dsimp only
        rw [if_neg fun hrm => Bool.false_ne_true hrm.2.1, hthere]
      | some err =>
        rw [herr] at hchecks
        rw [main, hchecks]
        exact ⟨rfl, fun hok => absurd hok.2.2 (Option.some_ne_none err), fun _ => hremoved⟩
    · obtain ⟨msg, hmsg⟩ : ∃ msg, checks lib digests env argv {} = .error (.die msg, g) :=
        checks_of_refused h hinput
      rw [main, hmsg]
      exact ⟨rfl, fun hok => absurd ⟨hok.1, hok.2.1⟩ hinput, fun _ => hremoved⟩

/-- A get that lacks its udig removes the file that it would have written. -/
theorem incomplete_output_removed : one_file "blob".toList = some [97] ∧
    (main plain_library [.sha] (plain_env one_file) known_ssl no_fs []
      ["get".toList, "--output-path".toList, "blob".toList]).files "blob".toList = none := by
  have hpasses : (match parse_argv plain_library [.sha] ["get".toList, "--output-path".toList, "blob".toList] {} with
      | .ok (_, g) => decide (g.output_path = some "blob".toList ∧ xref_argv g ≠ none)
      | .error _ => false) = true := by
    decide +kernel
  split at hpasses
  · rename_i g hparse
    obtain ⟨hout, hxref⟩ := of_decide_eq_true hpasses
    exact ⟨one_file_there, ((existing_output_removed_iff known_ssl no_fs [] _ one_file_there (by decide) rfl).2 g hparse hout).2.2
      fun hok => hxref hok.1⟩
  · cases hpasses

/-- The output path names no file, if there is one. -/
def OutputFree (env : Env) (g : Globals) : Prop :=
  ∀ path ∈ g.output_path, path ≠ null_device → env.files path = none

/-- A command line that passes the checks. -/
theorem of_checks_ok (h : checks lib digests env argv {} = .ok ((), g)) :
    parse_argv lib digests argv {} = .ok ((), g) ∧ xref_argv g = none ∧ InputThere env g ∧ OutputFree env g := by
  cases hparse : parse_argv lib digests argv {} with
  | error x =>
    rw [checks, bind_error hparse] at h
    cases h
  | ok x =>
    obtain ⟨⟨⟩, g'⟩ := x
    by_cases hinput : xref_argv g' = none ∧ InputThere env g'
    · rw [checks_of_ok hparse hinput.1 hinput.2, stat_output_path, bind_ok (get_apply g')] at h
      cases hout : g'.output_path with
      | none =>
        rw [hout] at h
        cases h
        refine ⟨rfl, hinput.1, hinput.2, fun path hmem => ?_⟩
        rw [hout] at hmem
        cases hmem
      | some path =>
        rw [hout] at h
        dsimp only at h
        by_cases hnull : path = null_device
        · rw [if_pos hnull] at h
          cases h
          refine ⟨rfl, hinput.1, hinput.2, fun path' hmem hne => ?_⟩
          rw [hout] at hmem
          cases hmem
          exact absurd hnull hne
        · rw [if_neg hnull] at h
          cases hstat : stat env path with
          | ok _ =>
            rw [hstat] at h
            cases h
          | error err => cases err with
            | some err =>
              rw [hstat] at h
              cases h
            | none =>
              rw [hstat] at h
              cases h
              refine ⟨rfl, hinput.1, hinput.2, fun path' hmem _ => ?_⟩
              rw [hout] at hmem
              cases hmem
              rw [stat] at hstat
              split at hstat
              · cases hstat
              · split_ifs at hstat with hnone
                exact Option.isNone_iff_eq_none.mp hnone
    · obtain ⟨msg, hmsg⟩ : ∃ msg, checks lib digests env argv {} = .error (.die msg, g') :=
        checks_of_refused hparse hinput
      rw [hmsg] at h
      cases h

theorem accepted_end_point (h : parse_argv lib digests argv {} = .ok ((), g)) {sv : Service}
    (hsv : g.service = some sv) (hdriver : sv.driver = .bio4) :
    ∃ host digits rest, Bio4.Accepted sv.end_point host digits rest := by
  have hsyntax := (kept_of_parse_ok h).end_point sv hsv
  rw [hdriver] at hsyntax
  refine Bio4.accepted_iff.mp ?_
  cases hend : Bio4.bio4_end_point_syntax sv.end_point with
  | ok _ => rfl
  | error err =>
    rw [Driver.end_point_syntax, hend] at hsyntax
    cases hsyntax

/-- Only what is written behind the buffers of `bio4_open` kills the process there. -/
theorem bio4_open_killed {sv : Service} (hend : ∃ host digits rest, Bio4.Accepted sv.end_point host digits rest)
    (h : bio4_open env sv = .killed) :
    env.overflow_kills ∧ ∃ o ∈ Bio4.bio4_open sv.end_point, o.overflow := by
  obtain ⟨host, digits, rest, hacc⟩ := hend
  rw [bio4_open] at h
  split_ifs at h with halgo
  rw [hacc.open] at h ⊢
  dsimp only at h
  split_ifs at h with hoverflow
  exact ⟨hoverflow.2, _, rfl, hoverflow.1⟩

theorem main_of_checks (h : checks lib digests env argv {} = .ok ((), g)) {sv : Service} (hsv : g.service = some sv)
    (hdriver : sv.driver = .bio4) (ssl : OpenSSL) (fs : Globals → Ended) (usage : Bytes) :
    main lib digests env ssl fs usage argv = main_bio4 lib env ssl g sv (g.digest_module.getD .sha) := by
  rw [main, h]
  dsimp only
  rw [hsv]
  dsimp only
  rw [if_pos hdriver]

/-- A file that is made for the output, or none when it cannot be. -/
theorem bio4_open_output_free (hout : g.output_path = some path) (hnull : path ≠ null_device)
    (hfree : env.files path = none) :
    ((env.open_error path).isSome ∧ bio4_open_output env g = (false, env.files)) ∨
      bio4_open_output env g = (true, Function.update env.files path (some [])) := by
  rw [bio4_open_output, hout]
  dsimp only
  by_cases herr : (env.open_error path).isSome
  · refine .inl ⟨herr, ?_⟩
    rw [open_output, if_pos herr]
  · refine .inr ?_
    rw [open_output, if_neg herr, if_neg hnull, hfree, if_neg (by simp)]

/-- The file at the output path has a blob, or is missing for the empty blob as it could not be made. -/
def Ended.HasAt (r : Ended) (env : Env) (path : Text) (blob : Bytes) : Prop :=
  r.files path = some blob ∨ (blob = [] ∧ r.files path = none ∧ (env.open_error path).isSome)

/-- How a get or a take ends: with the blob that it was asked for, with a no, with nothing that is left, or
by a signal. -/
structure Ended.Fetched (r : Ended) (ssl : OpenSSL) (env : Env) (sv : Service) (path : Text) (u : Udig)
    (in_take : Bool) : Prop where
  status : ∀ n ∈ r.status, n ≤ 3
  ok : r.status = some 0 → ∃ blob, r.HasAt env path blob ∧
    (digest_of ssl u.algorithm blob = u.digest ∨ (in_take ∧ u.digest = u.algorithm.empty ∧ blob = []))
  no : r.status = some 1 → ∃ blob, r.HasAt env path blob ∧
    (blob = [] ∨ (in_take ∧ digest_of ssl u.algorithm blob = u.digest))
  died : r.status = some 3 → env.unlink_error path = none → r.files path = none
  killed : r.status = none → (∃ o ∈ Bio4.bio4_open sv.end_point, o.overflow) ∨ ∃ n, (env.write n).kills
  others : ∀ p ≠ path, r.files p = env.files p

/-- The callback of a get or a take, on an output that may not be open. -/
theorem fetch_spec (ssl : OpenSSL) {u : Udig} {in_take : Bool} (hverb : g.verb = if in_take then Verb.take.text else Verb.get.text)
    (hrequest : g.algorithm = u.algorithm.name ∧ g.ascii_digest = u.digest.chars) (hinput : g.input_path = none)
    (server input : Stream) (output_open : Bool) : wp (bio4_request lib env g)
      (fun _ s' => ((s'.ok_no = 1 ∧ s'.output = []) ∨ ((s'.ok_no = 0 ∨ in_take ∧ s'.ok_no = 1) ∧
        (digest_of ssl u.algorithm s'.output = u.digest ∨ (in_take ∧ u.digest = u.algorithm.empty ∧ s'.output = [])) ∧
          (output_open = false → s'.output = []))))
      (fun why _ => why = .killed → ∃ n, (env.write n).kills) { Session.opened ssl u.algorithm server input with output_open := output_open } := by
  have hrequest : ∀ v : Verb, g.verb = v.text → g.request = .about v u false := by
    intro v hv
    rw [Globals.request, Request.about, hv, hrequest.1, hrequest.2, hinput]
    rfl
  cases in_take with
  | false =>
    have hbio4 : bio4_request lib env g = (bio4_get (env.world lib g) g.request : Client.Run ssl u.algorithm Unit) := by
      rw [bio4_request, hverb]
      rfl
    rw [hbio4, hrequest .get hverb]
    refine wp_and (get_spec output_open (by simp)) (killed_by_get_request false _) ?_ fun _ _ _ h => h
    rintro - s' ⟨⟨hno, hout⟩ | ⟨hok, hdigest, -⟩, -, hclosed⟩ -
    · exact .inl ⟨hno, hout⟩
    · exact .inr ⟨.inl hok, .inl hdigest, hclosed⟩
  | true =>
    have hbio4 : bio4_request lib env g = (bio4_take (env.world lib g) g.request : Client.Run ssl u.algorithm Unit) := by
      rw [bio4_request, hverb]
      rfl
    rw [hbio4, hrequest .take hverb]
    refine wp_and (take_spec output_open) (killed_by_take _) ?_ fun _ _ _ h => h
    rintro - s' (⟨-, hno, hout⟩ | ⟨-, hvouched, hclosed, hok⟩) -
    · exact .inl ⟨hno, hout⟩
    · refine .inr ⟨hok.imp_right fun h => ⟨rfl, h⟩, hvouched.imp_right fun h => ⟨rfl, h⟩, hclosed⟩

theorem text_injective {v v' : Verb} (h : v.text = v'.text) : v = v' := by
  cases v <;> cases v' <;> first | rfl | (revert h; decide)

theorem Ready.fetch (h : Ready digests g) {verb : Verb} (hverb : g.verb = verb.text) (hv : verb = .get ∨ verb = .take) :
    ∃ u : Udig, (g.algorithm = u.algorithm.name ∧ g.ascii_digest = u.digest.chars) ∧
      g.digest_module = some u.algorithm ∧ g.input_path = none := by
  cases h with
  | request verb' u hverb' hmem hrequest hmodule hservice hinput houtput =>
    obtain rfl := text_injective (hverb.symm.trans hrequest.1)
    refine ⟨u, hrequest.2, hmodule, Option.not_isSome_iff_eq_none.mp fun hsome => ?_⟩
    rcases hinput hsome with rfl | rfl <;> simp at hv
  | wrap hrequest hmodule hservice hinput =>
    obtain rfl := text_injective (hverb.symm.trans hrequest.1)
    simp at hv
  | eat_input m hmem hverb' hdigest hmodule hservice =>
    obtain rfl := text_injective (hverb.symm.trans hverb')
    simp at hv
  | empty m hmem hverb' hmodule hservice hpaths =>
    have htext := hverb.symm.trans hverb'
    rcases hv with rfl | rfl
    · exact absurd htext (by decide)
    · exact absurd htext (by decide)

/-- The process of a get or a take, from the opening of the service on. -/
theorem main_bio4_fetch {ssl : OpenSSL} {verb : Verb} (hverb : g.verb = verb.text) (hv : verb = .get ∨ verb = .take)
    (hinput : g.input_path = none) {sv : Service} {m : DigestModule} {output_open : Bool} {files : Files}
    (hopen : bio4_open_output env g = (output_open, files)) : main_bio4 lib env ssl g sv m =
      match bio4_open env sv with
      | .refused => ⟨some 3, cleanup env 3 g files, [], []⟩
      | .killed => ⟨none, files, [], []⟩
      | .connected =>
        match bio4_request lib env g
          { Session.opened ssl m env.server env.stdin with output_open := output_open } with
        | .error (.write_timed_out, s) =>
          ⟨some 2, g.place output_open s.output files, g.standard s.output, s.to_server⟩
        | .error (.killed, s) => ⟨none, g.place output_open s.output files, g.standard s.output, s.to_server⟩
        | .error (_, s) =>
          ⟨some 3, cleanup env 3 g (g.place output_open s.output files), g.standard s.output, s.to_server⟩
        | .ok (_, s) => ⟨some s.ok_no.toNat, g.place output_open s.output files, g.standard s.output, s.to_server⟩ := by
  have hreopened : (match g.verb[0]?, g.output_path with
      | some 'w', some path | some 'r', some path => open_output env path files
      | _, _ => some files) = some files := by
    rcases hv with rfl | rfl <;> rw [hverb] <;> rfl
  have hanswered : ∀ (s : Session ssl m) (files : Files), answered env g s files =
      ⟨some s.ok_no.toNat, files, g.standard s.output, s.to_server⟩ := by
    intro s files
    rcases hv with rfl | rfl <;> rw [answered, hverb] <;> rfl
  rw [main_bio4, hopen]
  dsimp only
  cases bio4_open env sv with
  | refused => rfl
  | killed => rfl
  | connected =>
    dsimp only
    rw [open_input, hinput]
    dsimp only
    rw [hreopened]
    simp only [hanswered, Option.map_none, Option.getD_none, ite_self]

/-- What is put out comes to the file at the output path, and no other file changes. -/
theorem exists_output (hout : g.output_path = some path) (hnull : path ≠ null_device)
    (hfree : env.files path = none) : ∃ output_open files, bio4_open_output env g = (output_open, files) ∧
      (∀ p ≠ path, files p = env.files p) ∧ (∀ out, ∀ p ≠ path, g.place output_open out files p = env.files p) ∧
        ∀ out, (output_open = false → out = []) → g.place output_open out files path = some out ∨
          (out = [] ∧ g.place output_open out files path = none ∧ (env.open_error path).isSome) := by
  have hplace : ∀ (output_open : Bool) (out : Bytes) (files : Files), g.place output_open out files =
      if output_open then Function.update files path (some out) else files := by
    intro output_open out files
    rw [Globals.place, hout]
    dsimp only
    cases output_open with
    | false => rw [if_neg fun h => Bool.false_ne_true h.1, if_neg Bool.false_ne_true]
    | true => rw [if_pos ⟨rfl, hnull⟩, if_pos rfl]
  rcases bio4_open_output_free hout hnull hfree with ⟨herr, hopen⟩ | hopen
  · refine ⟨false, env.files, hopen, fun _ _ => rfl, fun out p _ => ?_, fun out hnil => ?_⟩
    · rw [hplace, if_neg Bool.false_ne_true]
    · rw [hplace, if_neg Bool.false_ne_true]
      exact .inr ⟨hnil rfl, hfree, herr⟩
  · refine ⟨true, _, hopen, fun p hp => Function.update_of_ne hp _ _, fun out p hp => ?_, fun out _ => ?_⟩
    · rw [hplace, if_pos rfl, Function.update_of_ne hp, Function.update_of_ne hp]
    · rw [hplace, if_pos rfl, Function.update_self]
      exact .inl rfl

theorem cleanup_others (hout : g.output_path = some path) (files : Files) {p : Text} (hp : p ≠ path) :
    cleanup env 3 g files p = files p := by
  rw [cleanup, hout]
  dsimp only
  split_ifs
  · unfold unlink
    split_ifs
    · rfl
    · exact Function.update_of_ne hp _ _
  · rfl

theorem cleanup_path (hout : g.output_path = some path) (hrm : g.rm_output_path_error = true)
    (hnull : path ≠ null_device) (hunlink : env.unlink_error path = none) (files : Files) :
    cleanup env 3 g files path = none := by
  rw [cleanup_of_output hout hrm hnull hunlink, Function.update_self]

section fetched
variable {ssl : OpenSSL} {sv : Service} {u : Udig} {in_take : Bool} {r : Ended}

theorem fetched_of_died (hparse : parse_argv lib digests argv {} = .ok ((), g)) (hout : g.output_path = some path)
    (hnull : path ≠ null_device) {files : Files} (out sent : Bytes) (hothers : ∀ p ≠ path, files p = env.files p) :
    (Ended.mk (some 3) (cleanup env 3 g files) out sent).Fetched ssl env sv path u in_take where
  status n hn := by
    cases hn
    exact le_rfl
  ok h := by cases h
  no h := by cases h
  died _ hunlink := cleanup_path hout (kept_of_parse_ok hparse).rm hnull hunlink files
  killed h := by cases h
  others p hp := (cleanup_others hout files hp).trans (hothers p hp)

/-- A process that is killed, or that times out in a write, says nothing of its file. -/
theorem fetched_of_stopped (hr : r.status = none ∨ r.status = some 2) (hothers : ∀ p ≠ path, r.files p = env.files p)
    (hkilled : r.status = none → (∃ o ∈ Bio4.bio4_open sv.end_point, o.overflow) ∨ ∃ n, (env.write n).kills) :
    r.Fetched ssl env sv path u in_take := by
  have htwo : ∀ n, r.status = some n → n = 2 := by
    intro n hn
    rcases hr with hr | hr
    · cases hr.symm.trans hn
    · exact (Option.some.inj (hr.symm.trans hn)).symm
  refine ⟨fun n hn => ?_, fun h => ?_, fun h => ?_, fun h => ?_, hkilled, hothers⟩
  · rw [htwo n hn]
    decide
  · cases htwo 0 h
  · cases htwo 1 h
  · cases htwo 3 h

theorem fetched_of_no (hstatus : r.status = some 1) (hat : r.HasAt env path [])
    (hothers : ∀ p ≠ path, r.files p = env.files p) : r.Fetched ssl env sv path u in_take := by
  refine ⟨fun n hn => ?_, fun h => ?_, fun _ => ⟨[], hat, .inl rfl⟩, fun h => ?_, fun h => ?_, hothers⟩
  · cases hstatus.symm.trans hn
    decide
  all_goals cases hstatus.symm.trans h

/-- A blob has been put out, and in a take the server may then say no. -/
theorem fetched_of_blob {blob : Bytes} (hstatus : r.status = some 0 ∨ in_take ∧ r.status = some 1)
    (hat : r.HasAt env path blob)
    (hdigest : digest_of ssl u.algorithm blob = u.digest ∨ (in_take ∧ u.digest = u.algorithm.empty ∧ blob = []))
    (hothers : ∀ p ≠ path, r.files p = env.files p) : r.Fetched ssl env sv path u in_take := by
  refine ⟨fun n hn => ?_, fun _ => ⟨blob, hat, hdigest⟩, fun h => ⟨blob, hat, ?_⟩, fun h => ?_, fun h => ?_, hothers⟩
  · rcases hstatus with hzero | ⟨-, hone⟩
    · cases hzero.symm.trans hn
      decide
    · cases hone.symm.trans hn
      decide
  · rcases hstatus with hzero | ⟨htake, -⟩
    · cases hzero.symm.trans h
    · exact hdigest.elim (fun hdigest => .inr ⟨htake, hdigest⟩) fun hnil => .inl hnil.2.2
  all_goals
    rcases hstatus with hzero | ⟨-, hone⟩
    · cases hzero.symm.trans h
    · cases hone.symm.trans h

end fetched

/-- The file that a get or a take leaves is the blob of its udig, and one that dies leaves none. -/
theorem got_file (ssl : OpenSSL) (fs : Globals → Ended) (usage : Bytes) (h : checks lib digests env argv {} = .ok ((), g))
    {in_take : Bool} (hverb : g.verb = if in_take then Verb.take.text else Verb.get.text) {sv : Service}
    (hsv : g.service = some sv) (hdriver : sv.driver = .bio4) (hout : g.output_path = some path)
    (hnull : path ≠ null_device) :
    ∃ u : Udig, (g.algorithm = u.algorithm.name ∧ g.ascii_digest = u.digest.chars) ∧
      (main lib digests env ssl fs usage argv).Fetched ssl env sv path u in_take := by
  obtain ⟨hparse, hxref, -, hfree⟩ := of_checks_ok h
  have hv : ∃ verb : Verb, g.verb = verb.text ∧ (verb = .get ∨ verb = .take) := by
    cases in_take
    · exact ⟨.get, hverb, .inl rfl⟩
    · exact ⟨.take, hverb, .inr rfl⟩
  obtain ⟨verb, hverb', hv⟩ := hv
  obtain ⟨u, hrequest, hmodule, hinput⟩ := (accepted_ready argv hparse hxref).fetch hverb' hv
  obtain ⟨output_open, files, hopen, hfiles, hothers, hhas⟩ := exists_output hout hnull (hfree path hout hnull)
  refine ⟨u, hrequest, ?_⟩
  rw [main_of_checks h hsv hdriver, hmodule, Option.getD_some, main_bio4_fetch hverb' hv hinput hopen]
  cases hservice : bio4_open env sv with
  | refused => exact fetched_of_died hparse hout hnull _ _ hfiles
  | killed =>
    exact fetched_of_stopped (.inl rfl) hfiles fun _ =>
      .inl (bio4_open_killed (accepted_end_point hparse hsv hdriver) hservice).2
  | connected =>
    have hspec := @fetch_spec lib env _ ssl _ _ hverb hrequest hinput env.server env.stdin output_open
    dsimp only
    split
    · exact fetched_of_stopped (.inr rfl) (hothers _) fun h => nomatch h
    · rename_i s hs
      rw [wp_of_error hs] at hspec
      exact fetched_of_stopped (.inl rfl) (hothers _) fun _ => .inr (hspec rfl)
    · exact fetched_of_died hparse hout hnull _ _ (hothers _)
    · rename_i s hs
      rw [wp_of_ok hs] at hspec
      rcases hspec with ⟨hno, hnil⟩ | ⟨hok, hdigest, hclosed⟩
      · refine fetched_of_no (by rw [hno]; rfl) ?_ (hothers _)
        rw [hnil]
        exact hhas [] fun _ => rfl
      · refine fetched_of_blob ?_ (hhas s.output hclosed) hdigest (hothers _)
        rcases hok with hok | ⟨htake, hno⟩
        · exact .inl (by rw [hok]; rfl)
        · exact .inr ⟨htake, by rw [hno]; rfl⟩

/-- A server that sends a blob in two pieces. -/
def abc_env : Env :=
  { plain_env fun _ => none with server := ⟨[ok_line, bytes "ab".toList, bytes "c".toList], none⟩ }

def abc_argv : List Text :=
  ["get".toList, "--service".toList, "bio4:localhost:1797".toList, "--udig".toList,
    "sha:a9993e364706816aba3e25717850c26c9cd0d89d".toList, "--output-path".toList, "blob".toList]

theorem got_abc_file : ∃ sv u, u.algorithm = .sha ∧
    (main plain_library [.sha] abc_env known_ssl no_fs [] abc_argv).Fetched known_ssl abc_env sv "blob".toList u
      false ∧
    (main plain_library [.sha] abc_env known_ssl no_fs [] abc_argv).status = some 0 ∧
    (main plain_library [.sha] abc_env known_ssl no_fs [] abc_argv).files "blob".toList = some (bytes "abc".toList) := by
  obtain ⟨g, hg, hverb, halgorithm, hout, hsv⟩ := @exists_checks plain_library [.sha] abc_env
    abc_argv (fun g => g.verb = Verb.get.text ∧ g.algorithm = DigestModule.sha.name ∧
      g.output_path = some "blob".toList ∧ g.service.map Service.driver = some .bio4) _ (by decide +kernel)
  obtain ⟨sv, hsv, hdriver⟩ := Option.map_eq_some_iff.mp hsv
  obtain ⟨u, hu, hfetched⟩ := @got_file plain_library [.sha] _ g _ _ known_ssl no_fs [] hg false hverb sv hsv hdriver
    hout (by decide)
  exact ⟨sv, u, DigestModule.name_injective (hu.1.symm.trans halgorithm), hfetched, by decide +kernel,
    by decide +kernel⟩

theorem main_bio4_wrap {ssl : OpenSSL} (hverb : g.verb = Verb.wrap.text) (hin : g.input_path = none)
    (hout : g.output_path = some path)
    {sv : Service} {m : DigestModule} {output_open : Bool} {files : Files}
    (hopen : bio4_open_output env g = (output_open, files)) (hreopen : open_output env path files = none) :
    main_bio4 lib env ssl g sv m =
      match bio4_open env sv with
      | .refused => ⟨some 3, cleanup env 3 g files, [], []⟩
      | .killed => ⟨none, files, [], []⟩
      | .connected => ⟨some 3, files, [], []⟩ := by
  have hreopened : (match g.verb[0]?, g.output_path with
      | some 'w', some path | some 'r', some path => open_output env path files
      | _, _ => some files) = none := by
    rw [hverb, hout]
    exact hreopen
  rw [main_bio4, hopen]
  dsimp only
  cases bio4_open env sv with
  | refused => rfl
  | killed => rfl
  | connected =>
    dsimp only
    rw [open_input, hin]
    dsimp only
    rw [hreopened]

theorem Ready.wrap_input (h : Ready digests g) (hverb : g.verb = Verb.wrap.text) : g.input_path = none := by
  cases h with
  | wrap hrequest hmodule hservice hinput => exact hinput
  | request verb' u hverb' hmem hrequest hmodule hservice hinput houtput =>
    exact absurd (text_injective (hverb.symm.trans hrequest.1)).symm hverb'.1
  | eat_input m hmem hverb' hdigest hmodule hservice => cases text_injective (hverb.symm.trans hverb')
  | empty m hmem hverb' hmodule hservice hpaths =>
    have htext := hverb.symm.trans hverb'
    exact absurd htext (by decide)

/-- A wrap over a server cannot put its udig in a file: the file that the driver has made for it is in the way
when `main` makes it again. The server is not even asked. -/
theorem wrap_output_lost (ssl : OpenSSL) (fs : Globals → Ended) (usage : Bytes)
    (h : checks lib digests env argv {} = .ok ((), g)) (hverb : g.verb = Verb.wrap.text) {sv : Service}
    (hsv : g.service = some sv) (hdriver : sv.driver = .bio4) (hout : g.output_path = some path)
    (hnull : path ≠ null_device) :
    let r := main lib digests env ssl fs usage argv
    (r.status = some 3 ∨ r.status = none ∧ ∃ o ∈ Bio4.bio4_open sv.end_point, o.overflow) ∧ r.stdout = [] ∧
      r.to_server = [] ∧ (∀ p ≠ path, r.files p = env.files p) ∧
      (bio4_open env sv ≠ .refused → env.open_error path = none → r.files path = some []) := by
  obtain ⟨hparse, hxref, -, hfree⟩ := of_checks_ok h
  have hin := (accepted_ready argv hparse hxref).wrap_input hverb
  obtain ⟨output_open, files, hopen, hfiles, hreopen, hempty⟩ : ∃ output_open files,
      bio4_open_output env g = (output_open, files) ∧ (∀ p ≠ path, files p = env.files p) ∧
        open_output env path files = none ∧ (env.open_error path = none → files path = some []) := by
    rcases bio4_open_output_free hout hnull (hfree path hout hnull) with ⟨herr, hopen⟩ | hopen
    · refine ⟨false, env.files, hopen, fun _ _ => rfl, ?_, fun hnone => ?_⟩
      · rw [open_output, if_pos herr]
      · rw [hnone] at herr
        cases herr
    · refine ⟨true, _, hopen, fun p hp => Function.update_of_ne hp _ _, ?_, fun _ => Function.update_self _ _ _⟩
      rw [open_output, if_neg hnull, Function.update_self, Option.isSome_some, if_pos rfl, ite_self]
  intro r
  have hr : r = main lib digests env ssl fs usage argv := rfl
  rw [main_of_checks h hsv hdriver, main_bio4_wrap hverb hin hout hopen hreopen] at hr
  cases hservice : bio4_open env sv with
  | refused =>
    rw [hr, hservice]
    exact ⟨.inl rfl, rfl, rfl, fun p hp => (cleanup_others hout files hp).trans (hfiles p hp),
      fun hne => absurd rfl hne⟩
  | killed =>
    rw [hr, hservice]
    exact ⟨.inr ⟨rfl, (bio4_open_killed (accepted_end_point hparse hsv hdriver) hservice).2⟩, rfl, rfl, hfiles,
      fun _ => hempty⟩
  | connected =>
    rw [hr, hservice]
    exact ⟨.inl rfl, rfl, rfl, hfiles, fun _ => hempty⟩

def wrap_argv : List Text :=
  ["wrap".toList, "--service".toList, "bio4:localhost:1797".toList, "--output-path".toList, "blob".toList]

theorem wrap_left_empty :
    (main plain_library [.sha] (plain_env fun _ => none) known_ssl no_fs [] wrap_argv).status = some 3 ∧
      (main plain_library [.sha] (plain_env fun _ => none) known_ssl no_fs [] wrap_argv).to_server = [] ∧
      (main plain_library [.sha] (plain_env fun _ => none) known_ssl no_fs [] wrap_argv).files "blob".toList =
        some [] := by
  obtain ⟨g, hg, hverb, hout, hsv⟩ := @exists_checks plain_library [.sha] (plain_env fun _ => none) wrap_argv
    (fun g => g.verb = Verb.wrap.text ∧ g.output_path = some "blob".toList ∧
      g.service.map (fun sv => (sv.driver, bio4_open (plain_env fun _ => none) sv)) = some (.bio4, .connected)) _
    (by decide +kernel)
  obtain ⟨sv, hsv, hopened⟩ := Option.map_eq_some_iff.mp hsv
  obtain ⟨hdriver, hconnected⟩ := Prod.mk.inj hopened
  obtain ⟨-, -, hserver, -, hempty⟩ := @wrap_output_lost plain_library [.sha] _ g _ _ known_ssl no_fs [] hg hverb sv
    hsv hdriver hout (by decide)
  exact ⟨by decide +kernel, hserver, hempty (by rw [hconnected]; decide) rfl⟩

theorem main_bio4_give {ssl : OpenSSL} (hverb : g.verb = Verb.give.text) (hin : g.input_path = some path)
    (hout : g.output_path = none) {b : Bytes} (hb : env.files path = some b) {sv : Service} {m : DigestModule} :
    main_bio4 lib env ssl g sv m =
      match bio4_open env sv with
      | .refused => ⟨some 3, env.files, [], []⟩
      | .killed => ⟨none, env.files, [], []⟩
      | .connected =>
        if (env.open_error path).isSome then ⟨if env.null_text_kills then none else some 3, env.files, [], []⟩
        else
          let left := fun s : Session ssl m =>
            if s.input_removed then Function.update env.files path none else env.files
          match bio4_request lib env g (.opened ssl m env.server (env.read b)) with
          | .error (.write_timed_out, s) => ⟨some 2, left s, s.output, s.to_server⟩
          | .error (.killed, s) => ⟨none, left s, s.output, s.to_server⟩
          | .error (_, s) => ⟨some 3, left s, s.output, s.to_server⟩
          | .ok (_, s) =>
            if s.ok_no = 0 then
              if (env.unlink_error path).isSome then ⟨some 3, left s, s.output, s.to_server⟩
              else ⟨some 0, Function.update (left s) path none, s.output, s.to_server⟩
            else ⟨some s.ok_no.toNat, left s, s.output, s.to_server⟩ := by
  have hopen : bio4_open_output env g = (true, env.files) := by
    rw [bio4_open_output, hout]
  have hreopened : (match g.verb[0]?, g.output_path with
      | some 'w', some path | some 'r', some path => open_output env path env.files
      | _, _ => some env.files) = some env.files := by
    rw [hverb]
    rfl
  have hcleanup : ∀ files, cleanup env 3 g files = files := by
    intro files
    rw [cleanup, hout]
  have hplace : ∀ out files, g.place true out files = files := by
    intro out files
    rw [Globals.place, hout]
  have hstandard : ∀ out, g.standard out = out := by
    intro out
    rw [Globals.standard, hout, Option.isNone_none, if_pos rfl]
  have hanswered : ∀ (s : Session ssl m) (files : Files), answered env g s files =
      if s.ok_no = 0 then
        if (env.unlink_error path).isSome then ⟨some 3, files, s.output, s.to_server⟩
        else ⟨some 0, Function.update files path none, s.output, s.to_server⟩
      else ⟨some s.ok_no.toNat, files, s.output, s.to_server⟩ := by
    intro s files
    have hgive : answered env g s files = (match g.input_path with
        | some path =>
          if s.ok_no = 0 then
            if (env.unlink_error path).isSome then
              ⟨some 3, cleanup env 3 g files, g.standard s.output, s.to_server⟩
            else ⟨some s.ok_no.toNat, unlink env path files, g.standard s.output, s.to_server⟩
          else ⟨some s.ok_no.toNat, files, g.standard s.output, s.to_server⟩
        | none => ⟨some s.ok_no.toNat, files, g.standard s.output, s.to_server⟩) := by
      rw [answered, hverb]
      rfl
    rw [hgive, hin]
    dsimp only
    rw [hcleanup, hstandard]
    by_cases hok : s.ok_no = 0
    · rw [if_pos hok, if_pos hok]
      by_cases hunlink : (env.unlink_error path).isSome
      · rw [if_pos hunlink, if_pos hunlink]
      · rw [if_neg hunlink, if_neg hunlink, unlink, if_neg hunlink, hok]
        rfl
    · rw [if_neg hok, if_neg hok]
  rw [main_bio4, hopen]
  dsimp only
  rw [hcleanup, open_input, hin]
  cases bio4_open env sv with
  | refused => rfl
  | killed => rfl
  | connected =>
    by_cases herr : (env.open_error path).isSome
    · dsimp only
      rw [if_pos herr, if_pos herr]
    · dsimp only
      rw [if_neg herr, if_neg herr, hb, Option.map_some]
      dsimp only
      rw [hreopened]
      simp only [hcleanup, hplace, hstandard, hanswered, Option.map_some, Option.getD_some]
      rfl

theorem Ready.give (h : Ready digests g) (hverb : g.verb = Verb.give.text) :
    ∃ u : Udig, (g.algorithm = u.algorithm.name ∧ g.ascii_digest = u.digest.chars) ∧
      g.digest_module = some u.algorithm ∧ g.output_path = none := by
  cases h with
  | request verb' u hverb' hmem hrequest hmodule hservice hinput houtput =>
    obtain rfl := text_injective (hverb.symm.trans hrequest.1)
    refine ⟨u, hrequest.2, hmodule, Option.not_isSome_iff_eq_none.mp fun hsome => ?_⟩
    rcases houtput hsome with h | h <;> cases h
  | wrap hrequest hmodule hservice hinput => cases text_injective (hverb.symm.trans hrequest.1)
  | eat_input m hmem hverb' hdigest hmodule hservice => cases text_injective (hverb.symm.trans hverb')
  | empty m hmem hverb' hmodule hservice hpaths =>
    have htext := hverb.symm.trans hverb'
    exact absurd htext (by decide)

/-- How a give ends, seen from the file that it was given. -/
structure Ended.Gave (r : Ended) (env : Env) (path : Text) (b all : Bytes) : Prop where
  removed : r.files path = some b ∨ (r.files path = none ∧ all <+: r.to_server)
  ok : r.status = some 0 → r.files path = none ∧ r.to_server = all ++ ok_line
  others : ∀ p ≠ path, r.files p = env.files p

/-- A file that is given is removed only when the server has been sent all of it, and is when the exit status says
that the server took it. -/
theorem given_file (ssl : OpenSSL) (fs : Globals → Ended) (usage : Bytes)
    (h : checks lib digests env argv {} = .ok ((), g)) (hverb : g.verb = Verb.give.text) {sv : Service}
    (hsv : g.service = some sv) (hdriver : sv.driver = .bio4) (hin : g.input_path = some path) {b : Bytes}
    (hb : env.files path = some b) :
    ∃ u : Udig, (g.algorithm = u.algorithm.name ∧ g.ascii_digest = u.digest.chars) ∧
      (main lib digests env ssl fs usage argv).Gave env path b (bytes (make_request (.about .give u true)) ++ b) := by
  obtain ⟨hparse, hxref, -, -⟩ := of_checks_ok h
  obtain ⟨u, hrequest, hmodule, hout⟩ := (accepted_ready argv hparse hxref).give hverb
  refine ⟨u, hrequest, ?_⟩
  rw [main_of_checks h hsv hdriver, hmodule, Option.getD_some, main_bio4_give hverb hin hout hb]
  have hasked : g.request = .about .give u true := by
    rw [Globals.request, Request.about, hverb, hrequest.1, hrequest.2, hin, Option.isSome_some]
  have hbio4 : (bio4_request lib env g : Client.Run ssl u.algorithm Unit) =
      bio4_give (env.world lib g) (.about .give u true) := by
    rw [← hasked, bio4_request, hverb]
    rfl
  have hunsent : ∀ status, status ≠ some 0 →
      (Ended.mk status env.files [] []).Gave env path b (bytes (make_request (.about .give u true)) ++ b) :=
    fun status hne => ⟨.inl hb, fun h => absurd h hne, fun _ _ => rfl⟩
  cases bio4_open env sv with
  | refused => exact hunsent (some 3) (by decide)
  | killed => exact hunsent none (by decide)
  | connected =>
  dsimp only
  split
  · exact hunsent _ (by split <;> decide)
  have hspec := @give_removed_last ssl (env.world lib g) u env.server (env.read b) true
  rw [← hbio4] at hspec
  -- the whole file has been read when the input is removed
  have hleft : ∀ (s : Session ssl u.algorithm) (status : Option ℕ), status ≠ some 0 →
      s.Given (bytes (make_request (.about .give u true)) ++ (env.read b).chunks.flatten) (env.read b) true →
      (Ended.mk status (if s.input_removed then Function.update env.files path none else env.files) s.output
        s.to_server).Gave env path b (bytes (make_request (.about .give u true)) ++ b) := by
    intro s status hne hgiven
    refine ⟨?_, fun h => absurd h hne, fun p hp => ?_⟩
    · by_cases hremoved : s.input_removed = true
      · obtain ⟨-, -, hend, hsent⟩ := hgiven.removed hremoved
        rw [env.read_whole b hend] at hsent
        exact .inr ⟨by dsimp only; rw [if_pos hremoved, Function.update_self], hsent⟩
      · exact .inl (by dsimp only; rw [if_neg hremoved, hb])
    · dsimp only
      split_ifs
      · exact Function.update_of_ne hp _ _
      · rfl
  cases hs : bio4_request lib env g (.opened ssl u.algorithm env.server (env.read b)) with
  | error x =>
    obtain ⟨why, s⟩ := x
    rw [wp_of_error hs] at hspec
    cases why with
    | write_timed_out => exact hleft s (some 2) (by decide) hspec
    | killed => exact hleft s none (by decide) hspec
    | _ => exact hleft s (some 3) (by decide) hspec
  | ok x =>
    obtain ⟨⟨⟩, s⟩ := x
    rw [wp_of_ok hs] at hspec
    dsimp only
    obtain ⟨hgiven, ⟨hno, -⟩ | ⟨hok, hremoved, hsent⟩⟩ := hspec
    · rw [if_neg (by rw [hno]; decide)]
      exact hleft s _ (by rw [hno]; decide) hgiven
    · rw [if_pos hok]
      by_cases hunlink : (env.unlink_error path).isSome
      · rw [if_pos hunlink]
        exact hleft s (some 3) (by decide) hgiven
      · rw [if_neg hunlink]
        obtain ⟨-, -, hend, -⟩ := hgiven.removed hremoved
        rw [env.read_whole b hend] at hsent
        refine ⟨.inr ⟨Function.update_self _ _ _, ?_⟩, fun _ => ⟨Function.update_self _ _ _, hsent⟩, fun p hp => ?_⟩
        · rw [hsent]
          exact List.prefix_append _ _
        · dsimp only
          rw [Function.update_of_ne hp, if_pos hremoved, Function.update_of_ne hp]

def give_argv : List Text :=
  ["give".toList, "--service".toList, "bio4:localhost:1797".toList, "--udig".toList,
    "sha:da39a3ee5e6b4b0d3255bfef95601890afd80709".toList, "--input-path".toList, "blob".toList]

theorem gave_one_file : ∃ u : Udig, u.algorithm = .sha ∧
    (main plain_library [.sha] (plain_env one_file) known_ssl no_fs [] give_argv).Gave (plain_env one_file)
      "blob".toList [97] (bytes (make_request (.about .give u true)) ++ [97]) := by
  obtain ⟨g, hg, hverb, halgorithm, hin, hsv⟩ := @exists_checks plain_library [.sha] (plain_env one_file) give_argv
    (fun g => g.verb = Verb.give.text ∧ g.algorithm = DigestModule.sha.name ∧
      g.input_path = some "blob".toList ∧ g.service.map Service.driver = some .bio4) _ (by decide +kernel)
  obtain ⟨sv, hsv, hdriver⟩ := Option.map_eq_some_iff.mp hsv
  obtain ⟨u, hu, hgave⟩ := @given_file plain_library [.sha] _ g _ _ known_ssl no_fs [] hg hverb sv hsv hdriver hin [97]
    one_file_there
  exact ⟨u, DigestModule.name_injective (hu.1.symm.trans halgorithm), hgave⟩

end there

end Blobio.Cli
