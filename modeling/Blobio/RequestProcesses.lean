import Blobio.EventRuns
import Blobio.Arborist

/-! The request processes of the server around one blob tree, in any interleaving.
What a process reads (a chunk from its client, a clock, a directory scan) comes
with the event; the arborist takes the messages of its pipe in order. -/
namespace Blobio
open FileTrees

inductive PutVerb | put | give deriving DecidableEq

def PutVerb.text : PutVerb → Text
  | put => "put".toList
  | give => "give".toList

/-- A request as the server hands it to a verb's callback. -/
inductive Job
  | get (u : Udig)
  | put (verb : PutVerb) (u : Udig) (scan_buf : Bytes)
  | take (u : Udig)
  | eat (u : Udig)
  | wrap (m : DigestModule)
  | roll (u : Udig)
  deriving DecidableEq

/-- The two streams that a wrap digests. -/
inductive WrapPart
  | log (name : Text)
  | set
  deriving DecidableEq

/-- Where a request process is. `renaming` and `moving` wait on the reply fifo. -/
inductive Phase (L : DigestLibrary)
  | started
  | eating (time : ℤ) (ctx : L.Context)
  | digested (time : ℤ)
  | renaming (time : ℤ)
  | renamed (time : ℤ)
  | answering
  | checked
  | serving (blob : Bytes)
  | served
  | unlinked
  | frozen (name : Text)
  | copied (part : WrapPart) (u : Udig) (time : ℤ) (drift : ℕ)
  | moving (part : WrapPart) (u : Udig) (time : ℤ) (drift : ℕ)
  | moved (part : WrapPart) (u : Udig)
  | spooled (u : Udig)
  | rolling (udigs : List Udig)
  | done

/-- The next stretch of a process's code, with what it reads there. -/
inductive Call
  | put_open (time : ℤ)
  | blob_read (chunk : Bytes)
  | croak
  | arbor_rename
  | cleanup
  | write_ok
  | is_wrap
  | blob_open
  | blob_bytes (more : Bytes)
  | take_reply (ok : Bool)
  | arbor_trim
  | eat
  | freeze (name : Text) (log : Bytes)
  | digest_log (reads : List Bytes) (time : ℤ) (drift : ℕ)
  | arbor_move
  | spool_log
  | digest_set (udigs : List Udig) (time : ℤ) (drift : ℕ)
  | roll_copy (udig_set : Option (List Udig))
  | roll_unlink
  | die
  deriving DecidableEq

/-- What the history of a run records: a take's open of a blob, a put's last ok. -/
inductive Note | opened (u : Udig) | acked (u : Udig) deriving DecidableEq

structure Progress (L : DigestLibrary) where
  tree : Store
  phase : Phase L
  send : Option Message := none
  note : Option Note := none

section calls
variable (L : DigestLibrary) (T : TmpMap) (trust_fs : Bool)

def DigestLibrary.digest_reads (m : DigestModule) (reads : List Bytes) : Digest :=
  .ofRaw (L.final m (reads.foldl (L.update m) (L.init m)))
    (by rw [L.final_foldl, L.length_H])

def put_tmp (pid : ℕ) (verb : PutVerb) (u : Udig) (time : ℤ) : Path :=
  T.tmp_get u.algorithm u.digest.chars ++ [put_tmp_name verb.text time pid u.digest]

/-- A wrap has no digest of its own while it digests its streams. -/
def digest_tmp (pid : ℕ) (m : DigestModule) (time : ℤ) (drift : ℕ) : Path :=
  T.tmp_get m [] ++ [digest_tmp_name time pid drift]

def eat_chunk (t : Store) (tmp : Path) (u : Udig) (time : ℤ) (ctx : L.Context) (chunk : Bytes) :
    Progress L :=
  let ctx := L.update u.algorithm ctx chunk
  { tree := t.modify tmp (· ++ chunk)
    phase := if L.final u.algorithm ctx = u.digest.raw then .digested time else .eating time ctx }

/-- The start of `put_bytes`. The bytes read along with the request line are the
first chunk, unless the digest is the empty one. -/
def put_open (t : Store) (pid : ℕ) (verb : PutVerb) (u : Udig) (scan_buf : Bytes) (time : ℤ) :
    Progress L :=
  let tmp := put_tmp T pid verb u time
  match t.create tmp [] with
  | .error _ => { tree := t, phase := .done }
  | .ok t' =>
    if u.digest.chars = u.algorithm.empty_ascii then { tree := t', phase := .digested time }
    else if scan_buf = [] then { tree := t', phase := .eating time (L.init u.algorithm) }
    else if 4095 < scan_buf.length then
      { tree := if u.algorithm = .sha then unlink_quietly t' tmp else t', phase := .done }
    else eat_chunk L t' tmp u time (L.init u.algorithm) scan_buf

/-- `get_request` and `take_request`. -/
def blob_open (t : Store) (u : Udig) (note : Option Note) : Progress L :=
  match t.lstat u.path with
  | some (.file b) => { tree := t, phase := .serving b, note := note }
  | _ => { tree := t, phase := .done }

/-- `get_bytes`: without a trusted file system a blob that fails its digest is zapped. -/
def blob_bytes (t : Store) (u : Udig) (blob : Bytes) (next : Phase L) : Progress L :=
  if (trust_fs ∧ u.algorithm ≠ .sha) ∨ L.H u.algorithm blob = u.digest.raw then
    { tree := t, phase := next }
  else { tree := unlink_quietly t u.path, phase := .done }

/-- What a reader may find behind the bytes that stood in the file when it was opened: more of
a blob that the arborist is still copying there. -/
def GrownBy (t : Store) (u : Udig) (blob more : Bytes) : Prop :=
  more = [] ∨ L.H u.algorithm blob ≠ u.digest.raw ∧ (t.file? u.path).any fun c => blob ++ more <+: c

instance (t : Store) (u : Udig) (blob more : Bytes) : Decidable (GrownBy L t u blob more) :=
  inferInstanceAs (Decidable (_ ∨ _ ∧ _))

/-- `digest` copies the stream to a temporary file before the arborist moves it. -/
def digest_stream (t : Store) (pid : ℕ) (m : DigestModule) (part : WrapPart) (reads : List Bytes)
    (time : ℤ) (drift : ℕ) : Progress L :=
  match t.create (digest_tmp T pid m time drift) reads.flatten with
  | .error _ => { tree := t, phase := .done }
  | .ok t' => { tree := t', phase := .copied part ⟨m, L.digest_reads m reads⟩ time drift }

/-- The set of a wrap names the fresh log first and each other log of the scan. -/
def wrap_set (u : Udig) (udigs : List Udig) : Bytes :=
  ((u :: udigs.filter (· ≠ u)).flatMap fun v => v.text ++ ['\n']).map Char.toUInt8

/-- One call of a process, `none` where the process is not at that call. -/
def call (t : Store) (pid : ℕ) (job : Job) (phase : Phase L) : Call → Option (Progress L)
  | .put_open time =>
    match job, phase with
    | .put verb u scan_buf, .started => some (put_open L T t pid verb u scan_buf time)
    | _, _ => none
  | .blob_read chunk =>
    match job, phase with
    | .put verb u _, .eating time ctx =>
      if chunk = [] ∨ 4096 < chunk.length then none
      else some (eat_chunk L t (put_tmp T pid verb u time) u time ctx chunk)
    | _, _ => none
  | .croak =>
    match job, phase with
    | .put verb u _, .eating time _ =>
      some { tree := unlink_quietly t (put_tmp T pid verb u time), phase := .done }
    | _, _ => none
  | .arbor_rename =>
    match job, phase with
    | .put verb u _, .digested time =>
      some { tree := t, phase := .renaming time, send := some (.R ⟨pid, put_tmp T pid verb u time, u.path⟩) }
    | _, _ => none
  | .cleanup =>
    match job, phase with
    | .put verb u _, .renamed time =>
      some { tree := unlink_quietly t (put_tmp T pid verb u time), phase := .answering }
    | _, _ => none
  | .write_ok =>
    match job, phase with
    | .put _ u _, .answering => some { tree := t, phase := .done, note := some (.acked u) }
    | _, .answering | .wrap _, .moved .set _ => some { tree := t, phase := .done }
    | _, _ => none
  | .is_wrap =>
    match job, phase with
    | .take u, .started =>
      some { tree := t, phase := if (t.lstat (wrap_path u)).isSome then .done else .checked }
    | _, _ => none
  | .blob_open =>
    match job, phase with
    | .take u, .checked => some (blob_open L t u (some (.opened u)))
    | .get u, .started =>
      if u.algorithm.is_digest u.digest.chars = 2 then some { tree := t, phase := .done }
      else some (blob_open L t u none)
    | _, _ => none
  | .blob_bytes more =>
    match job, phase with
    | .take u, .serving b =>
      if GrownBy L t u b more then some (blob_bytes L trust_fs t u (b ++ more) .served) else none
    | .get u, .serving b =>
      if GrownBy L t u b more then some (blob_bytes L trust_fs t u (b ++ more) .done) else none
    | _, _ => none
  | .take_reply ok =>
    match job, phase with
    | .take u, .served =>
      some (if ok then { tree := unlink_quietly t u.path, phase := .unlinked }
        else { tree := t, phase := .done })
    | _, _ => none
  | .arbor_trim =>
    match job, phase with
    | .take u, .unlinked =>
      some { tree := t, phase := .answering, send := some (.T (blob_dir_path u.algorithm u.digest)) }
    | _, _ => none
  | .eat =>
    match job, phase with
    | .eat _, .started => some { tree := t, phase := .done }
    | _, _ => none
  | .freeze name log =>
    match job, phase with
    | .wrap _, .started =>
      (t.overwrite (frozen_path name) log).toOption.map fun t' =>
        { tree := t', phase := .frozen name }
    | _, _ => none
  | .digest_log reads time drift =>
    match job, phase with
    | .wrap m, .frozen name =>
      match t.file? (frozen_path name) with
      | none => some { tree := t, phase := .done }
      | some log =>
        if reads.flatten = log then some (digest_stream L T t pid m (.log name) reads time drift)
        else none
    | _, _ => none
  | .arbor_move =>
    match job, phase with
    | .wrap m, .copied part u time drift =>
      some { tree := t, phase := .moving part u time drift,
             send := some (.M ⟨pid, digest_tmp T pid m time drift, u.path⟩) }
    | _, _ => none
  | .spool_log =>
    match job, phase with
    | .wrap _, .moved (.log name) u =>
      match t.rename (frozen_path name) (wrap_path u) with
      | .ok t' => some { tree := t', phase := .spooled u }
      | .error _ => some { tree := t, phase := .done }
    | _, _ => none
  | .digest_set udigs time drift =>
    match job, phase with
    | .wrap m, .spooled u =>
      some (digest_stream L T t pid m .set [wrap_set u udigs] time drift)
    | _, _ => none
  | .roll_copy udig_set =>
    match job, phase with
    | .roll u, .started =>
      match t.file? u.path, udig_set with
      | some _, some udigs => some { tree := t, phase := .rolling udigs }
      | _, _ => some { tree := t, phase := .done }
    | _, _ => none
  | .roll_unlink =>
    match job, phase with
    | .roll _, .rolling (u :: udigs) =>
      some { tree := unlink_quietly t (wrap_path u), phase := .rolling udigs }
    | .roll _, .rolling [] => some { tree := t, phase := .answering }
    | _, _ => none
  | .die =>
    match phase with
    | .renaming _ | .moving .. | .done => none
    | _ => some { tree := t, phase := .done }

end calls

structure Server (L : DigestLibrary) where
  tree : Store
  writable : List Path
  procs : ℕ → Option (Job × Phase L)
  pipe : List Message
  station : Station
  /-- The history of the run: a clock, which take opened which blob when, and which
  blobs puts have acknowledged when. -/
  now : ℕ
  opens : List (ℕ × Udig × ℕ)
  acks : List (Udig × ℕ)

inductive Event
  | fork (pid : ℕ) (job : Job)
  | call (pid : ℕ) (c : Call)
  | arborist (f : Faults)
  | restart

section server
variable {L : DigestLibrary} (T : TmpMap) (trust_fs : Bool)

/-- The reply is read and dropped: `arbor_rename` and `arbor_move` return nothing. -/
def Phase.replied : Phase L → Phase L
  | .renaming time => .renamed time
  | .moving part u _ _ => .moved part u
  | phase => phase

def Server.set (s : Server L) (pid : ℕ) (job : Job) (phase : Phase L) : Server L :=
  { s with procs := Function.update s.procs pid (some (job, phase)) }

def Server.record (s : Server L) (pid : ℕ) : Option Note → Server L
  | none => s
  | some (.opened u) => { s with opens := (pid, u, s.now) :: s.opens, now := s.now + 1 }
  | some (.acked u) => { s with acks := (u, s.now) :: s.acks, now := s.now + 1 }

/-- The arborist blocks in the open of a fifo until its request process reads it. -/
def Server.answer (s : Server L) : Option ℕ → Server L
  | none => s
  | some pid =>
    match s.procs pid with
    | some (job, phase) => s.set pid job phase.replied
    | none => s

/-- A process number is used again when the process of that number is gone. -/
def Server.free (s : Server L) (pid : ℕ) : Bool :=
  match s.procs pid with
  | none | some (_, .done) => true
  | _ => false

/-- A server that has just started on a blob tree. -/
def Server.booted (t : Store) : Server L where
  tree := t
  writable := []
  procs := fun _ => none
  pipe := []
  station := .waiting
  now := 0
  opens := []
  acks := []

def step (s : Server L) : Event → Option (Server L)
  | .fork pid job => if s.free pid then some (s.set pid job .started) else none
  | .call pid c =>
    match s.procs pid with
    | none => none
    | some (job, phase) =>
      (call L T trust_fs s.tree pid job phase c).map fun p =>
        ({ s with tree := p.tree, pipe := s.pipe ++ p.send.toList }.set pid job p.phase).record
          pid p.note
  | .arborist f =>
    (arborist f s.tree s.writable s.station s.pipe).map fun (handled, pipe) =>
      { s with
        tree := handled.tree
        writable := handled.writable
        station := handled.station
        pipe := pipe }.answer (replies_to f s.station)
  | .restart =>
    some { Server.booted s.tree with writable := s.writable, now := s.now, opens := s.opens, acks := s.acks }

end server

end Blobio
