import Blobio.TurnPrograms
import Blobio.RequestLines

/-! The child process that handles one request: from the bytes of its client to the record
for the logger and the exit status. Whatever the kernel, the client and the store do comes
as the answers of the surroundings. -/
namespace Blobio.RequestChild
open TurnPrograms TurnPrograms.Program

inductive Reply
  | ok
  | no
  deriving DecidableEq

def Reply.text : Reply → Text
  | ok => "ok".toList
  | no => "no".toList

/-- `net_read`: some bytes, none of them at the end of the stream. -/
inductive Received
  | bytes (chunk : Text)
  | failed
  | timed_out

/-- `net_write` of a whole buffer. -/
inductive Written
  | all
  | failed
  | timed_out
  deriving DecidableEq

/-- An operation of a digest module or of the server on its files: done, without the file
that it is about, given up with a complaint, or failed with a panic. -/
inductive Stored
  | done
  | absent
  | given_up
  | failed
  deriving DecidableEq

/-- One answer of the surroundings, of which the question picks its part. -/
structure Turn where
  read : Received := .bytes []
  write : Written := .all
  store : Stored := .done
  /-- How many bytes of the stored blob came with a read of it. -/
  nread : ℕ := 0
  /-- The digest matches, or the blob is a set of udigs. -/
  accepted : Bool := true
  /-- The digest of a wrap's set of udigs. -/
  set_digest : Digest := DigestModule.empty .sha
  /-- The clock reads earlier than at the start of the request. -/
  set_back : Bool := false
  /-- What stands on the stack behind two bytes of a reply. -/
  junk : Char × Char := ('\x00', '\x00')

/-- The transfers of a request. -/
inductive Transfer
  | request_line
  | blob_read
  | blob_write
  | reply_write
  | reply_read
  | udig_write
  deriving DecidableEq

/-- What brr_send has of a request. -/
structure BrrData where
  requested : Requested
  chat_history : Text
  blob_size : ℕ
  deriving DecidableEq

/-- The history of a request: what has come and gone, and what has gone wrong. -/
inductive Happening
  | sent (r : Reply)
  | received (r : Reply)
  | moved (nbytes : ℕ)
  | lost (transfer : Transfer) (timed_out : Bool)
  | hung_up (transfer : Transfer)
  | bad_line
  | bad_reply
  | unknown_algorithm
  | in_wrap_set
  | not_udig_set
  | given_up
  | no_chat
  | set_back
  | fault
  | overflow
  | brr (r : BrrData)
  deriving DecidableEq

structure Child where
  requested : Option Requested := none
  chat_history : Text := []
  request_exit_status : BitVec 8 := 0
  scan_buf : Text := []
  blob_size : ℕ := 0
  happened : List Happening := []
  deriving DecidableEq

abbrev Prog : Type → Type :=
  Program Child Turn

/-! ### The exit status

The class of the exit, the verb and the chat share the one byte. -/

def set_class (class_bits s : BitVec 8) : BitVec 8 :=
  (s &&& 0xFC#8) ||| class_bits

/-- `error` marks a request that has no mark yet. -/
def error_status (s : BitVec 8) : BitVec 8 :=
  if s &&& 0x3 = 0 then set_class 1 s else s

def set_chat (chat_bits s : BitVec 8) : BitVec 8 :=
  (s &&& 0x9F#8) ||| (chat_bits <<< 5)

def verb_bits : Verb → BitVec 8
  | .cat => 0
  | .get => 1
  | .put => 2
  | .give => 3
  | .take => 4
  | .eat => 5
  | .wrap => 6
  | .roll => 7

def set_verb (v : Verb) (s : BitVec 8) : BitVec 8 :=
  (s &&& 0x1C#8) ||| (verb_bits v <<< 2)

def note (h : Happening) (s : Child) : Child :=
  { s with happened := s.happened ++ [h] }

def with_status (f : BitVec 8 → BitVec 8) (s : Child) : Child :=
  { s with request_exit_status := f s.request_exit_status }

def error : Prog Unit :=
  modify (with_status error_status)

/-- `die` and `die_NO` in a child. -/
def die {α : Type} : Prog α := do
  error
  leave

def panic {α : Type} (why : Happening) : Prog α := do
  modify (note why)
  error
  modify (with_status (set_class 3))
  leave

/-! ### The transfers -/

/-- `_SET_EXIT_ERROR` and `_SET_EXIT_TIMEOUT`, behind the errors that are logged. -/
def lose (transfer : Transfer) (timed_out : Bool) : Prog Unit := do
  error
  modify (with_status (set_class (if timed_out then 2 else 1)))
  modify (note (.lost transfer timed_out))

/-- Nothing where the read fails, no bytes at the end of the stream. -/
def req_read (transfer : Transfer) (buf_size : ℕ) : Prog (Option Text) := do
  let t ← turn
  match t.read with
  | .bytes chunk => pure (some (chunk.take buf_size))
  | .failed => do
    lose transfer false
    pure none
  | .timed_out => do
    lose transfer true
    pure none

def req_write (transfer : Transfer) : Prog Bool := do
  let t ← turn
  match t.write with
  | .all => pure true
  | .failed => do
    lose transfer false
    pure false
  | .timed_out => do
    lose transfer true
    pure false

def transferred (nbytes : ℕ) (s : Child) : Child :=
  note (.moved nbytes) { s with blob_size := s.blob_size + nbytes }

def blob_read (buf_size : ℕ) : Prog (Option Text) := do
  let nread ← req_read .blob_read buf_size
  match nread with
  | some chunk => do
    modify (transferred chunk.length)
    pure (some chunk)
  | none => pure none

def blob_write (buf_size : ℕ) : Prog Bool := do
  let written ← req_write .blob_write
  if written then do
    modify (transferred buf_size)
    pure true
  else pure false

/-! ### The chat -/

def strncat (dst src : Text) (n : ℕ) : Text :=
  dst ++ src.take n

/-- The characters of the history's buffer, its null among them. -/
def sizeof_chat_history : ℕ := 10

/-- The two appends of `add_chat_history`, with the length counted down between them. -/
def append_blurb (history blurb : Text) : Text :=
  let len := history.length
  if 0 < len then
    strncat (strncat history [','] (sizeof_chat_history - (len + 1))) blurb
      (sizeof_chat_history - (len - 1 + 1))
  else strncat history blurb (sizeof_chat_history - (len + 1))

def add_chat_history (why : Reply → Happening) (r : Reply) : Prog Unit := do
  let s ← get
  if s.chat_history.length = 9 then panic .overflow
  else modify fun s => note (why r) { s with chat_history := append_blurb s.chat_history r.text }

/-- `write_ok` and `write_no` -/
def write_reply (r : Reply) : Prog Bool := do
  let written ← req_write .reply_write
  if written then do
    add_chat_history .sent r
    pure true
  else do
    error
    pure false

def reply_error (why : Option Happening) : Prog (Option Reply) := do
  error
  modify (with_status (set_class 1))
  match why with
  | some h => do
    modify (note h)
    pure none
  | none => pure none

/-- What the bytes of a reply come to once two are there: more to read, an error, or the
first two bytes. Behind two bytes alone the program looks at what the stack holds. -/
inductive ReplyBytes
  | again
  | bad
  | read

def reply_bytes (reply : Text) (junk : Char × Char) : ReplyBytes :=
  if reply.length < 2 then .again
  else if reply.length = 3 then
    if reply[2]? = some '\r' then .again
    else if reply[2]? ≠ some '\n' then .bad
    else .read
  else if reply.getD 2 junk.1 ≠ '\r' ∨ reply.getD 3 junk.2 = '\n' then .bad
  else .read

/-- `read_reply`: the reply of the client, or nothing. -/
def read_reply : Prog (Option Reply) :=
  loop (fun reply => do
    let nread ← req_read .reply_read (4 - reply.length)
    match nread with
    | none => do
      let r ← reply_error none
      pure (.inr r)
    | some [] => do
      let r ← reply_error (some (.hung_up .reply_read))
      pure (.inr r)
    | some chunk => do
      let t ← turn
      match reply_bytes (reply ++ chunk) t.junk with
      | .again => pure (.inl (reply ++ chunk))
      | .bad => do
        let r ← reply_error (some .bad_reply)
        pure (.inr r)
      | .read =>
        if (reply ++ chunk).take 2 = "ok".toList then do
          add_chat_history .received .ok
          pure (.inr (some .ok))
        else if (reply ++ chunk).take 2 = "no".toList then do
          add_chat_history .received .no
          pure (.inr (some .no))
        else do
          let r ← reply_error (some .bad_reply)
          pure (.inr r)) []

/-! ### The callbacks of a digest module -/

section modules
variable (trust_fs : Bool) (r : Requested)

/-- An operation that is never without its file and panics when it fails. -/
def store_op : Prog Unit := do
  let t ← turn
  if t.store = .failed then panic .fault
  else pure ()

/-- `_open` of the blob: false where there is none. -/
def open_blob : Prog Bool := do
  let t ← turn
  match t.store with
  | .failed => panic .fault
  | .absent => pure false
  | _ => pure true

/-- `get_bytes` and `take_bytes` -/
def get_bytes : Prog Bool := do
  let sent ← loop (fun _ => do
    let t ← turn
    if t.store = .failed then panic .fault
    else if t.nread = 0 then
      if (trust_fs ∧ r.algorithm ≠ .sha) ∨ t.accepted then pure (.inr true)
      else panic .fault
    else do
      let written ← blob_write t.nread
      if written then pure (.inl ())
      else pure (.inr false)) ()
  store_op
  pure sent

/-- Is the digest seen with these bytes? -/
def eat_chunk : Prog Bool := do
  let t ← turn
  if t.store = .failed then panic .fault
  else pure t.accepted

def CHUNK_SIZE : ℕ := 4 * 1024

/-- The chunks of `put_bytes` behind the bytes that came with the request's line. -/
def read_chunks : Prog Bool :=
  loop (fun room => do
    let nread ← blob_read room
    match nread with
    | none => do
      error
      pure (.inr false)
    | some [] => do
      modify (note (.hung_up .blob_read))
      error
      pure (.inr false)
    | some chunk => do
      let seen ← eat_chunk
      if seen then pure (.inr true)
      else if room ≤ chunk.length then pure (.inl CHUNK_SIZE)
      else pure (.inl (room - chunk.length))) CHUNK_SIZE

/-- The bytes that came with the request's line. -/
def eat_scan_buf : Prog Bool := do
  let s ← get
  if s.scan_buf = [] then pure false
  else if s.scan_buf.length ≠ s.blob_size ∨ CHUNK_SIZE - 1 < s.scan_buf.length then panic .fault
  else do
    modify (note (.moved s.scan_buf.length))
    eat_chunk

/-- `put_bytes` and `give_bytes` -/
def put_bytes : Prog Bool := do
  store_op
  if r.digest = r.algorithm.empty_ascii then do
    store_op
    pure true
  else do
    let seen ← eat_scan_buf
    let digested ← if seen then pure true else read_chunks
    store_op
    pure digested

/-! ### The callbacks of the verbs -/

def answer (reply : Reply) : Prog Unit := do
  let _ ← write_reply reply
  pure ()

def cat : Prog Unit := do
  modify (with_status (set_verb .cat))
  answer .no

def get : Prog Unit := do
  modify (with_status (set_verb .get))
  if r.algorithm.is_digest r.digest = 2 then answer .ok
  else do
    let found ← open_blob
    if found then do
      let sent ← write_reply .ok
      if sent then do
        let _ ← get_bytes trust_fs r
        pure ()
      else pure ()
    else answer .no

def eat : Prog Unit := do
  modify (with_status (set_verb .eat))
  let found ← open_blob
  if found then answer .ok
  else answer .no

def put : Prog Unit := do
  modify (with_status (set_verb .put))
  let sent ← write_reply .ok
  if sent then do
    let digested ← put_bytes r
    if digested then answer .ok
    else answer .no
  else pure ()

/-- `take_reply` unlinks the blob and has the directories trimmed. -/
def take : Prog Unit := do
  modify (with_status (set_verb .take))
  let wrapped ← open_blob
  if wrapped then do
    modify (note .in_wrap_set)
    error
    answer .no
  else do
    let found ← open_blob
    if found then do
      let sent ← write_reply .ok
      if sent then do
        let bytes ← get_bytes trust_fs r
        if bytes then do
          let reply ← read_reply
          if reply = some .ok then do
            store_op
            answer .ok
          else pure ()
        else pure ()
      else pure ()
    else answer .no

def give : Prog Unit := do
  modify (with_status (set_verb .give))
  let sent ← write_reply .ok
  if sent then do
    let digested ← put_bytes r
    if digested then do
      let sent ← write_reply .ok
      if sent then do
        let _ ← read_reply
        pure ()
      else pure ()
    else answer .no
  else pure ()

def with_digest (d : Digest) (s : Child) : Child :=
  { s with requested := s.requested.map fun r => { r with digest := d.chars } }

/-- What goes wrong before the ok of a wrap is a panic. -/
def wrap : Prog Unit := do
  modify (with_status (set_verb .wrap))
  store_op
  let sent ← write_reply .ok
  if sent then do
    let t ← turn
    modify (with_digest t.set_digest)
    let _ ← req_write .udig_write
    pure ()
  else pure ()

/-- A copy that `copy` gives up is taken for done. -/
def roll : Prog Unit := do
  modify (with_status (set_verb .roll))
  store_op
  let copy ← turn
  if copy.store = .failed then panic .fault
  else if copy.store = .absent then answer .no
  else do
    if copy.store = .given_up then do
      modify (note .given_up)
      error
    else pure ()
    store_op
    let slurped ← turn
    if slurped.nread = 0 then answer .ok
    else if slurped.accepted then do
      store_op
      answer .ok
    else do
      modify (note .not_udig_set)
      error
      answer .no

def callback : Prog Unit :=
  match r.verb with
  | .cat => cat
  | .get => get trust_fs r
  | .put => put r
  | .give => give r
  | .take => take trust_fs r
  | .eat => eat
  | .wrap => wrap
  | .roll => roll

end modules

/-! ### The request -/

/-- The bits that choose the verbs of the log. -/
def brr_mask_is_set (v : Verb) (mask : BitVec 8) : Bool :=
  match v with
  | .cat => mask &&& 0x80 ≠ 0
  | .eat => mask &&& 0x10 ≠ 0
  | .get => mask &&& 0x01 ≠ 0
  | .give => mask &&& 0x08 ≠ 0
  | .put => mask &&& 0x04 ≠ 0
  | .roll => mask &&& 0x40 ≠ 0
  | .take => mask &&& 0x02 ≠ 0
  | .wrap => mask &&& 0x20 ≠ 0

structure Config where
  installed : Installed
  trust_fs : Bool
  brr_mask : BitVec 8

section request
variable (config : Config)

def bio4d (verb algorithm digest scan_buf : Text) : Prog Unit :=
  match dispatch config.installed verb algorithm digest with
  | .die_NO => do
    modify (note .bad_line)
    die
  | .panic => panic .unknown_algorithm
  | .callback r => do
    modify fun s => { s with requested := some r, scan_buf := scan_buf, blob_size := scan_buf.length }
    -- the module's open
    store_op
    callback config.trust_fs r
    -- the module's close
    store_op

/-- How the loop over the client's bytes ends. -/
inductive Scanning
  | halted
  | ended (s : Scan)
  | unreadable

def scan_client : Prog Scanning :=
  loop (fun scan => do
    let nread ← req_read .request_line 255
    match nread with
    | none => pure (.inr .unreadable)
    | some [] => pure (.inr (.ended scan))
    | some chunk =>
      match ChunkedScans.scan scan_request scan chunk with
      | .more scan => pure (.inl scan)
      | .stop (.go verb algorithm digest) scan_buf => do
        bio4d config verb algorithm digest scan_buf
        pure (.inr .halted)
      | .stop .die_NO _ | .stop .die _ => do
        modify (note .bad_line)
        die) Scan.start

/-- The status with the bits for a no by its place in the chat; the third is looked for a
character too early. Nothing comes of a history that is none of a request's. -/
def chat_status (ch : Text) (s : BitVec 8) : Option (BitVec 8) :=
  match ch.length with
  | 2 => some (if ch[0]? = some 'n' then set_chat 1 s else s)
  | 5 => some (if ch[3]? = some 'n' then set_chat 2 s else s)
  | 8 => some (if ch[5]? = some 'n' then set_chat 3 s else s)
  | _ => none

def brr_send : Prog Unit := do
  let s ← Program.get
  match s.requested with
  | none => pure ()
  | some r =>
    if brr_mask_is_set r.verb config.brr_mask then do
      let t ← turn
      -- a negative duration is complained of and becomes 0
      if t.set_back then do
        modify (note .set_back)
        error
      else pure ()
      store_op
      modify (note (.brr ⟨r, s.chat_history, s.blob_size⟩))
    else pure ()

/-- The record, and the exit. -/
def record_request : Prog Unit := do
  let s ← Program.get
  match chat_status s.chat_history s.request_exit_status with
  | some status => do
    modify (with_status fun _ => status)
    store_op
    brr_send config
    leave
  | none => panic .no_chat

def request : Prog Unit := do
  let scanning ← scan_client config
  match scanning with
  | .halted => record_request config
  | .unreadable => die
  | .ended scan => do
    modify (note (.hung_up .request_line))
    if scan.state = .scan_verb ∧ scan.verb = [] then die
    else do
      error
      leave

end request

end Blobio.RequestChild
