import Blobio.Bio4Client
import Blobio.ClientDigests
import Blobio.EarlyExits

/-! The client's driver for a server, from the connection on: what it writes to the server and to
its output, by what its reads return. -/
namespace Blobio.Client
open EarlyExits

/-- The chunks that the reads of a file descriptor return, and the error of the read behind them;
without an error that is the end of the file. -/
structure Stream where
  chunks : List Bytes
  err : Option Text

/-- What becomes of a write; one to a socket or a pipe that is closed at its other end kills the process
by `SIGPIPE`. -/
inductive Written
  | all
  | failed (sent : ℕ) (err : Text)
  | timed_out (sent : ℕ)
  | killed (sent : ℕ)

/-- The bytes of a buffer that a write puts out. -/
def Written.sent (w : Written) (buf : Bytes) : Bytes :=
  match w with
  | .all => buf
  | .failed sent _ | .timed_out sent | .killed sent => buf.take sent

def Written.kills : Written → Bool
  | .killed _ => true
  | _ => false

/-- What the writes come to one after the other, what a reply's buffer holds at first, the check of
a udig by the library, and the error of the removal of the input. -/
structure World where
  write : ℕ → Written
  junk : ℕ → Char × Char × Char
  frisk_udig : Text → Option Text
  unlink : Option Text

structure Request where
  verb : Text
  algorithm : Text
  ascii_digest : Text
  input_path : Bool

structure Session (ssl : OpenSSL) (m : DigestModule) where
  server : Stream
  input : Stream
  ctx : Context ssl m
  to_server : Bytes := []
  output : Bytes := []
  output_open : Bool := true
  writes : ℕ := 0
  ok_no : ℤ
  chat_history : Text := []
  udig : Text := []
  input_removed : Bool := false

/-- The errors that a request returns; a write that times out ends the process, and so does one that
kills it. -/
inductive Halt
  | read (err : Text)
  | write (err : Text)
  | write_timed_out
  | killed
  | reply (err : Bio4.ReplyError)
  | no_match
  | unlink (err : Text)
  | no_bytes
  | short_udig
  | unread_udig
  | frisk_udig (err : Text)
  deriving DecidableEq

def bytes (t : Text) : Bytes := t.map Char.toUInt8

def text (b : Bytes) : Text := b.map fun x => Char.ofNat x.toNat

/-- What is left of the chunks behind some bytes. -/
def skip : ℕ → List Bytes → List Bytes
  | _, [] => []
  | n, c :: cs => if c.length ≤ n then skip (n - c.length) cs else c.drop n :: cs

variable {ssl : OpenSSL} {m : DigestModule}

abbrev Run (ssl : OpenSSL) (m : DigestModule) := Program (Session ssl m) Halt

/-! ### Reads and writes -/

section program
variable (w : World) (q : Request)

def Session.hears (s : Session ssl m) (chunks : List Bytes) : Session ssl m :=
  { s with server := { s.server with chunks := chunks } }

def Session.feeds (s : Session ssl m) (chunks : List Bytes) : Session ssl m :=
  { s with input := { s.input with chunks := chunks } }

def Session.sends (s : Session ssl m) (buf : Bytes) : Session ssl m :=
  { s with to_server := s.to_server ++ buf, writes := s.writes + 1 }

def Session.outputs (s : Session ssl m) (buf : Bytes) : Session ssl m :=
  { s with output := s.output ++ buf, writes := s.writes + 1 }

/-- `_write`, to where the bytes go. -/
def write (put : Session ssl m → Bytes → Session ssl m) (buf : Bytes) : Run ssl m Unit := fun s =>
  match w.write s.writes with
  | .all => .ok ((), put s buf)
  | .failed sent err => .error (.write err, put s (buf.take sent))
  | .timed_out sent => .error (.write_timed_out, put s (buf.take sent))
  | .killed sent => .error (.killed, put s (buf.take sent))

/-- `EBADF` -/
def bad_descriptor : Text := "Bad file descriptor".toList

def write_output (buf : Bytes) : Run ssl m Unit := fun s =>
  if s.output_open then write w Session.outputs buf s
  else .error (.write bad_descriptor, s)

/-- A write whose error is dropped. -/
def write_quietly (put : Session ssl m → Bytes → Session ssl m) (buf : Bytes) : Run ssl m Unit := fun s =>
  match w.write s.writes with
  | .all => .ok ((), put s buf)
  | .failed sent _ => .ok ((), put s (buf.take sent))
  | .timed_out sent => .error (.write_timed_out, put s (buf.take sent))
  | .killed sent => .error (.killed, put s (buf.take sent))

/-- A read that returns no chunk has failed, or is at the end of the file. -/
def at_end (err : Option Text) : Run ssl m Unit :=
  match err with
  | some err => stop (.read err)
  | none => pure ()

/-- `get_update`, which every module has do what its `chew` does. -/
def get_update (bin chunk : Bytes) : Run ssl m Bool := fun s =>
  let (ctx, seen) := chew ssl m bin s.ctx chunk
  .ok (seen, { s with ctx := ctx })

def read_ok_no : Run ssl m Unit := fun s =>
  let junk := w.junk s.writes
  let rest := s.hears (skip 3 s.server.chunks)
  match Bio4.read_reply_into s.server.err [junk.1, junk.2.1, junk.2.2] 0 (s.server.chunks.map text) with
  | .ok reply => .ok ((), { rest with ok_no := reply })
  | .error err => .error (.reply err, rest)

/-! ### Requests -/

def make_request : Text :=
  q.verb.take 4 ++ (if q.algorithm = [] then [] else
    ' ' :: (q.algorithm ++ if q.ascii_digest = [] then [] else ':' :: q.ascii_digest)) ++ ['\n']

def request : Run ssl m Unit := do
  write w Session.sends (bytes (make_request q))
  read_ok_no w

def bio4_set_brr (hist : Text) : Run ssl m Unit :=
  modify fun s => { s with chat_history := hist }

/-- The loop of `_bio4_get`. The chunk that completes the blob is written, too. -/
def get_chunks (bin : Bytes) (err : Option Text) : List Bytes → Run ssl m Unit
  | [] => do
    at_end err
    let seen ← get_update bin []
    if seen then pure () else stop .no_match
  | c :: cs => do
    modify (·.hears cs)
    let seen ← get_update bin c
    write_output w c
    if seen then pure () else get_chunks bin err cs

def _bio4_get (in_take : Bool) : Run ssl m Unit := do
  request w q
  let s ← get
  if s.ok_no = 1 ∨ (in_take ∧ is_empty m q.ascii_digest) then pure ()
  else
    get_chunks w (bin_digest q.ascii_digest) s.server.err s.server.chunks
    bio4_set_brr "ok".toList

def bio4_get : Run ssl m Unit := _bio4_get w q false

def bio4_eat : Run ssl m Unit := do
  request w q
  let s ← get
  bio4_set_brr (if s.ok_no = 0 then "ok".toList else "no".toList)

def put_untrusted_chunks (bin : Bytes) (err : Option Text) : List Bytes → Run ssl m Unit
  | [] => do
    at_end err
    let seen ← get_update bin []
    if seen then pure () else stop .no_match
  | c :: cs => do
    modify (·.feeds cs)
    let seen ← get_update bin c
    write w Session.sends c
    if seen then pure () else put_untrusted_chunks bin err cs

/-- The read that returns nothing is followed by a write of nothing. -/
def put_trusted_chunks (err : Option Text) : List Bytes → Run ssl m Unit
  | [] => do
    at_end err
    write w Session.sends []
  | c :: cs => do
    modify (·.feeds cs)
    write w Session.sends c
    put_trusted_chunks err cs

/-- No option and no service sets it. -/
def trust_fs : ℤ := -1

def bio4_put : Run ssl m Unit := do
  write w Session.sends (bytes (make_request q))
  read_ok_no w
  let s ← get
  if s.ok_no = 1 then pure ()
  else
    if trust_fs = 0 then
      put_untrusted_chunks w (bin_digest q.ascii_digest) s.input.err s.input.chunks
    else put_trusted_chunks w s.input.err s.input.chunks
    read_ok_no w
    let s ← get
    bio4_set_brr (if s.ok_no = 0 then "ok".toList else "no".toList)

def ok_line : Bytes := bytes "ok\n".toList
def no_line : Bytes := bytes "no\n".toList

def bio4_take : Run ssl m Unit := do
  _bio4_get w q true
  let s ← get
  if s.ok_no = 1 then pure ()
  else
    write w Session.sends ok_line
    read_ok_no w
    bio4_set_brr "ok,ok,ok".toList

def bio4_give : Run ssl m Unit := do
  bio4_put w q
  let s ← get
  if s.ok_no = 1 then pure ()
  else
    if q.input_path then
      match w.unlink with
      | some err =>
        write_quietly w Session.sends no_line
        stop (.unlink err)
      | none =>
        modify fun s => { s with input_removed := true }
        write w Session.sends ok_line
    else write w Session.sends ok_line
    bio4_set_brr "ok,ok,ok".toList

def bio4_roll : Run ssl m Unit := do
  request w q
  bio4_set_brr "ok".toList

/-- `sizeof udig - 1` -/
def max_udig : ℕ := 8 + 1 + 128

/-- The loop that reads the udig of a wrap, up to a chunk with a new-line at its end. -/
def read_udig (err : Option Text) : List Bytes → Run ssl m Unit
  | [] => do
    let s ← get
    if s.udig.length < max_udig then
      at_end err
      stop .no_bytes
    else pure ()
  | c :: cs => do
    let s ← get
    if s.udig.length < max_udig then
      let room := max_udig - s.udig.length
      modify fun s => { s.hears (if c.length ≤ room then cs else c.drop room :: cs) with
        udig := s.udig ++ text (c.take room) }
      if (text (c.take room)).getLast? = some '\n' then pure ()
      else if c.length ≤ room then read_udig err cs else pure ()
    else pure ()

/-- The branch for a blob request record is left out: this service has none. -/
def bio4_wrap : Run ssl m Unit := do
  request w q
  let s ← get
  if s.ok_no ≠ 0 then pure ()
  else
    modify fun s => { s with udig := [] }
    read_udig s.server.err s.server.chunks
    let s ← get
    if s.udig.length < 1 + 1 + 32 + 1 then stop .short_udig
    else if s.udig.length ≥ max_udig then stop .unread_udig
    else
      modify fun s => { s with udig := s.udig.dropLast }
      match w.frisk_udig s.udig.dropLast with
      | some err => stop (.frisk_udig err)
      | none => bio4_set_brr "ok".toList

end program

end Blobio.Client
