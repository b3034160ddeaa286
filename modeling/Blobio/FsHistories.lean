import Blobio.RequestOutcomes
import Blobio.RollStats

/-! The chat histories of the client's file system service, which plays both parts of the
protocol of the network service. -/
namespace Blobio.FsService

inductive Errno
  | ENOENT
  | EEXIST
  | EXDEV
  | other (n : ℕ)
  deriving DecidableEq

/-- What a function of the service returns for an error: `strerror`, or a text of its own. -/
inductive Err
  | errno (e : Errno)
  | text (t : Text)
  deriving DecidableEq

/-- The concatenation of the library leaves out what does not fit in the buffer. -/
structure Library where
  strcat : ℕ → Text → Text → Text
  strcat_eq : ∀ size tgt src, tgt.length < size → strcat size tgt src = (tgt ++ src).take (size - 1)

/-- The variables of the client, and its `errno`. -/
structure Service where
  chat_history : Text := []
  ok_no : ℤ
  blob_size : ℕ := 0
  errno : Option Errno := none

abbrev Result := Option Err × Service

/-- A call that returns the error if it fails. -/
def attempt (call : Option Errno) (next : Service → Result) (s : Service) : Result :=
  match call with
  | some e => (some (.errno e), { s with errno := some e })
  | none => next s

variable (lib : Library)

/-- `chat_history` has room for nine bytes, the last of them zero. -/
def chat_size : ℕ := 2 + 1 + 2 + 1 + 2 + 1

def fs_add_chat (chat : Text) (s : Service) : Service :=
  { s with
    chat_history :=
      if s.chat_history ≠ [] then lib.strcat chat_size (lib.strcat chat_size s.chat_history [',']) chat
      else lib.strcat chat_size s.chat_history chat }

/-- `linkat`, and the size of the target behind it. -/
structure Link where
  linkat : Option Errno
  fsize : Except Errno ℕ
  /-- `fstatat` does not fail with it. -/
  fsize_ne : fsize ≠ .error .EEXIST

def fs_hard_link (l : Link) (s : Service) : Result :=
  match l.linkat with
  | some .ENOENT => (none, { s with ok_no := 1, errno := some .ENOENT })
  | some .EXDEV => (some (.text []), { s with errno := some .EXDEV })
  | some (.other n) => (some (.errno (.other n)), { s with errno := some (.other n) })
  | some .EEXIST | none =>
    match l.fsize with
    | .error e => (some (.errno e), { s with errno := some e })
    | .ok sz => (none, { s with blob_size := sz, ok_no := 0 })

/-! ### Verbs -/

/-- `output_path`: the null device, another path, or none. -/
inductive Output
  | null_device
  | path
  | stdout
  deriving DecidableEq

structure GetCalls where
  fs_path : Option Errno
  fsize : Except Errno ℕ
  link : Link
  openat : Option Errno
  open_output : Option Errno
  send_file : Except Errno ℕ
  close_blob : Option Errno
  close_output : Option Errno

def error? {α : Type} : Except Errno α → Option Errno
  | .error e => some e
  | .ok _ => none

/-- The copy of the blob to the output; of the errors on the way the first one is returned. An output
that cannot be opened leaves the empty text of the hard link. -/
def fs_get_copy (output : Output) (g : GetCalls) (s : Service) : Result :=
  match g.openat with
  | some .ENOENT => (none, fs_add_chat lib "no".toList { s with ok_no := 1, errno := some .ENOENT })
  | some e => (some (.errno e), { s with errno := some e })
  | none =>
    let s := { fs_add_chat lib "ok".toList s with ok_no := 0 }
    match (if output = .path then g.open_output else none) with
    | some e => (some (.text []), { s with errno := some e })
    | none =>
      let s := { s with blob_size := g.send_file.toOption.getD 0 }
      let closed := if output = .path then g.close_output else none
      match error? g.send_file <|> g.close_blob <|> closed with
      | some e => (some (.errno e), { s with errno := some e })
      | none => (none, s)

def fs_get (output : Output) (g : GetCalls) : Service → Result :=
  attempt g.fs_path fun s =>
    match output with
    | .null_device =>
      match g.fsize with
      | .error .ENOENT => (none, { fs_add_chat lib "no".toList s with ok_no := 1, errno := some .ENOENT })
      | .error e => (some (.errno e), { s with errno := some e })
      | .ok sz => (none, fs_add_chat lib "ok".toList { s with blob_size := sz, ok_no := 0 })
    | .path =>
      match fs_hard_link g.link s with
      | (some (.text []), s) => fs_get_copy lib output g s
      | (some err, s) => (some err, s)
      | (none, s) => (none, fs_add_chat lib "ok".toList s)
    | .stdout => fs_get_copy lib output g s

structure TakeCalls where
  get : GetCalls
  fs_path : Option Errno
  unlinkat : Option Errno

def fs_take (output : Output) (t : TakeCalls) (s : Service) : Result :=
  match fs_get lib output t.get s with
  | (some err, s) => (some err, s)
  | (none, s) =>
    if s.ok_no = 1 then (none, fs_add_chat lib "no".toList s)
    else attempt t.fs_path (fun s =>
      match t.unlinkat with
      | none => (none, { fs_add_chat lib "ok,ok,ok".toList s with ok_no := 0 })
      | some .ENOENT =>
        (none, { fs_add_chat lib "ok,ok,ok".toList (fs_add_chat lib "ok".toList s) with
          ok_no := 0, errno := some .ENOENT })
      | some e => (some (.errno e), { s with errno := some e })) (fs_add_chat lib "ok".toList s)

structure PutCalls where
  fs_path : Option Errno
  fs_dir_path : Option Errno
  mkdirat_path : Option Errno
  link : Link
  mkdirat_tmp : Option Errno
  openat_tmp : Option Errno
  send_file : Except Errno ℕ
  renameat : Option Errno
  unlinkat_tmp : Option Errno
  close_tmp : Option Errno

/-- The input goes to a temporary file that is renamed; it has no such name then, which is no
error. -/
def fs_put_copy (p : PutCalls) : Service → Result :=
  attempt p.mkdirat_tmp <| attempt p.openat_tmp fun s =>
    let s := { s with blob_size := s.blob_size + p.send_file.toOption.getD 0 }
    let copied := error? p.send_file <|> p.renameat
    let s := if copied = none then fs_add_chat lib "ok".toList s else s
    let unlinked := if p.unlinkat_tmp = some .ENOENT then none else p.unlinkat_tmp
    match copied <|> unlinked <|> p.close_tmp with
    | some e => (some (.errno e), { s with errno := some e })
    | none => (none, { s with ok_no := 0 })

def fs_put (input_path : Bool) (p : PutCalls) : Service → Result :=
  attempt p.fs_path <| attempt p.fs_dir_path <| attempt p.mkdirat_path fun s =>
    let s := fs_add_chat lib "ok".toList s
    if input_path then
      match fs_hard_link p.link s with
      | (none, s) => (none, fs_add_chat lib "ok".toList s)
      | (some err, s) =>
        if s.errno = some .EEXIST then (none, fs_add_chat lib "ok".toList s)
        else if err ≠ .text [] then (some err, s)
        else fs_put_copy lib p s
    else fs_put_copy lib p s

structure GiveCalls where
  put : PutCalls
  unlink : Option Errno

def fs_give (input_path : Bool) (g : GiveCalls) (s : Service) : Result :=
  match fs_put lib input_path g.put s with
  | (some err, s) => (some err, s)
  | (none, s) =>
    if s.ok_no = 1 then (none, fs_add_chat lib "no".toList s)
    else
      match (if input_path ∧ g.unlink ≠ some .ENOENT then g.unlink else none) with
      | some e => (some (.errno e), { s with errno := some e })
      | none => (none, fs_add_chat lib "ok".toList s)

structure EatCalls where
  fs_path : Option Errno
  faccessat : Option Errno

def fs_eat (e : EatCalls) : Service → Result :=
  attempt e.fs_path fun s =>
    match e.faccessat with
    | some .ENOENT => (none, { fs_add_chat lib "no".toList s with ok_no := 1, errno := some .ENOENT })
    | some err => (some (.errno err), { s with errno := some err })
    | none => (none, { fs_add_chat lib "ok".toList s with ok_no := 0 })

/-- An entry of the directory of wraps, and the write of its udig to the set. -/
structure WrapEntry where
  name : Text
  regular : Bool
  write_all : Option Errno

structure WrapCalls where
  mkdirat_spool : Option Errno
  rename_brr : Option Errno
  open_frozen : Option Errno
  eat_frozen : Option Errno
  mkdirat_wrap : Option Errno
  put_frozen : PutCalls
  close_frozen : Option Errno
  rename_frozen : Option Errno
  open_set : Option Errno
  open_dir : Option Errno
  fdopendir : Option Errno
  entries : List WrapEntry
  frisk_udig : Text → Bool
  readdir : Option Errno
  close_dir : Option Errno
  rewind : Option Errno
  eat_set : Option Errno
  put_set : PutCalls
  unlink_set : Option Errno

def skips (w : WrapCalls) (e : WrapEntry) : Bool :=
  e.name = ['.'] || e.name = "..".toList || !e.regular || e.name.length < 38 || e.name.length > 141 ||
    e.name.drop (e.name.length - 4) ≠ ".brr".toList || !w.frisk_udig (e.name.take (e.name.length - 4))

def scan_wrap_dir (w : WrapCalls) : List WrapEntry → Service → Result
  | [], s => (none, s)
  | e :: es, s => if skips w e then scan_wrap_dir w es s else attempt e.write_all (scan_wrap_dir w es) s

/-- A function whose error is returned. -/
def andThen (r : Result) (next : Service → Result) : Result :=
  match r with
  | (some err, s) => (some err, s)
  | (none, s) => next s

/-- No input path may be given with a wrap. -/
def fs_wrap (w : WrapCalls) : Service → Result :=
  attempt w.mkdirat_spool fun s =>
    match w.rename_brr with
    | some .ENOENT => (none, { fs_add_chat lib "no".toList s with ok_no := 1, errno := some .ENOENT })
    | some e => (some (.errno e), { s with errno := some e })
    | none =>
      s |> attempt w.open_frozen (attempt w.eat_frozen (attempt w.mkdirat_wrap fun s =>
        andThen (fs_put lib false w.put_frozen s) <| attempt w.close_frozen fun s =>
          if s.ok_no = 1 then (none, s)
          else s |> attempt w.rename_frozen (attempt w.open_set (attempt w.open_dir (attempt w.fdopendir fun s =>
            andThen (scan_wrap_dir w w.entries s) <| attempt w.readdir <| attempt w.close_dir <|
              attempt w.rewind <| attempt w.eat_set fun s =>
                andThen (fs_put lib false w.put_set s) <| attempt w.unlink_set fun s =>
                  (none, { fs_add_chat lib "ok".toList s with ok_no := 0 }))))))

structure RollCalls where
  fs_path : Option Errno
  fstatat : Option Errno
  malloc : Bool
  openat : Option Errno
  read_exact : Option Errno
  close : Option Errno
  /-- The udigs of the roll blob, each with the character at its end. -/
  split : Except Text (List (Text × Char))
  unlinkat : Text → Option Errno

def unlink_wraps (unlinkat : Text → Option Errno) : List (Text × Char) → Service → Result
  | [], s => (none, s)
  | (udig, c) :: rest, s =>
    if c ≠ '\n' then (some (.text "udig set: char at offset not 0x0a".toList), s)
    else if udig = [] then (some (.text "empty udig".toList), s)
    else if udig.length < 34 then (some (.text "wrap udig < 34 chars".toList), s)
    else
      match unlinkat udig with
      | some .ENOENT => unlink_wraps unlinkat rest { s with errno := some .ENOENT }
      | some e => (some (.errno e), { s with errno := some e })
      | none => unlink_wraps unlinkat rest s

def fs_roll (r : RollCalls) (s : Service) : Result :=
  attempt r.fs_path (fun s =>
    match r.fstatat with
    | some .ENOENT => (some (.text "roll blob does not exist".toList), { s with errno := some .ENOENT })
    | some e => (some (.errno e), { s with errno := some e })
    | none =>
      if ¬ r.malloc then (some (.text "malloc(roll blob) failed".toList), s)
      else s |> attempt r.openat (attempt r.read_exact (attempt r.close fun s =>
        match r.split with
        | .error err => (some (.text err), s)
        | .ok [] => (some (.text "no udigs in roll set".toList), s)
        | .ok udigs =>
          andThen (unlink_wraps r.unlinkat udigs s) fun s =>
            (none, { fs_add_chat lib "ok".toList s with ok_no := 0 }))))
    { s with ok_no := 1 }

/-- A verb of the service, and what its calls come to. -/
inductive Request
  | get (output : Output) (g : GetCalls)
  | put (input_path : Bool) (p : PutCalls)
  | give (input_path : Bool) (g : GiveCalls)
  | take (output : Output) (t : TakeCalls)
  | eat (e : EatCalls)
  | wrap (w : WrapCalls)
  | roll (r : RollCalls)

def Request.verb : Request → Verb
  | .get _ _ => .get
  | .put _ _ => .put
  | .give _ _ => .give
  | .take _ _ => .take
  | .eat _ => .eat
  | .wrap _ => .wrap
  | .roll _ => .roll

def serve : Request → Service → Result
  | .get output g => fs_get lib output g
  | .put input_path p => fs_put lib input_path p
  | .give input_path g => fs_give lib input_path g
  | .take output t => fs_take lib output t
  | .eat e => fs_eat lib e
  | .wrap w => fs_wrap lib w
  | .roll r => fs_roll lib r

/-! ### What should be recorded -/

/-- The chat of a request of the network service, where its callback returns: nothing has failed and
nobody has said no, or the server has said no. -/
def NetworkRecords (verb : Verb) (ok : Bool) (chat : Text) : Prop :=
  ∃ trust_fs r scan_buf turns s rest, r.verb = verb ∧
    RequestChild.callback trust_fs r (RequestChild.dispatched r scan_buf) turns = .done () s rest ∧
    s.chat_history = chat ∧
    if ok then RequestChild.Clean s ∧ .no ∉ RequestChild.replies s.happened else .sent .no ∈ s.happened

/-- The history is one of the schema for the verb, it ends in no just if the client says no, and the
network service has no other for this end of a request. -/
structure Right (verb : Verb) (s : Service) : Prop where
  schema : s.chat_history ∈ RollStat.schema_chats verb
  ends : "no".toList <:+ s.chat_history ↔ s.ok_no ≠ 0
  network : ∀ chat, NetworkRecords verb (s.ok_no = 0) chat → s.chat_history = chat

/-- There is no blob where a get looks for it. -/
def GetCalls.Missing (g : GetCalls) : Output → Prop
  | .null_device => g.fsize = .error .ENOENT
  | .path => g.link.linkat = some .ENOENT ∨ g.link.linkat = some .EXDEV ∧ g.openat = some .ENOENT
  | .stdout => g.openat = some .ENOENT

/-- The calls that lead to another history: a hard link of a get, a put or a give that finds no file, a
take of a blob that is missing, and the wrap of a log that is there. -/
def Request.Strays : Request → Prop
  | .get output g => output = .path ∧ g.link.linkat = some .ENOENT
  | .put input_path p => input_path ∧ p.link.linkat = some .ENOENT
  | .give input_path g => input_path ∧ g.put.link.linkat = some .ENOENT
  | .take output t => t.get.Missing output
  | .wrap w => w.rename_brr = none
  | .eat _ | .roll _ => False

section network
open RequestChild

/-- What the network service can record, from its model. -/
def network_chats (verb : Verb) (ok : Bool) : List Text :=
  (if ok then (completed verb).filter (.no ∉ ·) else refusals verb).map joined

theorem mem_network_chats {verb : Verb} {ok : Bool} {chat : Text} (h : NetworkRecords verb ok chat) :
    chat ∈ network_chats verb ok := by
  obtain ⟨trust_fs, r, scan_buf, turns, s, rest, rfl, hrun, rfl, hs⟩ := h
  have hreturned := TurnPrograms.done_of_wp (wp_callback (Standing.opened_stands r scan_buf)) hrun
  obtain ⟨t, ht, hended⟩ : Returned r s := hreturned
  rw [ht.chatting.chat]
  refine List.mem_map_of_mem ?_
  cases ok with
  | true =>
    obtain ⟨hclean, hno⟩ : RequestChild.Clean s ∧ Reply.no ∉ replies s.happened := hs
    have htrue : t.clean = true := by
      by_contra hfalse
      have hmarks := ht.marks
      rw [if_neg hfalse] at hmarks
      exact hmarks.ne_zero hclean.1
    rw [ht.chatting.replied] at hno
    exact List.mem_filter.mpr ⟨hended.completed htrue, decide_eq_true hno⟩
  | false =>
    have hno : Happening.sent .no ∈ s.happened := hs
    refine hended.said ?_
    rw [← ht.said, said, List.mem_filterMap]
    exact ⟨_, hno, rfl⟩

/-- No such file where the server looks. -/
def absent : RequestChild.Turn := { store := .absent }

/-- The reply of the client is there to be read. -/
def answers (r : Reply) : RequestChild.Turn := { read := .bytes (r.text ++ ['\n']) }

/-- The request of a run for a history, with the turns of the run: of the empty blob where the history is
ok, of a blob that is missing, or whose bytes are wrong, where the server says no. -/
def recorded : Verb → Bool → Requested × List RequestChild.Turn
  | .give, true => (⟨.give, .sha, empty_sha⟩, [{}, {}, {}, {}, answers .ok, {}])
  | .take, true => (⟨.take, .sha, empty_sha⟩, [absent, {}, {}, {}, {}, answers .ok, {}, {}, {}])
  | verb, true => (⟨verb, .sha, empty_sha⟩, List.replicate 12 {})
  | .roll, false => (⟨.roll, .sha, RequestChild.put_abc.digest⟩, {} :: List.replicate 12 absent)
  | .put, false => (⟨.put, .sha, RequestChild.put_abc.digest⟩, List.replicate 12 {})
  | .give, false => (⟨.give, .sha, RequestChild.put_abc.digest⟩, List.replicate 12 {})
  | verb, false => (⟨verb, .sha, RequestChild.put_abc.digest⟩, List.replicate 12 absent)

/-- Each of them is recorded. -/
theorem network_records {verb : Verb} {ok : Bool} {chat : Text} (hverb : verb ≠ .cat)
    (h : chat ∈ network_chats verb ok) : NetworkRecords verb ok chat := by
  have hverb' : (recorded verb ok).1.verb = verb := by
    cases verb <;> cases ok <;> rfl
  cases ok with
  | true =>
    obtain ⟨s, rest, hrun, hchat, hs⟩ : ∃ s rest, callback false (recorded verb true).1
        (dispatched (recorded verb true).1 []) (recorded verb true).2 = .done () s rest ∧ s.chat_history = chat ∧
        RequestChild.Clean s ∧ Reply.no ∉ replies s.happened := by
      cases verb with
      | cat => exact absurd rfl hverb
      | get | put | give | take | eat | wrap | roll =>
        obtain rfl := List.mem_singleton.mp h
        exact ⟨_, _, rfl, rfl, ⟨rfl, by decide⟩, by decide⟩
    exact ⟨false, _, [], _, s, rest, hverb', hrun, hchat, hs⟩
  | false =>
    obtain ⟨s, rest, hrun, hchat, hs⟩ : ∃ s rest, callback false (recorded verb false).1
        (dispatched (recorded verb false).1 []) (recorded verb false).2 = .done () s rest ∧ s.chat_history = chat ∧
        Happening.sent .no ∈ s.happened := by
      cases verb with
      | cat => exact absurd rfl hverb
      | wrap => cases h
      | get | put | give | take | eat | roll =>
        obtain rfl := List.mem_singleton.mp h
        exact ⟨_, _, rfl, rfl, by decide⟩
    exact ⟨false, _, [], _, s, rest, hverb', hrun, hchat, hs⟩

end network

/-! ### The calls of a function that returns no error -/

section calls
variable {lib} {s s' : Service} {call : Option Errno} {next : Service → Result}

theorem attempt_eq_none : attempt call next s = (none, s') ↔ call = none ∧ next s = (none, s') := by
  cases call with
  | none => simp [attempt]
  | some e => simp [attempt]

theorem andThen_eq_none {r : Result} :
    andThen r next = (none, s') ↔ ∃ t, r = (none, t) ∧ next t = (none, s') := by
  obtain ⟨err, t⟩ := r
  cases err <;> simp [andThen]

/-- A history with a further reply, as much of it as there is room for. -/
def chatted (h chat : Text) : Text :=
  if h ≠ [] then ((h ++ [',']).take 8 ++ chat).take 8 else chat.take 8

theorem chat_history_add (chat : Text) (hlen : s.chat_history.length ≤ 8) :
    (fs_add_chat lib chat s).chat_history = chatted s.chat_history chat := by
  have hsize : chat_size = 9 := rfl
  simp only [fs_add_chat, chatted, hsize]
  split_ifs with hnil
  · rw [lib.strcat_eq 9 s.chat_history [','] (by omega), lib.strcat_eq]
    rw [List.length_take]
    omega
  · rw [not_not.mp hnil]
    exact lib.strcat_eq 9 [] chat (by decide)

theorem length_chatted (h chat : Text) : (chatted h chat).length ≤ 8 := by
  unfold chatted
  split_ifs <;> exact List.length_take_le _ _

/-- The function has added the replies and set its result. -/
def Ends (s s' : Service) (chats : List Text) (ok_no : ℤ) : Prop :=
  s'.chat_history = chats.foldl chatted s.chat_history ∧ s'.ok_no = ok_no

theorem length_foldl_chatted {h : Text} (hlen : h.length ≤ 8) (chats : List Text) :
    (chats.foldl chatted h).length ≤ 8 := by
  induction chats generalizing h with
  | nil => exact hlen
  | cons chat chats ih => exact ih (length_chatted h chat)

theorem Ends.length {chats : List Text} {ok_no : ℤ} (h : Ends s s' chats ok_no)
    (hlen : s.chat_history.length ≤ 8) : s'.chat_history.length ≤ 8 := by
  rw [h.1]
  exact length_foldl_chatted hlen chats

theorem Ends.trans {t : Service} {chats chats' : List Text} {ok ok' : ℤ} (h : Ends s s' chats ok)
    (h' : Ends s' t chats' ok') : Ends s t (chats ++ chats') ok' :=
  ⟨by rw [h'.1, h.1, List.foldl_append], h'.2⟩

/-- A reply is added, whatever else becomes of the variables. -/
theorem ends_add (lib : Library) {s s' : Service} (chat : Text) (hlen : s.chat_history.length ≤ 8)
    (hchat : s'.chat_history = (fs_add_chat lib chat s).chat_history) : Ends s s' [chat] s'.ok_no :=
  ⟨hchat.trans (chat_history_add chat hlen), rfl⟩

theorem fs_get_copy_ends {output : Output} {g : GetCalls} (hlen : s.chat_history.length ≤ 8)
    (h : fs_get_copy lib output g s = (none, s')) :
    g.openat = some .ENOENT ∧ Ends s s' ["no".toList] 1 ∨ g.openat = none ∧ Ends s s' ["ok".toList] 0 := by
  unfold fs_get_copy at h
  cases hopen : g.openat with
  | none =>
    simp only [hopen] at h
    split at h
    · cases h
    · split at h
      · cases h
      · cases h
        exact .inr ⟨rfl, ends_add lib _ hlen rfl⟩
  | some e =>
    cases e with
    | ENOENT =>
      simp only [hopen] at h
      cases h
      exact .inl ⟨rfl, ends_add lib _ hlen rfl⟩
    | EEXIST | EXDEV | other =>
      simp only [hopen] at h
      cases h

/-- What a get says, by what it finds. -/
def get_answer (output : Output) (g : GetCalls) : Text × ℤ :=
  match output with
  | .null_device => if g.fsize = .error .ENOENT then ("no".toList, 1) else ("ok".toList, 0)
  | .path =>
    if g.link.linkat = some .ENOENT then ("ok".toList, 1)
    else if g.link.linkat = some .EXDEV ∧ g.openat = some .ENOENT then ("no".toList, 1)
    else ("ok".toList, 0)
  | .stdout => if g.openat = some .ENOENT then ("no".toList, 1) else ("ok".toList, 0)

theorem fs_hard_link_none {l : Link} (h : fs_hard_link l s = (none, s')) :
    s'.chat_history = s.chat_history ∧ l.linkat ≠ some .EXDEV ∧
      s'.ok_no = if l.linkat = some .ENOENT then 1 else 0 := by
  unfold fs_hard_link at h
  split at h
  · rename_i hlink
    cases h
    simp [hlink]
  · cases h
  · cases h
  · rename_i hlink
    split at h
    · cases h
    · cases h
      simp [hlink]
  · rename_i hlink
    split at h
    · cases h
    · cases h
      simp [hlink]

/-- The hard link gives up without an error on two devices, and `errno` is never that of a name
that exists. -/
theorem fs_hard_link_some {l : Link} {err : Err} (h : fs_hard_link l s = (some err, s')) :
    s'.chat_history = s.chat_history ∧ s'.errno ≠ some .EEXIST ∧ (err = .text [] ↔ l.linkat = some .EXDEV) := by
  have hsize : ∀ e, l.fsize = .error e → e ≠ .EEXIST := by
    rintro e he rfl
    exact l.fsize_ne he
  unfold fs_hard_link at h
  split at h
  · cases h
  · rename_i hlink
    cases h
    simp [hlink]
  · rename_i hlink
    cases h
    simp [hlink]
  · rename_i hlink
    split at h
    · rename_i e he
      cases h
      simp [hlink, hsize e he]
    · cases h
  · rename_i hlink
    split at h
    · rename_i e he
      cases h
      simp [hlink, hsize e he]
    · cases h

theorem fs_get_ends {output : Output} {g : GetCalls} (hlen : s.chat_history.length ≤ 8)
    (h : fs_get lib output g s = (none, s')) : Ends s s' [(get_answer output g).1] (get_answer output g).2 := by
  obtain ⟨-, h⟩ := attempt_eq_none.mp h
  cases output with
  | null_device =>
    simp only [get_answer]
    dsimp only at h
    split at h
    · rename_i hsize
      cases h
      rw [if_pos hsize]
      exact ends_add lib _ hlen rfl
    · cases h
    · rename_i sz hsize
      cases h
      rw [if_neg (by rw [hsize]; simp)]
      exact ends_add (s := { s with blob_size := sz, ok_no := 0 }) lib _ hlen rfl
  | path =>
    simp only [get_answer]
    dsimp only at h
    split at h
    · rename_i t hlink
      obtain ⟨hchat, -, hdev⟩ := fs_hard_link_some hlink
      have hdev := hdev.mp rfl
      have hcopy := fs_get_copy_ends (hchat ▸ hlen) h
      rw [Ends, Ends, hchat] at hcopy
      rw [hdev, if_neg (by simp)]
      rcases hcopy with ⟨hopen, hends⟩ | ⟨hopen, hends⟩
      · rw [if_pos ⟨rfl, hopen⟩]
        exact hends
      · rw [if_neg (by simp [hopen])]
        exact hends
    · cases h
    · rename_i t hlink
      obtain ⟨hchat, hdev, hok⟩ := fs_hard_link_none hlink
      cases h
      have hends := ends_add (s := t) lib "ok".toList (hchat ▸ hlen) rfl
      rw [Ends, hchat] at hends
      refine ⟨hends.1.trans ?_, hok.trans ?_⟩ <;> split_ifs <;> simp_all
  | stdout =>
    simp only [get_answer]
    rcases fs_get_copy_ends hlen h with ⟨hopen, hends⟩ | ⟨hopen, hends⟩
    · rw [if_pos hopen]
      exact hends
    · rw [if_neg (by simp [hopen])]
      exact hends

theorem fs_take_ends {output : Output} {t : TakeCalls} (hlen : s.chat_history.length ≤ 8)
    (h : fs_take lib output t s = (none, s')) :
    if (get_answer output t.get).2 = 1 then Ends s s' [(get_answer output t.get).1, "no".toList] 1
    else Ends s s' [(get_answer output t.get).1, "ok".toList, "ok,ok,ok".toList] 0 ∨
      Ends s s' [(get_answer output t.get).1, "ok".toList, "ok".toList, "ok,ok,ok".toList] 0 := by
  unfold fs_take at h
  split at h
  · cases h
  · rename_i m hget
    have hends := fs_get_ends hlen hget
    have hm := hends.length hlen
    rw [← hends.2]
    split_ifs at h ⊢ with hno
    · cases h
      have hadd := ends_add (s := m) lib "no".toList hm rfl
      exact ⟨(hends.trans hadd).1, hno⟩
    · obtain ⟨-, h⟩ := attempt_eq_none.mp h
      have hok := ends_add (s := m) lib "ok".toList hm rfl
      dsimp only at h
      split at h
      · cases h
        have hlast := ends_add (s := fs_add_chat lib "ok".toList m) lib "ok,ok,ok".toList
          (hok.length hm) rfl
        exact .inl ⟨((hends.trans hok).trans hlast).1, rfl⟩
      · cases h
        have hagain := ends_add (s := fs_add_chat lib "ok".toList m) lib "ok".toList
          (hok.length hm) rfl
        have hlast := ends_add (s := fs_add_chat lib "ok".toList (fs_add_chat lib "ok".toList m)) lib
          "ok,ok,ok".toList ((hok.trans hagain).length hm) rfl
        exact .inr ⟨(((hends.trans hok).trans hagain).trans hlast).1, rfl⟩
      · cases h

theorem fs_put_copy_ends {p : PutCalls} (hlen : s.chat_history.length ≤ 8)
    (h : fs_put_copy lib p s = (none, s')) : Ends s s' ["ok".toList] 0 := by
  obtain ⟨-, h⟩ := attempt_eq_none.mp h
  obtain ⟨-, h⟩ := attempt_eq_none.mp h
  dsimp only at h
  cases hcopied : error? p.send_file <|> p.renameat with
  | some e => simp [hcopied] at h
  | none =>
    simp only [hcopied, if_true] at h
    split at h
    · cases h
    · cases h
      exact ends_add (s := { s with blob_size := s.blob_size + p.send_file.toOption.getD 0 }) lib _ hlen rfl

theorem fs_put_ends {input_path : Bool} {p : PutCalls} (hlen : s.chat_history.length ≤ 8)
    (h : fs_put lib input_path p s = (none, s')) :
    Ends s s' ["ok".toList, "ok".toList] (if input_path ∧ p.link.linkat = some .ENOENT then 1 else 0) := by
  obtain ⟨-, h⟩ := attempt_eq_none.mp h
  obtain ⟨-, h⟩ := attempt_eq_none.mp h
  obtain ⟨-, h⟩ := attempt_eq_none.mp h
  have hok := ends_add (s := s) lib "ok".toList hlen rfl
  have hm := hok.length hlen
  dsimp only at h
  cases input_path with
  | false => exact hok.trans (fs_put_copy_ends hm h)
  | true =>
    simp only [if_true, true_and] at h ⊢
    split at h
    · rename_i t hlink
      obtain ⟨hchat, -, hno⟩ := fs_hard_link_none hlink
      cases h
      have hadd := ends_add (s := t) lib "ok".toList (hchat ▸ hm) rfl
      rw [Ends, hchat] at hadd
      exact ⟨(hok.trans hadd).1, hno⟩
    · rename_i err t hlink
      obtain ⟨hchat, herrno, hdev⟩ := fs_hard_link_some hlink
      rw [if_neg herrno] at h
      by_cases herr : err = .text []
      · rw [if_neg (not_not_intro herr)] at h
        have hcopy := fs_put_copy_ends (hchat ▸ hm) h
        rw [Ends, hchat] at hcopy
        rw [if_neg (by rw [hdev.mp herr]; simp)]
        exact hok.trans hcopy
      · rw [if_pos herr] at h
        cases h

theorem fs_give_ends {input_path : Bool} {g : GiveCalls} (hlen : s.chat_history.length ≤ 8)
    (h : fs_give lib input_path g s = (none, s')) :
    if input_path ∧ g.put.link.linkat = some .ENOENT then Ends s s' ["ok".toList, "ok".toList, "no".toList] 1
    else Ends s s' ["ok".toList, "ok".toList, "ok".toList] 0 := by
  unfold fs_give at h
  split at h
  · cases h
  · rename_i m hput
    have hends := fs_put_ends hlen hput
    have hm := hends.length hlen
    have hresult := hends.2
    split_ifs at hresult ⊢ with hlink
    · rw [if_pos hresult] at h
      cases h
      exact ⟨(hends.trans (ends_add lib "no".toList hm rfl)).1, hresult⟩
    · rw [if_neg (by rw [hresult]; decide)] at h
      split at h
      · cases h
      · cases h
        exact ⟨(hends.trans (ends_add lib "ok".toList hm rfl)).1, hresult⟩

theorem fs_eat_ends {e : EatCalls} (hlen : s.chat_history.length ≤ 8) (h : fs_eat lib e s = (none, s')) :
    Ends s s' ["no".toList] 1 ∨ Ends s s' ["ok".toList] 0 := by
  obtain ⟨-, h⟩ := attempt_eq_none.mp h
  dsimp only at h
  split at h
  · cases h
    exact .inl (ends_add lib _ hlen rfl)
  · cases h
  · cases h
    exact .inr (ends_add lib _ hlen rfl)

theorem scan_wrap_dir_none {w : WrapCalls} {entries : List WrapEntry}
    (h : scan_wrap_dir w entries s = (none, s')) : s' = s := by
  induction entries with
  | nil =>
    cases h
    rfl
  | cons e entries ih =>
    rw [scan_wrap_dir] at h
    split_ifs at h with hskip
    · exact ih h
    · exact ih (attempt_eq_none.mp h).2

theorem fs_wrap_ends {w : WrapCalls} (hlen : s.chat_history.length ≤ 8) (h : fs_wrap lib w s = (none, s')) :
    if w.rename_brr = none then
      Ends s s' ["ok".toList, "ok".toList, "ok".toList, "ok".toList, "ok".toList] 0
    else Ends s s' ["no".toList] 1 := by
  obtain ⟨-, h⟩ := attempt_eq_none.mp h
  dsimp only at h
  split at h
  · rename_i hlog
    cases h
    rw [if_neg (by rw [hlog]; simp)]
    exact ends_add lib _ hlen rfl
  · cases h
  · rename_i hlog
    rw [if_pos hlog]
    obtain ⟨-, h⟩ := attempt_eq_none.mp h
    obtain ⟨-, h⟩ := attempt_eq_none.mp h
    obtain ⟨-, h⟩ := attempt_eq_none.mp h
    obtain ⟨m, hput, h⟩ := andThen_eq_none.mp h
    obtain ⟨-, h⟩ := attempt_eq_none.mp h
    have hends := fs_put_ends hlen hput
    have hzero : m.ok_no = 0 := hends.2
    rw [if_neg (by rw [hzero]; decide)] at h
    obtain ⟨-, h⟩ := attempt_eq_none.mp h
    obtain ⟨-, h⟩ := attempt_eq_none.mp h
    obtain ⟨-, h⟩ := attempt_eq_none.mp h
    obtain ⟨-, h⟩ := attempt_eq_none.mp h
    obtain ⟨t, hscan, h⟩ := andThen_eq_none.mp h
    rw [scan_wrap_dir_none hscan] at h
    obtain ⟨-, h⟩ := attempt_eq_none.mp h
    obtain ⟨-, h⟩ := attempt_eq_none.mp h
    obtain ⟨-, h⟩ := attempt_eq_none.mp h
    obtain ⟨-, h⟩ := attempt_eq_none.mp h
    obtain ⟨t', hput', h⟩ := andThen_eq_none.mp h
    obtain ⟨-, h⟩ := attempt_eq_none.mp h
    have hends' := hends.trans (fs_put_ends (hends.length hlen) hput')
    cases h
    exact ⟨(hends'.trans (ends_add lib "ok".toList (hends'.length hlen) rfl)).1, rfl⟩

theorem unlink_wraps_none {unlinkat : Text → Option Errno} {udigs : List (Text × Char)}
    (h : unlink_wraps unlinkat udigs s = (none, s')) : s'.chat_history = s.chat_history := by
  induction udigs generalizing s s' with
  | nil =>
    cases h
    rfl
  | cons u udigs ih =>
    obtain ⟨udig, c⟩ := u
    rw [unlink_wraps] at h
    split_ifs at h
    · cases h
    · cases h
    · cases h
    · split at h
      · exact (ih h).trans rfl
      · cases h
      · exact ih h

theorem fs_roll_ends {r : RollCalls} (hlen : s.chat_history.length ≤ 8) (h : fs_roll lib r s = (none, s')) :
    Ends s s' ["ok".toList] 0 := by
  obtain ⟨-, h⟩ := attempt_eq_none.mp h
  dsimp only at h
  split at h
  · cases h
  · cases h
  · by_cases hmalloc : r.malloc
    · rw [if_neg (not_not_intro hmalloc)] at h
      obtain ⟨-, h⟩ := attempt_eq_none.mp h
      obtain ⟨-, h⟩ := attempt_eq_none.mp h
      obtain ⟨-, h⟩ := attempt_eq_none.mp h
      split at h
      · cases h
      · cases h
      · obtain ⟨t, hunlink, h⟩ := andThen_eq_none.mp h
        have hchat : t.chat_history = s.chat_history := (unlink_wraps_none hunlink).trans rfl
        cases h
        have hadd := ends_add (s := t) lib "ok".toList (hchat ▸ hlen) rfl
        rw [Ends, hchat] at hadd
        exact ⟨hadd.1, rfl⟩
    · rw [if_pos hmalloc] at h
      cases h

end calls

section right
variable {lib} {s : Service} {ok_no : ℤ}

/-- What the replies of a request and its result should be. -/
def Fits (verb : Verb) (chats : List Text) (ok : ℤ) : Prop :=
  chats.foldl chatted [] ∈ RollStat.schema_chats verb ∧ ("no".toList <:+ chats.foldl chatted [] ↔ ok ≠ 0) ∧
    ∀ chat ∈ network_chats verb (ok = 0), chats.foldl chatted [] = chat

instance (verb : Verb) (chats : List Text) (ok : ℤ) : Decidable (Fits verb chats ok) :=
  inferInstanceAs (Decidable (_ ∧ _))

theorem Ends.right_iff {chats : List Text} {ok : ℤ} (h : Ends { ok_no := ok_no } s chats ok) {verb : Verb}
    (hverb : verb ≠ .cat) : Right verb s ↔ Fits verb chats ok := by
  obtain ⟨hchat, rfl⟩ := h
  constructor
  · rintro ⟨hschema, hends, hnetwork⟩
    rw [hchat] at hschema hends hnetwork
    exact ⟨hschema, hends, fun chat hmem => hnetwork chat (network_records hverb hmem)⟩
  · rintro ⟨hschema, hends, hnetwork⟩
    rw [← hchat] at hschema hends hnetwork
    exact ⟨hschema, hends, fun chat hrecords => hnetwork chat (mem_network_chats hrecords)⟩

theorem no_history (ok_no : ℤ) : ({ ok_no := ok_no } : Service).chat_history.length ≤ 8 := Nat.zero_le 8

theorem get_right_iff {output : Output} {g : GetCalls}
    (h : fs_get lib output g { ok_no := ok_no } = (none, s)) :
    Right .get s ↔ ¬ (output = .path ∧ g.link.linkat = some .ENOENT) := by
  rw [(fs_get_ends (no_history ok_no) h).right_iff (by decide)]
  cases output with
  | null_device =>
    rw [get_answer]
    refine iff_of_true ?_ (by simp)
    split_ifs <;> decide
  | path =>
    rw [get_answer, and_iff_right rfl]
    split_ifs with hlink hdev
    · exact iff_of_false (by decide) (not_not_intro hlink)
    · exact iff_of_true (by decide) hlink
    · exact iff_of_true (by decide) hlink
  | stdout =>
    rw [get_answer]
    refine iff_of_true ?_ (by simp)
    split_ifs <;> decide

/-- Of a missing blob a get says ok or no, and its result is no. -/
theorem get_answer_missing {output : Output} {g : GetCalls} (h : g.Missing output) :
    get_answer output g = ("no".toList, 1) ∨ get_answer output g = ("ok".toList, 1) := by
  cases output with
  | null_device => exact .inl (if_pos h)
  | path =>
    by_cases hlink : g.link.linkat = some .ENOENT
    · exact .inr (if_pos hlink)
    · exact .inl ((if_neg hlink).trans (if_pos (h.resolve_left hlink)))
  | stdout => exact .inl (if_pos h)

theorem get_answer_found {output : Output} {g : GetCalls} (h : ¬ g.Missing output) :
    get_answer output g = ("ok".toList, 0) := by
  cases output with
  | null_device => exact if_neg h
  | path =>
    obtain ⟨hlink, hdev⟩ := not_or.mp h
    exact (if_neg hlink).trans (if_neg hdev)
  | stdout => exact if_neg h

/-- A blob that is taken has more replies than there is room for; one that is missing has a reply too
many, where the server says no once. -/
theorem take_right_iff {output : Output} {t : TakeCalls}
    (h : fs_take lib output t { ok_no := ok_no } = (none, s)) : Right .take s ↔ ¬ t.get.Missing output := by
  have htake := fs_take_ends (no_history ok_no) h
  by_cases hmissing : t.get.Missing output
  · refine iff_of_false ?_ (not_not_intro hmissing)
    rcases get_answer_missing hmissing with hanswer | hanswer
    · rw [hanswer, if_pos rfl] at htake
      rw [htake.right_iff (by decide)]
      decide
    · rw [hanswer, if_pos rfl] at htake
      rw [htake.right_iff (by decide)]
      decide
  · refine iff_of_true ?_ hmissing
    rw [get_answer_found hmissing, if_neg (by decide)] at htake
    rcases htake with hlast | hlast
    · exact (hlast.right_iff (by decide)).mpr (by decide)
    · exact (hlast.right_iff (by decide)).mpr (by decide)

theorem put_right_iff {input_path : Bool} {p : PutCalls}
    (h : fs_put lib input_path p { ok_no := ok_no } = (none, s)) :
    Right .put s ↔ ¬ (input_path ∧ p.link.linkat = some .ENOENT) := by
  rw [(fs_put_ends (no_history ok_no) h).right_iff (by decide)]
  split_ifs with hlink
  · exact iff_of_false (by decide) (not_not_intro hlink)
  · exact iff_of_true (by decide) hlink

/-- A give of a file that is not there has said ok to the bytes of it, and then takes it back. -/
theorem give_right_iff {input_path : Bool} {g : GiveCalls}
    (h : fs_give lib input_path g { ok_no := ok_no } = (none, s)) :
    Right .give s ↔ ¬ (input_path ∧ g.put.link.linkat = some .ENOENT) := by
  have hgive := fs_give_ends (no_history ok_no) h
  split_ifs at hgive with hlink
  · rw [hgive.right_iff (by decide)]
    exact iff_of_false (by decide) (not_not_intro hlink)
  · rw [hgive.right_iff (by decide)]
    exact iff_of_true (by decide) hlink

theorem eat_right {e : EatCalls} (h : fs_eat lib e { ok_no := ok_no } = (none, s)) : Right .eat s := by
  rcases fs_eat_ends (no_history ok_no) h with hends | hends
  · exact (hends.right_iff (by decide)).mpr (by decide)
  · exact (hends.right_iff (by decide)).mpr (by decide)

theorem wrap_right_iff {w : WrapCalls} (h : fs_wrap lib w { ok_no := ok_no } = (none, s)) :
    Right .wrap s ↔ ¬ w.rename_brr = none := by
  have hends := fs_wrap_ends (no_history ok_no) h
  split_ifs at hends with hlog
  · rw [hends.right_iff (by decide)]
    exact iff_of_false (by decide) (not_not_intro hlog)
  · rw [hends.right_iff (by decide)]
    exact iff_of_true (by decide) hlog

theorem roll_right {r : RollCalls} (h : fs_roll lib r { ok_no := ok_no } = (none, s)) : Right .roll s :=
  ((fs_roll_ends (no_history ok_no) h).right_iff (by decide)).mpr (by decide)

end right

variable {lib}

/-- Whatever the calls of a request that ends without an error come to, its history is right just if they
do not stray. -/
theorem history_right_iff (req : Request) (ok_no : ℤ) {s : Service}
    (h : serve lib req { ok_no := ok_no } = (none, s)) : Right req.verb s ↔ ¬ req.Strays := by
  cases req with
  | get output g => exact get_right_iff h
  | put input_path p => exact put_right_iff h
  | give input_path g => exact give_right_iff h
  | take output t => exact take_right_iff h
  | eat e => exact iff_of_true (eat_right h) not_false
  | wrap w => exact wrap_right_iff h
  | roll r => exact iff_of_true (roll_right h) not_false

/-- The concatenation of the library, and calls that all succeed. -/
def cutting : Library where
  strcat size tgt src := (tgt ++ src).take (size - 1)
  strcat_eq _ _ _ _ := rfl

theorem ok_ne_eexist (n : ℕ) : (Except.ok n : Except Errno ℕ) ≠ .error .EEXIST := by simp

def found_link : Link := ⟨none, .ok 7, ok_ne_eexist 7⟩

def found : GetCalls := ⟨none, .ok 7, found_link, none, none, .ok 7, none, none⟩

def blob_taken : Request := .take .path ⟨found, none, none⟩

theorem blob_taken_right : ∃ s, serve cutting blob_taken { ok_no := -1 } = (none, s) ∧
    Right blob_taken.verb s :=
  ⟨_, rfl, (history_right_iff blob_taken (-1) rfl).mpr
    (by simp [blob_taken, Request.Strays, GetCalls.Missing, found, found_link])⟩

/-- A take whose blob is missing. -/
def blob_missing : Request := .take .stdout ⟨{ found with openat := some .ENOENT }, none, none⟩

theorem blob_missing_no_no : ¬ ∀ (lib : Library) (req : Request) (ok_no : ℤ) (s : Service),
    serve lib req { ok_no := ok_no } = (none, s) → Right req.verb s := by
  intro h
  have hright := h cutting blob_missing (-1) _ rfl
  exact absurd hright.schema (by decide)

end Blobio.FsService
