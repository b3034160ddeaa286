import Blobio.ContentAddresses

/-! The module `btc20` with and without a trusted file system: a blob is served as it lies in
the store, or it is digested in three stages on its way. -/
namespace Blobio.Btc20
open EventRuns FileTrees

/-- A hash with its contexts: what a context says at the end is the hash of all that it was
updated with. -/
structure Hash (size : ℕ) where
  Context : Type
  Init : Context
  Update : Context → Bytes → Context
  Final : Context → Bytes
  hash : Bytes → Bytes
  final_foldl : ∀ chunks : List Bytes, Final (chunks.foldl Update Init) = hash chunks.flatten
  length_hash : ∀ blob, (hash blob).length = size

structure OpenSSL where
  SHA256 : Hash 32
  RIPEMD160 : Hash 20

def OpenSSL.btc20 (ssl : OpenSSL) (blob : Bytes) : Bytes :=
  ssl.RIPEMD160.hash (ssl.SHA256.hash (ssl.SHA256.hash blob))

/-- What becomes of a write: it is done, or given up after some bytes. -/
inductive Write
  | done
  | timed_out (sent : ℕ)
  | failed (sent : ℕ)

/-- What the writes to the client come to, how much the writes to the local stream write if they
do not fail, one after the other, and how much a read returns, by what is left of the file. -/
structure World where
  client : ℕ → Write
  out : ℕ → Option ℕ
  cut : ℕ → ℕ

structure Request where
  store : Store
  blob_fd : Option (Node Bytes) := none
  sent : Bytes := []
  writes : ℕ := 0
  copied : Bytes := []
  out_writes : ℕ := 0
  chat_history : List Text := []
  blob_size : ℕ := 0

/-- The process panics, or it writes behind the end of a buffer. -/
inductive Die
  | panic
  | overflow

abbrev Run := StateT Request (Except (Die × Request))

def die {α : Type} (why : Die) : Run α := fun r => .error (why, r)

/-! ### Files -/

def CHUNK_SIZE : ℕ := 4 * 1024

def io_read (cut : ℕ → ℕ) (rest : Bytes) (n : ℕ) : Bytes :=
  rest.take (min n (max 1 (cut rest.length)))

/-- `_read` goes on until the buffer is full or the file is at its end. -/
def _read (cut : ℕ → ℕ) (rest : Bytes) (buf_size : ℕ) : Bytes :=
  if _h : buf_size = 0 ∨ rest = [] then []
  else
    let b := io_read cut rest buf_size
    b ++ _read cut (rest.drop b.length) (buf_size - b.length)
termination_by rest.length
decreasing_by
  have hlen := List.length_pos_iff.mpr (not_or.mp _h).2
  simp only [io_read, List.length_drop, List.length_take]
  omega

theorem _read_eq (cut : ℕ → ℕ) (rest : Bytes)
    (buf_size : ℕ) : _read cut rest buf_size = rest.take buf_size := by
  fun_induction _read cut rest buf_size with
  | case1 rest n h =>
    rcases h with rfl | rfl
    · rfl
    · exact (List.take_nil ..).symm
  | case2 rest n h b ih =>
    have hle : b.length ≤ n := by
      simp only [b, io_read, List.length_take]
      omega
    have hb : b = rest.take b.length := by
      simp only [b, io_read, List.length_take, List.take_eq_take_iff]
      omega
    rw [ih]
    conv_lhs => arg 1; rw [hb]
    rw [← List.take_add, Nat.add_sub_cancel' hle]

/-- The chunks that `_read` returns until the end of the file. -/
def reads (cut : ℕ → ℕ) (rest : Bytes) : List Bytes :=
  let chunk := _read cut rest CHUNK_SIZE
  if _h : chunk = [] then []
  else chunk :: reads cut (rest.drop chunk.length)
termination_by rest.length
decreasing_by
  have hlen : 0 < (_read cut rest CHUNK_SIZE).length := List.length_pos_iff.mpr _h
  rw [_read_eq, List.length_take] at hlen
  rw [List.length_drop, _read_eq, List.length_take]
  omega

theorem reads_eq (cut cut' : ℕ → ℕ) (rest : Bytes) : reads cut rest = reads cut' rest := by
  fun_induction reads cut rest with
  | case1 rest chunk h =>
    rw [reads, dif_pos]
    rw [_read_eq]
    simpa [chunk, _read_eq] using h
  | case2 rest chunk h ih =>
    have hchunk : chunk = _read cut' rest CHUNK_SIZE := by
      simp only [chunk, _read_eq]
    conv_rhs => rw [reads]
    rw [dif_neg (hchunk ▸ h), ← hchunk, ih]

theorem flatten_reads (cut : ℕ → ℕ) (rest : Bytes) : (reads cut rest).flatten = rest := by
  fun_induction reads cut rest with
  | case1 rest chunk h =>
    have htake : rest.take CHUNK_SIZE = [] := by
      simpa only [chunk, _read_eq] using h
    rcases List.take_eq_nil_iff.mp htake with hzero | rfl
    · cases hzero
    · rfl
  | case2 rest chunk h ih =>
    have hchunk : chunk = rest.take chunk.length := by
      simp only [chunk, _read_eq, List.length_take, List.take_eq_take_iff]
      omega
    rw [List.flatten_cons, ih]
    conv_lhs => arg 1; rw [hchunk]
    exact List.take_append_drop _ _

/-! ### The library's functions on buffers of the caller -/

variable (ssl : OpenSSL) (w : World)

def SHA256_Final (room : ℕ) (ctx : ssl.SHA256.Context) : Run Bytes :=
  if 32 ≤ room then pure (ssl.SHA256.Final ctx) else die .overflow

def RIPEMD160_Final (room : ℕ) (ctx : ssl.RIPEMD160.Context) : Run Bytes :=
  if 20 ≤ room then pure (ssl.RIPEMD160.Final ctx) else die .overflow

/-- The steps from the digest of the blob to its stored one, on buffers of these sizes. -/
def final_digest (sha_digest sha_sha_digest digest : ℕ) (ctx : ssl.SHA256.Context) : Run Bytes := do
  let sha ← SHA256_Final ssl sha_digest ctx
  let sha_sha ← SHA256_Final ssl sha_sha_digest (ssl.SHA256.Update ssl.SHA256.Init (sha.take 32))
  RIPEMD160_Final ssl digest (ssl.RIPEMD160.Update ssl.RIPEMD160.Init (sha_sha.take 32))

/-! ### Replies and chunks -/

def req_write (buf : Bytes) : Run ℤ := fun r =>
  let next := { r with writes := r.writes + 1 }
  match w.client r.writes with
  | .done => .ok (0, { next with sent := r.sent ++ buf })
  | .timed_out n => .ok (1, { next with sent := r.sent ++ buf.take n })
  | .failed n => .ok (-1, { next with sent := r.sent ++ buf.take n })

def blob_write (buf : Bytes) : Run ℤ := do
  let status ← req_write w buf
  if status ≠ 0 then return status
  modify fun r => { r with blob_size := r.blob_size + buf.length }
  return 0

/-- After a short write the buffer is written from its start again. -/
def io_write_rest (out : ℕ → Option ℕ) (buf : Bytes) (nwritten : ℕ) (r : Request) : ℤ × Request :=
  match out r.out_writes with
  | none => (-1, { r with out_writes := r.out_writes + 1 })
  | some n =>
    let nw := min (max 1 n) (buf.length - nwritten)
    let next := { r with copied := r.copied ++ buf.take nw, out_writes := r.out_writes + 1 }
    if nwritten + nw < buf.length then io_write_rest out buf (nwritten + nw) next else (0, next)
termination_by buf.length - nwritten
decreasing_by omega

def io_write_buf (buf : Bytes) : Run ℤ := fun r => .ok (io_write_rest w.out buf 0 r)

def ok_line : Bytes := "ok\n".toList.map Char.toUInt8
def no_line : Bytes := "no\n".toList.map Char.toUInt8

def add_chat_history (blurb : Text) : Run Unit :=
  modify fun r => { r with chat_history := r.chat_history ++ [blurb] }

def write_ok : Run ℤ := do
  if (← req_write w ok_line) ≠ 0 then return -1
  add_chat_history "ok".toList
  return 0

def write_no : Run ℤ := do
  if (← req_write w no_line) ≠ 0 then return -1
  add_chat_history "no".toList
  return 0

/-- Each chunk is written, until a write fails. -/
def serve_chunks (write : Bytes → Run ℤ) : List Bytes → Run Bool
  | [] => return false
  | chunk :: chunks => do
    if (← write chunk) ≠ 0 then return true
    serve_chunks write chunks

/-- Each chunk is written and goes into the digest, until a write fails. -/
def digest_chunks (write : Bytes → Run ℤ) (ctx : ssl.SHA256.Context) :
    List Bytes → Run (Option ssl.SHA256.Context)
  | [] => return some ctx
  | chunk :: chunks => do
    if (← write chunk) ≠ 0 then return none
    digest_chunks write (ssl.SHA256.Update ctx chunk) chunks

/-! ### The module -/

def ENOENT : ℤ := 2

def blob_path (d : Digest) : Path := Blobio.blob_path .btc20 d

/-- A directory can be opened, too; it cannot be read. -/
def _open (d : Digest) : Run ℤ := fun r =>
  match r.store.lstat (blob_path d) with
  | some n => .ok (0, { r with blob_fd := some n })
  | none => if r.store.searchErrno (blob_path d) = .ENOENT then .ok (ENOENT, r) else .error (.panic, r)

def _stat (d : Digest) : Run ℤ := fun r =>
  match r.store.lstat (blob_path d) with
  | some _ => .ok (0, r)
  | none => if r.store.searchErrno (blob_path d) = .ENOENT then .ok (ENOENT, r) else .error (.panic, r)

def _close : Run Unit := modify fun r => { r with blob_fd := none }

/-- The chunks of the open file. -/
def blob_chunks : Run (List Bytes) := fun r =>
  match r.blob_fd with
  | some (.file b) => .ok (reads w.cut b, r)
  | _ => .error (.panic, r)

def zap_blob (d : Digest) : Run Unit :=
  modify fun r => { r with store := unlink_quietly r.store (blob_path d) }

def fs_btc20_get_request (d : Digest) : Run ℤ := _open d

def fs_btc20_get_trusted_bytes : Run ℤ := do
  let chunks ← blob_chunks w
  let croak ← serve_chunks (blob_write w) chunks
  _close
  return if croak then -1 else 0

def fs_btc20_get_bytes (trust_fs : ℤ) (d : Digest) : Run ℤ := do
  if trust_fs = 1 then fs_btc20_get_trusted_bytes w
  else
    let chunks ← blob_chunks w
    match ← digest_chunks ssl (blob_write w) ssl.SHA256.Init chunks with
    | none =>
      _close
      return -1
    | some ctx =>
      let digest ← final_digest ssl 32 32 20 ctx
      if digest ≠ d.raw then
        zap_blob d
        die .panic
      _close
      return 0

def fs_btc20_trusted_copy (d : Digest) : Run ℤ := do
  if (← _open d) = ENOENT then return 1
  let chunks ← blob_chunks w
  let croak ← serve_chunks (io_write_buf w) chunks
  _close
  return if croak then -1 else 0

def fs_btc20_copy (trust_fs : ℤ) (d : Digest) : Run ℤ := do
  if trust_fs = 1 then fs_btc20_trusted_copy w d
  else
    if (← _open d) = ENOENT then return 1
    let chunks ← blob_chunks w
    match ← digest_chunks ssl (io_write_buf w) ssl.SHA256.Init chunks with
    | none =>
      _close
      return -1
    | some ctx =>
      let digest ← final_digest ssl 32 32 20 ctx
      if digest ≠ d.raw then die .panic
      _close
      return 0

def fs_trust_btc20_eat (d : Digest) : Run ℤ := do
  if (← _stat d) = ENOENT then return 1
  return 0

/-- The two buffers of the first digests are as small as the last one. -/
def fs_btc20_eat (trust_fs : ℤ) (d : Digest) : Run ℤ := do
  if trust_fs = 1 then fs_trust_btc20_eat d
  else
    if (← _open d) = ENOENT then return 1
    let chunks ← blob_chunks w
    let ctx := chunks.foldl ssl.SHA256.Update ssl.SHA256.Init
    let digest ← final_digest ssl 20 20 20 ctx
    if digest ≠ d.raw then die .panic
    _close
    return 0

/-! ### The requests -/

def get (trust_fs : ℤ) (d : Digest) : Run ℤ := do
  if DigestModule.btc20.is_digest d.chars = 2 then
    if (← write_ok w) ≠ 0 then return -1
    return 0
  else if (← fs_btc20_get_request d) ≠ 0 then write_no w
  else if (← write_ok w) ≠ 0 then return -1
  else fs_btc20_get_bytes ssl w trust_fs d

def eat (trust_fs : ℤ) (d : Digest) : Run ℤ := do
  if (← fs_btc20_eat ssl w trust_fs d) ≠ 0 then write_no w
  else write_ok w

inductive Op
  | get
  | copy
  | eat
  deriving DecidableEq

def serve (trust_fs : ℤ) (d : Digest) : Op → Run ℤ
  | .get => get ssl w trust_fs d
  | .copy => fs_btc20_copy ssl w trust_fs d
  | .eat => eat ssl w trust_fs d

/-- `fs_btc20_open` -/
def opened (t : Store) : Request := { store := t }

/-- Where a digest's blob should be is its blob, or nothing. -/
structure ContentAddressed (t : Store) : Prop where
  blob : ∀ d n, t.lstat (blob_path d) = some n → ∃ b, n = .file b ∧ ssl.btc20 b = d.raw
  missing : ∀ d, t.lstat (blob_path d) = none → t.searchErrno (blob_path d) = .ENOENT

variable {ssl} in
/-- The stores that the server can reach are such. -/
theorem ContentAddressed.of_sound {L : DigestLibrary} {t : Store} (ht : Sound L t)
    (hL : ∀ b, L.H .btc20 b = ssl.btc20 b) : ContentAddressed ssl t where
  blob d n hn := by
    cases n with
    | dir | link => cases ht.shape.no_dir ⟨.btc20, d⟩ _ hn
    | file b =>
      have hdigest := ht.digests ⟨.btc20, d⟩ b (FileTree.file?_eq_some.mpr hn)
      exact ⟨b, rfl, (hL b).symm.trans (DigestLibrary.digest_eq_iff.mp hdigest)⟩
  missing d _ := by
    have hnone : ∀ q, q <+: (blob_path d).dropLast → t.file? q = none := by
      intro q hq
      have hpath : (blob_path d).dropLast = Blobio.blob_dir_path .btc20 d := by
        simp [blob_path, Blobio.blob_path]
      refine ht.shape.no_file ⟨.btc20, d⟩ q ((hpath ▸ hq).trans (List.prefix_append _ _)) ?_
      rintro rfl
      have hlen := hq.length_le
      simp [Udig.path, Blobio.blob_path, blob_path] at hlen
    rw [FileTree.searchErrno, if_neg]
    simpa [List.any_eq_true] using fun q hq => hnone q hq

/-! ### The two paths -/

section paths
variable {ssl w} {r r' : Request} {d : Digest} {b : Bytes}

theorem bind_ok {α β : Type} {m : Run α} {f : α → Run β} {a : α} (h : m r = .ok (a, r')) :
    (m >>= f) r = f a r' := by
  simp only [bind, StateT.bind, Except.bind, h]

theorem bind_error {α β : Type} {m : Run α} {f : α → Run β} {e : Die × Request} (h : m r = .error e) :
    (m >>= f) r = .error e := by
  simp only [bind, StateT.bind, Except.bind, h]

theorem pure_eq {α : Type} (a : α) (r : Request) : (pure a : Run α) r = .ok (a, r) := rfl

/-- Digesting the chunks does not change what is made of them. -/
theorem digest_chunks_eq (write : Bytes → Run ℤ) (ctx : ssl.SHA256.Context) (chunks : List Bytes)
    (r : Request) :
    digest_chunks ssl write ctx chunks r = (serve_chunks write chunks r).map fun p =>
      (if p.1 then none else some (chunks.foldl ssl.SHA256.Update ctx), p.2) := by
  induction chunks generalizing ctx r with
  | nil => rfl
  | cons chunk chunks ih =>
    simp only [digest_chunks, serve_chunks, bind, StateT.bind, Except.bind]
    cases hwrite : write chunk r with
    | error e => rfl
    | ok p =>
      obtain ⟨status, r'⟩ := p
      by_cases hstatus : status = 0
      · simpa [hstatus] using ih (ssl.SHA256.Update ctx chunk) r'
      · simp only [ne_eq, hstatus, not_false_eq_true, if_true, pure_eq, Except.map]

theorem final_digest_eq (chunks : List Bytes) (r : Request) :
    final_digest ssl 32 32 20 (chunks.foldl ssl.SHA256.Update ssl.SHA256.Init) r =
      .ok (ssl.btc20 chunks.flatten, r) := by
  have hsha : ∀ blob, ssl.SHA256.Final (ssl.SHA256.Update ssl.SHA256.Init blob) = ssl.SHA256.hash blob := by
    intro blob
    simpa using ssl.SHA256.final_foldl [blob]
  have hripemd : ∀ blob, ssl.RIPEMD160.Final (ssl.RIPEMD160.Update ssl.RIPEMD160.Init blob) =
      ssl.RIPEMD160.hash blob := by
    intro blob
    simpa using ssl.RIPEMD160.final_foldl [blob]
  have htake : ∀ blob, (ssl.SHA256.hash blob).take 32 = ssl.SHA256.hash blob := fun blob =>
    List.take_of_length_le (ssl.SHA256.length_hash blob).le
  simp only [final_digest, SHA256_Final, RIPEMD160_Final, bind, StateT.bind, Except.bind, pure_eq,
    ssl.SHA256.final_foldl, htake, hsha, hripemd, OpenSSL.btc20, le_refl, if_true]

theorem blob_chunks_eq (hfd : r.blob_fd = some (.file b)) : blob_chunks w r = .ok (reads w.cut b, r) := by
  rw [blob_chunks, hfd]

theorem digest_passes (hb : ssl.btc20 b = d.raw) {f : Bytes → Run ℤ} (cut : ℕ → ℕ) (r : Request) :
    (final_digest ssl 32 32 20
      ((reads cut b).foldl ssl.SHA256.Update ssl.SHA256.Init) >>= f) r = f d.raw r := by
  rw [bind_ok (final_digest_eq (reads cut b) r), flatten_reads, hb]

/-- A blob that is what its digest says passes the checks of a get. -/
theorem get_bytes_trusted {trust_fs : ℤ} (hfd : r.blob_fd = some (.file b)) (hb : ssl.btc20 b = d.raw) :
    fs_btc20_get_bytes ssl w trust_fs d r = fs_btc20_get_trusted_bytes w r := by
  unfold fs_btc20_get_bytes
  split
  · rfl
  · rw [fs_btc20_get_trusted_bytes, bind_ok (blob_chunks_eq hfd), bind_ok (blob_chunks_eq hfd)]
    have hdigest := digest_chunks_eq (blob_write w) ssl.SHA256.Init (reads w.cut b) r
    cases hserve : serve_chunks (blob_write w) (reads w.cut b) r with
    | error e =>
      rw [hserve] at hdigest
      rw [bind_error hserve, bind_error hdigest]
    | ok p =>
      obtain ⟨croak, r'⟩ := p
      rw [hserve] at hdigest
      rw [bind_ok hserve, bind_ok hdigest]
      cases croak
      · refine (digest_passes hb w.cut r').trans ?_
        rw [if_neg (not_not_intro rfl)]
        rfl
      · rfl

theorem open_missing (ht : ContentAddressed ssl r.store) (hn : r.store.lstat (blob_path d) = none) :
    _open d r = .ok (ENOENT, r) := by
  simp only [_open, hn, if_pos (ht.missing d hn)]

theorem open_present {n : Node Bytes} (hn : r.store.lstat (blob_path d) = some n) :
    _open d r = .ok (0, { r with blob_fd := some n }) := by
  simp only [_open, hn]

theorem eat_trusted_missing (ht : ContentAddressed ssl r.store) (hn : r.store.lstat (blob_path d) = none) :
    fs_trust_btc20_eat d r = .ok (1, r) := by
  have hstat : _stat d r = .ok (ENOENT, r) := by
    simp only [_stat, hn, if_pos (ht.missing d hn)]
  rw [fs_trust_btc20_eat, bind_ok hstat]
  rfl

theorem eat_trusted_present {n : Node Bytes} (hn : r.store.lstat (blob_path d) = some n) :
    fs_trust_btc20_eat d r = .ok (0, r) := by
  have hstat : _stat d r = .ok (0, r) := by
    simp only [_stat, hn]
  rw [fs_trust_btc20_eat, bind_ok hstat]
  rfl

theorem copy_trusted {trust_fs : ℤ} (ht : ContentAddressed ssl r.store) :
    fs_btc20_copy ssl w trust_fs d r = fs_btc20_trusted_copy w d r := by
  unfold fs_btc20_copy
  split
  · rfl
  · cases hn : r.store.lstat (blob_path d) with
    | none =>
      rw [fs_btc20_trusted_copy, bind_ok (open_missing ht hn), bind_ok (open_missing ht hn)]
      rfl
    | some n =>
      obtain ⟨b, rfl, hb⟩ := ht.blob d n hn
      have hfd := blob_chunks_eq (w := w) (r := { r with blob_fd := some (.file b) }) rfl
      rw [fs_btc20_trusted_copy, bind_ok (open_present hn), bind_ok (open_present hn)]
      change (blob_chunks w >>= _) _ = (blob_chunks w >>= _) _
      rw [bind_ok hfd, bind_ok hfd]
      have hdigest := digest_chunks_eq (io_write_buf w) ssl.SHA256.Init (reads w.cut b)
        { r with blob_fd := some (.file b) }
      cases hserve : serve_chunks (io_write_buf w) (reads w.cut b) { r with blob_fd := some (.file b) } with
      | error e =>
        rw [hserve] at hdigest
        rw [bind_error hserve, bind_error hdigest]
      | ok p =>
        obtain ⟨croak, r'⟩ := p
        rw [hserve] at hdigest
        rw [bind_ok hserve, bind_ok hdigest]
        cases croak
        · refine (digest_passes hb w.cut r').trans ?_
          rw [if_neg (not_not_intro rfl)]
          rfl
        · rfl

theorem eat_missing {trust_fs : ℤ} (ht : ContentAddressed ssl r.store)
    (hn : r.store.lstat (blob_path d) = none) :
    fs_btc20_eat ssl w trust_fs d r = fs_trust_btc20_eat d r := by
  unfold fs_btc20_eat
  split
  · rfl
  · rw [bind_ok (open_missing ht hn), eat_trusted_missing ht hn]
    rfl

/-- The first digest of a blob does not fit in its buffer. -/
theorem eat_overflow {trust_fs : ℤ} (hne : trust_fs ≠ 1)
    (ht : ContentAddressed ssl r.store) {n : Node Bytes}
    (hn : r.store.lstat (blob_path d) = some n) :
    fs_btc20_eat ssl w trust_fs d r = .error (.overflow, { r with blob_fd := some n }) := by
  obtain ⟨b, rfl, -⟩ := ht.blob d n hn
  rw [fs_btc20_eat, if_neg hne, bind_ok (open_present hn)]
  change (blob_chunks w >>= _) _ = _
  rw [bind_ok (blob_chunks_eq rfl)]
  rfl

/-! ### All requests -/

/-- The run goes on to its end. -/
def Total {α : Type} (m : Run α) : Prop := ∀ r, ∃ a r', m r = .ok (a, r') ∧ r'.store = r.store ∧
    r'.blob_fd = r.blob_fd

theorem Total.bind {α β : Type} {m : Run α} {f : α → Run β} (hm : Total m) (hf : ∀ a, Total (f a)) :
    Total (m >>= f) := by
  intro r
  obtain ⟨a, r', hr, hstore, hfd⟩ := hm r
  obtain ⟨b, r'', hr', hstore', hfd'⟩ := hf a r'
  exact ⟨b, r'', (bind_ok hr).trans hr', hstore'.trans hstore, hfd'.trans hfd⟩

theorem total_pure {α : Type} (a : α) : Total (pure a : Run α) := fun r => ⟨a, r, rfl, rfl, rfl⟩

theorem total_req_write (buf : Bytes) : Total (req_write w buf) := by
  intro r
  unfold req_write
  cases w.client r.writes <;> exact ⟨_, _, rfl, rfl, rfl⟩

theorem total_blob_write (buf : Bytes) : Total (blob_write w buf) := by
  refine (total_req_write buf).bind fun status => ?_
  split
  · exact total_pure _
  · exact fun r => ⟨0, _, rfl, rfl, rfl⟩

theorem io_write_rest_fields (out : ℕ → Option ℕ) (buf : Bytes) (nwritten : ℕ) (r : Request) :
    (io_write_rest out buf nwritten r).2.store = r.store ∧
      (io_write_rest out buf nwritten r).2.blob_fd = r.blob_fd := by
  fun_induction io_write_rest out buf nwritten r with
  | case1 | case3 => exact ⟨rfl, rfl⟩
  | case2 nwritten r n hn nw next hlt ih => exact ih

theorem total_io_write_buf (buf : Bytes) : Total (io_write_buf w buf) := fun r =>
  ⟨_, _, rfl, io_write_rest_fields w.out buf 0 r⟩

theorem total_reply {line : Bytes} {blurb : Text} : Total (do
    if (← req_write w line) ≠ 0 then return -1
    add_chat_history blurb
    return 0 : Run ℤ) := by
  refine (total_req_write line).bind fun status => ?_
  split
  · exact total_pure _
  · exact fun r => ⟨0, _, rfl, rfl, rfl⟩

theorem total_write_ok : Total (write_ok w) := total_reply

theorem total_write_no : Total (write_no w) := total_reply

theorem total_serve_chunks {write : Bytes → Run ℤ} (h : ∀ chunk, Total (write chunk))
    (chunks : List Bytes) :
    Total (serve_chunks write chunks) := by
  induction chunks with
  | nil => exact total_pure false
  | cons chunk chunks ih =>
    refine (h chunk).bind fun status => ?_
    split
    · exact total_pure true
    · exact ih

/-- A file is served to its end or to the first write that fails. -/
theorem serve_file {write : Bytes → Run ℤ} (h : ∀ chunk, Total (write chunk)) (hfd : r.blob_fd = some
    (.file b)) :
    ∃ status r', (do
      let chunks ← blob_chunks w
      let croak ← serve_chunks write chunks
      _close
      return if croak then -1 else 0 : Run ℤ) r = .ok (status, r') := by
  obtain ⟨croak, r', hr, -⟩ := total_serve_chunks h (reads w.cut b) r
  exact ⟨_, _, by rw [bind_ok (blob_chunks_eq hfd), bind_ok hr]; rfl⟩

theorem trusted_serves (ht : ContentAddressed ssl r.store) (op : Op) :
    ∃ status r', serve ssl w 1 d op r = .ok (status, r') := by
  cases op with
  | copy =>
    change ∃ status r', fs_btc20_trusted_copy w d r = _
    cases hn : r.store.lstat (blob_path d) with
    | none => exact ⟨1, r, by rw [fs_btc20_trusted_copy, bind_ok (open_missing ht hn)]; rfl⟩
    | some n =>
      obtain ⟨b, rfl, -⟩ := ht.blob d n hn
      obtain ⟨status, r', hr⟩ := serve_file (w := w) (r := { r with blob_fd := some (.file b) })
        total_io_write_buf rfl
      exact ⟨status, r', by rw [fs_btc20_trusted_copy, bind_ok (open_present hn)]; exact hr⟩
  | eat =>
    have hstat : ∃ status, fs_btc20_eat ssl w 1 d r = .ok (status, r) := by
      rw [fs_btc20_eat, if_pos rfl]
      cases hn : r.store.lstat (blob_path d) with
      | none => exact ⟨1, eat_trusted_missing ht hn⟩
      | some n => exact ⟨0, eat_trusted_present hn⟩
    obtain ⟨status, hstatus⟩ := hstat
    change ∃ status r', eat ssl w 1 d r = _
    rw [eat, bind_ok hstatus]
    split
    · obtain ⟨a, r', hr, -⟩ := total_write_no (w := w) r
      exact ⟨a, r', hr⟩
    · obtain ⟨a, r', hr, -⟩ := total_write_ok (w := w) r
      exact ⟨a, r', hr⟩
  | get =>
    change ∃ status r', get ssl w 1 d r = _
    rw [get]
    split
    · obtain ⟨a, r', hr, -⟩ := (total_write_ok (w := w)).bind (f := fun status =>
        if status ≠ 0 then (pure (-1) : Run ℤ) else pure 0)
          (fun status => by split <;> exact total_pure _) r
      exact ⟨a, r', hr⟩
    · cases hn : r.store.lstat (blob_path d) with
      | none =>
        obtain ⟨a, r', hr, -⟩ := total_write_no (w := w) r
        exact ⟨a, r', (bind_ok (open_missing ht hn)).trans hr⟩
      | some n =>
        obtain ⟨b, rfl, -⟩ := ht.blob d n hn
        obtain ⟨a, r', hr, -, hfd⟩ := total_write_ok (w := w) { r with blob_fd := some (.file b) }
        rw [fs_btc20_get_request, bind_ok (open_present hn)]
        change ∃ status r'', (write_ok w >>= _) { r with blob_fd := some (.file b) } = .ok (status, r'')
        rw [bind_ok hr]
        split
        · exact ⟨_, _, rfl⟩
        · obtain ⟨status, r'', hr'⟩ := serve_file (w := w) (total_blob_write (w := w)) hfd
          exact ⟨status, r'', hr'⟩

theorem serve_trusted {trust_fs : ℤ} (ht : ContentAddressed ssl r.store) {op : Op}
    (h : ¬ (op = .eat ∧ ∃ n, r.store.lstat (blob_path d) = some n)) :
    serve ssl w trust_fs d op r = serve ssl w 1 d op r := by
  cases op with
  | copy => exact (copy_trusted ht).trans (copy_trusted ht).symm
  | eat =>
    have hn : r.store.lstat (blob_path d) = none := by
      simpa [Option.eq_none_iff_forall_ne_some] using h
    have hsame : fs_btc20_eat ssl w trust_fs d r = fs_btc20_eat ssl w 1 d r :=
      (eat_missing ht hn).trans (eat_missing ht hn).symm
    simp only [serve, eat, bind, StateT.bind, hsame]
  | get =>
    change get ssl w trust_fs d r = get ssl w 1 d r
    rw [get, get]
    split
    · rfl
    · cases hn : r.store.lstat (blob_path d) with
      | none => rw [fs_btc20_get_request, bind_ok (open_missing ht hn), bind_ok (open_missing ht hn)]; rfl
      | some n =>
        obtain ⟨b, rfl, hb⟩ := ht.blob d n hn
        obtain ⟨a, r', hr, -, hfd⟩ := total_write_ok (w := w) { r with blob_fd := some (.file b) }
        rw [fs_btc20_get_request, bind_ok (open_present hn), bind_ok (open_present hn)]
        change (write_ok w >>= _) { r with blob_fd := some (.file b) } =
          (write_ok w >>= _) { r with blob_fd := some (.file b) }
        rw [bind_ok hr, bind_ok hr]
        split
        · rfl
        · exact (get_bytes_trusted hfd hb).trans (get_bytes_trusted hfd hb).symm

/-- It does not matter where the reads cut the file. -/
theorem blob_chunks_cut (cut : ℕ → ℕ) : blob_chunks { w with cut := cut } = blob_chunks w := by
  funext r
  unfold blob_chunks
  split
  · rw [reads_eq]
  · rfl

theorem serve_cut (cut : ℕ → ℕ) (op : Op) : serve ssl { w with cut := cut } 1 d op = serve ssl w 1 d op :=
    by
  cases op with
  | get =>
    simp only [serve, get, fs_btc20_get_bytes, if_true, fs_btc20_get_trusted_bytes, blob_chunks_cut]
    rfl
  | copy =>
    simp only [serve, fs_btc20_copy, if_true, fs_btc20_trusted_copy, blob_chunks_cut]
    rfl
  | eat =>
    simp only [serve, eat, fs_btc20_eat, if_true]
    rfl

end paths

variable {ssl}

/-- Both paths come to the same status, replies, bytes, blob size and store, and the untrusted one
neither panics nor writes behind a buffer, just if it does not eat a blob that is there. -/
theorem trusts_agree_iff {t : Store} (ht : ContentAddressed ssl t) {trust_fs : ℤ} (hne : trust_fs ≠ 1)
    (cut : ℕ → ℕ) (d : Digest) (op : Op) :
    (∃ status r, serve ssl w trust_fs d op (opened t) = .ok (status, r) ∧
        serve ssl { w with cut := cut } 1 d op (opened t) = .ok (status, r)) ↔
      ¬ (op = .eat ∧ ∃ n, t.lstat (blob_path d) = some n) := by
  constructor
  · rintro ⟨status, r, hr, -⟩ ⟨rfl, n, hn⟩
    have hfail := eat_overflow (w := w) (r := opened t) hne ht hn
    rw [serve, eat, bind_error hfail] at hr
    cases hr
  · intro h
    obtain ⟨status, r, hr⟩ := trusted_serves (w := w) (r := opened t) (d := d) ht op
    exact ⟨status, r, (serve_trusted ht h).trans hr, (congrFun (serve_cut cut op) _).trans hr⟩

/-- What the library says on the way from a blob to its digest: the empty blob, and "abc". -/
def known_sha256 (blob : Bytes) : Bytes :=
  if blob = [] then decode_hex "e3b0c44298fc1c149afbf4c8996fb92427ae41e4649b934ca495991b7852b855".toList
  else if blob = decode_hex "e3b0c44298fc1c149afbf4c8996fb92427ae41e4649b934ca495991b7852b855".toList then
    decode_hex "5df6e0e2761359d30a8275058e299fcc0381534545f55cf43e41983f5d4c9456".toList
  else if blob = octets "abc".toList then
    decode_hex "ba7816bf8f01cfea414140de5dae2223b00361a396177a9cb410ff61f20015ad".toList
  else if blob = decode_hex "ba7816bf8f01cfea414140de5dae2223b00361a396177a9cb410ff61f20015ad".toList then
    decode_hex "4f8b42c22dd3729b519ba6f68d2da7cc5b2d606d05daed5ad5128cc03e6c6358".toList
  else List.replicate 32 0

def known_ripemd160 (blob : Bytes) : Bytes :=
  if blob = decode_hex "5df6e0e2761359d30a8275058e299fcc0381534545f55cf43e41983f5d4c9456".toList then
    DigestModule.btc20.empty.raw
  else if blob = decode_hex "4f8b42c22dd3729b519ba6f68d2da7cc5b2d606d05daed5ad5128cc03e6c6358".toList then
    decode_hex "17a5e37965aa927922cc5a1cc91dc5d46a0b8503".toList
  else List.replicate 20 0

/-- A context that collects what it is updated with. -/
def collected {size : ℕ} (hash : Bytes → Bytes) (h : ∀ blob, (hash blob).length = size) : Hash size where
  Context := Bytes
  Init := []
  Update ctx chunk := ctx ++ chunk
  Final := hash
  hash := hash
  final_foldl chunks := by
    have hfold : ∀ ctx : Bytes, chunks.foldl (· ++ ·) ctx = ctx ++ chunks.flatten := by
      induction chunks with
      | nil => simp
      | cons c cs ih => simp [ih]
    exact congrArg hash (hfold [])
  length_hash := h

theorem length_known_sha256 (blob : Bytes) : (known_sha256 blob).length = 32 := by
  unfold known_sha256
  repeat' split
  all_goals rfl

theorem length_known_ripemd160 (blob : Bytes) : (known_ripemd160 blob).length = 20 := by
  unfold known_ripemd160
  repeat' split
  all_goals rfl

def known_ssl : OpenSSL where
  SHA256 := collected known_sha256 length_known_sha256
  RIPEMD160 := collected known_ripemd160 length_known_ripemd160

theorem known_btc20 (b : Bytes) : known_digests.H .btc20 b = known_ssl.btc20 b := by
  change known_hash .btc20 b = known_ripemd160 (known_sha256 (known_sha256 b))
  by_cases hnil : b = []
  · subst hnil
    decide +kernel
  · by_cases habc : b = octets "abc".toList
    · subst habc
      decide +kernel
    · have hnone : (known .btc20).find? (fun k => octets k.1 = b) = none := by
        refine List.find?_eq_none.mpr fun k hk h => ?_
        obtain rfl := List.mem_singleton.mp hk
        exact habc (of_decide_eq_true h).symm
      have hother : known_hash .btc20 b = List.replicate 20 0 := by
        rw [known_hash, if_neg hnil, hnone]
      have hsha : known_sha256 b = known_sha256 (known_sha256 []) ∨
          known_sha256 b = known_sha256 (known_sha256 (octets "abc".toList)) ∨
            known_sha256 b = List.replicate 32 0 := by
        conv => enter [1, 1]; rw [known_sha256, if_neg hnil]
        conv => enter [2, 1, 1]; rw [known_sha256, if_neg hnil]
        conv => enter [2, 2, 1]; rw [known_sha256, if_neg hnil]
        split
        · exact .inl (by decide +kernel)
        · split
          · exact .inr (.inl (by decide +kernel))
          · exact .inr (.inr rfl)
      rw [hother]
      rcases hsha with h | h | h <;> rw [h] <;> decide +kernel

def abc_btc20 : Udig := known_udig .btc20 "abc".toList

/-- A put of three bytes that come with the request line. -/
def put_btc20 : List Event :=
  [.fork 7 (.put .put abc_btc20 (octets "abc".toList)), .call 7 (.put_open 1700000000), .call 7 .arbor_rename] ++
    (List.replicate 3 ({} : Faults)).map .arborist ++ [.call 7 .cleanup, .call 7 .write_ok]

def btc20_store : Store :=
  ((exec (Blobio.step default_tmp false) (Server.booted fresh_store : Server known_digests)
    put_btc20).map (·.tree)).getD fresh_store

theorem btc20_store_sound : Sound known_digests btc20_store := by
  unfold btc20_store
  cases hrun : exec (Blobio.step default_tmp false) (Server.booted fresh_store : Server known_digests)
      put_btc20 with
  | none => exact fresh_store_sound
  | some s =>
    refine sound_of_one_device fresh_store_sound (fun e he f hf => ?_) hrun
    subst hf
    simp [put_btc20] at he
    simp [he]

theorem btc20_store_addressed : ContentAddressed known_ssl btc20_store :=
  .of_sound btc20_store_sound known_btc20

theorem btc20_store_blob :
    btc20_store.lstat (blob_path abc_btc20.digest) = some (.file (octets "abc".toList)) := by
  decide +kernel

/-- A client and a local stream that take all, and reads that return all. -/
def quiet_world : World where
  client _ := .done
  out _ := some 4096
  cut n := n

theorem abc_copied : ∃ status r,
    serve known_ssl quiet_world 0 abc_btc20.digest .copy (opened btc20_store) = .ok (status, r) ∧
      serve known_ssl { quiet_world with cut := fun _ => 1 } 1 abc_btc20.digest .copy
        (opened btc20_store) =
        .ok (status, r) :=
  (trusts_agree_iff quiet_world btc20_store_addressed (by decide) (fun _ => 1) abc_btc20.digest .copy).mpr
    (by simp)

theorem abc_overflows : ¬ ∀ (ssl : OpenSSL) (t : Store) (w : World) (d : Digest) (op : Op),
    ContentAddressed ssl t → ∃ status r, serve ssl w 0 d op (opened t) = .ok (status, r) ∧
      serve ssl w 1 d op (opened t) = .ok (status, r) := by
  intro h
  obtain ⟨status, r, hr, -⟩ :=
    h known_ssl btc20_store quiet_world abc_btc20.digest .eat btc20_store_addressed
  have hne : (0 : ℤ) ≠ 1 := by decide
  have hfail := eat_overflow (w := quiet_world) (r := opened btc20_store) hne btc20_store_addressed
    btc20_store_blob
  rw [serve, eat, bind_error hfail] at hr
  cases hr

end Blobio.Btc20
