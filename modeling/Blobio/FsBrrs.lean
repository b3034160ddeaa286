import Blobio.BlobPaths
import Blobio.FsHistories
import Blobio.WallDurations

/-! The records that the client writes of the requests of its file system service, and the sizes
of blobs in them. -/
namespace Blobio.FsService
open DecimalNumerals
open RequestChild (Timespec start_text brr_service_duration)

/-- `empty` of a digest module: the digest is the well-known one of the algorithm. -/
def is_empty (u : Udig) : Bool := u.digest = u.algorithm.empty

structure Record where
  start_time : Timespec
  transport : Text
  verb : Verb
  udig : Udig
  chat_history : Text
  blob_size : ℕ
  wall_duration : ℕ × ℕ

/-- What `brr_format` makes of a record. -/
def Record.text (r : Record) : Text :=
  start_text (RequestChild.gmtime r.start_time.tv_sec) r.start_time.tv_nsec ++ '\t' :: (r.transport ++
    '\t' :: (r.verb.text ++ '\t' :: (r.udig.text ++ '\t' :: (r.chat_history ++ '\t' ::
      (Nat.toDigits 10 r.blob_size ++ '\t' ::
        (Nat.toDigits 10 r.wall_duration.1 ++ '.' :: (padded 9 r.wall_duration.2 ++ ['\n'])))))))

/-- What the calls of `brr_service` and of `fs_brr_frisk` come to. -/
structure BrrCalls where
  start_time : Timespec
  end_point : Text
  pid : ℕ
  mkdirat_spool : Option Errno
  openat_brr : Option Errno
  gmtime : Option Errno
  clock_gettime : Except Errno Timespec
  flock : Option Errno
  dprintf : Option Errno
  flock_un : Option Errno

/-- The verdict on the size of the blob, before the record is made. -/
def size_error (u : Udig) (verb : Verb) (s : Service) : Option Text :=
  let is_ok : Bool := verb.text.getLast? = some 'k'
  if is_empty u then
    if s.blob_size ≠ 0 then some "empty blob has size > 0".toList else none
  else if s.blob_size = 0 ∧ verb.text.head?.any (· ∈ "gtp".toList) ∧ is_ok then
    if s.chat_history.getLast? = some 'k' then some "ok: blob size == 0 for non empty blob".toList else none
  else none

/-- The record that is written, and the error that is returned. -/
def brr_service (u : Udig) (verb : Verb) (s : Service) (c : BrrCalls) : Option Record × Option Err :=
  if s.chat_history = [] then (none, some (.text "zero length chat history".toList))
  else
    match size_error u verb s with
    | some err => (none, some (.text err))
    | none =>
      let transport := "fs~".toList ++ c.end_point ++ '#' :: Nat.toDigits 10 c.pid
      match c.mkdirat_spool <|> c.openat_brr <|> c.gmtime, c.clock_gettime with
      | some e, _ | none, .error e => (none, some (.errno e))
      | none, .ok end_time =>
        match c.flock <|> c.dprintf with
        | some e => (none, some (.errno e))
        | none =>
          (some ⟨c.start_time, transport, verb, u, s.chat_history, s.blob_size,
            brr_service_duration c.start_time end_time⟩, c.flock_un.map .errno)

/-- `size_check` of the schema. -/
def SizeCheck (u : Udig) (byte_count : ℕ) : Prop :=
  is_empty u ∧ byte_count = 0 ∨ ¬ is_empty u ∧ byte_count > 0

/-- A get, put, give or take, recorded as one that was answered with ok to its end. -/
def Record.Succeeded (r : Record) : Prop :=
  r.verb ∈ [Verb.get, .put, .give, .take] ∧ "ok".toList <:+ r.chat_history

/-! ### The sizes that the verbs leave behind -/

/-- The size behind a hard link; none is set for a source that is missing. -/
def Link.size (l : Link) : ℕ :=
  if l.linkat = some .ENOENT then 0 else l.fsize.toOption.getD 0

def get_size (output : Output) (g : GetCalls) : ℕ :=
  match output with
  | .null_device => g.fsize.toOption.getD 0
  | .path => if g.link.linkat = some .EXDEV then g.send_file.toOption.getD 0 else g.link.size
  | .stdout => g.send_file.toOption.getD 0

def put_size (input_path : Bool) (p : PutCalls) : ℕ :=
  if input_path ∧ p.link.linkat ≠ some .EXDEV then p.link.size else p.send_file.toOption.getD 0

/-- The bytes that a get, put, give or take finds. -/
def Request.found_size : Request → ℕ
  | .get output g => get_size output g
  | .put input_path p => put_size input_path p
  | .give input_path g => put_size input_path g.put
  | .take output t => get_size output t.get
  | .eat _ | .wrap _ | .roll _ => 0

/-- The calls of a get, put, give or take that is recorded as answered with ok to its end. A
put is, whatever it finds. -/
def Request.Succeeds : Request → Prop
  | .get output g => (get_answer output g).1 = "ok".toList
  | .put _ _ => True
  | .give input_path g => ¬ (input_path ∧ g.put.link.linkat = some .ENOENT)
  | .take output t => (get_answer output t.get).2 ≠ 1
  | .eat _ | .wrap _ | .roll _ => False

variable {lib : Library} {s s' : Service}

@[simp] theorem blob_size_add (chat : Text) : (fs_add_chat lib chat s).blob_size = s.blob_size := rfl

theorem fs_hard_link_size {l : Link} (h : fs_hard_link l s = (none, s')) (hs : s.blob_size = 0) :
    s'.blob_size = l.size := by
  unfold fs_hard_link at h
  rw [Link.size]
  split at h
  · rename_i hlink
    cases h
    simp [hlink, hs]
  · cases h
  · cases h
  all_goals
    rename_i hlink
    split at h
    · cases h
    · rename_i sz hsize
      cases h
      simp [hlink, hsize, Except.toOption]

theorem fs_hard_link_error_size {l : Link} {err : Err} (h : fs_hard_link l s = (some err, s')) :
    s'.blob_size = s.blob_size := by
  unfold fs_hard_link at h
  split at h
  · cases h
  · cases h
    rfl
  · cases h
    rfl
  all_goals
    split at h
    · cases h
      rfl
    · cases h

theorem fs_get_copy_size {output : Output} {g : GetCalls} (h : fs_get_copy lib output g s = (none, s'))
    (hopen : g.openat ≠ some .ENOENT) : s'.blob_size = g.send_file.toOption.getD 0 := by
  unfold fs_get_copy at h
  split at h
  · rename_i hmissing
    exact absurd hmissing hopen
  · cases h
  · dsimp only at h
    split at h
    · cases h
    · split at h
      · cases h
      · cases h
        rfl

theorem fs_get_size {output : Output} {g : GetCalls} (h : fs_get lib output g s = (none, s'))
    (hs : s.blob_size = 0) (hok : (get_answer output g).1 = "ok".toList) :
    s'.blob_size = get_size output g := by
  obtain ⟨-, h⟩ := attempt_eq_none.mp h
  cases output with
  | null_device =>
    dsimp only at h
    split at h
    · rename_i hsize
      rw [get_answer, if_pos hsize] at hok
      exact absurd hok (by decide)
    · cases h
    · rename_i sz hsize
      cases h
      simp [get_size, hsize, Except.toOption]
  | path =>
    dsimp only at h
    rw [get_size]
    split at h
    · rename_i t hlink
      have hdev := (fs_hard_link_some hlink).2.2.mp rfl
      rw [if_pos hdev]
      refine fs_get_copy_size h fun hopen => ?_
      rw [get_answer, if_neg (by rw [hdev]; simp), if_pos ⟨hdev, hopen⟩] at hok
      exact absurd hok (by decide)
    · cases h
    · rename_i t hlink
      cases h
      rw [if_neg (fs_hard_link_none hlink).2.1, blob_size_add]
      exact fs_hard_link_size hlink hs
  | stdout =>
    refine fs_get_copy_size h fun hopen => ?_
    rw [get_answer, if_pos hopen] at hok
    exact absurd hok (by decide)

theorem fs_put_copy_size {p : PutCalls} (h : fs_put_copy lib p s = (none, s')) (hs : s.blob_size = 0) :
    s'.blob_size = p.send_file.toOption.getD 0 := by
  obtain ⟨-, h⟩ := attempt_eq_none.mp h
  obtain ⟨-, h⟩ := attempt_eq_none.mp h
  dsimp only at h
  split at h
  · cases h
  · cases h
    split_ifs <;> simp [hs]

theorem fs_put_size {input_path : Bool} {p : PutCalls} (h : fs_put lib input_path p s = (none, s'))
    (hs : s.blob_size = 0) : s'.blob_size = put_size input_path p := by
  obtain ⟨-, h⟩ := attempt_eq_none.mp h
  obtain ⟨-, h⟩ := attempt_eq_none.mp h
  obtain ⟨-, h⟩ := attempt_eq_none.mp h
  dsimp only at h
  rw [put_size]
  cases input_path with
  | false => exact fs_put_copy_size h hs
  | true =>
    simp only [if_true, true_and] at h ⊢
    split at h
    · rename_i t hlink
      cases h
      rw [if_pos (fs_hard_link_none hlink).2.1, blob_size_add]
      exact fs_hard_link_size hlink hs
    · rename_i err t hlink
      obtain ⟨-, herrno, hdev⟩ := fs_hard_link_some hlink
      rw [if_neg herrno] at h
      split_ifs at h with herr
      · cases h
      · rw [if_neg (by rw [hdev.mp (not_not.mp herr)]; simp)]
        exact fs_put_copy_size h ((fs_hard_link_error_size hlink).trans hs)

theorem fs_give_size {input_path : Bool} {g : GiveCalls} (h : fs_give lib input_path g s = (none, s'))
    (hs : s.blob_size = 0) : s'.blob_size = put_size input_path g.put := by
  unfold fs_give at h
  split at h
  · cases h
  · rename_i m hput
    have hsize := fs_put_size hput hs
    split at h
    · cases h
      exact hsize
    · split at h
      · cases h
      · cases h
        exact hsize

theorem fs_take_size {output : Output} {t : TakeCalls} (h : fs_take lib output t s = (none, s'))
    (hs : s.blob_size = 0) (hok : (get_answer output t.get).1 = "ok".toList) :
    s'.blob_size = get_size output t.get := by
  unfold fs_take at h
  split at h
  · cases h
  · rename_i m hget
    have hsize := fs_get_size hget hs hok
    split at h
    · cases h
      exact hsize
    · obtain ⟨-, h⟩ := attempt_eq_none.mp h
      dsimp only at h
      split at h
      · cases h
        exact hsize
      · cases h
        exact hsize
      · cases h

/-! ### The histories that end in ok -/

theorem get_answer_ok {output : Output} {g : GetCalls} (h : (get_answer output g).2 ≠ 1) :
    (get_answer output g).1 = "ok".toList := by
  unfold get_answer at h ⊢
  cases output
  all_goals
    dsimp only at h ⊢
    split_ifs at h ⊢ with h₁
    all_goals first | rfl | exact absurd rfl h

theorem get_answer_cases (output : Output) (g : GetCalls) :
    (get_answer output g).1 = "ok".toList ∨ (get_answer output g).1 = "no".toList := by
  unfold get_answer
  cases output
  all_goals
    dsimp only
    split_ifs
    all_goals decide

variable {ok_no : ℤ}

/-- The replies come to a history that ends in ok. -/
def EndsOk (chats : List Text) : Prop := "ok".toList <:+ chats.foldl chatted []

instance (chats : List Text) : Decidable (EndsOk chats) := inferInstanceAs (Decidable ("ok".toList <:+ _))

theorem Ends.endsOk_iff {chats : List Text} {ok : ℤ} (h : Ends { ok_no := ok_no } s chats ok) :
    "ok".toList <:+ s.chat_history ↔ EndsOk chats := by
  rw [h.1, EndsOk]

/-- A record says ok to its end just when the calls of the request come to that. -/
theorem succeeds_iff (req : Request) (h : serve lib req { ok_no := ok_no } = (none, s)) :
    (req.verb ∈ [Verb.get, .put, .give, .take] ∧ "ok".toList <:+ s.chat_history) ↔ req.Succeeds := by
  cases req with
  | get output g =>
    have hends := fs_get_ends (no_history ok_no) h
    rw [hends.endsOk_iff, Request.verb, Request.Succeeds]
    rcases get_answer_cases output g with hok | hno
    · rw [hok]
      exact iff_of_true (by decide) rfl
    · rw [hno]
      exact iff_of_false (by decide) (by decide)
  | put input_path p =>
    have hends := fs_put_ends (no_history ok_no) h
    rw [hends.endsOk_iff, Request.verb]
    exact iff_of_true (by decide) trivial
  | give input_path g =>
    have hends := fs_give_ends (no_history ok_no) h
    rw [Request.Succeeds, Request.verb]
    split_ifs at hends with hlink
    · rw [hends.endsOk_iff]
      exact iff_of_false (by decide) (not_not_intro hlink)
    · rw [hends.endsOk_iff]
      exact iff_of_true (by decide) hlink
  | take output t =>
    have hends := fs_take_ends (no_history ok_no) h
    rw [Request.Succeeds, Request.verb]
    split_ifs at hends with hno
    · rw [hends.endsOk_iff]
      refine iff_of_false ?_ (not_not_intro hno)
      rcases get_answer_cases output t.get with hok | hno
      · rw [hok]
        decide
      · rw [hno]
        decide
    · rw [get_answer_ok hno] at hends
      refine iff_of_true ⟨by decide, ?_⟩ hno
      rcases hends with hends | hends
      · rw [hends.endsOk_iff]
        decide
      · rw [hends.endsOk_iff]
        decide
  | eat e | wrap w | roll r =>
    rw [Request.verb]
    exact iff_of_false (fun hok => absurd hok.1 (by decide)) not_false

theorem found_size_eq {req : Request} (h : serve lib req { ok_no := ok_no } = (none, s)) (hok : req.Succeeds) :
    s.blob_size = req.found_size := by
  cases req with
  | get output g => exact fs_get_size h rfl hok
  | put input_path p => exact fs_put_size h rfl
  | give input_path g => exact fs_give_size h rfl
  | take output t => exact fs_take_size h rfl (get_answer_ok hok)
  | eat e | wrap w | roll r => exact hok.elim

/-! ### The size in the record -/

variable {u : Udig} {verb : Verb} {c : BrrCalls} {r : Record}

/-- The last letter of the verb is looked at where that of the history was meant. -/
theorem no_verb_is_ok (verb : Verb) : verb.text.getLast? ≠ some 'k' := by
  cases verb <;> decide

/-- What is left of the test of the sizes is the size of the empty blob. -/
theorem size_error_eq_none : size_error u verb s = none ↔ (is_empty u → s.blob_size = 0) := by
  simp only [size_error, no_verb_is_ok, decide_false, Bool.false_eq_true, and_false, if_false]
  split_ifs <;> simp_all

theorem written_of_brr_service (h : (brr_service u verb s c).1 = some r) :
    r.verb = verb ∧ r.udig = u ∧ r.chat_history = s.chat_history ∧ r.blob_size = s.blob_size ∧
      (is_empty u → s.blob_size = 0) := by
  unfold brr_service at h
  split_ifs at h
  split at h
  · cases h
  · rename_i hsize
    dsimp only at h
    split at h
    · cases h
    · cases h
    · split at h
      · cases h
      · obtain rfl := Option.some.inj h
        exact ⟨rfl, rfl, rfl, rfl, size_error_eq_none.mp hsize⟩

/-- A record that is written of a request passes the check of the schema on every blob that was
answered for, just when the request is of the empty blob, or finds at least one byte, or fails. -/
theorem record_size_right_iff (req : Request) (h : serve lib req { ok_no := ok_no } = (none, s))
    (hr : (brr_service u req.verb s c).1 = some r) :
    (r.Succeeded → SizeCheck r.udig r.blob_size) ↔ (req.Succeeds → is_empty u ∨ req.found_size ≠ 0) := by
  obtain ⟨hverb, hudig, hchat, hsize, hempty⟩ := written_of_brr_service hr
  rw [Record.Succeeded, hverb, hchat, succeeds_iff req h, hudig, hsize]
  refine imp_congr_right fun hok => ?_
  rw [← found_size_eq h hok, SizeCheck, gt_iff_lt, Nat.pos_iff_ne_zero]
  by_cases hu : is_empty u
  · simp [hu, hempty hu]
  · simp [hu]

def hello : Udig where
  algorithm := .sha
  digest := ⟨"57cd5957fbc764c5ee9862f76287d09d2170b9ef".toList, by decide, by decide⟩

/-- The calls of a record that all succeed. -/
def logged : BrrCalls where
  start_time := ⟨1704186245, 0, by decide⟩
  end_point := "/opt/blobio".toList
  pid := 411
  mkdirat_spool := none
  openat_brr := none
  gmtime := none
  clock_gettime := .ok ⟨1704186246, 0, by decide⟩
  flock := none
  dprintf := none
  flock_un := none

/-- A get to a file, of a blob that is not in the store. -/
def get_missing : Request := .get .path { found with link := ⟨some .ENOENT, .ok 0, ok_ne_eexist 0⟩ }

theorem get_seven_bytes : ∃ s r, serve cutting (.get .path found) { ok_no := -1 } = (none, s) ∧
    (brr_service hello .get s logged).1 = some r ∧
    ((r.Succeeded → SizeCheck r.udig r.blob_size) ↔
      ((Request.get .path found).Succeeds → is_empty hello ∨ (Request.get .path found).found_size ≠ 0)) :=
  have h : serve cutting (.get .path found) { ok_no := -1 } = (none, _) := rfl
  have hr : (brr_service hello .get (serve cutting (.get .path found) { ok_no := -1 }).2 logged).1 = some _ := rfl
  ⟨_, _, h, hr, record_size_right_iff (.get .path found) h hr⟩

/-- The record says that the missing blob was got, and that it has no bytes. -/
theorem missing_blob_of_size_zero : ¬ ∀ (lib : Library) (req : Request) (u : Udig) (c : BrrCalls) (ok_no : ℤ)
    (s : Service) (r : Record), serve lib req { ok_no := ok_no } = (none, s) →
      (brr_service u req.verb s c).1 = some r → r.Succeeded → SizeCheck r.udig r.blob_size := by
  intro h
  have hcheck := h cutting get_missing hello logged (-1) _ _ rfl rfl (by rw [Record.Succeeded]; decide)
  rw [SizeCheck] at hcheck
  exact absurd hcheck (by decide)

end Blobio.FsService
