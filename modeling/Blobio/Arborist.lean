import Blobio.BlobPaths

/-! The arborist process: one message of a request process at a time, each of its
system calls failing for what the tree holds or for a fault of its own. -/
namespace Blobio
open FileTrees

/-- The calls of the arborist that fail for a reason outside the tree. -/
structure Faults where
  reply_fifo : Bool := false
  mkdir : Path → Bool := fun _ => false
  rename : Bool := false
  chmod : Bool := false
  lstat : Path → Bool := fun _ => false
  other_device : Bool := false
  open_src : Bool := false
  open_tgt : Bool := false
  read : Bool := false
  /-- A write that fails behind so many bytes of its chunk. -/
  write : Option ℕ := none
  close : Bool := false
  unlink : Bool := false
  rmdir : Path → Bool := fun _ => false
  reply : Bool := false

structure MoveRequest where
  reply_pid : ℕ
  src_path : Path
  tgt_path : Path
  deriving DecidableEq

inductive Message
  | R (m : MoveRequest)
  | M (m : MoveRequest)
  | T (dir_path : Path)
  deriving DecidableEq

def Message.move? : Message → Option MoveRequest
  | .R m | .M m => some m
  | .T _ => none

/-- What the arborist does next. Request processes come between any two of these; what it
does in one go they do not touch: they make and remove no directory under the store. -/
inductive Station
  | waiting
  | placed (m : MoveRequest)
  | copying (m : MoveRequest) (unread : Bytes)
  | answering (m : MoveRequest) (reply_payload : UInt8)
  | panicked
  deriving DecidableEq

/-- What the arborist leaves behind: the tree, the files that a copy has opened and no
`chmod` has closed, and what is next. -/
structure Handled where
  tree : Store
  writable : List Path
  station : Station

def faulty {α : Type} (fails : Bool) (call : Except Errno α) : Except Errno α :=
  if fails then .error .ENOSPC else call

/-- An existing directory, or file, is as good as a new directory. -/
def make_path (f : Faults) (t : Store) (p : Path) : Store × UInt8 :=
  match faulty (f.mkdir p) (t.mkdir p) with
  | .ok t' => (t', 0)
  | .error .EEXIST => (t, 0)
  | .error _ => (t, 1)

/-- The loop over the slashes of the target path. -/
def make_paths (f : Faults) (t : Store) (above : Path) : Path → Store × UInt8
  | [] | [_] => (t, 0)
  | c :: d :: rest =>
    let made := make_path f t (above ++ [c])
    if made.2 ≠ 0 then made else make_paths f made.1 (above ++ [c]) (d :: rest)

/-- The files of the temporary directories are made with mode 0400, which a rename keeps. -/
def rename_blob (f : Faults) (t : Store) (writable : List Path) (m : MoveRequest) : Handled :=
  if f.reply_fifo then ⟨t, writable, .panicked⟩
  else
    let made := make_paths f t [] m.tgt_path
    if made.2 ≠ 0 then ⟨made.1, writable, .answering m made.2⟩
    else match faulty f.rename (made.1.rename m.src_path m.tgt_path) with
      | .error _ => ⟨made.1, writable, .answering m 1⟩
      | .ok t' => ⟨t', writable.filter (· ≠ m.tgt_path), .placed m⟩

/-- A blob has mode 0440, and is not opened again; what a copy left unfinished is. -/
def io_open_trunc (f : Faults) (t : Store) (writable : List Path) (tgt : Path) : Except Errno Store :=
  if (t.file? tgt).isSome ∧ tgt ∉ writable then .error .EACCES
  else faulty f.open_tgt (t.overwrite tgt [])

/-- The unix `mv` command, up to the loop of a copy across devices. -/
def _move (f : Faults) (t : Store) (writable : List Path) (m : MoveRequest) : Handled :=
  let croak : Handled := ⟨t, writable, .answering m 1⟩
  if f.lstat m.src_path then croak
  else match t.lstat m.src_path with
    | some (.file b) =>
      if f.lstat m.tgt_path.dropLast then croak
      else match t.lstat m.tgt_path.dropLast with
        | some .dir =>
          if f.other_device then
            if f.open_src then croak
            else match io_open_trunc f t writable m.tgt_path with
              | .error _ => croak
              | .ok t' => ⟨t', m.tgt_path :: writable, .copying m b⟩
          else match faulty f.rename (t.rename m.src_path m.tgt_path) with
            | .ok t' => ⟨t', writable.filter (· ≠ m.tgt_path), .placed m⟩
            | .error _ => croak
        | _ => croak
    | _ => croak

def move_blob (f : Faults) (t : Store) (writable : List Path) (m : MoveRequest) : Handled :=
  if f.reply_fifo then ⟨t, writable, .panicked⟩
  else
    let made := make_paths f t [] m.tgt_path
    if made.2 ≠ 0 then ⟨made.1, writable, .answering m made.2⟩
    else _move f made.1 writable m

def MSG_SIZE : ℕ := 255

/-- One turn of the loop of `_move` that copies the source; at its end the source is removed,
and a failed close or unlink leaves both files behind. -/
def copy_move (f : Faults) (t : Store) (writable : List Path) (m : MoveRequest) (unread : Bytes) : Handled :=
  if f.read then ⟨t, writable, .answering m 1⟩
  else if unread = [] then
    if f.close then ⟨t, writable, .answering m 1⟩
    else if f.unlink then ⟨t, writable, .answering m 1⟩
    else ⟨unlink_quietly t m.src_path, writable, .placed m⟩
  else match f.write with
    | some n => ⟨t.modify m.tgt_path (· ++ (unread.take MSG_SIZE).take n), writable, .answering m 1⟩
    | none =>
      ⟨t.modify m.tgt_path (· ++ unread.take MSG_SIZE), writable, .copying m (unread.drop MSG_SIZE)⟩

/-- A take may have unlinked the file since it got its place. -/
def chmod_blob (f : Faults) (t : Store) (writable : List Path) (m : MoveRequest) : Handled :=
  if f.chmod ∨ t.lstat m.tgt_path = none then ⟨t, writable, .answering m 1⟩
  else ⟨t, writable.filter (· ≠ m.tgt_path), .answering m 0⟩

/-- The label `bye`: write the payload to the fifo and close it, then panic unless it is zero. -/
def bye (f : Faults) (t : Store) (writable : List Path) (reply_payload : UInt8) : Handled :=
  if f.reply ∨ f.close then ⟨t, writable, .panicked⟩
  else ⟨t, writable, if reply_payload = 0 then .waiting else .panicked⟩

/-- The process whose reply fifo is written. -/
def replies_to (f : Faults) : Station → Option ℕ
  | .answering m _ => if f.reply then none else some m.reply_pid
  | _ => none

inductive Turn | stop | panic | climb deriving DecidableEq

/-- What `trim_blob_dir` does about the parent of a directory that is gone; it does
not follow a symbolic link. -/
def look_up (f : Faults) (t : Store) (up : Path) : Turn :=
  if up = [] then .stop
  else if f.lstat up.reverse then .panic
  else match t.lstat up.reverse with
    | none => .panic
    | some .link => .stop
    | some _ => .climb

/-- The loop of `trim_blob_dir`, on the components from the deepest up: the tree,
the number of directories removed, and whether it panicked. -/
def zap (f : Faults) (t : Store) (count : ℕ) : Path → Store × ℕ × Bool
  | [] => (t, count, false)
  | c :: up =>
    match faulty (f.rmdir (c :: up).reverse) (t.rmdir (c :: up).reverse) with
    | .error .ENOTEMPTY => (t, count, false)
    | .error .ENOENT =>
      match look_up f t up with
      | .stop => (t, count, false)
      | .panic => (t, count, true)
      | .climb => zap f t count up
    | .error _ => (t, count, true)
    | .ok t' =>
      match look_up f t' up with
      | .stop => (t', count + 1, false)
      | .panic => (t', count + 1, true)
      | .climb => zap f t' (count + 1) up

def trim_blob_dir (f : Faults) (t : Store) (dir_path : Path) : Store × ℕ × Bool :=
  zap f t 0 dir_path.reverse

/-- A message from the pipe. -/
def receive (f : Faults) (t : Store) (writable : List Path) : Message → Handled
  | .R m => rename_blob f t writable m
  | .M m => move_blob f t writable m
  | .T dir =>
    let trimmed := trim_blob_dir f t dir
    ⟨trimmed.1, writable, if trimmed.2.2 then .panicked else .waiting⟩

/-- The next turn of the loop of `arborist`, with what is left in the pipe. -/
def arborist (f : Faults) (t : Store) (writable : List Path) : Station → List Message →
    Option (Handled × List Message)
  | .waiting, m :: pipe => some (receive f t writable m, pipe)
  | .waiting, [] | .panicked, _ => none
  | .placed m, pipe => some (chmod_blob f t writable m, pipe)
  | .copying m unread, pipe => some (copy_move f t writable m unread, pipe)
  | .answering _ payload, pipe => some (bye f t writable payload, pipe)

/-! ### What the calls leave of the files -/

/-- Directories may be new; every file is as it was. -/
structure SameFiles (t t' : Store) : Prop where
  files : ∀ q, t'.file? q = t.file? q

/-- The source's bytes are at the target now. Of the other files only the source can
be gone. -/
structure Placed (t t' : Store) (src tgt : Path) (b : Bytes) : Prop where
  source : t.file? src = some b
  target : t'.file? tgt = some b
  others : ∀ q, q ≠ tgt → t'.file? q = t.file? q ∨ t'.file? q = none ∧ q = src
  dirs : ∀ q n, t'.lstat q = some n → n.isDir → t.lstat q = some n ∨ q <+: tgt ∧ q ≠ tgt

theorem SameFiles.refl (t : Store) : SameFiles t t := ⟨fun _ => rfl⟩

theorem SameFiles.trans {t u v : Store} (h : SameFiles t u) (h' : SameFiles u v) : SameFiles t v :=
  ⟨fun q => (h'.files q).trans (h.files q)⟩

theorem faulty_ok {α : Type} {fails : Bool} {call : Except Errno α} {a : α}
    (h : faulty fails call = .ok a) : call = .ok a := by
  unfold faulty at h
  split at h
  · cases h
  · exact h

@[simp] theorem faulty_false {α : Type} (call : Except Errno α) : faulty false call = call := rfl

/-- What a loop of `mkdir` does to a tree: directories on the way to a path. -/
structure DirsAdded (t t' : Store) (tgt : Path) : Prop where
  lstat : ∀ q, t'.lstat q = t.lstat q ∨
    t.lstat q = none ∧ t'.lstat q = some .dir ∧ q <+: tgt ∧ q ≠ tgt

theorem DirsAdded.refl (t : Store) (tgt : Path) : DirsAdded t t tgt := ⟨fun _ => .inl rfl⟩

theorem DirsAdded.trans {t u v : Store} {tgt : Path} (h : DirsAdded t u tgt)
    (h' : DirsAdded u v tgt) : DirsAdded t v tgt := by
  refine ⟨fun q => ?_⟩
  rcases h'.lstat q with hv | ⟨hu, hv, hpre, hne⟩
  · rcases h.lstat q with hu | ⟨ht, hu, hpre⟩
    · exact .inl (hv.trans hu)
    · exact .inr ⟨ht, hv.trans hu, hpre⟩
  · rcases h.lstat q with hq | ⟨ht, hq, -⟩
    · exact .inr ⟨hq ▸ hu, hv, hpre, hne⟩
    · simp [hu] at hq

theorem DirsAdded.same {t t' : Store} {tgt : Path} (h : DirsAdded t t' tgt) : SameFiles t t' := by
  refine ⟨fun q => ?_⟩
  rcases h.lstat q with hq | ⟨hnone, hdir, -⟩
  · exact FileTree.file?_congr hq
  · simp [FileTree.file?, hnone, hdir]

theorem Placed.of_added {t u v : Store} {src tgt : Path} {b : Bytes} (h : DirsAdded t u tgt)
    (h' : Placed u v src tgt b) : Placed t v src tgt b where
  source := by rw [← h.same.files, h'.source]
  target := h'.target
  others q hq := by
    rw [← h.same.files q]
    exact h'.others q hq
  dirs q n hq hn := by
    rcases h'.dirs q n hq hn with hu | hpre
    · rcases h.lstat q with heq | ⟨-, -, hpre⟩
      · exact .inl (heq ▸ hu)
      · exact .inr hpre
    · exact .inr hpre

theorem DirsAdded.of_some {t t' : Store} {tgt q : Path} {n : Node Bytes} (h : DirsAdded t t' tgt)
    (hq : t.lstat q = some n) : t'.lstat q = some n := by
  rcases h.lstat q with h | ⟨hnone, -⟩
  · rw [h, hq]
  · simp [hq] at hnone

theorem make_path_added (f : Faults) (t : Store) {p tgt : Path} (hp : p <+: tgt) (hne : p ≠ tgt) :
    DirsAdded t (make_path f t p).1 tgt := by
  unfold make_path
  split
  · rename_i t' h
    obtain ⟨-, hnone, hst⟩ := FileTree.mkdir_ok (faulty_ok h)
    refine ⟨fun q => ?_⟩
    rw [hst]
    by_cases hq : q = p
    · subst hq
      simp [hnone, hp, hne]
    · simp [hq]
  · exact .refl t tgt
  · exact .refl t tgt

theorem make_paths_added (f : Faults) (t : Store) (above tgt : Path) :
    DirsAdded t (make_paths f t above tgt).1 (above ++ tgt) := by
  induction tgt generalizing t above with
  | nil => exact .refl t _
  | cons c rest ih =>
    cases rest with
    | nil => exact .refl t _
    | cons d rest =>
      have hpre : above ++ [c] <+: above ++ c :: d :: rest := ⟨d :: rest, by simp⟩
      have hone := make_path_added f t hpre (by simp)
      simp only [make_paths]
      split
      · exact hone
      · have hrest := ih (make_path f t (above ++ [c])).1 (above ++ [c])
        rw [List.append_assoc] at hrest
        exact hone.trans hrest

/-- A directory that is made, or was there, when its parent is. -/
theorem make_path_present {f : Faults} {t : Store} {p : Path} (hf : f.mkdir p = false)
    (hp : t.HasParent p) :
    (make_path f t p).2 = 0 ∧ ∃ n, (make_path f t p).1.lstat p = some n := by
  unfold make_path
  rw [hf, faulty_false]
  rcases FileTree.mkdir_of_hasParent hp with ⟨t', h⟩ | h
  · rw [h]
    exact ⟨rfl, .dir, by simp [(FileTree.mkdir_ok h).2.2]⟩
  · rw [h]
    exact ⟨rfl, (FileTree.mkdir_eexist h).2⟩

theorem make_paths_ready {f : Faults} {t : Store} (above : Path) {tgt : Path} (hne : tgt ≠ [])
    (hf : ∀ q, q <+: above ++ tgt → q ≠ above ++ tgt → f.mkdir q = false)
    (hfile : ∀ q, q <+: above ++ tgt → q ≠ above ++ tgt → t.file? q = none)
    (habove : ∃ n, t.lstat above = some n) :
    (make_paths f t above tgt).2 = 0 ∧ (make_paths f t above tgt).1.HasParent (above ++ tgt) := by
  have hdir : ∀ u : Store, ∀ q, u.file? q = none → (∃ n, u.lstat q = some n) →
      (u.lstat q).any Node.isDir := by
    rintro u q hq ⟨n, hn⟩
    cases n <;> simp_all [FileTree.file?]
  induction tgt generalizing t above with
  | nil => exact absurd rfl hne
  | cons c rest ih =>
    have hpar : t.HasParent (above ++ [c]) := by
      refine ⟨by simp, ?_⟩
      rw [List.dropLast_concat]
      exact hdir t above (hfile above (List.prefix_append _ _) (by simp)) habove
    cases rest with
    | nil => exact ⟨rfl, hpar⟩
    | cons d rest =>
      have hpre : above ++ [c] <+: above ++ c :: d :: rest := ⟨d :: rest, by simp⟩
      obtain ⟨hzero, hthere⟩ := make_path_present (hf _ hpre (by simp)) hpar
      have hsame := (make_path_added f t hpre (by simp)).same
      have hassoc : above ++ c :: d :: rest = (above ++ [c]) ++ d :: rest := by simp
      simp only [make_paths, hzero, ne_eq, not_true_eq_false, if_false]
      rw [hassoc] at hf hfile ⊢
      refine ih (above ++ [c]) (by simp) hf (fun q hq hqne => ?_) hthere
      rw [hsame.files]
      exact hfile q hq hqne

theorem rename_placed {t t' : Store} {src tgt : Path} (hne : src ≠ tgt)
    (h : t.rename src tgt = .ok t') : ∃ b, Placed t t' src tgt b := by
  obtain ⟨-, b, hb, hst⟩ := FileTree.rename_ok hne h
  refine ⟨b, FileTree.file?_eq_some.mpr hb, FileTree.file?_eq_some.mpr (by simp [hst]), ?_, ?_⟩
  · intro q hq
    by_cases hgone : q = src
    · exact .inr ⟨by simp [FileTree.file?, hst, hne, hgone], hgone⟩
    · exact .inl (FileTree.file?_congr (by simp [hst, hq, hgone]))
  · intro q n hq hn
    rw [hst] at hq
    split at hq
    · cases hq
      simp at hn
    · split at hq
      · cases hq
      · exact .inl hq

/-- A file that has been opened for a copy, new or cut to nothing. -/
structure Opened (t t' : Store) (tgt : Path) : Prop where
  target : t'.file? tgt = some []
  others : ∀ q, q ≠ tgt → t'.file? q = t.file? q
  dirs : ∀ q n, t'.lstat q = some n → n.isDir → t.lstat q = some n ∨ q <+: tgt ∧ q ≠ tgt

/-- A file that has grown by the piece, unless it has lost its name. -/
structure Extended (t t' : Store) (tgt : Path) (piece : Bytes) : Prop where
  target : t'.file? tgt = (t.file? tgt).map (· ++ piece)
  others : ∀ q, q ≠ tgt → t'.lstat q = t.lstat q
  dirs : ∀ n, t'.lstat tgt = some n → n.isDir → t.lstat tgt = some n

theorem Opened.of_added {t u v : Store} {tgt : Path} (h : DirsAdded t u tgt) (h' : Opened u v tgt) :
    Opened t v tgt where
  target := h'.target
  others q hq := (h'.others q hq).trans (h.same.files q)
  dirs q n hq hn := by
    rcases h'.dirs q n hq hn with hu | hpre
    · rcases h.lstat q with heq | ⟨-, -, hpre⟩
      · exact .inl (heq ▸ hu)
      · exact .inr hpre
    · exact .inr hpre

theorem overwrite_opened {t t' : Store} {tgt : Path} (h : t.overwrite tgt [] = .ok t') : Opened t t' tgt := by
  obtain ⟨-, -, hst⟩ := FileTree.overwrite_ok h
  refine ⟨FileTree.file?_eq_some.mpr (by simp [hst]), fun q hq => FileTree.file?_congr (by simp [hst, hq]),
    fun q n hq hn => ?_⟩
  rw [hst] at hq
  split at hq
  · cases hq
    simp at hn
  · exact .inl hq

theorem Extended.refl (t : Store) (tgt : Path) : Extended t t tgt [] where
  target := by simp
  others _ _ := rfl
  dirs _ h _ := h

theorem modify_extended (t : Store) (tgt : Path) (piece : Bytes) :
    Extended t (t.modify tgt (· ++ piece)) tgt piece := by
  by_cases hfile : ∃ b, t.lstat tgt = some (.file b)
  · obtain ⟨b, hb⟩ := hfile
    have hst := FileTree.lstat_modify hb (· ++ piece)
    refine ⟨?_, fun q hq => by rw [hst, if_neg hq], fun n hn hdir => ?_⟩
    · rw [FileTree.file?_eq_some.mpr hb, Option.map_some, FileTree.file?_eq_some, hst, if_pos rfl]
    · rw [hst, if_pos rfl] at hn
      cases hn
      simp at hdir
  · have hsame : t.modify tgt (· ++ piece) = t := by
      unfold FileTree.modify
      split
      · rename_i b hb
        exact absurd ⟨b, hb⟩ hfile
      · rfl
    have hnone : t.file? tgt = none := by
      rw [FileTree.file?_eq_none]
      exact fun b hb => hfile ⟨b, hb⟩
    rw [hsame]
    exact ⟨by simp [hnone], fun _ _ => rfl, fun _ h _ => h⟩

/-- The directories a trim removes hold nothing. -/
structure Trimmed (t t' : Store) : Prop where
  lstat : ∀ q, t'.lstat q = t.lstat q ∨ t.lstat q = some .dir ∧ t'.lstat q = none
  hollow : ∀ q, t'.lstat q ≠ t.lstat q → ∀ r b, q <+: r → t.file? r ≠ some b

/-- What the arborist may make of a request to rename or to move. -/
inductive Received (t : Store) (writable : List Path) (m : MoveRequest) (h : Handled) : Prop
  | refused (htree : DirsAdded t h.tree m.tgt_path) (hw : h.writable = writable)
      (hstation : h.station = .panicked ∨ ∃ payload ≠ 0, h.station = .answering m payload)
  | placed (b : Bytes) (htree : Placed t h.tree m.src_path m.tgt_path b)
      (hw : h.writable = writable.filter (· ≠ m.tgt_path)) (hstation : h.station = .placed m)
  | opened (b : Bytes) (hsrc : t.file? m.src_path = some b)
      (htgt : t.file? m.tgt_path = none ∨ m.tgt_path ∈ writable) (htree : Opened t h.tree m.tgt_path)
      (hw : h.writable = m.tgt_path :: writable) (hstation : h.station = .copying m b)

theorem rename_blob_received (f : Faults) (t : Store) (writable : List Path) {m : MoveRequest}
    (hne : m.src_path ≠ m.tgt_path) : Received t writable m (rename_blob f t writable m) := by
  have hadd := make_paths_added f t [] m.tgt_path
  unfold rename_blob
  split
  · exact .refused (.refl ..) rfl (.inl rfl)
  · dsimp only
    split
    · rename_i hmade
      exact .refused hadd rfl (.inr ⟨_, hmade, rfl⟩)
    · split
      · exact .refused hadd rfl (.inr ⟨1, by decide, rfl⟩)
      · rename_i t' h
        obtain ⟨b, hb⟩ := rename_placed hne (faulty_ok h)
        exact .placed b (hb.of_added hadd) rfl rfl

theorem io_open_trunc_ok {f : Faults} {t t' : Store} {writable : List Path} {tgt : Path}
    (h : io_open_trunc f t writable tgt = .ok t') :
    (t.file? tgt = none ∨ tgt ∈ writable) ∧ Opened t t' tgt := by
  unfold io_open_trunc at h
  split at h
  · cases h
  · rename_i hfree
    refine ⟨?_, overwrite_opened (faulty_ok h)⟩
    by_cases hmem : tgt ∈ writable
    · exact .inr hmem
    · refine .inl ?_
      rw [not_and_or, not_not] at hfree
      simpa using hfree.resolve_right hmem

theorem move_received (f : Faults) {t u : Store} (writable : List Path) {m : MoveRequest}
    (hadd : DirsAdded t u m.tgt_path) (hne : m.src_path ≠ m.tgt_path) :
    Received t writable m (_move f u writable m) := by
  have hcroak : Received t writable m ⟨u, writable, .answering m 1⟩ :=
    .refused hadd rfl (.inr ⟨1, by decide, rfl⟩)
  unfold _move
  dsimp only
  split
  · exact hcroak
  · split
    · rename_i b hb
      split
      · exact hcroak
      · split
        · split
          · split
            · exact hcroak
            · split
              · exact hcroak
              · rename_i t' h
                obtain ⟨hfree, hopened⟩ := io_open_trunc_ok h
                rw [hadd.same.files] at hfree
                refine .opened b ?_ hfree (hopened.of_added hadd) rfl rfl
                rw [← hadd.same.files]
                exact FileTree.file?_eq_some.mpr hb
          · split
            · rename_i t' h
              obtain ⟨c, hc⟩ := rename_placed hne (faulty_ok h)
              exact .placed c (hc.of_added hadd) rfl rfl
            · exact hcroak
        · exact hcroak
    · exact hcroak

theorem move_blob_received (f : Faults) (t : Store) (writable : List Path) {m : MoveRequest}
    (hne : m.src_path ≠ m.tgt_path) : Received t writable m (move_blob f t writable m) := by
  have hadd := make_paths_added f t [] m.tgt_path
  unfold move_blob
  split
  · exact .refused (.refl ..) rfl (.inl rfl)
  · dsimp only
    split
    · rename_i hmade
      exact .refused hadd rfl (.inr ⟨_, hmade, rfl⟩)
    · exact move_received f writable hadd hne

/-- What the arborist may make of a turn of its copy. -/
inductive Copied (t : Store) (writable : List Path) (m : MoveRequest) (unread : Bytes) (h : Handled) : Prop
  | croaked (piece : Bytes) (hpiece : piece <+: unread) (htree : Extended t h.tree m.tgt_path piece)
      (hstation : h.station = .answering m 1)
  | ended (hend : unread = []) (htree : h.tree = unlink_quietly t m.src_path) (hstation : h.station = .placed m)
  | copied (htree : Extended t h.tree m.tgt_path (unread.take MSG_SIZE))
      (hstation : h.station = .copying m (unread.drop MSG_SIZE))

theorem copy_move_copied (f : Faults) (t : Store) (writable : List Path) (m : MoveRequest) (unread : Bytes) :
    Copied t writable m unread (copy_move f t writable m unread) ∧
      (copy_move f t writable m unread).writable = writable := by
  have hcroak : Copied t writable m unread ⟨t, writable, .answering m 1⟩ :=
    .croaked [] List.nil_prefix (.refl ..) rfl
  unfold copy_move
  split
  · exact ⟨hcroak, rfl⟩
  · split
    · rename_i hend
      split
      · exact ⟨hcroak, rfl⟩
      · split
        · exact ⟨hcroak, rfl⟩
        · exact ⟨.ended hend rfl rfl, rfl⟩
    · split
      · rename_i n _
        refine ⟨.croaked _ ?_ (modify_extended ..) rfl, rfl⟩
        exact (List.take_prefix n _).trans (List.take_prefix MSG_SIZE unread)
      · exact ⟨.copied (modify_extended ..) rfl, rfl⟩

/-! ### When a message does its work -/

/-- The fifo opens, no `mkdir` on the way to the target fails of itself and neither
does the rename. -/
structure Faults.Spares (f : Faults) (tgt : Path) : Prop where
  reply_fifo : f.reply_fifo = false
  mkdir : ∀ q, q <+: tgt → q ≠ tgt → f.mkdir q = false
  rename : f.rename = false

/-- No file is in the way of the target, and no directory has its path. -/
structure Reachable (t : Store) (tgt : Path) : Prop where
  ne_nil : tgt ≠ []
  no_file : ∀ q, q <+: tgt → q ≠ tgt → t.file? q = none
  no_dir : ∀ n, t.lstat tgt = some n → n.isDir = false

theorem Reachable.made {f : Faults} {t : Store} {tgt : Path} (h : Reachable t tgt)
    (hf : ∀ q, q <+: tgt → q ≠ tgt → f.mkdir q = false) : (make_paths f t [] tgt).2 = 0 ∧
      (make_paths f t [] tgt).1.HasParent tgt ∧
        ∀ n, (make_paths f t [] tgt).1.lstat tgt = some n → n.isDir = false := by
  obtain ⟨hzero, hpar⟩ := make_paths_ready [] h.ne_nil hf h.no_file ⟨_, t.lstat_nil⟩
  refine ⟨hzero, hpar, ?_⟩
  rcases (make_paths_added f t [] tgt).lstat tgt with hq | ⟨-, -, -, hne⟩
  · rw [hq]
    exact h.no_dir
  · exact absurd rfl hne

/-- The rename of a file to a path that is reachable, behind the loop of `mkdir`. -/
theorem Reachable.rename {f : Faults} {t : Store} {src tgt : Path} {b : Bytes} (ht : Reachable t tgt)
    (hf : f.Spares tgt) (hsrc : t.file? src = some b) (hne : src ≠ tgt) :
    ∃ t', (make_paths f t [] tgt).1.rename src tgt = .ok t' ∧ Placed t t' src tgt b := by
  obtain ⟨-, hpar, hdir⟩ := ht.made hf.mkdir
  have hadd : DirsAdded t (make_paths f t [] tgt).1 tgt := make_paths_added f t [] tgt
  have hsrc' := hadd.of_some (FileTree.file?_eq_some.mp hsrc)
  obtain ⟨t', h⟩ := FileTree.rename_of_file hsrc' hpar hdir
  obtain ⟨c, hc⟩ := rename_placed hne h
  cases hc.source.symm.trans (FileTree.file?_eq_some.mpr hsrc')
  exact ⟨t', h, hc.of_added hadd⟩

theorem rename_blob_places {f : Faults} {t : Store} (writable : List Path) {m : MoveRequest} {b : Bytes}
    (hf : f.Spares m.tgt_path) (ht : Reachable t m.tgt_path) (hsrc : t.file? m.src_path = some b)
    (hne : m.src_path ≠ m.tgt_path) : (rename_blob f t writable m).station = .placed m ∧
      Placed t (rename_blob f t writable m).tree m.src_path m.tgt_path b := by
  obtain ⟨t', h, hplaced⟩ := ht.rename hf hsrc hne
  have hrun : rename_blob f t writable m = ⟨t', writable.filter (· ≠ m.tgt_path), .placed m⟩ := by
    simp [rename_blob, hf.reply_fifo, (ht.made hf.mkdir).1, hf.rename, h]
  rw [hrun]
  exact ⟨rfl, hplaced⟩

theorem leaf_made {t t' : Store} {tgt : Path} (hadd : DirsAdded t t' tgt) (hpar : t'.HasParent tgt)
    (hlink : t.lstat tgt.dropLast ≠ some .link) : t'.lstat tgt.dropLast = some .dir := by
  have hany := hpar.2
  rcases hadd.lstat tgt.dropLast with hq | ⟨-, hq, -⟩
  · cases hn : t.lstat tgt.dropLast with
    | none => simp [hq, hn] at hany
    | some n => cases n <;> simp_all
  · exact hq

theorem move_blob_places {f : Faults} {t : Store} (writable : List Path) {m : MoveRequest} {b : Bytes}
    (hf : f.Spares m.tgt_path) (hstat : ∀ p, f.lstat p = false) (hdev : f.other_device = false)
    (ht : Reachable t m.tgt_path) (hlink : t.lstat m.tgt_path.dropLast ≠ some .link)
    (hsrc : t.file? m.src_path = some b) (hne : m.src_path ≠ m.tgt_path) :
    (move_blob f t writable m).station = .placed m ∧
      Placed t (move_blob f t writable m).tree m.src_path m.tgt_path b := by
  obtain ⟨t', h, hplaced⟩ := ht.rename hf hsrc hne
  obtain ⟨hzero, hpar, -⟩ := ht.made hf.mkdir
  have hadd : DirsAdded t (make_paths f t [] m.tgt_path).1 m.tgt_path := make_paths_added f t [] _
  have hsrc' := hadd.of_some (FileTree.file?_eq_some.mp hsrc)
  have hleaf := leaf_made hadd hpar hlink
  have hrun : move_blob f t writable m = ⟨t', writable.filter (· ≠ m.tgt_path), .placed m⟩ := by
    simp [move_blob, _move, hf.reply_fifo, hzero, hstat, hsrc', hleaf, hdev, hf.rename, h]
  rw [hrun]
  exact ⟨rfl, hplaced⟩

/-- Across devices the same move copies, unless a blob that is closed for writing is in the way. -/
theorem move_blob_across {f : Faults} {t : Store} (writable : List Path) {m : MoveRequest} {b : Bytes}
    (hfifo : f.reply_fifo = false) (hmk : ∀ p, f.mkdir p = false) (hstat : ∀ p, f.lstat p = false)
    (hdev : f.other_device = true) (hopen : f.open_src = false ∧ f.open_tgt = false) (ht : Reachable t m.tgt_path)
    (hlink : t.lstat m.tgt_path.dropLast ≠ some .link) (hsrc : t.file? m.src_path = some b) :
    (move_blob f t writable m).station =
      if (t.file? m.tgt_path).isSome ∧ m.tgt_path ∉ writable then .answering m 1 else .copying m b := by
  obtain ⟨hzero, hpar, hdir⟩ := ht.made fun q _ _ => hmk q
  have hadd : DirsAdded t (make_paths f t [] m.tgt_path).1 m.tgt_path := make_paths_added f t [] _
  have hsrc' := hadd.of_some (FileTree.file?_eq_some.mp hsrc)
  have hleaf := leaf_made hadd hpar hlink
  have hrun : move_blob f t writable m = _move f (make_paths f t [] m.tgt_path).1 writable m := by
    simp [move_blob, hfifo, hzero]
  rw [hrun, ← hadd.same.files]
  obtain ⟨t', h⟩ := FileTree.overwrite_of_hasParent (b := []) hpar hdir
  split
  · rename_i hclosed
    simp [_move, io_open_trunc, hstat, hsrc', hleaf, hdev, hopen.1, hclosed]
  · rename_i hfree
    simp [_move, io_open_trunc, hstat, hsrc', hleaf, hdev, hopen.1, hopen.2, hfree, h]

/-- A station that the arborist comes to when something has gone wrong. -/
def Station.fails : Station → Prop
  | .panicked => True
  | .answering _ payload => payload ≠ 0
  | _ => False

theorem rename_blob_fails {f : Faults} (t : Store) (writable : List Path) (m : MoveRequest) (hf : f.rename = true) :
    (rename_blob f t writable m).station.fails := by
  unfold rename_blob
  split
  · trivial
  · dsimp only
    split
    · rename_i h
      exact h
    · simp [faulty, hf, Station.fails]

/-- Before the loop of `_move` looks, a link stands where it wants a directory. -/
theorem move_blob_link {f : Faults} {t : Store} (writable : List Path) {m : MoveRequest}
    (hlink : t.lstat m.tgt_path.dropLast = some .link) : (move_blob f t writable m).station.fails := by
  have hleaf := (make_paths_added f t [] m.tgt_path).of_some hlink
  have hone : (1 : UInt8) ≠ 0 := by decide
  unfold move_blob
  split
  · trivial
  · dsimp only
    split
    · rename_i h
      exact h
    · unfold _move
      dsimp only
      simp only [hleaf]
      split
      · exact hone
      · split
        · split <;> exact hone
        · exact hone

/-- The conditions under which a request to move gets as far as the loop that copies. -/
structure Faults.Copies (f : Faults) (t : Store) (writable : List Path) (m : MoveRequest) : Prop where
  reply_fifo : f.reply_fifo = false
  mkdir : ∀ q, q <+: m.tgt_path → q ≠ m.tgt_path → q ≠ [] → f.mkdir q = false
  lstat : f.lstat m.src_path = false ∧ f.lstat m.tgt_path.dropLast = false
  leaf : t.lstat m.tgt_path.dropLast ≠ some .link
  other_device : f.other_device = true
  opens : f.open_src = false ∧ f.open_tgt = false
  target : t.file? m.tgt_path = none ∨ m.tgt_path ∈ writable

theorem make_path_spared {f : Faults} {t : Store} {p : Path} (h : (make_path f t p).2 = 0) :
    f.mkdir p = false := by
  by_contra hfails
  rw [Bool.not_eq_false] at hfails
  simp [make_path, faulty, hfails] at h

theorem make_paths_spared {f : Faults} {t : Store} {above tgt : Path} (h : (make_paths f t above tgt).2 = 0)
    {q : Path} (hq : q <+: tgt) (hne : q ≠ tgt) (hnil : q ≠ []) : f.mkdir (above ++ q) = false := by
  induction tgt generalizing t above q with
  | nil => exact absurd (List.prefix_nil.mp hq) hnil
  | cons c rest ih =>
    obtain ⟨d, q', rfl⟩ := List.exists_cons_of_ne_nil hnil
    obtain ⟨rfl, hq'⟩ := List.cons_prefix_cons.mp hq
    cases rest with
    | nil => exact absurd (congrArg _ (List.prefix_nil.mp hq')) hne
    | cons e rest =>
      simp only [make_paths] at h
      split at h
      · rename_i hfails
        exact absurd h hfails
      · rename_i hmade
        rw [not_not] at hmade
        by_cases hend : q' = []
        · exact hend ▸ make_path_spared hmade
        · have hrest := ih h hq' (fun heq => hne (by rw [heq])) hend
          rwa [List.append_assoc] at hrest

/-- A move that has begun to copy had nothing against it. -/
theorem move_blob_copies {f : Faults} {t : Store} {writable : List Path} {m m' : MoveRequest} {b : Bytes}
    (h : (move_blob f t writable m).station = .copying m' b) : f.Copies t writable m := by
  have hadd := make_paths_added f t [] m.tgt_path
  unfold move_blob at h
  split at h
  · cases h
  · rename_i hfifo
    dsimp only at h
    split at h
    · cases h
    · rename_i hmade
      rw [not_not] at hmade
      unfold _move at h
      dsimp only at h
      split at h
      · cases h
      · rename_i hsrc
        split at h
        · split at h
          · cases h
          · rename_i hleaf
            split at h
            · rename_i hdir
              split at h
              · rename_i hdev
                split at h
                · cases h
                · rename_i hopen
                  split at h
                  · cases h
                  · rename_i t' htgt
                    obtain ⟨hfree, -⟩ := io_open_trunc_ok htgt
                    have hopened : f.open_tgt = false := by
                      by_contra hfails
                      rw [Bool.not_eq_false] at hfails
                      unfold io_open_trunc at htgt
                      split at htgt <;> simp [faulty, hfails] at htgt
                    refine ⟨by simpa using hfifo, fun q hq hne hnil => ?_, by simp_all, fun hlink => ?_, hdev,
                      ⟨by simpa using hopen, hopened⟩, hadd.same.files m.tgt_path ▸ hfree⟩
                    · simpa using make_paths_spared hmade hq hne hnil
                    · cases hdir.symm.trans (hadd.of_some hlink)
              · split at h <;> cases h
            · cases h
        · cases h

/-! ### Trimming -/

theorem Trimmed.refl (t : Store) : Trimmed t t := ⟨fun _ => .inl rfl, fun _ h => absurd rfl h⟩

theorem Trimmed.same {t t' : Store} (h : Trimmed t t') : SameFiles t t' := by
  refine ⟨fun q => ?_⟩
  rcases h.lstat q with hq | ⟨hdir, hnone⟩
  · exact FileTree.file?_congr hq
  · simp [FileTree.file?, hdir, hnone]

theorem Trimmed.trans {t u v : Store} (h : Trimmed t u) (h' : Trimmed u v) : Trimmed t v := by
  refine ⟨fun q => ?_, fun q hne r b hqr => ?_⟩
  · rcases h.lstat q with hu | ⟨hdir, hnone⟩
    · rw [← hu]
      exact h'.lstat q
    · rcases h'.lstat q with hv | ⟨hdir', -⟩
      · exact .inr ⟨hdir, hv.trans hnone⟩
      · simp [hnone] at hdir'
  · by_cases hu : u.lstat q = t.lstat q
    · rw [← h.same.files r]
      exact h'.hollow q (hu ▸ hne) r b hqr
    · exact h.hollow q hu r b hqr

theorem rmdir_trimmed {t t' : Store} {p : Path} (h : t.rmdir p = .ok t') : Trimmed t t' := by
  obtain ⟨hdir, honly, hst⟩ := FileTree.rmdir_ok h
  refine ⟨fun q => ?_, fun q hne r b hqr hr => ?_⟩
  · by_cases hq : q = p
    · subst hq
      exact .inr ⟨hdir, by simp [hst]⟩
    · exact .inl (by simp [hst, hq])
  · have hq : q = p := by
      by_contra hq
      exact hne (by simp [hst, hq])
    subst hq
    have hrq := honly r _ (FileTree.file?_eq_some.mp hr) hqr
    subst hrq
    simp [FileTree.file?_eq_some, hdir] at hr

theorem zap_trimmed (f : Faults) (t : Store) (count : ℕ) (up : Path) :
    Trimmed t (zap f t count up).1 := by
  induction up generalizing t count with
  | nil => exact .refl t
  | cons c up ih =>
    unfold zap
    split
    · exact .refl t
    · split
      · exact .refl t
      · exact .refl t
      · exact ih t count
    · exact .refl t
    · rename_i t' h
      have hone := rmdir_trimmed (faulty_ok h)
      split
      · exact hone
      · exact hone
      · exact hone.trans (ih t' (count + 1))

/-- Only a move copies. -/
theorem receive_copies {f : Faults} {t : Store} {writable : List Path} {msg : Message} {m : MoveRequest} {b : Bytes}
    (h : (receive f t writable msg).station = .copying m b) : ∃ m', msg = .M m' ∧ f.Copies t writable m' := by
  cases msg with
  | M m' => exact ⟨m', rfl, move_blob_copies h⟩
  | R m' =>
    simp only [receive, rename_blob] at h
    split at h
    · cases h
    · split at h
      · cases h
      · split at h <;> cases h
  | T dir =>
    simp only [receive] at h
    split at h <;> cases h

theorem receive_received (f : Faults) (t : Store) (writable : List Path) {m : Message} {r : MoveRequest}
    (hm : m.move? = some r) (hne : r.src_path ≠ r.tgt_path) :
    Received t writable r (receive f t writable m) := by
  cases m <;> cases hm
  · exact rename_blob_received f t writable hne
  · exact move_blob_received f t writable hne

theorem receive_trimmed (f : Faults) (t : Store) (writable : List Path) (dir : Path) :
    Trimmed t (receive f t writable (.T dir)).tree ∧ (receive f t writable (.T dir)).writable = writable ∧
      ((receive f t writable (.T dir)).station = .waiting ∨ (receive f t writable (.T dir)).station = .panicked) := by
  refine ⟨zap_trimmed f t 0 dir.reverse, rfl, ?_⟩
  unfold receive
  dsimp only
  split
  · exact .inr rfl
  · exact .inl rfl

/-- What a turn of the arborist may do, by what it is at. -/
inductive ArboristTurn (t : Store) (writable : List Path) (station : Station) (pipe rest : List Message)
    (h : Handled) : Prop
  | received (msg : Message) (m : MoveRequest) (hst : station = .waiting) (hpipe : pipe = msg :: rest)
      (hm : msg.move? = some m) (hr : Received t writable m h)
  | trimmed (dir : Path) (hst : station = .waiting) (hpipe : pipe = .T dir :: rest)
      (htree : Trimmed t h.tree) (hw : h.writable = writable)
      (hstation : h.station = .waiting ∨ h.station = .panicked)
  | chmod_failed (m : MoveRequest) (hst : station = .placed m) (hrest : rest = pipe) (htree : h.tree = t)
      (hw : h.writable = writable) (hstation : h.station = .answering m 1)
  | chmodded (m : MoveRequest) (hst : station = .placed m) (hrest : rest = pipe)
      (hthere : t.lstat m.tgt_path ≠ none) (htree : h.tree = t)
      (hw : h.writable = writable.filter (· ≠ m.tgt_path)) (hstation : h.station = .answering m 0)
  | copied (m : MoveRequest) (unread : Bytes) (hst : station = .copying m unread) (hrest : rest = pipe)
      (hw : h.writable = writable) (hc : Copied t writable m unread h)
  | replied (m : MoveRequest) (payload : UInt8) (hst : station = .answering m payload) (hrest : rest = pipe)
      (htree : h.tree = t) (hw : h.writable = writable)
      (hstation : payload = 0 ∧ h.station = .waiting ∨ h.station = .panicked)

theorem arborist_turn {f : Faults} {t : Store} {writable : List Path} {station : Station}
    {pipe rest : List Message} {h : Handled} (harb : arborist f t writable station pipe = some (h, rest))
    (hne : ∀ msg ∈ pipe, ∀ m, msg.move? = some m → m.src_path ≠ m.tgt_path) :
    ArboristTurn t writable station pipe rest h := by
  unfold arborist at harb
  split at harb
  · rename_i msg rest'
    cases harb
    cases hm : msg.move? with
    | some m => exact .received msg m rfl rfl hm (receive_received f t writable hm (hne msg List.mem_cons_self m hm))
    | none =>
      cases msg <;> cases hm
      rename_i dir
      obtain ⟨htree, hw, hstation⟩ := receive_trimmed f t writable dir
      exact .trimmed dir rfl rfl htree hw hstation
  · cases harb
  · cases harb
  · rename_i m
    cases harb
    unfold chmod_blob
    split
    · exact .chmod_failed m rfl rfl rfl rfl rfl
    · rename_i hgood
      exact .chmodded m rfl rfl (fun hnone => hgood (.inr hnone)) rfl rfl rfl
  · rename_i m unread
    cases harb
    obtain ⟨hc, hw⟩ := copy_move_copied f t writable m unread
    exact .copied m unread rfl rfl hw hc
  · rename_i m payload
    cases harb
    unfold bye
    split
    · exact .replied m payload rfl rfl rfl rfl (.inr rfl)
    · refine .replied m payload rfl rfl rfl rfl ?_
      dsimp only
      split
      · exact .inl ⟨by assumption, rfl⟩
      · exact .inr rfl

theorem rmdir_of_dir {t : Store} {p : Path} (hp : p ≠ []) (h : t.lstat p = some .dir) :
    t.rmdir p = .error .ENOTEMPTY ∨ ∃ t', t.rmdir p = .ok t' := by
  simp only [FileTree.rmdir, FileTree.hasParent_of_lstat hp h, if_true, h]
  split
  · exact .inr ⟨_, rfl⟩
  · exact .inl rfl

/-- From a directory that is there the loop climbs without a panic. -/
theorem zap_of_dir {f : Faults} (hrm : ∀ p, f.rmdir p = false) (hst : ∀ p, f.lstat p = false)
    (t : Store) (count : ℕ) {up : Path} (hne : up ≠ []) (h : t.lstat up.reverse = some .dir) :
    (zap f t count up).2.2 = false := by
  induction up generalizing t count with
  | nil => exact absurd rfl hne
  | cons c up ih =>
    have hp : (c :: up).reverse ≠ [] := by simp
    unfold zap
    rw [hrm, faulty_false]
    rcases rmdir_of_dir hp h with herr | ⟨t', hok⟩
    · rw [herr]
    · rw [hok]
      dsimp only
      by_cases hup : up = []
      · simp [look_up, hup]
      · have hkeep : t'.lstat up.reverse = t.lstat up.reverse := by
          rw [(FileTree.rmdir_ok hok).2.2, if_neg]
          intro heq
          simpa using congrArg List.length heq
        obtain ⟨m, hm, hd⟩ := FileTree.isDir_above (p := up.reverse) (by simp) (by simp) h
        rw [← hkeep] at hm
        cases m with
        | dir => simpa [look_up, hup, hst, hm] using ih t' (count + 1) hup hm
        | link => simp [look_up, hup, hst, hm]
        | file b => simp at hd

/-- A trim goes through when it finds the leaf directory, or its parent where the
leaf was. -/
def TrimFinds (t : Store) (dir_path : Path) : Prop :=
  t.lstat dir_path = some .dir ∨
    t.lstat dir_path = none ∧ (t.lstat dir_path.dropLast).any Node.isDir

theorem trim_panics_iff {f : Faults} (hrm : ∀ p, f.rmdir p = false) (hst : ∀ p, f.lstat p = false)
    (t : Store) {q : Path} {c : Text} (hq : q ≠ []) :
    (trim_blob_dir f t (q ++ [c])).2.2 = false ↔ TrimFinds t (q ++ [c]) := by
  have hrev : q.reverse ≠ [] := by simpa
  have hpar : t.HasParent (q ++ [c]) ↔ (t.lstat q).any Node.isDir := by
    simp [FileTree.HasParent]
  have hunfold : trim_blob_dir f t (q ++ [c]) = zap f t 0 (c :: q.reverse) := by
    simp [trim_blob_dir]
  cases hleaf : t.lstat (q ++ [c]) with
  | none =>
    by_cases hany : (t.lstat q).any Node.isDir
    · have hrmdir : t.rmdir (q ++ [c]) = .error .ENOENT := by
        simp [FileTree.rmdir, hpar, hany, hleaf]
      refine iff_of_true ?_ (.inr ⟨hleaf, by simpa using hany⟩)
      rw [hunfold]
      unfold zap
      simp only [List.reverse_cons, List.reverse_reverse, hrm, faulty_false, hrmdir]
      cases hm : t.lstat q with
      | none => simp [hm] at hany
      | some m =>
        cases m with
        | dir =>
          have hz := zap_of_dir hrm hst t 0 hrev (by simpa using hm)
          simpa [look_up, hq, hst, hm] using hz
        | link => simp [look_up, hq, hst, hm]
        | file b => simp [hm] at hany
    · refine iff_of_false ?_ ?_
      · have hrmdir : t.rmdir (q ++ [c]) = .error (t.searchErrno (q ++ [c])) := by
          simp [FileTree.rmdir, hpar, hany]
        rw [hunfold]
        unfold zap
        simp only [List.reverse_cons, List.reverse_reverse, hrm, faulty_false, hrmdir]
        rcases t.searchErrno_cases (q ++ [c]) with he | ⟨he, hfile⟩
        · simp [he]
        · have hm : t.lstat q = none := by
            have hq := hfile q (by simp)
            cases hm : t.lstat q with
            | none => rfl
            | some m => cases m <;> simp_all [FileTree.file?]
          simp [he, look_up, hq, hst, hm]
      · rintro (h | ⟨-, h⟩)
        · simp [hleaf] at h
        · exact hany (by simpa using h)
  | some n =>
    have hp := FileTree.hasParent_of_lstat (by simp) hleaf
    cases n with
    | dir =>
      refine iff_of_true ?_ (.inl hleaf)
      rw [hunfold]
      exact zap_of_dir hrm hst t 0 (by simp) (by simpa using hleaf)
    | link | file =>
      have hrmdir : t.rmdir (q ++ [c]) = .error .ENOTDIR := by
        simp [FileTree.rmdir, hp, hleaf]
      refine iff_of_false ?_ ?_
      · rw [hunfold]
        unfold zap
        simp [hrm, hrmdir]
      · simp [TrimFinds, hleaf]

/-! ### The shape of the blob store -/

/-- Only blobs are files under `data`, and no directory has a blob's path. -/
structure StoreShape (t : Store) : Prop where
  no_file : ∀ (u : Udig) q, q <+: u.path → q ≠ u.path → t.file? q = none
  no_dir : ∀ (u : Udig) n, t.lstat u.path = some n → n.isDir = false

theorem StoreShape.reachable {t : Store} (h : StoreShape t) (u : Udig) : Reachable t u.path :=
  ⟨by simp [Udig.path, blob_path, blob_dir_path], h.no_file u, h.no_dir u⟩

theorem not_prefix_path {u v : Udig} {q : Path} (hq : q <+: v.path) (hne : q ≠ v.path) :
    q ≠ u.path := by
  rintro rfl
  exact hne (hq.eq_of_length (by simp))

theorem StoreShape.of_placed {t t' : Store} {src : Path} {u : Udig} {b : Bytes} (h : StoreShape t)
    (hp : Placed t t' src u.path b) : StoreShape t' where
  no_file v q hq hne := by
    rcases hp.others q (not_prefix_path hq hne) with hsame | ⟨hnone, -⟩
    · rw [hsame, h.no_file v q hq hne]
    · exact hnone
  no_dir v n hn := by
    by_contra hdir
    rw [Bool.not_eq_false] at hdir
    rcases hp.dirs v.path n hn hdir with hold | ⟨hpre, hne⟩
    · simp [h.no_dir v n hold] at hdir
    · exact not_prefix_path hpre hne rfl

theorem StoreShape.of_opened {t t' : Store} {u : Udig} (h : StoreShape t) (hp : Opened t t' u.path) :
    StoreShape t' where
  no_file v q hq hne := by rw [hp.others q (not_prefix_path hq hne), h.no_file v q hq hne]
  no_dir v n hn := by
    by_contra hdir
    rw [Bool.not_eq_false] at hdir
    rcases hp.dirs v.path n hn hdir with hold | ⟨hpre, hne⟩
    · simp [h.no_dir v n hold] at hdir
    · exact not_prefix_path hpre hne rfl

theorem StoreShape.of_extended {t t' : Store} {u : Udig} {piece : Bytes} (h : StoreShape t)
    (hp : Extended t t' u.path piece) : StoreShape t' where
  no_file v q hq hne := by
    rw [FileTree.file?_congr (hp.others q (not_prefix_path hq hne)), h.no_file v q hq hne]
  no_dir v n hn := by
    by_contra hdir
    rw [Bool.not_eq_false] at hdir
    by_cases hv : v.path = u.path
    · rw [hv] at hn
      simp [h.no_dir u n (hp.dirs n hn hdir)] at hdir
    · simp [h.no_dir v n (hp.others v.path hv ▸ hn)] at hdir

theorem StoreShape.of_added {t t' : Store} {u : Udig} (h : StoreShape t)
    (hp : DirsAdded t t' u.path) : StoreShape t' where
  no_file v q hq hne := by rw [hp.same.files, h.no_file v q hq hne]
  no_dir v n hn := by
    rcases hp.lstat v.path with hold | ⟨-, -, hpre, hne⟩
    · exact h.no_dir v n (hold ▸ hn)
    · exact absurd rfl (not_prefix_path hpre hne)

theorem StoreShape.of_trimmed {t t' : Store} (h : StoreShape t) (hp : Trimmed t t') :
    StoreShape t' where
  no_file v q hq hne := by rw [hp.same.files, h.no_file v q hq hne]
  no_dir v n hn := by
    rcases hp.lstat v.path with hold | ⟨-, hnone⟩
    · exact h.no_dir v n (hold ▸ hn)
    · simp [hnone] at hn

theorem head?_of_prefix_path {u : Udig} {q : Path} (hq : q <+: u.path) (hne : q ≠ []) :
    q.head? = some data := by
  obtain ⟨r, hr⟩ := hq
  rw [← List.head?_append_of_ne_nil q hne, hr, u.head?_path]

/-- A tree that differs from another outside the store, or in entries that are gone. -/
theorem StoreShape.mono {t t' : Store} (h : StoreShape t)
    (hst : ∀ q, q.head? = some data → t'.lstat q = t.lstat q ∨ t'.lstat q = none) :
    StoreShape t' where
  no_file v q hq hne := by
    by_cases hnil : q = []
    · simp [hnil, FileTree.file?]
    · rcases hst q (head?_of_prefix_path hq hnil) with hsame | hnone
      · rw [FileTree.file?_congr hsame, h.no_file v q hq hne]
      · simp [FileTree.file?, hnone]
  no_dir v n hn := by
    rcases hst v.path v.head?_path with hsame | hnone
    · exact h.no_dir v n (hsame ▸ hn)
    · simp [hnone] at hn

/-- The directories a blobio root has when the server first starts. -/
def fresh_store : Store :=
  FileTree.ofDirs [[data], [spool], wrap_dir, ["tmp".toList]]

theorem fresh_store_shape : StoreShape fresh_store where
  no_file u q _ _ := by
    rw [FileTree.file?_eq_none]
    intro b hb
    cases (FileTree.lstat_ofDirs hb).1
  no_dir u n hn := by
    have hshort : ∀ p ∈ ([[data], [spool], wrap_dir, ["tmp".toList]] : List Path), p.length ≠ 5 := by
      decide
    exfalso
    rcases (FileTree.lstat_ofDirs hn).2 with h | h
    · simpa [h] using u.length_path
    · exact hshort _ h u.length_path

end Blobio
