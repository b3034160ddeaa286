import Blobio.FsHistories
import Blobio.FsPaths
import Blobio.RollBlobs

/-! The roll of the client's file system service: each line of the roll blob goes into a path, and
the file there is removed before the next line is looked at. -/
namespace Blobio.FsRolls
open FileTrees RollBlobs WrapSets TerminatedLines
open FsService (Library)

inductive Err
  | errno (e : FileTrees.Errno)
  | text (t : Text)
  deriving DecidableEq

/-- What `fs_roll` returns, and the file system behind it. -/
abbrev Result := Option Err × Store

/-- `jmscott_split`: the offsets of the separators in a text, where there is room for them all. The
end of the text may count for one. -/
structure Split where
  split : Text → Char → ℕ → Except Text (List ℕ)
  full : ∀ s sep n, n < s.count sep → ∃ err, split s sep n = .error err
  offsets : ∀ s sep n, s.count sep ≤ n →
    ∃ last, split s sep n = .ok (s.idxsOf sep ++ last) ∧ (last = [] ∨ last = [s.length])

/-- The directory behind `end_point_fd` in a file system, and where `..` leads in a directory that
has been reached through a link. -/
structure EndPoint where
  root : Path
  outside : Path → Path

section calls
variable (e : EndPoint) (t : Store)

/-- A component of a path before the last one. -/
def EndPoint.walk (d : Path) (name : Text) : Except Errno Path :=
  if name = [] ∨ name = ".".toList then .ok d
  else if name = "..".toList then .ok (if t.lstat d = some .link then e.outside d else d.dropLast)
  else
    match t.lstat (d ++ [name]) with
    | none => .error .ENOENT
    | some (.file _) => .error .ENOTDIR
    | some _ => .ok (d ++ [name])

/-- With a link goes what could be reached through it. -/
def EndPoint.unlinkat (path : Text) : Except Errno Store :=
  let names := path.splitOn '/'
  match names.dropLast.foldlM (e.walk t) e.root with
  | .error err => .error err
  | .ok d =>
    let name := names.getLast?.getD []
    if name = [] ∨ name = ".".toList ∨ name = "..".toList then .error .EISDIR
    else
      match t.lstat (d ++ [name]) with
      | none => .error .ENOENT
      | some .dir => .error .EISDIR
      | some _ => .ok (t.prune (d ++ [name]))

/-- The file at a path of `fs_blob_path`, up to its null. -/
def EndPoint.roll_blob (m : DigestModule) (d : Digest) : Except Err Bytes :=
  match fs_blob_path m d with
  | .error err => .error (.text err)
  | .ok path =>
    let roll_path := e.root ++ components (path.takeWhile (· ≠ '\x00'))
    match t.lstat roll_path with
    | none =>
      if t.searchErrno roll_path = .ENOENT then .error (.text "roll blob does not exist".toList)
      else .error (.errno (t.searchErrno roll_path))
    | some (.file blob) => .ok blob
    | some _ => .error (.errno .EISDIR)

end calls

variable (lib : Library) (sp : Split) (e : EndPoint)

def strcat3 (size : ℕ) (tgt a b c : Text) : Text :=
  lib.strcat size (lib.strcat size (lib.strcat size tgt a) b) c

def wrap_path (udig : Text) : Text :=
  strcat3 lib (max_fs_path.toNat + 1) [] "spool/wrap/".toList udig ".brr".toList

/-- The loop over the offsets; the null that ends a udig is written over its newline. -/
def unlink_wraps (roll_blob : Text) : List ℕ → ℕ → Store → Result
  | [], _, t => (none, t)
  | o :: roll_offset, prev_o, t =>
    if roll_blob[o]? ≠ some '\n' then (some (.text "udig set: char at offset not 0x0a".toList), t)
    else
      let udig := (roll_blob.take o).drop prev_o
      if udig = [] then (some (.text "empty udig".toList), t)
      else if udig.length < 34 then (some (.text "wrap udig < 34 chars".toList), t)
      else
        match e.unlinkat t (wrap_path lib udig) with
        | .error .ENOENT => unlink_wraps roll_blob roll_offset (o + 1) t
        | .error err => (some (.errno err), t)
        | .ok t' => unlink_wraps roll_blob roll_offset (o + 1) t'

/-- `16 * 1024`, the size of `roll_offset` -/
def max_roll_offset : ℕ := 16 * 1024

/-- The blob as a string of C, which a null in it ends. -/
def roll_text (blob : Bytes) : Text :=
  (chars blob).takeWhile (· ≠ '\x00')

/-- The roll, for the digest in the udig of the blob. -/
def fs_roll (m : DigestModule) (d : Digest) (t : Store) : Result :=
  match e.roll_blob t m d with
  | .error err => (some err, t)
  | .ok blob =>
    match sp.split (roll_text blob) '\n' max_roll_offset with
    | .error err => (some (.text err), t)
    | .ok [] => (some (.text "no udigs in roll set".toList), t)
    | .ok roll_offset => unlink_wraps lib e (roll_text blob) roll_offset 0 t

/-! ### What a roll is to do -/

/-- The file of a udig in `spool/wrap`. -/
def EndPoint.wrap_file (udig : Text) : Path :=
  e.root ++ wrap_dir ++ [udig ++ ".brr".toList]

/-- There is something to unlink. -/
def IsFile (t : Store) (p : Path) : Prop :=
  ∃ n, t.lstat p = some n ∧ n ≠ .dir

/-- A set as the server's parser has it, in which each udig names a file. -/
def IsSet (blob : Bytes) : Prop :=
  WellFormed (chars blob) ∧ '/' ∉ chars blob

/-- The files at these paths are removed, with what is reached through them, and nothing else. -/
structure RemovesExactly (t t' : Store) (files : Path → Prop) : Prop where
  gone : ∀ p q, files p → p <+: q → t'.lstat q = none
  kept : ∀ q, (∀ p, files p → ¬ p <+: q) → t'.lstat q = t.lstat q

/-- The files of the udigs of a set are removed, and of any other blob none is. -/
def RollsRight (m : DigestModule) (d : Digest) (t : Store) : Prop :=
  ∀ blob, e.roll_blob t m d = .ok blob →
    RemovesExactly t (fs_roll lib sp e m d t).2 fun p =>
      IsSet blob ∧ IsFile t p ∧ ∃ udig ∈ complete '\n' (chars blob), p = e.wrap_file udig

/-! ### The lines -/

/-- The lines that `fs_roll` goes through. -/
def roll_lines (blob : Bytes) : List Text :=
  if max_roll_offset < (roll_text blob).count '\n' then [] else complete '\n' (roll_text blob)

/-- The roll goes on behind the line. -/
def Passes (t : Store) (l : Text) : Prop :=
  34 ≤ l.length ∧ ∀ err, e.unlinkat t (wrap_path lib l) = .error err → err = .ENOENT

/-- The roll looks for the file of the line, where all lines before it have passed. -/
def Reaches (t : Store) (lines : List Text) (l : Text) : Prop :=
  34 ≤ l.length ∧ ∃ before behind, lines = before ++ l :: behind ∧ ∀ x ∈ before, Passes lib e t x

/-- The path of the line leads to a file, wherever that is. -/
def Finds (t : Store) (l : Text) : Prop :=
  ∃ t', e.unlinkat t (wrap_path lib l) = .ok t'

/-- The loop, line by line. -/
def unlink_lines : List Text → Store → Store
  | [], t => t
  | l :: lines, t =>
    if l.length < 34 then t
    else
      match e.unlinkat t (wrap_path lib l) with
      | .error .ENOENT => unlink_lines lines t
      | .error _ => t
      | .ok t' => unlink_lines lines t'

variable {lib sp e} {t t' : Store} {l : Text} {lines : List Text} {files files' : Path → Prop}

theorem RemovesExactly.none (hfiles : ∀ p, ¬ files p) :
    RemovesExactly t t' files ↔ ∀ q, t'.lstat q = t.lstat q := by
  constructor
  · intro h q
    exact h.kept q fun p hp => absurd hp (hfiles p)
  · intro h
    exact ⟨fun p q hp _ => absurd hp (hfiles p), fun q _ => h q⟩

theorem RemovesExactly.congr (h : ∀ p, files p ↔ files' p) (hr : RemovesExactly t t' files) :
    RemovesExactly t t' files' :=
  ⟨fun p q hp => hr.gone p q ((h p).mpr hp), fun q hq => hr.kept q fun p hp => hq p ((h p).mp hp)⟩

theorem removes_prune {p : Path} (hp : p ≠ []) : RemovesExactly t (t.prune p) (· = p) := by
  refine ⟨?_, ?_⟩
  · rintro p' q rfl hpq
    rw [FileTree.lstat_prune t hp, if_pos hpq]
  · intro q hq
    rw [FileTree.lstat_prune t hp, if_neg (hq p rfl)]

/-- A file that is removed later was there before. -/
theorem RemovesExactly.trans {t'' : Store} (h : RemovesExactly t t' files)
    (h' : RemovesExactly t' t'' files') : RemovesExactly t t'' fun p => files p ∨ files' p := by
  have hnone : ∀ q, t'.lstat q = Option.none → t''.lstat q = Option.none := by
    intro q hq
    by_cases hex : ∃ p, files' p ∧ p <+: q
    · obtain ⟨p, hp, hpq⟩ := hex
      exact h'.gone p q hp hpq
    · rw [h'.kept q fun p hp hpq => hex ⟨p, hp, hpq⟩]
      exact hq
  refine ⟨?_, ?_⟩
  · rintro p q (hp | hp) hpq
    · exact hnone q (h.gone p q hp hpq)
    · exact h'.gone p q hp hpq
  · intro q hq
    rw [h'.kept q fun p hp => hq p (.inr hp), h.kept q fun p hp => hq p (.inl hp)]

/-! ### The loop -/

theorem unlink_wraps_wrong {blob : Text} {o prev_o : ℕ} {offsets : List ℕ} (h : blob[o]? ≠ some '\n') :
    (unlink_wraps lib e blob (o :: offsets) prev_o t).2 = t := by
  simp only [unlink_wraps, if_pos h]

theorem unlink_wraps_cons {blob : Text} {o prev_o : ℕ} {offsets : List ℕ} (h : blob[o]? = some '\n')
    (hl : (blob.take o).drop prev_o = l) :
    (unlink_wraps lib e blob (o :: offsets) prev_o t).2 =
      if l.length < 34 then t
      else
        match e.unlinkat t (wrap_path lib l) with
        | .error .ENOENT => (unlink_wraps lib e blob offsets (o + 1) t).2
        | .error _ => t
        | .ok t' => (unlink_wraps lib e blob offsets (o + 1) t').2 := by
  simp only [unlink_wraps, h, ne_eq, not_true_eq_false, if_false, hl]
  by_cases hnil : l = []
  · simp [hnil]
  · rw [if_neg hnil]
    by_cases hlen : l.length < 34
    · rw [if_pos hlen, if_pos hlen]
    · rw [if_neg hlen, if_neg hlen]
      split <;> rfl

theorem idxsOf_of_not_mem {c : Char} (h : c ∉ l) (n : ℕ) : l.idxsOf c n = [] := by
  rw [List.idxsOf_eq_nil_iff]
  intro x hx
  rw [beq_eq_false_iff_ne]
  rintro rfl
  exact h hx

/-- The offsets cut the text into its lines. -/
theorem unlink_wraps_lines {blob done rest : Text} {last : List ℕ} (hlines : ∀ l ∈ lines, '\n' ∉ l)
    (hblob : blob = done ++ (terminated '\n' lines ++ rest)) (hlast : ∀ o ∈ last, blob[o]? ≠ some '\n') :
    (unlink_wraps lib e blob ((terminated '\n' lines).idxsOf '\n' done.length ++ last) done.length t).2 =
      unlink_lines lib e lines t := by
  induction lines generalizing done t with
  | nil =>
    cases last with
    | nil => rfl
    | cons o last => exact unlink_wraps_wrong (hlast o List.mem_cons_self)
  | cons l lines ih =>
    rw [List.forall_mem_cons] at hlines
    have hdone : (done ++ l ++ ['\n']).length = done.length + l.length + 1 := by
      rw [List.length_append, List.length_append, List.length_singleton]
    have hoffsets : (terminated '\n' (l :: lines)).idxsOf '\n' done.length =
        (done.length + l.length) ::
          (terminated '\n' lines).idxsOf '\n' (done ++ l ++ ['\n']).length := by
      rw [hdone, terminated_cons, List.idxsOf_append, List.idxsOf_append, idxsOf_of_not_mem hlines.1]
      simp [Nat.add_assoc]
    have hnext : blob = done ++ l ++ ['\n'] ++ (terminated '\n' lines ++ rest) := by
      simp [hblob, terminated_cons]
    have hchar : blob[done.length + l.length]? = some '\n' := by
      rw [hnext, ← List.length_append, List.append_assoc]
      exact List.getElem?_append_right (Nat.le_refl _) |>.trans (by simp)
    have hudig : (blob.take (done.length + l.length)).drop done.length = l := by
      rw [hnext, ← List.length_append, List.append_assoc, List.take_left, List.drop_left]
    rw [hoffsets, List.cons_append, unlink_wraps_cons hchar hudig, unlink_lines, ← hdone]
    split_ifs
    · rfl
    · split
      · exact ih hlines.2 hnext
      · rfl
      · exact ih hlines.2 hnext

/-- The offsets of a text whose rest has no newline. -/
theorem fs_roll_eq {m : DigestModule} {d : Digest} {blob : Bytes} (h : e.roll_blob t m d = .ok blob) :
    (fs_roll lib sp e m d t).2 = unlink_lines lib e (roll_lines blob) t := by
  obtain ⟨htext, hlines, hrest⟩ := terminated_complete '\n' (roll_text blob)
  simp only [fs_roll, h, roll_lines]
  by_cases hfull : max_roll_offset < (roll_text blob).count '\n'
  · obtain ⟨err, herr⟩ := sp.full _ _ _ hfull
    rw [herr, if_pos hfull]
    rfl
  · obtain ⟨last, hsplit, hlast⟩ := sp.offsets _ _ _ (Nat.not_lt.mp hfull)
    have hend : ∀ o ∈ last, (roll_text blob)[o]? ≠ some '\n' := by
      rcases hlast with rfl | rfl
      · exact fun o ho => absurd ho List.not_mem_nil
      · intro o ho
        rw [List.mem_singleton.mp ho, List.getElem?_length]
        exact fun heq => by cases heq
    have hidxs : (roll_text blob).idxsOf '\n' =
        (terminated '\n' (complete '\n' (roll_text blob))).idxsOf '\n' := by
      conv_lhs => rw [← htext]
      rw [List.idxsOf_append, idxsOf_of_not_mem hrest, List.append_nil]
    have hrun : (unlink_wraps lib e (roll_text blob) ((roll_text blob).idxsOf '\n' ++ last) 0 t).2 =
        unlink_lines lib e (complete '\n' (roll_text blob)) t := by
      rw [hidxs]
      have hblob : roll_text blob = [] ++ (terminated '\n' (complete '\n' (roll_text blob)) ++
          unfinished '\n' (roll_text blob)) := htext.symm
      exact unlink_wraps_lines hlines hblob hend
    rw [hsplit, if_neg hfull, ← hrun]
    cases (roll_text blob).idxsOf '\n' ++ last with
    | nil => rfl
    | cons o offsets => rfl

/-! ### Blobs that are no sets -/

/-- What is removed is something else than a directory. -/
theorem unlinkat_ok {path : Text} (h : e.unlinkat t path = .ok t') :
    ∃ p, p ≠ [] ∧ IsFile t p ∧ t' = t.prune p := by
  simp only [EndPoint.unlinkat] at h
  split at h
  · cases h
  · split_ifs at h
    split at h
    · cases h
    · cases h
    · rename_i d _ _ n hn hdir
      cases h
      exact ⟨_, by simp, ⟨_, hdir, hn⟩, rfl⟩

/-- No line brings anything back. -/
theorem unlink_lines_none (lines : List Text) {q : Path} (h : t.lstat q = none) :
    (unlink_lines lib e lines t).lstat q = none := by
  induction lines generalizing t with
  | nil => exact h
  | cons l lines ih =>
    rw [unlink_lines]
    split_ifs
    · exact h
    · split
      · exact ih h
      · exact h
      · rename_i t' ht'
        obtain ⟨p, hp, -, rfl⟩ := unlinkat_ok ht'
        refine ih ?_
        rw [FileTree.lstat_prune t hp, h, ite_self]

theorem reaches_cons {x : Text} : Reaches lib e t (l :: lines) x ↔
    (34 ≤ l.length ∧ x = l) ∨ (Passes lib e t l ∧ Reaches lib e t lines x) := by
  constructor
  · rintro ⟨hlen, before, behind, heq, hpass⟩
    cases before with
    | nil =>
      cases heq
      exact .inl ⟨hlen, rfl⟩
    | cons y before =>
      cases heq
      rw [List.forall_mem_cons] at hpass
      exact .inr ⟨hpass.1, hlen, before, behind, rfl, hpass.2⟩
  · rintro (⟨hlen, rfl⟩ | ⟨hl, hlen, before, behind, rfl, hpass⟩)
    · exact ⟨hlen, [], lines, rfl, fun y hy => absurd hy List.not_mem_nil⟩
    · exact ⟨hlen, l :: before, behind, rfl, List.forall_mem_cons.mpr ⟨hl, hpass⟩⟩

theorem not_reaches_nil {x : Text} : ¬ Reaches lib e t [] x := by
  rintro ⟨-, before, behind, heq, -⟩
  cases before <;> cases heq

theorem Reaches.mem {x : Text} (h : Reaches lib e t lines x) : x ∈ lines := by
  obtain ⟨-, before, behind, rfl, -⟩ := h
  exact List.mem_append_right _ List.mem_cons_self

/-- Nothing is removed if and only if no line that is reached finds a file. -/
theorem unlink_lines_kept_iff : (∀ q, (unlink_lines lib e lines t).lstat q = t.lstat q) ↔
    ∀ x, Reaches lib e t lines x → ¬ Finds lib e t x := by
  induction lines with
  | nil => exact iff_of_true (fun _ => rfl) fun x hx => absurd hx not_reaches_nil
  | cons l lines ih =>
    simp only [reaches_cons, unlink_lines]
    by_cases hlen : l.length < 34
    · simp only [if_pos hlen]
      refine iff_of_true (fun _ => trivial) ?_
      rintro x (⟨hle, -⟩ | ⟨⟨hle, -⟩, -⟩)
      · omega
      · omega
    · rw [if_neg hlen]
      cases hcall : e.unlinkat t (wrap_path lib l) with
      | ok t' =>
        obtain ⟨p, hp, ⟨n, hn, -⟩, rfl⟩ := unlinkat_ok hcall
        refine iff_of_false ?_ ?_
        · intro h
          have hgone : (t.prune p).lstat p = none := by
            rw [FileTree.lstat_prune t hp, if_pos (List.prefix_refl p)]
          have hkept := h p
          rw [hn] at hkept
          exact absurd ((unlink_lines_none lines hgone).symm.trans hkept) (by simp)
        · intro h
          exact h l (.inl ⟨Nat.not_lt.mp hlen, rfl⟩) ⟨_, hcall⟩
      | error err =>
        have hfinds : ¬ Finds lib e t l := by
          rintro ⟨t', ht'⟩
          rw [hcall] at ht'
          cases ht'
        have hhead : (∀ x, (34 ≤ l.length ∧ x = l) ∨ (Passes lib e t l ∧ Reaches lib e t lines x) →
            ¬ Finds lib e t x) ↔
            (Passes lib e t l → ∀ x, Reaches lib e t lines x → ¬ Finds lib e t x) := by
          constructor
          · exact fun h hl x hx => h x (.inr ⟨hl, hx⟩)
          · rintro h x (⟨-, rfl⟩ | ⟨hl, hx⟩)
            · exact hfinds
            · exact h hl x hx
        rw [hhead]
        by_cases herr : err = .ENOENT
        · subst herr
          have hl : Passes lib e t l := by
            refine ⟨Nat.not_lt.mp hlen, fun err herr => ?_⟩
            rw [hcall] at herr
            exact (Except.error.inj herr).symm
          rw [imp_iff_right hl]
          exact ih
        · have hl : ¬ Passes lib e t l := fun hl => herr (hl.2 err hcall)
          refine iff_of_true ?_ fun h => absurd h hl
          intro q
          cases err <;> first | rfl | exact absurd rfl herr

/-! ### Sets -/

theorem strcat3_eq {size : ℕ} {tgt a b c : Text} (h : (tgt ++ a ++ b ++ c).length < size) :
    strcat3 lib size tgt a b c = tgt ++ a ++ b ++ c := by
  simp only [List.length_append] at h
  have hstep : ∀ u v : Text, u.length + v.length < size → lib.strcat size u v = u ++ v := by
    intro u v huv
    rw [lib.strcat_eq _ _ _ (by omega), List.take_of_length_le]
    rw [List.length_append]
    omega
  rw [strcat3, hstep tgt a (by omega), hstep _ b (by rw [List.length_append]; omega),
    hstep _ c (by simp only [List.length_append]; omega)]

/-- The udig fits in the buffer and is the name of a file. -/
def IsName (l : Text) : Prop :=
  '/' ∉ l ∧ l.length ≤ 240

theorem wrap_path_names (h : IsName l) :
    (wrap_path lib l).splitOn '/' = [spool, "wrap".toList, l ++ ".brr".toList] := by
  have hpath : wrap_path lib l = spool ++ '/' :: ("wrap".toList ++ '/' :: (l ++ ".brr".toList)) := by
    rw [wrap_path, strcat3_eq]
    · rfl
    · have hsize : max_fs_path.toNat = 255 := rfl
      have hl := h.2
      simp only [List.length_append, List.length_nil, hsize]
      simp
      omega
  have hname : '/' ∉ l ++ ".brr".toList := by
    rw [List.mem_append, not_or]
    exact ⟨h.1, by decide⟩
  rw [hpath, List.splitOn_append_cons_self_of_not_mem (by decide),
    List.splitOn_append_cons_self_of_not_mem (by decide), List.splitOn_eq_singleton hname]

/-- The search up to `spool/wrap`. -/
def EndPoint.reach_wraps (e : EndPoint) (t : Store) : Except Errno Path :=
  [spool, "wrap".toList].foldlM (e.walk t) e.root

theorem walk_cases {d : Path} {name : Text} (h : ¬ (name = [] ∨ name = ".".toList) ∧ name ≠ "..".toList) :
    e.walk t d name =
      match t.lstat (d ++ [name]) with
      | none => .error .ENOENT
      | some (.file _) => .error .ENOTDIR
      | some _ => .ok (d ++ [name]) := by
  rw [EndPoint.walk, if_neg h.1, if_neg h.2]

theorem walk_ok {d d' : Path} {name : Text}
    (hname : ¬ (name = [] ∨ name = ".".toList) ∧ name ≠ "..".toList) (h : e.walk t d name = .ok d') :
    d' = d ++ [name] := by
  rw [walk_cases hname] at h
  split at h
  · cases h
  · cases h
  · exact (Except.ok.inj h).symm

theorem reach_wraps_ok {d : Path} (h : e.reach_wraps t = .ok d) : d = e.root ++ wrap_dir := by
  rw [EndPoint.reach_wraps, List.foldlM_cons] at h
  cases hspool : e.walk t e.root spool with
  | error err =>
    rw [hspool] at h
    cases h
  | ok d' =>
    rw [hspool] at h
    obtain rfl := walk_ok (by decide) hspool
    cases hwrap : e.walk t (e.root ++ [spool]) "wrap".toList with
    | error err =>
      have h : (e.walk t (e.root ++ [spool]) "wrap".toList >>= pure) = .ok d := h
      rw [hwrap] at h
      cases h
    | ok d' =>
      have h : (e.walk t (e.root ++ [spool]) "wrap".toList >>= pure) = .ok d := h
      rw [hwrap] at h
      cases h
      rw [walk_ok (by decide) hwrap, List.append_assoc]
      rfl

theorem unlinkat_name (h : IsName l) : e.unlinkat t (wrap_path lib l) =
    match e.reach_wraps t with
    | .error err => .error err
    | .ok _ =>
      match t.lstat (e.wrap_file l) with
      | none => .error .ENOENT
      | some .dir => .error .EISDIR
      | some _ => .ok (t.prune (e.wrap_file l)) := by
  have hlen : 4 ≤ (l ++ ".brr".toList).length := by
    rw [List.length_append]
    exact Nat.le_add_left _ _
  have hname : ¬ (l ++ ".brr".toList = [] ∨ l ++ ".brr".toList = ".".toList ∨
      l ++ ".brr".toList = "..".toList) := by
    rintro (heq | heq | heq) <;> exact absurd (heq ▸ hlen) (by decide)
  simp only [EndPoint.unlinkat, wrap_path_names h]
  have hdirs : [spool, "wrap".toList, l ++ ".brr".toList].dropLast.foldlM (e.walk t) e.root =
      e.reach_wraps t := rfl
  rw [hdirs]
  cases hd : e.reach_wraps t with
  | error err => rfl
  | ok d =>
    obtain rfl := reach_wraps_ok hd
    exact if_neg hname

theorem wrap_file_ne_nil (l : Text) : e.wrap_file l ≠ [] := by
  simp [EndPoint.wrap_file]

theorem wrap_file_injective {l l' : Text} (h : e.wrap_file l = e.wrap_file l') : l = l' := by
  simpa [EndPoint.wrap_file] using h

theorem prefix_wrap_file {l l' : Text} (h : e.wrap_file l <+: e.wrap_file l') : l = l' :=
  wrap_file_injective (h.eq_of_length (by simp [EndPoint.wrap_file]))

theorem unlinkat_file (hl : IsName l) (h : IsFile t (e.wrap_file l)) :
    e.unlinkat t (wrap_path lib l) = .ok (t.prune (e.wrap_file l)) := by
  obtain ⟨n, hn, hdir⟩ := h
  have hreach : e.reach_wraps t = .ok (e.root ++ wrap_dir) := by
    have habove : ∀ p, p <+: e.wrap_file l → p ≠ e.wrap_file l → ∃ m, t.lstat p = some m ∧ m.isDir :=
      fun p hp hne => FileTree.isDir_above hp hne hn
    have hstep : ∀ (d : Path) (name : Text), ¬ (name = [] ∨ name = ".".toList) ∧ name ≠ "..".toList →
        d ++ [name] <+: e.wrap_file l → d ++ [name] ≠ e.wrap_file l →
        e.walk t d name = .ok (d ++ [name]) := by
      intro d name hname hpre hne
      obtain ⟨m, hm, hisdir⟩ := habove _ hpre hne
      rw [walk_cases hname, hm]
      cases m with
      | file b => cases hisdir
      | dir => rfl
      | link => rfl
    have hspool := hstep e.root spool (by decide)
      ⟨["wrap".toList, l ++ ".brr".toList], by simp [EndPoint.wrap_file, wrap_dir]⟩
      (by simp [EndPoint.wrap_file, wrap_dir])
    have hwrap := hstep (e.root ++ [spool]) "wrap".toList (by decide)
      ⟨[l ++ ".brr".toList], by simp [EndPoint.wrap_file, wrap_dir]⟩
      (by simp [EndPoint.wrap_file, wrap_dir])
    rw [EndPoint.reach_wraps, List.foldlM_cons, hspool]
    show (e.walk t (e.root ++ [spool]) "wrap".toList >>= pure) = _
    rw [hwrap, List.append_assoc]
    rfl
  rw [unlinkat_name hl, hreach, hn]
  cases n with
  | dir => exact absurd rfl hdir
  | link => rfl
  | file b => rfl

theorem isFile_of_unlinkat (hl : IsName l) (h : e.unlinkat t (wrap_path lib l) = .ok t') :
    IsFile t (e.wrap_file l) ∧ t' = t.prune (e.wrap_file l) := by
  rw [unlinkat_name hl] at h
  split at h
  · cases h
  · split at h
    · cases h
    · cases h
    · rename_i n hn hdir
      cases h
      exact ⟨⟨_, hdir, hn⟩, rfl⟩

section siblings
variable {l' : Text} (hne : l ≠ l')
include hne

theorem lstat_sibling : (t.prune (e.wrap_file l)).lstat (e.wrap_file l') = t.lstat (e.wrap_file l') := by
  rw [FileTree.lstat_prune t (wrap_file_ne_nil l), if_neg fun h => hne (prefix_wrap_file h)]

theorem isFile_sibling : IsFile (t.prune (e.wrap_file l)) (e.wrap_file l') ↔ IsFile t (e.wrap_file l') := by
  rw [IsFile, lstat_sibling hne, IsFile]

end siblings

theorem reach_wraps_prune : e.reach_wraps (t.prune (e.wrap_file l)) = e.reach_wraps t := by
  have hwalk : ∀ (d : Path) (name : Text), ¬ (name = [] ∨ name = ".".toList) ∧ name ≠ "..".toList →
      (d ++ [name]).length < (e.wrap_file l).length →
      e.walk (t.prune (e.wrap_file l)) d name = e.walk t d name := by
    intro d name hname hlen
    rw [walk_cases hname, walk_cases hname, FileTree.lstat_prune t (wrap_file_ne_nil l), if_neg]
    intro hpre
    exact absurd hpre.length_le (Nat.not_le.mpr hlen)
  have hlen : (e.wrap_file l).length = e.root.length + 3 := by simp [EndPoint.wrap_file, wrap_dir]
  rw [EndPoint.reach_wraps, EndPoint.reach_wraps, List.foldlM_cons, List.foldlM_cons,
    hwalk e.root spool (by decide) (by rw [hlen, List.length_append]; simp)]
  cases hspool : e.walk t e.root spool with
  | error err => rfl
  | ok d =>
    obtain rfl := walk_ok (by decide) hspool
    have hwrap := hwalk (e.root ++ [spool]) "wrap".toList (by decide)
      (by rw [hlen, List.length_append, List.length_append]; simp)
    show (e.walk (t.prune (e.wrap_file l)) (e.root ++ [spool]) "wrap".toList >>= pure) = _
    rw [hwrap]
    rfl

/-- The line of another udig fares as before. -/
theorem passes_sibling {l' : Text} (hne : l ≠ l') (hl' : IsName l') :
    Passes lib e (t.prune (e.wrap_file l)) l' ↔ Passes lib e t l' := by
  rw [Passes, Passes, unlinkat_name hl', unlinkat_name hl', reach_wraps_prune, lstat_sibling hne]
  refine and_congr_right fun _ => ?_
  cases e.reach_wraps t with
  | error err => rfl
  | ok d =>
    cases t.lstat (e.wrap_file l') with
    | none => rfl
    | some n => cases n <;> simp

theorem reaches_sibling {x : Text} (hnot : l ∉ lines) (hnames : ∀ l' ∈ lines, IsName l') :
    Reaches lib e (t.prune (e.wrap_file l)) lines x ↔ Reaches lib e t lines x := by
  refine and_congr_right fun _ => exists_congr fun before => exists_congr fun behind =>
    and_congr_right fun heq => ?_
  refine forall₂_congr fun y hy => ?_
  have hmem : y ∈ lines := heq ▸ List.mem_append_left _ hy
  exact passes_sibling (fun h => hnot (h ▸ hmem)) (hnames y hmem)

/-- Of names the roll removes the files that it reaches. -/
theorem unlink_lines_removes (hnodup : lines.Nodup) (hnames : ∀ l ∈ lines, IsName l) :
    RemovesExactly t (unlink_lines lib e lines t) fun p =>
      IsFile t p ∧ ∃ l, Reaches lib e t lines l ∧ p = e.wrap_file l := by
  induction lines generalizing t with
  | nil =>
    rw [RemovesExactly.none]
    · exact fun _ => rfl
    · rintro p ⟨-, l, hl, -⟩
      exact not_reaches_nil hl
  | cons l lines ih =>
    rw [List.nodup_cons] at hnodup
    rw [List.forall_mem_cons] at hnames
    rw [unlink_lines]
    by_cases hlen : l.length < 34
    · rw [if_pos hlen, RemovesExactly.none]
      · exact fun _ => rfl
      · rintro p ⟨-, x, hx, -⟩
        rw [reaches_cons] at hx
        rcases hx with ⟨hle, -⟩ | ⟨⟨hle, -⟩, -⟩
        · omega
        · omega
    · rw [if_neg hlen]
      cases hcall : e.unlinkat t (wrap_path lib l) with
      | ok t' =>
        obtain ⟨hfile, rfl⟩ := isFile_of_unlinkat hnames.1 hcall
        have hpass : Passes lib e t l := ⟨Nat.not_lt.mp hlen, fun err herr => by rw [hcall] at herr; cases herr⟩
        refine ((removes_prune (wrap_file_ne_nil l)).trans (ih hnodup.2 hnames.2)).congr fun p => ?_
        constructor
        · rintro (rfl | ⟨hp, x, hx, rfl⟩)
          · exact ⟨hfile, l, reaches_cons.mpr (.inl ⟨Nat.not_lt.mp hlen, rfl⟩), rfl⟩
          · rw [reaches_sibling hnodup.1 hnames.2] at hx
            have hne : l ≠ x := fun h => hnodup.1 (h ▸ hx.mem)
            exact ⟨(isFile_sibling hne).mp hp, x, reaches_cons.mpr (.inr ⟨hpass, hx⟩), rfl⟩
        · rintro ⟨hp, x, hx, rfl⟩
          rcases reaches_cons.mp hx with ⟨-, rfl⟩ | ⟨-, hx⟩
          · exact .inl rfl
          · have hne : l ≠ x := fun h => hnodup.1 (h ▸ hx.mem)
            exact .inr ⟨(isFile_sibling hne).mpr hp, x, (reaches_sibling hnodup.1 hnames.2).mpr hx, rfl⟩
      | error err =>
        have hnot : ¬ IsFile t (e.wrap_file l) := by
          intro hfile
          rw [unlinkat_file hnames.1 hfile] at hcall
          cases hcall
        by_cases herr : err = .ENOENT
        · subst herr
          have hpass : Passes lib e t l := by
            refine ⟨Nat.not_lt.mp hlen, fun err herr => ?_⟩
            rw [hcall] at herr
            exact (Except.error.inj herr).symm
          refine (ih hnodup.2 hnames.2).congr fun p => and_congr_right fun hp => ?_
          constructor
          · rintro ⟨x, hx, rfl⟩
            exact ⟨x, reaches_cons.mpr (.inr ⟨hpass, hx⟩), rfl⟩
          · rintro ⟨x, hx, rfl⟩
            rcases reaches_cons.mp hx with ⟨-, rfl⟩ | ⟨-, hx⟩
            · exact absurd hp hnot
            · exact ⟨x, hx, rfl⟩
        · have hstop : (match (Except.error err : Except Errno Store) with
              | .error .ENOENT => unlink_lines lib e lines t
              | .error _ => t
              | .ok t' => unlink_lines lib e lines t') = t := by
            cases err <;> first | rfl | exact absurd rfl herr
          rw [hstop, RemovesExactly.none]
          · exact fun _ => rfl
          · rintro p ⟨hp, x, hx, rfl⟩
            rcases reaches_cons.mp hx with ⟨-, rfl⟩ | ⟨hpass, -⟩
            · exact hnot hp
            · exact herr (hpass.2 err hcall)

/-- The lines of a set are names, and its text goes up to its end. -/
theorem lines_of_set {blob : Bytes} (h : IsSet blob) : roll_text blob = chars blob ∧
    (complete '\n' (chars blob)).Nodup ∧ ∀ l ∈ complete '\n' (chars blob), IsName l := by
  obtain ⟨⟨lines, heq, hnodup, hudigs⟩, hslash⟩ := h
  have hcomplete : complete '\n' (chars blob) = lines := by
    rw [heq]
    exact (complete_terminated (newlines_of_udigLines hudigs)).1
  have hmem : ∀ l ∈ lines, ∀ c ∈ l, c ∈ chars blob := by
    intro l hl c hc
    rw [heq, terminated, List.mem_flatMap]
    exact ⟨l, hl, List.mem_append_left _ hc⟩
  rw [hcomplete]
  refine ⟨?_, hnodup, fun l hl => ⟨fun hc => hslash (hmem l hl _ hc), ?_⟩⟩
  · rw [roll_text, List.takeWhile_eq_self_iff]
    intro c hc
    rw [decide_eq_true_eq]
    rintro rfl
    rw [heq, terminated, List.mem_flatMap] at hc
    obtain ⟨l, hl, hc⟩ := hc
    obtain ⟨a, d, hline⟩ := hudigs l hl
    rw [List.mem_append, hline.text, List.mem_append, List.mem_cons] at hc
    rcases hc with (hc | hc | hc) | hc
    · exact absurd (hline.graphic _ hc).1 (by decide)
    · exact absurd hc (by decide)
    · exact absurd (hline.graphic_digest _ hc) (by decide)
    · exact absurd (List.mem_singleton.mp hc) (by decide)
  · obtain ⟨a, d, hline⟩ := hudigs l hl
    have hsizes : MAX_ALGORITHM_SIZE + (MAX_DIGEST_SIZE + 1) ≤ 240 := by decide
    have hshort := hline.short
    have hlength := hline.length.2
    rw [hline.text, List.length_append, List.length_cons]
    omega

theorem roll_removes_of_set {m : DigestModule} {d : Digest} {blob : Bytes}
    (hblob : e.roll_blob t m d = .ok blob) (h : IsSet blob) :
    RemovesExactly t (fs_roll lib sp e m d t).2 fun p =>
      IsFile t p ∧ ∃ l, Reaches lib e t (roll_lines blob) l ∧ p = e.wrap_file l := by
  obtain ⟨htext, hnodup, hnames⟩ := lines_of_set h
  rw [fs_roll_eq hblob]
  refine unlink_lines_removes ?_ ?_
  · rw [roll_lines, htext]
    split_ifs
    · exact List.nodup_nil
    · exact hnodup
  · intro l hl
    rw [roll_lines, htext] at hl
    split_ifs at hl
    · exact absurd hl List.not_mem_nil
    · exact hnames l hl

/-- A set fares right where the roll gets to each line whose file is there, any other blob where it
gets to no line whose path leads to a file. -/
theorem rolls_right_iff (lib : Library) (sp : Split) (e : EndPoint) (m : DigestModule) (d : Digest)
    (t : Store) : RollsRight lib sp e m d t ↔ ∀ blob, e.roll_blob t m d = .ok blob →
      (IsSet blob → ∀ udig ∈ complete '\n' (chars blob), IsFile t (e.wrap_file udig) →
        Reaches lib e t (roll_lines blob) udig) ∧
      (¬ IsSet blob → ∀ l, Reaches lib e t (roll_lines blob) l → ¬ Finds lib e t l) := by
  refine forall₂_congr fun blob hblob => ?_
  by_cases hset : IsSet blob
  · have hremoves := @roll_removes_of_set lib sp e t m d blob hblob hset
    simp only [hset, true_and, not_true_eq_false, false_imp_iff, and_true, true_imp_iff]
    constructor
    · intro h udig hudig hfile
      by_contra hnot
      have hkept := hremoves.kept (e.wrap_file udig) (by
        rintro p ⟨-, l, hl, rfl⟩ hpre
        exact hnot (prefix_wrap_file hpre ▸ hl))
      rw [h.gone _ _ ⟨hfile, udig, hudig, rfl⟩ (List.prefix_refl _)] at hkept
      obtain ⟨n, hn, -⟩ := hfile
      rw [hn] at hkept
      cases hkept
    · intro h
      refine hremoves.congr fun p => and_congr_right fun hp => ?_
      constructor
      · rintro ⟨l, hl, rfl⟩
        have hmem := hl.mem
        rw [roll_lines, (lines_of_set hset).1] at hmem
        split_ifs at hmem
        · exact absurd hmem List.not_mem_nil
        · exact ⟨l, hmem, rfl⟩
      · rintro ⟨udig, hudig, rfl⟩
        exact ⟨udig, h udig hudig hp, rfl⟩
  · rw [RemovesExactly.none fun p hp => hset hp.1, fs_roll_eq hblob, unlink_lines_kept_iff]
    simp [hset]

/-! ### A line that is no udig -/

def listed_udig : Text := "sha:a3f5c1d2e4b60798a1b2c3d4e5f60718293a4b5c".toList

def spoiled_set : Bytes :=
  (listed_udig ++ "\nno udig\n".toList).map fun c => UInt8.ofNat c.toNat

def spoiled_digest : Digest :=
  ⟨"48ca44a6c0d47e452282bdd2c9a48d13037d34bb".toList, by decide, by decide⟩

def blobs : Path := [data, "fs_sha".toList, "48c".toList, "a44".toList]

/-- The set among the blobs, and the log of its first line in `spool/wrap`. -/
def spoiled_store : Store :=
  let dirs : Store := FileTree.ofDirs [[data], [data, "fs_sha".toList], [data, "fs_sha".toList, "48c".toList],
    blobs, [spool], wrap_dir]
  let stored := (dirs.overwrite (blobs ++ [spoiled_digest.chars]) spoiled_set).toOption.getD dirs
  (stored.overwrite (wrap_dir ++ [listed_udig ++ ".brr".toList]) [10]).toOption.getD stored

def counting : Split where
  split s sep n := if n < s.count sep then .error "too many".toList else .ok (s.idxsOf sep)
  full s sep n h := ⟨_, if_pos h⟩
  offsets s sep n h := ⟨[], by rw [if_neg (Nat.not_lt.mpr h), List.append_nil], .inl rfl⟩

def plain_root : EndPoint := ⟨[], id⟩

theorem spoiled_set_no_set : ¬ IsSet spoiled_set := by
  rintro ⟨⟨lines, heq, -, hudigs⟩, -⟩
  have hchars : chars spoiled_set = terminated '\n' [listed_udig, "no udig".toList] := by decide
  have hlines : lines = [listed_udig, "no udig".toList] :=
    terminated_injective (newlines_of_udigLines hudigs) (by decide) (heq.symm.trans hchars)
  obtain ⟨a, d, hline⟩ := hudigs "no udig".toList (by rw [hlines]; simp)
  have hcolon : ':' ∈ "no udig".toList := by
    rw [hline.text]
    simp
  exact absurd hcolon (by decide)

/-- The log of the first line is gone before the second line is looked at. -/
theorem spoiled_set_removes : ¬ ∀ lib sp e m d t, RollsRight lib sp e m d t := by
  intro h
  have hblob : plain_root.roll_blob spoiled_store .sha spoiled_digest = .ok spoiled_set := by rfl
  have hgone : (fs_roll FsService.cutting counting plain_root .sha spoiled_digest spoiled_store).2.lstat
      (wrap_dir ++ [listed_udig ++ ".brr".toList]) = none := by rfl
  have hkept := (RemovesExactly.none fun p hp => spoiled_set_no_set hp.1).mp
    (h FsService.cutting counting plain_root .sha spoiled_digest spoiled_store spoiled_set hblob)
    (wrap_dir ++ [listed_udig ++ ".brr".toList])
  rw [hgone] at hkept
  have hthere : spoiled_store.lstat (wrap_dir ++ [listed_udig ++ ".brr".toList]) = some (.file [10]) := by
    rfl
  rw [hthere] at hkept
  cases hkept

end Blobio.FsRolls
