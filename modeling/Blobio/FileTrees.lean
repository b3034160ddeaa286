import Mathlib.Data.List.AList
import Mathlib.Data.List.Infix

/-! Directory trees as the system calls on relative paths see them: every entry
lies in a directory, and a file holds its bytes as one value. -/
namespace FileTrees

variable {ν β : Type*}

/-- `link` is a symbolic link to a directory kept elsewhere: path searches pass
through it, and only `rmdir` and `lstat` tell it from a directory. A link itself is
never removed or replaced. -/
inductive Node (β : Type*)
  | dir
  | link
  | file (content : β)
  deriving DecidableEq

def Node.isDir : Node β → Bool
  | .dir | .link => true
  | .file _ => false

@[simp] theorem Node.isDir_dir : (Node.dir : Node β).isDir = true := rfl
@[simp] theorem Node.isDir_link : (Node.link : Node β).isDir = true := rfl
@[simp] theorem Node.isDir_file (b : β) : (Node.file b).isDir = false := rfl

inductive Errno
  | ENOENT
  | ENOTDIR
  | EEXIST
  | EISDIR
  | ENOTEMPTY
  | ENOSPC
  | EACCES
  deriving DecidableEq

abbrev Entries (ν β : Type*) := AList fun _ : List ν => Node β

variable [DecidableEq ν]

/-- The empty path is the directory the paths are relative to. -/
def Entries.at (t : Entries ν β) (p : List ν) : Option (Node β) :=
  if p = [] then some .dir else t.lookup p

/-- The entries without the path and whatever lies below it. -/
def Entries.prune (t : Entries ν β) (p : List ν) : Entries ν β :=
  ⟨t.entries.filter fun e => ¬ p <+: e.1, t.nodupKeys.sublist List.filter_sublist⟩

theorem Entries.lookup_prune (t : Entries ν β) (p q : List ν) :
    (t.prune p).lookup q = if p <+: q then none else t.lookup q := by
  ext n
  rw [← Option.mem_def, AList.mem_lookup_iff]
  split
  · rename_i h
    simpa [prune] using fun _ => h
  · rename_i h
    rw [← Option.mem_def, AList.mem_lookup_iff]
    simp [prune, h]

theorem Entries.at_eq_lookup (t : Entries ν β) {p : List ν} (h : p ≠ []) : t.at p = t.lookup p :=
  if_neg h

structure FileTree (ν β : Type*) [DecidableEq ν] where
  entries : Entries ν β
  rooted : ∀ p c n, entries.lookup (p ++ [c]) = some n → ∃ m, entries.at p = some m ∧ m.isDir

namespace FileTree

def lstat (t : FileTree ν β) (p : List ν) : Option (Node β) :=
  t.entries.at p

def file? (t : FileTree ν β) (p : List ν) : Option β :=
  match t.lstat p with
  | some (.file b) => some b
  | _ => none

/-- The path's parent is a directory. -/
def HasParent (t : FileTree ν β) (p : List ν) : Prop :=
  p ≠ [] ∧ (t.lstat p.dropLast).any Node.isDir

instance (t : FileTree ν β) (p : List ν) : Decidable (t.HasParent p) :=
  inferInstanceAs (Decidable (_ ∧ _))

/-- The error of a search that does not reach the path's parent. -/
def searchErrno (t : FileTree ν β) (p : List ν) : Errno :=
  if p.dropLast.inits.any fun q => (t.file? q).isSome then .ENOTDIR else .ENOENT

@[simp] theorem lstat_nil (t : FileTree ν β) : t.lstat [] = some .dir := rfl

theorem file?_eq_some {t : FileTree ν β} {p : List ν} {b : β} :
    t.file? p = some b ↔ t.lstat p = some (.file b) := by
  unfold file?
  split <;> simp_all

theorem file?_eq_none {t : FileTree ν β} {p : List ν} :
    t.file? p = none ↔ ∀ b, t.lstat p ≠ some (.file b) := by
  rw [Option.eq_none_iff_forall_ne_some]
  simp only [ne_eq, file?_eq_some]

theorem file?_congr {t u : FileTree ν β} {p : List ν} (h : t.lstat p = u.lstat p) :
    t.file? p = u.file? p := by
  simp only [file?, h]

theorem hasParent_of_lstat {t : FileTree ν β} {p : List ν} {n : Node β} (hp : p ≠ [])
    (h : t.lstat p = some n) : t.HasParent p := by
  obtain ⟨q, c, rfl⟩ := List.eq_nil_or_concat p |>.resolve_left hp
  rw [List.concat_eq_append] at *
  obtain ⟨m, hm, hd⟩ := t.rooted q c n (by simpa [lstat, Entries.at] using h)
  exact ⟨hp, by simp [lstat, hm, hd]⟩

/-- Every proper prefix of a present path is a directory. -/
theorem isDir_above {t : FileTree ν β} {p q : List ν} {n : Node β} (hpq : p <+: q)
    (hne : p ≠ q) (h : t.lstat q = some n) : ∃ m, t.lstat p = some m ∧ m.isDir := by
  obtain ⟨r, rfl⟩ := hpq
  induction r using List.reverseRecOn generalizing n with
  | nil => simp at hne
  | append_singleton r c ih =>
    rw [← List.append_assoc] at h
    obtain ⟨m, hm, hd⟩ := t.rooted (p ++ r) c n (by simpa only [lstat, Entries.at,
      List.append_eq_nil_iff, List.cons_ne_nil, and_false, if_false] using h)
    rcases List.eq_nil_or_concat r with rfl | ⟨s, d, rfl⟩
    · exact ⟨m, by rwa [List.append_nil] at hm, hd⟩
    · exact ih (by simp) hm

theorem eq_of_prefix_of_file {t : FileTree ν β} {p q : List ν} {b : β} {n : Node β}
    (hp : t.lstat p = some (.file b)) (hpq : p <+: q) (hq : t.lstat q = some n) : p = q := by
  by_contra hne
  obtain ⟨m, hm, hd⟩ := isDir_above hpq hne hq
  cases hp.symm.trans hm
  simp at hd

def empty : FileTree ν β where
  entries := ∅
  rooted p c n h := by simp at h

def prune (t : FileTree ν β) (p : List ν) : FileTree ν β where
  entries := t.entries.prune p
  rooted q c n h := by
    rw [Entries.lookup_prune] at h
    split at h
    · cases h
    · rename_i hpre
      obtain ⟨m, hm, hd⟩ := t.rooted q c n h
      have hq : ¬ p <+: q := fun hp => hpre (hp.trans (List.prefix_append q [c]))
      refine ⟨m, ?_, hd⟩
      by_cases hnil : q = []
      · simpa [Entries.at, hnil] using hm
      · rw [Entries.at_eq_lookup _ hnil, Entries.lookup_prune, if_neg hq,
          ← Entries.at_eq_lookup _ hnil, hm]

/-- The tree with a node at a path whose parent is a directory. -/
def set (t : FileTree ν β) (p : List ν) (n : Node β) (hp : t.HasParent p)
    (hn : ∀ m, t.lstat p = some m → m.isDir → n.isDir) : FileTree ν β where
  entries := t.entries.insert p n
  rooted q c k h := by
    have hkeep : ∀ m, t.lstat q = some m → m.isDir → q ≠ p →
        ∃ m, Entries.at (t.entries.insert p n) q = some m ∧ m.isDir := by
      intro m hm hd hqp
      refine ⟨m, ?_, hd⟩
      by_cases hnil : q = []
      · simpa [lstat, Entries.at, hnil] using hm
      · rw [Entries.at_eq_lookup _ hnil, AList.lookup_insert_ne hqp]
        simpa only [lstat, Entries.at_eq_lookup _ hnil] using hm
    by_cases hpc : q ++ [c] = p
    · obtain ⟨m, hm, hd⟩ : ∃ m, t.lstat q = some m ∧ m.isDir := by
        simpa [← hpc, Option.any_eq_true] using hp.2
      exact hkeep m (by simpa using hm) hd fun h => by simp [h] at hpc
    · rw [AList.lookup_insert_ne hpc] at h
      obtain ⟨m, hm, hd⟩ := t.rooted q c k h
      by_cases hqp : q = p
      · subst hqp
        exact ⟨n, by rw [Entries.at_eq_lookup _ hp.1, AList.lookup_insert], hn m hm hd⟩
      · exact hkeep m hm hd hqp

theorem lstat_prune (t : FileTree ν β) {p : List ν} (hp : p ≠ []) (q : List ν) :
    (t.prune p).lstat q = if p <+: q then none else t.lstat q := by
  by_cases hq : q = []
  · subst hq
    simp [hp]
  · simp only [lstat, Entries.at_eq_lookup _ hq]
    exact Entries.lookup_prune t.entries p q

theorem lstat_set (t : FileTree ν β) {p : List ν} {n : Node β} (hp : t.HasParent p)
    (hn : ∀ m, t.lstat p = some m → m.isDir → n.isDir) (q : List ν) :
    (t.set p n hp hn).lstat q = if q = p then some n else t.lstat q := by
  split
  · rename_i h
    rw [h, lstat, Entries.at_eq_lookup _ hp.1]
    exact AList.lookup_insert _
  · rename_i h
    by_cases hq : q = []
    · simp [hq]
    · simp only [lstat, Entries.at_eq_lookup _ hq]
      exact AList.lookup_insert_ne h

theorem file?_set (t : FileTree ν β) {p : List ν} {n : Node β} (hp : t.HasParent p)
    (hn : ∀ m, t.lstat p = some m → m.isDir → n.isDir) {q : List ν} (hq : q ≠ p) :
    (t.set p n hp hn).file? q = t.file? q :=
  file?_congr (by rw [lstat_set, if_neg hq])

/-- Removing a file removes nothing else. -/
theorem lstat_prune_file {t : FileTree ν β} {p : List ν} {b : β} (h : t.lstat p = some (.file b))
    (q : List ν) : (t.prune p).lstat q = if q = p then none else t.lstat q := by
  have hp : p ≠ [] := by
    rintro rfl
    simp at h
  rw [lstat_prune t hp]
  by_cases hpq : p <+: q
  · rw [if_pos hpq]
    cases hq : t.lstat q with
    | none => simp
    | some n => rw [eq_of_prefix_of_file h hpq hq, if_pos rfl]
  · rw [if_neg hpq, if_neg fun (h : q = p) => hpq (h ▸ List.prefix_refl p)]

section calls
variable (t : FileTree ν β)

/-- The directory's only entry is the directory itself. -/
def EmptyDir (p : List ν) : Prop :=
  ∀ e ∈ t.entries.entries, p <+: e.1 → e.1 = p

instance (p : List ν) : Decidable (t.EmptyDir p) :=
  inferInstanceAs (Decidable (∀ e ∈ t.entries.entries, _))

def mkdir (p : List ν) : Except Errno (FileTree ν β) :=
  if hp : t.HasParent p then
    match h : t.lstat p with
    | some _ => .error .EEXIST
    | none => .ok (t.set p .dir hp (by simp [h]))
  else .error (t.searchErrno p)

/-- `open` with `O_CREAT|O_EXCL`. -/
def create (p : List ν) (b : β) : Except Errno (FileTree ν β) :=
  if hp : t.HasParent p then
    match h : t.lstat p with
    | some _ => .error .EEXIST
    | none => .ok (t.set p (.file b) hp (by simp [h]))
  else .error (t.searchErrno p)

/-- `open` with `O_CREAT|O_TRUNC`, and the bytes then written to the file. -/
def overwrite (p : List ν) (b : β) : Except Errno (FileTree ν β) :=
  if hp : t.HasParent p then
    if hn : ∃ m, t.lstat p = some m ∧ m.isDir then .error .EISDIR
    else .ok (t.set p (.file b) hp fun m h hd => absurd ⟨m, h, hd⟩ hn)
  else .error (t.searchErrno p)

def rmdir (p : List ν) : Except Errno (FileTree ν β) :=
  if t.HasParent p then
    match t.lstat p with
    | none => .error .ENOENT
    | some .dir => if t.EmptyDir p then .ok (t.prune p) else .error .ENOTEMPTY
    | some _ => .error .ENOTDIR
  else .error (t.searchErrno p)

def unlink (p : List ν) : Except Errno (FileTree ν β) :=
  if t.HasParent p then
    match t.lstat p with
    | none => .error .ENOENT
    | some (.file _) => .ok (t.prune p)
    | some _ => .error .EISDIR
  else .error (t.searchErrno p)

/-- `rename` of a regular file; the programs rename nothing else. -/
def rename (src tgt : List ν) : Except Errno (FileTree ν β) :=
  if t.HasParent src then
    match t.lstat src with
    | none => .error .ENOENT
    | some (.file b) => if src = tgt then .ok t else (t.prune src).overwrite tgt b
    | some _ => .error .EISDIR
  else .error (t.searchErrno src)

/-- Writing through a descriptor of the file, which reaches it while it has its name. -/
def modify (p : List ν) (f : β → β) : FileTree ν β :=
  match h : t.lstat p with
  | some (.file b) =>
    t.set p (.file (f b)) (hasParent_of_lstat (by rintro rfl; simp at h) h)
      fun m hm hd => by cases h.symm.trans hm; simp at hd
  | _ => t

variable {t} {t' : FileTree ν β} {p src tgt : List ν} {b : β}

theorem searchErrno_ne_eexist : t.searchErrno p ≠ .EEXIST := by
  unfold searchErrno
  split <;> simp

theorem searchErrno_cases (t : FileTree ν β) (p : List ν) :
    t.searchErrno p = .ENOTDIR ∨
      t.searchErrno p = .ENOENT ∧ ∀ q, q <+: p.dropLast → t.file? q = none := by
  unfold searchErrno
  split
  · exact .inl rfl
  · rename_i h
    simp only [List.any_eq_true, List.mem_inits, not_exists, not_and] at h
    exact .inr ⟨rfl, fun q hq => by simpa using h q hq⟩

theorem mkdir_ok (h : t.mkdir p = .ok t') :
    t.HasParent p ∧ t.lstat p = none ∧
      ∀ q, t'.lstat q = if q = p then some .dir else t.lstat q := by
  unfold mkdir at h
  split at h
  · rename_i hp
    split at h
    · cases h
    · rename_i hnone
      cases h
      exact ⟨hp, hnone, lstat_set t hp _⟩
  · cases h

theorem mkdir_eexist (h : t.mkdir p = .error .EEXIST) : t.HasParent p ∧ ∃ n, t.lstat p = some n := by
  unfold mkdir at h
  split at h
  · rename_i hp
    split at h
    · rename_i n hn
      exact ⟨hp, n, hn⟩
    · cases h
  · exact absurd (Except.error.inj h) searchErrno_ne_eexist

theorem mkdir_of_hasParent (hp : t.HasParent p) :
    (∃ t', t.mkdir p = .ok t') ∨ t.mkdir p = .error .EEXIST := by
  unfold mkdir
  rw [dif_pos hp]
  split
  · exact .inr rfl
  · exact .inl ⟨_, rfl⟩

theorem create_ok (h : t.create p b = .ok t') :
    t.HasParent p ∧ t.lstat p = none ∧
      ∀ q, t'.lstat q = if q = p then some (.file b) else t.lstat q := by
  unfold create at h
  split at h
  · rename_i hp
    split at h
    · cases h
    · rename_i hnone
      cases h
      exact ⟨hp, hnone, lstat_set t hp _⟩
  · cases h

theorem overwrite_ok (h : t.overwrite p b = .ok t') :
    t.HasParent p ∧ (∀ m, t.lstat p = some m → m.isDir = false) ∧
      ∀ q, t'.lstat q = if q = p then some (.file b) else t.lstat q := by
  unfold overwrite at h
  split at h
  · rename_i hp
    split at h
    · cases h
    · rename_i hn
      cases h
      refine ⟨hp, fun m hm => ?_, lstat_set t hp _⟩
      simpa using fun hd => hn ⟨m, hm, hd⟩
  · cases h

theorem overwrite_of_hasParent (hp : t.HasParent p)
    (hn : ∀ m, t.lstat p = some m → m.isDir = false) : ∃ t', t.overwrite p b = .ok t' := by
  unfold overwrite
  rw [dif_pos hp, dif_neg]
  · exact ⟨_, rfl⟩
  · rintro ⟨m, hm, hd⟩
    simp [hn m hm] at hd

theorem rmdir_ok (h : t.rmdir p = .ok t') :
    t.lstat p = some .dir ∧ (∀ q n, t.lstat q = some n → p <+: q → q = p) ∧
      ∀ q, t'.lstat q = if q = p then none else t.lstat q := by
  unfold rmdir at h
  split at h
  · rename_i hp
    split at h <;> try cases h
    rename_i hdir
    split at h
    · rename_i hempty
      cases h
      have honly : ∀ q n, t.lstat q = some n → p <+: q → q = p := by
        intro q n hq hpq
        by_cases hnil : q = []
        · simp [hnil, hp.1] at hpq
        · rw [lstat, Entries.at_eq_lookup _ hnil] at hq
          exact hempty ⟨q, n⟩ (AList.mem_lookup_iff.mp hq) hpq
      refine ⟨hdir, honly, fun q => ?_⟩
      rw [lstat_prune t hp.1]
      by_cases hpq : p <+: q
      · rw [if_pos hpq]
        cases hq : t.lstat q with
        | none => simp
        | some n => rw [if_pos (honly q n hq hpq)]
      · rw [if_neg hpq, if_neg fun (h : q = p) => hpq (h ▸ List.prefix_refl p)]
    · cases h
  · cases h

theorem unlink_file (h : t.lstat p = some (.file b)) :
    ∃ t', t.unlink p = .ok t' ∧ ∀ q, t'.lstat q = if q = p then none else t.lstat q := by
  have hp : p ≠ [] := by
    rintro rfl
    simp at h
  refine ⟨t.prune p, ?_, lstat_prune_file h⟩
  simp [unlink, hasParent_of_lstat hp h, h]

theorem unlink_ok (h : t.unlink p = .ok t') :
    (∃ b, t.lstat p = some (.file b)) ∧ ∀ q, t'.lstat q = if q = p then none else t.lstat q := by
  unfold unlink at h
  split at h
  · split at h
    · cases h
    · rename_i b hb
      cases h
      exact ⟨⟨b, hb⟩, lstat_prune_file hb⟩
    · cases h
  · cases h

theorem lstat_modify (h : t.lstat p = some (.file b)) (f : β → β) (q : List ν) :
    (t.modify p f).lstat q = if q = p then some (.file (f b)) else t.lstat q := by
  unfold modify
  split
  · rename_i c hc
    cases h.symm.trans hc
    rw [lstat_set]
  · rename_i hno
    exact absurd h (hno b)

/-- A search that a file's removal leaves as it was. -/
theorem hasParent_prune_file (hp : t.HasParent p) (hsrc : t.lstat src = some (.file b)) :
    (t.prune src).HasParent p := by
  refine ⟨hp.1, ?_⟩
  rw [lstat_prune_file hsrc]
  split
  · rename_i h
    simpa [h, hsrc] using hp.2
  · exact hp.2

theorem rename_ok (hne : src ≠ tgt) (h : t.rename src tgt = .ok t') :
    (∀ m, t.lstat tgt = some m → m.isDir = false) ∧ ∃ b, t.lstat src = some (.file b) ∧
      ∀ q, t'.lstat q = if q = tgt then some (.file b) else if q = src then none else t.lstat q := by
  unfold rename at h
  split at h
  · split at h
    · cases h
    · rename_i b hb
      obtain ⟨-, hn, hst⟩ := overwrite_ok h
      simp only [lstat_prune_file hb, if_neg hne.symm] at hn hst
      exact ⟨hn, b, hb, hst⟩
    · cases h
  · cases h

theorem rename_of_file (hsrc : t.lstat src = some (.file b)) (hp : t.HasParent tgt)
    (hn : ∀ m, t.lstat tgt = some m → m.isDir = false) : ∃ t', t.rename src tgt = .ok t' := by
  have hnil : src ≠ [] := by
    rintro rfl
    simp at hsrc
  by_cases hne : src = tgt
  · subst hne
    exact ⟨t, by simp [rename, hp, hsrc]⟩
  · have hn' : ∀ m, (t.prune src).lstat tgt = some m → m.isDir = false := by
      rw [lstat_prune_file hsrc, if_neg (Ne.symm hne)]
      exact hn
    obtain ⟨t', ht'⟩ := overwrite_of_hasParent (b := b) (hasParent_prune_file hp hsrc) hn'
    exact ⟨t', by simp [rename, hasParent_of_lstat hnil hsrc, hsrc, hne, ht']⟩

/-- The tree of the given directories, each after the one it lies in. -/
def ofDirs (ps : List (List ν)) : FileTree ν β :=
  ps.foldl (fun t p => (t.mkdir p).toOption.getD t) empty

theorem lstat_ofDirs {ps : List (List ν)} {q : List ν} {n : Node β}
    (h : (ofDirs ps).lstat q = some n) : n = .dir ∧ (q = [] ∨ q ∈ ps) := by
  induction ps using List.reverseRecOn generalizing n with
  | nil =>
    by_cases hq : q = []
    · subst hq
      simpa using (Option.some.inj h).symm
    · simp [ofDirs, lstat, Entries.at_eq_lookup _ hq, empty] at h
  | append_singleton ps p ih =>
    rw [ofDirs, List.foldl_concat] at h
    cases hm : (ofDirs (β := β) ps).mkdir p with
    | error e =>
      rw [ofDirs] at hm
      rw [hm] at h
      obtain ⟨hn, hq⟩ := ih h
      exact ⟨hn, by simp [← or_assoc, hq]⟩
    | ok t' =>
      have hst := (mkdir_ok hm).2.2 q
      rw [ofDirs] at hm
      rw [hm] at h
      rw [show t'.lstat q = some n from h] at hst
      split at hst
      · rename_i hqp
        exact ⟨Option.some.inj hst, by simp [hqp]⟩
      · obtain ⟨hn, hq⟩ := ih hst.symm
        exact ⟨hn, by simp [← or_assoc, hq]⟩

end calls

end FileTree
end FileTrees
