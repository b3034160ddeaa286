import Blobio.HexDigests
import Blobio.DecimalNumerals
import Blobio.FileTrees

/-! The paths the server gives its files, relative to the blobio root. -/
namespace Blobio
open DecimalNumerals

/-- A file of the server, by the components of its path. -/
abbrev Path := List Text

abbrev Store := FileTrees.FileTree Text Bytes

def data : Text := "data".toList
def spool : Text := "spool".toList

/-- The directory that `make_path` builds for a digest. -/
def blob_dir_path (m : DigestModule) (d : Digest) : Path :=
  [data, m.root, d.chars.take 3, (d.chars.drop 3).take 3]

def blob_path (m : DigestModule) (d : Digest) : Path :=
  blob_dir_path m d ++ [d.chars]

def Udig.path (u : Udig) : Path :=
  blob_path u.algorithm u.digest

def Udig.text (u : Udig) : Text :=
  u.algorithm.name ++ ':' :: u.digest.chars

def wrap_dir : Path := [spool, "wrap".toList]

/-- `spool/wrap/<udig>.brr` -/
def wrap_path (u : Udig) : Path :=
  wrap_dir ++ [u.text ++ ".brr".toList]

/-- A log that the logger has renamed away, still in the spool itself. -/
def frozen_path (name : Text) : Path := [spool, name]

/-- `put_bytes` collects a blob in `[put|give]-time-pid-digest`. -/
def put_tmp_name (verb : Text) (time : ℤ) (pid : ℕ) (d : Digest) : Text :=
  verb ++ '-' :: signed time ++ '-' :: Nat.toDigits 10 pid ++ '-' :: d.chars

/-- `digest` copies a stream to `digest-time-pid-drift`. -/
def digest_tmp_name (time : ℤ) (pid drift : ℕ) : Text :=
  "digest-".toList ++ signed time ++ '-' :: Nat.toDigits 10 pid ++ '-' :: Nat.toDigits 10 drift

/-- The temporary directories of `tmp_get`, which the operator keeps outside of
the blob store and the log spool. -/
structure TmpMap where
  tmp_get : DigestModule → Text → Path
  ne_nil : ∀ m d, tmp_get m d ≠ []
  outside : ∀ m d, (tmp_get m d).head? ≠ some data ∧ (tmp_get m d).head? ≠ some spool

/-- `_unlink` and `io_unlink`: a file that is not there is as good as removed. -/
def unlink_quietly (t : Store) (p : Path) : Store :=
  (t.unlink p).toOption.getD t

theorem unlink_quietly_cases (t : Store) (p : Path) :
    unlink_quietly t p = t ∨ ∀ q, (unlink_quietly t p).lstat q = if q = p then none else t.lstat q := by
  unfold unlink_quietly
  cases h : t.unlink p with
  | error e => exact .inl rfl
  | ok t' => exact .inr (FileTrees.FileTree.unlink_ok h).2

theorem unlink_quietly_of_ne (t : Store) {p q : Path} (hq : q ≠ p) :
    (unlink_quietly t p).lstat q = t.lstat q := by
  rcases unlink_quietly_cases t p with h | h
  · rw [h]
  · rw [h, if_neg hq]

theorem unlink_quietly_self (t : Store) (p : Path) :
    (unlink_quietly t p).lstat p = t.lstat p ∨ (unlink_quietly t p).lstat p = none := by
  rcases unlink_quietly_cases t p with h | h
  · rw [h]
    exact .inl rfl
  · exact .inr (by rw [h, if_pos rfl])

theorem put_tmp_name_pid {verb verb' : Text} {time time' : ℤ} {pid pid' : ℕ} {d d' : Digest}
    (h : put_tmp_name verb time pid d = put_tmp_name verb' time' pid' d') : pid = pid' := by
  have hlen : ('-' :: d.chars).length = ('-' :: d'.chars).length := by
    simp [d.length_chars, d'.length_chars]
  have hfront := (List.append_inj' h hlen).1
  exact (decimal_suffix_injective hfront).2

theorem digest_tmp_name_pid {time time' : ℤ} {pid pid' drift drift' : ℕ}
    (h : digest_tmp_name time pid drift = digest_tmp_name time' pid' drift') : pid = pid' :=
  (decimal_suffix_injective (decimal_suffix_injective h).1).2

theorem name_injective {m n : DigestModule} {a b : Text} (h : m.name ++ ':' :: a = n.name ++ ':' :: b) :
    m = n ∧ a = b := by
  cases m <;> cases n <;> simp_all [DigestModule.name]

theorem Udig.text_injective {u v : Udig} (h : u.text = v.text) : u = v := by
  obtain ⟨hm, hd⟩ := name_injective h
  exact Udig.ext hm hd

theorem wrap_path_injective {u v : Udig} (h : wrap_path u = wrap_path v) : u = v := by
  simp only [wrap_path, List.append_cancel_left_eq, List.cons.injEq, and_true,
    List.append_cancel_right_eq] at h
  exact Udig.text_injective h

theorem root_injective {m n : DigestModule} (h : m.root = n.root) : m = n := by
  have h := List.append_cancel_left h
  cases m <;> cases n <;> first | rfl | (revert h; decide)

theorem Udig.path_injective {u v : Udig} (h : u.path = v.path) : u = v := by
  simp only [path, blob_path, blob_dir_path, List.cons_append, List.nil_append, List.cons.injEq,
    and_true, true_and] at h
  obtain ⟨hm, -, -, hd⟩ := h
  exact Udig.ext (root_injective hm) hd

@[simp] theorem Udig.length_path (u : Udig) : u.path.length = 5 := rfl
@[simp] theorem length_wrap_path (u : Udig) : (wrap_path u).length = 3 := rfl
@[simp] theorem Udig.head?_path (u : Udig) : u.path.head? = some data := rfl
@[simp] theorem length_frozen_path (name : Text) : (frozen_path name).length = 2 := rfl
@[simp] theorem head?_frozen_path (name : Text) : (frozen_path name).head? = some spool := rfl
@[simp] theorem head?_wrap_path (u : Udig) : (wrap_path u).head? = some spool := rfl

theorem frozen_path_ne_wrap_path (name : Text) (u : Udig) : frozen_path name ≠ wrap_path u := by
  intro h
  simpa using congrArg List.length h

theorem data_ne_spool : data ≠ spool := by decide

theorem TmpMap.head?_append (T : TmpMap) (m : DigestModule) (d : Text) (p : Path) :
    (T.tmp_get m d ++ p).head? ≠ some data ∧ (T.tmp_get m d ++ p).head? ≠ some spool := by
  rw [List.head?_append_of_ne_nil _ (T.ne_nil m d)]
  exact T.outside m d

end Blobio
