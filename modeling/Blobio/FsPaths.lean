import Blobio.BlobPaths

/-! The paths of blobs as the client's digest modules write them into a buffer, against
the path the server's modules build for the same digest. -/
namespace Blobio

/-- What the pointer copies of an `fs_path` leave in the buffer, its first byte on. The
modules differ in the slash before the first directory and in the size they ask for. -/
def fs_path_copies (lead : Text) (least : ℤ) (ascii_digest : Text) (size : ℤ) : Except Text Text :=
  if size < least then
    .error "file path size too small: size < 49 bytes".toList
  else
    .ok (lead ++ ascii_digest.take 3 ++ '/' :: (ascii_digest.drop 3).take 3 ++ '/' :: ascii_digest.take 40 ++
      ['\x00'])

def sha_fs_path : Text → ℤ → Except Text Text := fs_path_copies [] 48
def bc160_fs_path : Text → ℤ → Except Text Text := fs_path_copies ['/'] 49
def btc20_fs_path : Text → ℤ → Except Text Text := fs_path_copies [] 49

/-- `digest_module->fs_path`, for the digest the client keeps in `ascii_digest`. -/
def DigestModule.fs_path : DigestModule → Text → ℤ → Except Text Text
  | bc160 => bc160_fs_path
  | btc20 => btc20_fs_path
  | sha => sha_fs_path

/-- `make_path`, which the three modules of the server share but for their root. -/
def fs_make_path (root_dir_path digest : Text) : Text :=
  let blob_dir_path := root_dir_path ++ '/' :: digest.take 3 ++ '/' :: (digest.drop 3).take 3 ++ ['/']
  blob_dir_path ++ digest

/-- `fs_data`, and the slash the callers put behind it. -/
def fs_data (m : DigestModule) : Text := "data/fs_".toList ++ m.name

/-- `BLOBIO_MAX_FS_PATH` -/
def max_fs_path : ℤ := 255

/-- `fs_blob_path`: the module gets what is left of the caller's buffer. -/
def fs_blob_path (m : DigestModule) (d : Digest) : Except Text Text :=
  let p := fs_data m ++ ['/']
  (m.fs_path d.chars (max_fs_path + 1 - p.length)).map (p ++ ·)

/-! ### Names of files -/

/-- The entries a search of the path goes through; slashes may repeat. -/
def components (path : Text) : Path :=
  (path.splitOn '/').filter (· ≠ [])

theorem components_append_slash (p q : Text) : components (p ++ '/' :: q) = components p ++ components q := by
  rw [components, List.splitOn_append_cons_self, List.filter_append, components, components]

theorem components_of_not_mem {p : Text} (hne : p ≠ []) (h : '/' ∉ p) : components p = [p] := by
  rw [components, List.splitOn_eq_singleton h]
  simp [hne]

@[simp] theorem components_nil : components [] = [] := rfl

variable (d : Digest)

theorem Digest.not_mem_of_not_hex {c : Char} (h : c ∉ nib2hex) : c ∉ d.chars :=
  fun hc => h (d.hex_chars c hc)

/-- The directories of a digest and its file, below the root. -/
def Digest.split : Text := d.chars.take 3 ++ '/' :: ((d.chars.drop 3).take 3 ++ '/' :: d.chars)

theorem Digest.length_split : d.split.length = 48 := by
  simp [split, d.length_chars]

theorem Digest.not_mem_split {c : Char} (h : c ∉ nib2hex) (hslash : c ≠ '/') : c ∉ d.split := by
  have hc := d.not_mem_of_not_hex h
  have htake : c ∉ d.chars.take 3 := fun hmem => hc (List.mem_of_mem_take hmem)
  have hdrop : c ∉ (d.chars.drop 3).take 3 := fun hmem => hc (List.mem_of_mem_drop (List.mem_of_mem_take hmem))
  simp [split, hc, htake, hdrop, hslash]

theorem Digest.components_split :
    components d.split = [d.chars.take 3, (d.chars.drop 3).take 3, d.chars] := by
  have hlen := d.length_chars
  have hslash := d.not_mem_of_not_hex (c := '/') (by decide)
  have hdir : components (d.chars.take 3) = [d.chars.take 3] :=
    components_of_not_mem (List.length_pos_iff.mp (by simp [hlen])) fun h => hslash (List.mem_of_mem_take h)
  have hsub : components ((d.chars.drop 3).take 3) = [(d.chars.drop 3).take 3] :=
    components_of_not_mem (List.length_pos_iff.mp (by simp [hlen]))
      fun h => hslash (List.mem_of_mem_drop (List.mem_of_mem_take h))
  have hfile : components d.chars = [d.chars] :=
    components_of_not_mem (List.length_pos_iff.mp (by simp [hlen])) hslash
  rw [split, components_append_slash, components_append_slash, hdir, hsub, hfile]
  rfl

theorem fs_make_path_eq (root : Text) : fs_make_path root d.chars = root ++ '/' :: d.split := by
  simp [fs_make_path, Digest.split]

/-- The server's file of a blob, as the text of its path names it. -/
theorem components_fs_make_path (m : DigestModule) :
    components (fs_make_path (fs_data m) d.chars) = blob_path m d := by
  have hroot : components (fs_data m) = [data, m.root] := by cases m <;> decide
  rw [fs_make_path_eq, components_append_slash, hroot, d.components_split]
  rfl

/-! ### Client and server -/

/-- The path relative to the root is the one `make_path` builds under every root. -/
def IsUnderRoot (d : Digest) (path : Text) : Prop :=
  ∀ root, root ++ '/' :: path = fs_make_path root d.chars

/-- The path leads from every root to the file of `make_path`. -/
def LeadsUnderRoot (d : Digest) (path : Text) : Prop :=
  ∀ root, components (root ++ '/' :: path) = components (fs_make_path root d.chars)

/-- An `fs_path` reports an error, or leaves a null-terminated path within the size. -/
def WritesPath (fs_path : ℤ → Except Text Text) (size : ℤ) (Names : Text → Prop) : Prop :=
  ∀ written, fs_path size = .ok written →
    written.length ≤ size ∧ ∃ path, '\x00' ∉ path ∧ written = path ++ ['\x00'] ∧ Names path

variable {d}

theorem isUnderRoot_iff {path : Text} : IsUnderRoot d path ↔ path = d.split := by
  refine ⟨fun h => ?_, ?_⟩
  · simpa [fs_make_path_eq] using h []
  · rintro rfl root
    exact (fs_make_path_eq d root).symm

theorem leadsUnderRoot_iff {path : Text} :
    LeadsUnderRoot d path ↔ components path = [d.chars.take 3, (d.chars.drop 3).take 3, d.chars] := by
  simp only [LeadsUnderRoot, fs_make_path_eq, components_append_slash, List.append_cancel_left_eq,
    d.components_split, forall_const]

theorem fs_path_copies_eq_ok {lead : Text} {least size : ℤ} {written : Text} :
    fs_path_copies lead least d.chars size = .ok written ↔
      least ≤ size ∧ written = lead ++ d.split ++ ['\x00'] := by
  have htake : d.chars.take 40 = d.chars := List.take_of_length_le d.length_chars.le
  by_cases h : size < least
  · simp [fs_path_copies, h, h.not_ge]
  · simp [fs_path_copies, h, not_lt.mp h, Digest.split, htake, eq_comm]

/-- A writer of the family is right where its size test excludes the sizes that are too
short for the path and its null, and the path it leaves is the right one. -/
theorem fs_path_copies_right_iff {lead : Text} {least size : ℤ} (Names : Text → Prop)
    (hlead : '\x00' ∉ lead) :
    WritesPath (fs_path_copies lead least d.chars) size Names ↔
      (least ≤ size → lead.length + 49 ≤ size ∧ Names (lead ++ d.split)) := by
  have hnull : '\x00' ∉ lead ++ d.split := by
    simp [hlead, d.not_mem_split (c := '\x00') (by decide) (by decide)]
  have hlen : ((lead ++ d.split ++ ['\x00']).length : ℤ) = lead.length + 49 := by
    simp only [List.length_append, d.length_split, List.length_singleton]
    push_cast
    omega
  constructor
  · intro h hle
    obtain ⟨hfit, path, -, hpath, hnames⟩ := h _ (fs_path_copies_eq_ok.mpr ⟨hle, rfl⟩)
    rw [List.append_cancel_right hpath]
    exact ⟨hlen ▸ hfit, hnames⟩
  · intro h written hw
    obtain ⟨hle, rfl⟩ := fs_path_copies_eq_ok.mp hw
    obtain ⟨hfit, hnames⟩ := h hle
    exact ⟨hlen ▸ hfit, _, hnull, rfl, hnames⟩

variable (d)

theorem slash_split : components ('/' :: d.split) = components d.split :=
  components_append_slash [] d.split

/-- `sha_fs_path` lets through the one size that lacks the byte of the null, and
`bc160_fs_path` starts with a slash that its size test does not count. -/
theorem fs_path_right_iff (m : DigestModule) (size : ℤ) :
    (WritesPath (m.fs_path d.chars) size (IsUnderRoot d) ↔ (m = .sha → size ≠ 48) ∧ (m = .bc160 → size < 49)) ∧
    (WritesPath (m.fs_path d.chars) size (LeadsUnderRoot d) ↔ (m = .sha → size ≠ 48) ∧ (m = .bc160 → size ≠ 49)) := by
  have hsplit := d.components_split
  have hslash := slash_split d
  have hne : '/' :: d.split ≠ d.split := fun h => by simpa using congrArg List.length h
  cases m
  all_goals
    simp only [DigestModule.fs_path, bc160_fs_path, btc20_fs_path, sha_fs_path,
      fs_path_copies_right_iff (d := d) _ (show '\x00' ∉ ['/'] by decide),
      fs_path_copies_right_iff (d := d) _ (List.not_mem_nil (a := '\x00')), isUnderRoot_iff, leadsUnderRoot_iff]
    simp [hsplit, hslash, hne]
    try omega

/-- One byte short of the path and its null, `sha_fs_path` writes them all the same. -/
theorem sha_path_overruns : ¬ ∀ (m : DigestModule) (d : Digest) (size : ℤ), WritesPath (m.fs_path d.chars) size (IsUnderRoot d) := by
  intro h
  obtain ⟨hfit, -⟩ := h .sha DigestModule.sha.empty 48 _ rfl
  revert hfit
  decide

/-- The buffers of the client are large enough, and the doubled slash of a bc160 path leads
to the server's file as well. -/
theorem fs_blob_path_leads (m : DigestModule) :
    ∃ path, fs_blob_path m d = .ok (path ++ ['\x00']) ∧ (path ++ ['\x00']).length ≤ max_fs_path + 1 ∧
      components path = blob_path m d := by
  obtain ⟨lead, least, hpath, hleast, hlead, hslash⟩ : ∃ lead least, m.fs_path = fs_path_copies lead least ∧
      least ≤ 49 ∧ lead.length ≤ 1 ∧ components (lead ++ d.split) = components d.split := by
    cases m
    · exact ⟨['/'], 49, rfl, le_rfl, le_rfl, slash_split d⟩
    · exact ⟨[], 49, rfl, le_rfl, Nat.zero_le _, rfl⟩
    · exact ⟨[], 48, rfl, by decide, Nat.zero_le _, rfl⟩
  have hdata : (fs_data m ++ ['/']).length ≤ 14 := by cases m <;> decide
  have hroom : least ≤ max_fs_path + 1 - (fs_data m ++ ['/']).length := by
    rw [max_fs_path]
    omega
  refine ⟨fs_data m ++ '/' :: (lead ++ d.split), ?_, ?_, ?_⟩
  · have hwritten := fs_path_copies_eq_ok.mpr (⟨hroom, rfl⟩ : _ ∧ _ = lead ++ d.split ++ ['\x00'])
    simp only [fs_blob_path, hpath, hwritten, Except.map]
    simp
  · simp only [List.length_append, List.length_cons, List.length_nil, d.length_split, max_fs_path] at hdata ⊢
    push_cast
    omega
  · rw [components_append_slash, hslash, ← components_append_slash, ← fs_make_path_eq, components_fs_make_path]

end Blobio
