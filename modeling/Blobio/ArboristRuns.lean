import Blobio.EventRuns
import Blobio.Arborist

/-! Sequences of the messages that request processes send to the arborist, between
the files they put in their temporary directories and the blobs they unlink, which comes
also between the rename or move of a blob, its `chmod` and the reply. -/
namespace Blobio.ArboristRuns
open EventRuns FileTrees

inductive Event
  | tmp_file (src : Path) (b : Bytes)
  | unlink_blob (u : Udig)
  /-- A rename or a move from a temporary directory on the device of the store, or on another one. -/
  | rename (pid : ℕ) (src : Path) (u : Udig) (other_device : Bool)
  | move (pid : ℕ) (src : Path) (u : Udig) (other_device : Bool)
  | trim (u : Udig)
  /-- The arborist goes on with the request that it is at. -/
  | turn

/-- The server when the arborist has just started. -/
def started (t : Store) : Handled := ⟨t, [], .waiting⟩

/-- No call of the arborist fails but for what the tree holds, and a rename from another device. -/
def handle (s : Handled) (m : Message) (other_device : Bool) : Handled :=
  receive { rename := other_device, other_device } s.tree s.writable m

def go_on (s : Handled) : Option Handled :=
  (arborist {} s.tree s.writable s.station []).map Prod.fst

/-- A request process names a file of its own in a temporary directory as source. -/
def Sendable (s : Handled) (src : Path) : Prop :=
  src.head? ≠ some data ∧ (s.tree.file? src).isSome

instance (s : Handled) (src : Path) : Decidable (Sendable s src) :=
  inferInstanceAs (Decidable (_ ∧ _))

def trim_message (u : Udig) : Message := .T (blob_dir_path u.algorithm u.digest)

/-- A message comes to an arborist that waits for one; after a panic there is none. -/
def step (s : Handled) : Event → Option Handled
  | .tmp_file src b =>
    if src.head? = some data then none
    else (s.tree.create src b).toOption.map fun t => { s with tree := t }
  | .unlink_blob u => some { s with tree := unlink_quietly s.tree u.path }
  | .rename pid src u other_device =>
    if s.station = .waiting ∧ Sendable s src then some (handle s (.R ⟨pid, src, u.path⟩) other_device) else none
  | .move pid src u other_device =>
    if s.station = .waiting ∧ Sendable s src then some (handle s (.M ⟨pid, src, u.path⟩) other_device) else none
  | .trim u => if s.station = .waiting then some (handle s (trim_message u) false) else none
  | .turn => go_on s

/-- The arborist has failed in nothing, a source that is renamed is at its blob path, and a trim leaves
every directory above a file where it is. -/
def Harmless (s : Handled) : Event → Prop
  | .rename pid src u other_device =>
    ¬ (handle s (.R ⟨pid, src, u.path⟩) other_device).station.fails ∧
      (handle s (.R ⟨pid, src, u.path⟩) other_device).tree.file? u.path = s.tree.file? src
  | .move pid src u other_device =>
    ¬ (handle s (.M ⟨pid, src, u.path⟩) other_device).station.fails ∧
      (other_device = false →
        (handle s (.M ⟨pid, src, u.path⟩) other_device).tree.file? u.path = s.tree.file? src)
  | .trim u =>
    ¬ (handle s (trim_message u) false).station.fails ∧
      ∀ dir r b, dir <+: r → s.tree.file? r = some b →
        (handle s (trim_message u) false).tree.lstat dir = s.tree.lstat dir
  | .turn => ∀ h, go_on s = some h → ¬ h.station.fails
  | .tmp_file .. | .unlink_blob _ => True

/-- A trim finds the leaf directory or its parent, no rename comes from another device, no move goes to
a leaf that is a symbolic link or copies to a path where a blob is, and the blob that the `chmod` is for
has not been unlinked since it got its place. -/
def Spared (s : Handled) : Event → Prop
  | .trim u => TrimFinds s.tree (blob_dir_path u.algorithm u.digest)
  | .rename _ _ _ other_device => other_device = false
  | .move _ _ u other_device =>
    s.tree.lstat (blob_dir_path u.algorithm u.digest) ≠ some .link ∧
      (other_device = true → s.tree.file? u.path = none)
  | .turn => ∀ m, s.station = .placed m → s.tree.lstat m.tgt_path ≠ none
  | _ => True

/-- The arborist waits, or is on its way to a reply of zero. Only the file of the request that it is at may
be open for writing. -/
inductive OnTheWay (writable : List Path) : Station → Prop
  | waiting (h : writable = []) : OnTheWay writable .waiting
  | placed (m : MoveRequest) (h : ∀ p ∈ writable, p = m.tgt_path) : OnTheWay writable (.placed m)
  | copying (m : MoveRequest) (unread : Bytes) (u : Udig) (htgt : m.tgt_path = u.path)
      (hsrc : m.src_path.head? ≠ some data) (h : ∀ p ∈ writable, p = m.tgt_path) :
      OnTheWay writable (.copying m unread)
  | answering (m : MoveRequest) (h : writable = []) : OnTheWay writable (.answering m 0)

structure Working (s : Handled) : Prop where
  shape : StoreShape s.tree
  station : OnTheWay s.writable s.station

theorem writable_of_waiting {s : Handled} (h : Working s) (hwait : s.station = .waiting) : s.writable = [] := by
  have hway := h.station
  rw [hwait] at hway
  cases hway
  assumption

theorem faults_spare (tgt : Path) : ({} : Faults).Spares tgt := ⟨rfl, fun _ _ _ => rfl, rfl⟩

section requests
variable {s : Handled} {pid : ℕ} {src : Path} {u : Udig}

theorem ne_path (h : Sendable s src) : src ≠ u.path := by
  rintro rfl
  exact h.1 u.head?_path

theorem rename_placed (pid : ℕ) (u : Udig) (h : StoreShape s.tree) (hsend : Sendable s src) :
    (handle s (.R ⟨pid, src, u.path⟩) false).station = .placed ⟨pid, src, u.path⟩ ∧
      ∃ b, s.tree.file? src = some b ∧
        Placed s.tree (handle s (.R ⟨pid, src, u.path⟩) false).tree src u.path b := by
  obtain ⟨b, hb⟩ := Option.isSome_iff_exists.mp hsend.2
  obtain ⟨hst, hp⟩ := rename_blob_places (m := ⟨pid, src, u.path⟩) s.writable (faults_spare u.path) (h.reachable u)
    hb (ne_path hsend)
  exact ⟨hst, b, hb, hp⟩

theorem leaf_of_path (u : Udig) : u.path.dropLast = blob_dir_path u.algorithm u.digest := by
  simp [Udig.path, blob_path]

theorem move_placed (pid : ℕ) (h : StoreShape s.tree) (hsend : Sendable s src)
    (hlink : s.tree.lstat (blob_dir_path u.algorithm u.digest) ≠ some .link) :
    (handle s (.M ⟨pid, src, u.path⟩) false).station = .placed ⟨pid, src, u.path⟩ ∧
      ∃ b, s.tree.file? src = some b ∧
        Placed s.tree (handle s (.M ⟨pid, src, u.path⟩) false).tree src u.path b := by
  obtain ⟨b, hb⟩ := Option.isSome_iff_exists.mp hsend.2
  obtain ⟨hst, hp⟩ := move_blob_places (m := ⟨pid, src, u.path⟩) s.writable (faults_spare u.path) (fun _ => rfl) rfl
    (h.reachable u) ((leaf_of_path u).symm ▸ hlink) hb (ne_path hsend)
  exact ⟨hst, b, hb, hp⟩

theorem move_copies (pid : ℕ) (h : StoreShape s.tree) (hwritable : s.writable = []) (hsend : Sendable s src)
    (hlink : s.tree.lstat (blob_dir_path u.algorithm u.digest) ≠ some .link) :
    (s.tree.file? u.path = none →
        ∃ b, (handle s (.M ⟨pid, src, u.path⟩) true).station = .copying ⟨pid, src, u.path⟩ b) ∧
      (s.tree.file? u.path ≠ none →
        (handle s (.M ⟨pid, src, u.path⟩) true).station = .answering ⟨pid, src, u.path⟩ 1) := by
  obtain ⟨b, hb⟩ := Option.isSome_iff_exists.mp hsend.2
  have hst : (handle s (.M ⟨pid, src, u.path⟩) true).station = _ :=
    move_blob_across (m := ⟨pid, src, u.path⟩) s.writable rfl (fun _ => rfl) (fun _ => rfl) rfl ⟨rfl, rfl⟩
      (h.reachable u) ((leaf_of_path u).symm ▸ hlink) hb
  rw [hwritable] at hst
  constructor
  · intro hnone
    rw [hnone] at hst
    exact ⟨b, hst⟩
  · intro hsome
    rw [hst, if_pos ⟨Option.isSome_iff_ne_none.mpr hsome, List.not_mem_nil⟩]

theorem rename_harmless_iff {other_device : Bool} (h : StoreShape s.tree) (hsend : Sendable s src) :
    Harmless s (.rename pid src u other_device) ↔ Spared s (.rename pid src u other_device) := by
  cases other_device with
  | false =>
    refine iff_of_true ?_ rfl
    obtain ⟨hst, b, hb, hp⟩ := rename_placed pid u h hsend
    refine ⟨?_, hp.target.trans hb.symm⟩
    rw [hst]
    exact id
  | true => exact iff_of_false (fun hgood => hgood.1 (rename_blob_fails s.tree s.writable _ rfl)) nofun

theorem move_harmless_iff {other_device : Bool} (h : Working s) (hwait : s.station = .waiting)
    (hsend : Sendable s src) : Harmless s (.move pid src u other_device) ↔ Spared s (.move pid src u other_device) := by
  have hwritable := writable_of_waiting h hwait
  by_cases hlink : s.tree.lstat (blob_dir_path u.algorithm u.digest) = some .link
  · refine iff_of_false ?_ fun hspared => hspared.1 hlink
    rintro ⟨hgood, -⟩
    exact hgood (move_blob_link (m := ⟨pid, src, u.path⟩) s.writable ((leaf_of_path u).symm ▸ hlink))
  cases other_device with
  | false =>
    refine iff_of_true ?_ ⟨hlink, nofun⟩
    obtain ⟨hst, b, hb, hp⟩ := move_placed pid h.shape hsend hlink
    refine ⟨?_, fun _ => hp.target.trans hb.symm⟩
    rw [hst]
    exact id
  | true =>
    obtain ⟨hcopies, hrefused⟩ := move_copies pid h.shape hwritable hsend hlink
    by_cases hnone : s.tree.file? u.path = none
    · refine iff_of_true ⟨?_, nofun⟩ ⟨hlink, fun _ => hnone⟩
      obtain ⟨b, hst⟩ := hcopies hnone
      rw [hst]
      exact id
    · refine iff_of_false ?_ fun hspared => hnone (hspared.2 rfl)
      rintro ⟨hgood, -⟩
      rw [hrefused hnone] at hgood
      exact hgood (show (1 : UInt8) ≠ 0 by decide)

theorem trim_station (s : Handled) (u : Udig) : (handle s (trim_message u) false).station =
    if (trim_blob_dir {} s.tree (blob_dir_path u.algorithm u.digest)).2.2 then .panicked else .waiting := rfl

theorem trim_harmless_iff (s : Handled) (u : Udig) :
    Harmless s (.trim u) ↔ TrimFinds s.tree (blob_dir_path u.algorithm u.digest) := by
  have hsplit : blob_dir_path u.algorithm u.digest =
      [data, u.algorithm.root, u.digest.chars.take 3] ++ [(u.digest.chars.drop 3).take 3] := rfl
  have hpanic := trim_panics_iff (f := {}) (fun _ => rfl) (fun _ => rfl) s.tree
    (q := [data, u.algorithm.root, u.digest.chars.take 3]) (c := (u.digest.chars.drop 3).take 3)
    (by simp)
  rw [← hsplit] at hpanic
  have hfails : (handle s (trim_message u) false).station.fails ↔
      (trim_blob_dir {} s.tree (blob_dir_path u.algorithm u.digest)).2.2 = true := by
    rw [trim_station]
    split <;> simp_all [Station.fails]
  refine ⟨fun h => hpanic.mp ?_, fun h => ⟨?_, fun dir r b hdr hr => ?_⟩⟩
  · simpa [hfails] using h.1
  · rw [hfails, hpanic.mpr h]
    decide
  · have htrim := zap_trimmed {} s.tree 0 (blob_dir_path u.algorithm u.digest).reverse
    by_contra hne
    exact htrim.hollow dir hne r b hdr hr

end requests

/-- What the arborist goes on to: the `chmod` of a blob in its place, the next piece of a copy, or the reply. -/
theorem go_on_cases {s h : Handled} (hs : Working s) (hgo : go_on s = some h) :
    (∃ m, s.station = .placed m ∧ h = chmod_blob {} s.tree s.writable m) ∨
      (∃ m unread, s.station = .copying m unread ∧ h = copy_move {} s.tree s.writable m unread) ∨
        ∃ m, s.station = .answering m 0 ∧ h = ⟨s.tree, s.writable, .waiting⟩ := by
  have hway := hs.station
  unfold go_on at hgo
  cases hst : s.station with
  | waiting => simp [hst, arborist] at hgo
  | panicked => simp [hst, arborist] at hgo
  | placed m =>
    rw [hst] at hgo
    cases hgo
    exact .inl ⟨m, rfl, rfl⟩
  | copying m unread =>
    rw [hst] at hgo
    cases hgo
    exact .inr (.inl ⟨m, unread, rfl, rfl⟩)
  | answering m payload =>
    rw [hst] at hgo hway
    cases hway
    cases hgo
    exact .inr (.inr ⟨m, rfl, rfl⟩)

/-- A copy with no fault goes on, or comes to its end. -/
theorem copy_goes_on (t : Store) (writable : List Path) (m : MoveRequest) (unread : Bytes) :
    copy_move {} t writable m unread = ⟨unlink_quietly t m.src_path, writable, .placed m⟩ ∨
      copy_move {} t writable m unread =
        ⟨t.modify m.tgt_path (· ++ unread.take MSG_SIZE), writable, .copying m (unread.drop MSG_SIZE)⟩ := by
  by_cases hend : unread = []
  · exact .inl (by simp [copy_move, hend])
  · exact .inr (by simp [copy_move, hend])

theorem turn_harmless_iff {s h : Handled} (hs : Working s) (hgo : go_on s = some h) :
    Harmless s .turn ↔ Spared s .turn := by
  have honly : Harmless s .turn ↔ ¬ h.station.fails := by
    simp [Harmless, hgo]
  rw [honly]
  rcases go_on_cases hs hgo with ⟨m, hst, rfl⟩ | ⟨m, unread, hst, rfl⟩ | ⟨m, hst, rfl⟩
  · have hspared : Spared s .turn ↔ s.tree.lstat m.tgt_path ≠ none := by
      simp [Spared, hst]
    rw [hspared]
    unfold chmod_blob
    by_cases hthere : s.tree.lstat m.tgt_path = none <;> simp [hthere, Station.fails]
  · refine iff_of_true ?_ (by simp [Spared, hst])
    rcases copy_goes_on s.tree s.writable m unread with h | h <;> rw [h] <;> exact id
  · refine iff_of_true id ?_
    simp [Spared, hst]

theorem harmless_iff_spared {s s' : Handled} {e : Event} (h : Working s) (hstep : step s e = some s') :
    Harmless s e ↔ Spared s e := by
  cases e with
  | tmp_file src b => exact Iff.rfl
  | unlink_blob u => exact Iff.rfl
  | rename pid src u other_device =>
    simp only [step] at hstep
    split at hstep
    · rename_i hsend
      exact rename_harmless_iff h.shape hsend.2
    · cases hstep
  | move pid src u other_device =>
    simp only [step] at hstep
    split at hstep
    · rename_i hsend
      exact move_harmless_iff h hsend.1 hsend.2
    · cases hstep
  | trim u => exact trim_harmless_iff s u
  | turn => exact turn_harmless_iff h hstep

/-- A request that has been received without a failure is in its place, or is being copied there. -/
theorem working_of_received {s h : Handled} {m : MoveRequest} {u : Udig} (hs : Working s)
    (hwait : s.station = .waiting) (hr : Received s.tree s.writable m h) (htgt : m.tgt_path = u.path)
    (hsrc : m.src_path.head? ≠ some data) (hgood : ¬ h.station.fails) : Working h := by
  have hwritable : s.writable = [] := writable_of_waiting hs hwait
  cases hr with
  | refused htree hw hstation =>
    rcases hstation with hst | ⟨payload, hne, hst⟩
    · exact absurd (by rw [hst]; trivial) hgood
    · exact absurd (by rw [hst]; exact hne) hgood
  | placed b htree hw hstation =>
    rw [htgt] at htree
    refine ⟨hs.shape.of_placed htree, ?_⟩
    rw [hstation, hw, hwritable]
    exact .placed m (by simp)
  | opened b hb hfree htree hw hstation =>
    rw [htgt] at htree
    refine ⟨hs.shape.of_opened htree, ?_⟩
    rw [hstation, hw, hwritable]
    exact .copying m b u htgt hsrc (by simp)

/-- What a turn of the arborist leaves, as long as it does not fail. -/
theorem working_of_turn {s h : Handled} (hs : Working s) (hgo : go_on s = some h) (hgood : ¬ h.station.fails) :
    Working h := by
  have hway := hs.station
  have hclosed : ∀ m : MoveRequest, (∀ p ∈ s.writable, p = m.tgt_path) →
      s.writable.filter (· ≠ m.tgt_path) = [] := by
    intro m hm
    rw [List.filter_eq_nil_iff]
    intro p hp
    simp [hm p hp]
  rcases go_on_cases hs hgo with ⟨m, hst, rfl⟩ | ⟨m, unread, hst, rfl⟩ | ⟨m, hst, rfl⟩
  · rw [hst] at hway
    cases hway with
    | placed _ honly =>
      unfold chmod_blob at hgood ⊢
      split at hgood
      · exact absurd (show (1 : UInt8) ≠ 0 by decide) hgood
      · rename_i hthere
        rw [if_neg hthere, hclosed m honly]
        exact ⟨hs.shape, .answering m rfl⟩
  · rw [hst] at hway
    cases hway with
    | copying _ _ u htgt hsrc honly =>
      rcases copy_goes_on s.tree s.writable m unread with h | h
      · rw [h]
        refine ⟨hs.shape.mono fun q hq => .inl (unlink_quietly_of_ne s.tree ?_), .placed m honly⟩
        rintro rfl
        exact hsrc hq
      · rw [h]
        have hext := modify_extended s.tree m.tgt_path (unread.take MSG_SIZE)
        rw [htgt] at hext ⊢
        exact ⟨hs.shape.of_extended hext, .copying m _ u htgt hsrc honly⟩
  · rw [hst] at hway
    cases hway with
    | answering _ h => exact ⟨hs.shape, .waiting h⟩

/-- An arborist that has done no harm goes on to work. -/
theorem working_step {s s' : Handled} {e : Event} (h : Working s) (hgood : Harmless s e)
    (hstep : step s e = some s') : Working s' := by
  cases e with
  | tmp_file src b =>
    simp only [step] at hstep
    split at hstep
    · cases hstep
    · rename_i hhead
      cases hc : s.tree.create src b with
      | error e => simp [hc, Except.toOption] at hstep
      | ok t =>
        simp only [hc, Except.toOption, Option.map_some, Option.some.injEq] at hstep
        subst hstep
        refine ⟨h.shape.mono fun q hq => .inl ?_, h.station⟩
        rw [(FileTree.create_ok hc).2.2, if_neg]
        rintro rfl
        exact hhead hq
  | unlink_blob u =>
    cases hstep
    refine ⟨h.shape.mono fun q _ => ?_, h.station⟩
    by_cases hq : q = u.path
    · subst hq
      exact unlink_quietly_self s.tree u.path
    · exact .inl (unlink_quietly_of_ne s.tree hq)
  | rename pid src u other_device =>
    simp only [step] at hstep
    split at hstep
    · rename_i hsend
      cases hstep
      have hr := receive_received { rename := other_device, other_device } s.tree s.writable
        (m := .R ⟨pid, src, u.path⟩) rfl (ne_path hsend.2)
      exact working_of_received h hsend.1 hr rfl hsend.2.1 hgood.1
    · cases hstep
  | move pid src u other_device =>
    simp only [step] at hstep
    split at hstep
    · rename_i hsend
      cases hstep
      have hr := receive_received { rename := other_device, other_device } s.tree s.writable
        (m := .M ⟨pid, src, u.path⟩) rfl (ne_path hsend.2)
      exact working_of_received h hsend.1 hr rfl hsend.2.1 hgood.1
    · cases hstep
  | trim u =>
    simp only [step] at hstep
    split at hstep
    · rename_i hwait
      cases hstep
      refine ⟨h.shape.of_trimmed (zap_trimmed {} s.tree 0 _), ?_⟩
      have hnot := hgood.1
      rw [trim_station] at hnot ⊢
      split at hnot
      · exact absurd trivial hnot
      · rename_i hcalm
        rw [if_neg hcalm]
        have hwritable : s.writable = [] := writable_of_waiting h hwait
        exact .waiting hwritable
    · cases hstep
  | turn => exact working_of_turn h hstep (hgood s' hstep)

/-- The arborist does no harm in a run exactly when no trim comes to a branch that is gone, no
rename comes from another device, no move goes to a linked leaf or, across devices, to a blob, and no
`chmod` comes to a blob that has been unlinked. -/
theorem arborist_harmless_iff {t : Store} (ht : StoreShape t) {es : List Event} {s : Handled}
    (hrun : exec step (started t) es = some s) :
    Along step Harmless (started t) es ↔ Along step Spared (started t) es :=
  along_congr (I := Working) (fun _ _ _ h hgood hstep => working_step h hgood hstep)
    (fun _ _ _ h hstep => harmless_iff_spared h hstep) ⟨ht, .waiting rfl⟩ hrun

/-- One blob put and then taken by two clients at once: each of the takes unlinks it
and each sends a trim. -/
def taken_twice : List Event :=
  let u : Udig := ⟨.sha, DigestModule.sha.empty⟩
  [.tmp_file ["tmp".toList, "put".toList] [], .rename 7 ["tmp".toList, "put".toList] u false, .turn, .turn,
    .unlink_blob u, .unlink_blob u, .trim u, .trim u]

theorem taken_twice_panics :
    (exec step (started fresh_store) taken_twice).map Handled.station = some .panicked := by
  decide +kernel

theorem arborist_not_always_harmless :
    ¬ ∀ (t : Store) (es : List Event) (s : Handled), StoreShape t →
      exec step (started t) es = some s → Along step Harmless (started t) es := by
  intro h
  obtain ⟨s, hs, hpanic⟩ := Option.map_eq_some_iff.mp taken_twice_panics
  have halong := h fresh_store taken_twice s fresh_store_shape hs
  have hsplit : taken_twice = taken_twice.take 7 ++ [.trim ⟨.sha, DigestModule.sha.empty⟩] := rfl
  rw [hsplit] at hs halong
  obtain ⟨m, hm, hlast⟩ := exec_concat.mp hs
  have hharmless := (along_concat.mp halong).2 m hm
  simp only [step] at hlast
  split at hlast
  · cases hlast
    exact hharmless.1 (by rw [hpanic]; trivial)
  · cases hlast

theorem arborist_harmless_iff_taken_once :
    Along step Harmless (started fresh_store) (taken_twice.take 7) ↔
      Along step Spared (started fresh_store) (taken_twice.take 7) := by
  have hrun : (exec step (started fresh_store) (taken_twice.take 7)).isSome := by decide +kernel
  obtain ⟨s, hs⟩ := Option.isSome_iff_exists.mp hrun
  exact arborist_harmless_iff fresh_store_shape hs

end Blobio.ArboristRuns
