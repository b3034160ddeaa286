import Blobio.RequestSpecs

/-! How the verbs of a request end, and the request itself: the replies each verb comes to,
the bytes it counts, the record and the exit status. -/
namespace Blobio.RequestChild
open TurnPrograms TurnPrograms.Program

/-- The chats that a verb can come to. -/
def reached : Verb → List (List Reply)
  | .cat => [[], [.no]]
  | .get | .eat | .roll => [[], [.ok], [.no]]
  | .wrap => [[], [.ok]]
  | .put => [[], [.ok], [.ok, .ok], [.ok, .no]]
  | .give => [[], [.ok], [.ok, .no], [.ok, .ok], [.ok, .ok, .ok], [.ok, .ok, .no]]
  | .take => [[], [.no], [.ok], [.ok, .no], [.ok, .ok], [.ok, .ok, .ok]]

/-- The chats of a protocol that has run to its end. -/
def completed : Verb → List (List Reply)
  | .cat => [[.no]]
  | .get | .eat | .roll => [[.ok], [.no]]
  | .wrap => [[.ok]]
  | .put => [[.ok, .ok]]
  | .give => [[.ok, .ok, .ok], [.ok, .ok, .no]]
  | .take => [[.no], [.ok, .no], [.ok, .ok, .ok]]

/-- The chats in which the server says no. -/
def refusals : Verb → List (List Reply)
  | .cat | .get | .eat | .roll | .take => [[.no]]
  | .wrap => []
  | .put | .give => [[.ok, .no]]

namespace Standing

/-- No byte of the blob has moved. -/
def Unmoved (t : Standing) : Prop :=
  t.size = t.read_ahead.length ∧ t.moved = 0

/-- The bytes that came with the line are counted on top of those of the blob. -/
def Balanced (t : Standing) : Prop :=
  t.size = t.read_ahead.length + t.moved

def Sized (r : Requested) (t : Standing) : Prop :=
  match r.verb with
  | .cat | .eat | .wrap | .roll => t.Unmoved
  | .get | .take => t.Balanced
  | .put | .give =>
    [.ok, .ok] <+: t.chat → if r.digest = r.algorithm.empty_ascii then t.Unmoved else t.size = t.moved

/-- How the callback of a request ends. -/
structure Ended (r : Requested) (t : Standing) : Prop where
  requested : t.requested = r ∨ r.verb = .wrap ∧ ∃ d : Digest, t.requested = { r with digest := d.chars }
  wrapped : r.verb = .wrap → t.chat = [] ∨ ∃ d : Digest, t.requested = { r with digest := d.chars }
  bits : t.bits = verb_bits r.verb <<< 2
  reached : t.chat ∈ reached r.verb
  completed : t.clean → t.chat ∈ completed r.verb
  refused : t.chat = [.ok, .ok, .no] → t.clean = true
  said : .no ∈ t.said → t.chat ∈ refusals r.verb
  sized : t.Sized r

/-- A request whose callback starts. -/
def opened (r : Requested) (read_ahead : Text) : Standing where
  requested := r
  read_ahead := read_ahead
  size := read_ahead.length

/-- A request whose verb has been set. -/
def begun (r : Requested) (read_ahead : Text) : Standing :=
  { opened r read_ahead with bits := verb_bits r.verb <<< 2 }

section ends
variable {r : Requested} {buf : Text} {t : Standing}

theorem Ended.of {v : Verb} (rs ss : List Reply) (b : Bool) (hv : r.verb = v)
    (hrequested : t.requested = r) (hbits : t.bits = verb_bits r.verb <<< 2) (hchat : t.chat = rs)
    (hsaid : t.said = ss) (hclean : t.clean = b) (hallowed : rs ∈ RequestChild.reached v ∧
      (b → rs ∈ RequestChild.completed v) ∧ (rs = [.ok, .ok, .no] → b = true) ∧ (v = .wrap → rs = []) ∧
        (.no ∈ ss → rs ∈ refusals v))
    (hsized : t.Sized r) : Ended r t where
  requested := .inl hrequested
  wrapped hwrap := .inl (hchat.trans (hallowed.2.2.2.1 (hv.symm.trans hwrap)))
  bits := hbits
  reached := by
    rw [hchat, hv]
    exact hallowed.1
  completed := by
    rw [hchat, hv, hclean]
    exact hallowed.2.1
  refused := by
    rw [hchat, hclean]
    exact hallowed.2.2.1
  said := by
    rw [hchat, hsaid, hv]
    exact hallowed.2.2.2.2
  sized := hsized

theorem balanced_begun (r : Requested) (buf : Text) : (begun r buf).Balanced :=
  rfl

theorem Balanced.carry (h : t.Balanced) (n : ℕ) : (t.carry n).Balanced := by
  have hsize : t.size = t.read_ahead.length + t.moved := h
  change t.size + n = t.read_ahead.length + (t.moved + n)
  omega

/-- The bytes behind the line are counted before they are seen to be the blob's. -/
theorem size_eat_ahead (h : t.Unmoved) (n : ℕ) :
    (t.eat_ahead.carry n).size = (t.eat_ahead.carry n).moved := by
  change t.size + n = t.moved + t.read_ahead.length + n
  rw [h.1, h.2]
  omega

end ends

end Standing

open Standing

/-- What holds where a callback returns. -/
def Returned (r : Requested) (s : Child) : Prop :=
  ∃ t, Stands t s ∧ Ended r t

/-! ### The verbs -/

section verbs
variable {r : Requested} {buf : Text} {s : Child}

theorem rest_set_verb {b : BitVec 8} (v : Verb) (h : rest_of b = 0) :
    rest_of (set_verb v b) = verb_bits v <<< 2 := by
  have hb : b &&& 0x1C#8 = 0 := by
    have hmask : b &&& 0x1C#8 = rest_of b &&& 0x1C#8 := by
      rw [rest_of, BitVec.and_assoc]
      rfl
    rw [hmask, h]
    rfl
  rw [set_verb, hb]
  cases v <;> rfl

theorem class_set_verb {b : BitVec 8} (v : Verb) : class_of (set_verb v b) = 0 := by
  rw [class_of, set_verb, mask_or, show 0x1C#8 &&& 0x3 = 0 from rfl]
  cases v <;> simp [verb_bits]

/-- The verb is set on the bare status of an open request. -/
theorem wp_set_verb {Q : Unit → Child → Prop} {L W : Child → Prop} (h : Stands (opened r buf) s)
    (hQ : ∀ s', Stands (begun r buf) s' → Q () s') :
    wp (modify (with_status (set_verb r.verb)) : Prog Unit) Q L W s := by
  refine wp_modify (hQ _ ?_)
  have hmarks : Clean s := h.marks
  exact
    { requested := h.requested
      scan_buf := h.scan_buf
      chatting := ⟨h.chatting.count, h.chatting.chat, h.chatting.replied, h.chatting.overflow⟩
      said := h.said
      size := h.size
      moved := h.moved
      bits := rest_set_verb _ h.bits
      marks := ⟨class_set_verb _, hmarks.2⟩
      unrecorded := h.unrecorded
      running := h.running }

/-- The last reply of a callback, or its loss. -/
theorem wp_last_answer {t : Standing} {x : Reply} (h : Stands t s) (hc : t.chat.length ≤ 2)
    (hsent : Ended r (t.reply x)) (hlost : Ended r t.spoilt) :
    wp (answer x) (fun _ => Returned r) (Gone t.bits) Moment s :=
  wp_answer h hc (fun _ hs => ⟨_, hs, hsent⟩) fun _ hs => ⟨_, hs, hlost⟩

theorem wp_cat (h : Stands (opened r buf) s) (hv : r.verb = .cat) :
    wp cat (fun _ => Returned r) (Gone (verb_bits r.verb <<< 2)) Moment s := by
  have hsized : ∀ {t : Standing}, t.Unmoved → t.Sized r := by
    intro t ht
    rw [Sized, hv]
    exact ht
  rw [cat, ← hv]
  refine wp_bind (wp_set_verb h fun s h => wp_last_answer (t := begun r buf) h (Nat.zero_le 2) ?_ ?_)
  · exact .of [.no] [.no] true hv rfl rfl rfl rfl rfl (by decide) (hsized ⟨rfl, rfl⟩)
  · exact .of [] [] false hv rfl rfl rfl rfl rfl (by decide) (hsized ⟨rfl, rfl⟩)

theorem wp_eat (h : Stands (opened r buf) s) (hv : r.verb = .eat) :
    wp eat (fun _ => Returned r) (Gone (verb_bits r.verb <<< 2)) Moment s := by
  have hsized : ∀ {t : Standing}, t.Unmoved → t.Sized r := by
    intro t ht
    rw [Sized, hv]
    exact ht
  have hlost : Ended r (begun r buf).spoilt :=
    .of [] [] false hv rfl rfl rfl rfl rfl (by decide) (hsized ⟨rfl, rfl⟩)
  rw [eat, ← hv]
  refine wp_bind (wp_set_verb h fun s h => wp_bind (wp_open_blob (t := begun r buf) h fun found => ?_))
  refine wp_ite (fun _ => ?_) fun _ => ?_
  · refine wp_last_answer (t := begun r buf) h (Nat.zero_le 2) ?_ hlost
    exact .of [.ok] [.ok] true hv rfl rfl rfl rfl rfl (by decide) (hsized ⟨rfl, rfl⟩)
  · refine wp_last_answer (t := begun r buf) h (Nat.zero_le 2) ?_ hlost
    exact .of [.no] [.no] true hv rfl rfl rfl rfl rfl (by decide) (hsized ⟨rfl, rfl⟩)

theorem wp_get_verb {trust_fs : Bool} (h : Stands (opened r buf) s) (hv : r.verb = .get) :
    wp (get trust_fs r) (fun _ => Returned r) (Gone (verb_bits r.verb <<< 2)) Moment s := by
  have hsized : ∀ {t : Standing}, t.Balanced → t.Sized r := by
    intro t ht
    rw [Sized, hv]
    exact ht
  have hlost : Ended r (begun r buf).spoilt :=
    .of [] [] false hv rfl rfl rfl rfl rfl (by decide) (hsized (balanced_begun r buf))
  have hok : Ended r ((begun r buf).reply .ok) :=
    .of [.ok] [.ok] true hv rfl rfl rfl rfl rfl (by decide) (hsized (balanced_begun r buf))
  rw [get, ← hv]
  refine wp_bind (wp_set_verb h fun s h => wp_ite (fun _ => ?_) fun _ => ?_)
  · exact wp_last_answer (t := begun r buf) h (Nat.zero_le 2) hok hlost
  · refine wp_bind (wp_open_blob (t := begun r buf) h fun found => wp_ite (fun _ => ?_) fun _ => ?_)
    · refine wp_bind (wp_write_reply (t := begun r buf) h (Nat.zero_le 2) (fun s h => ?_) fun s h => ?_)
      · have hbalanced := (balanced_begun r buf).carry
        refine wp_bind (wp_get_bytes (t := (begun r buf).reply .ok) h (fun n s h => ?_) fun n s h => ?_)
        · exact wp_pure ⟨_, h, .of [.ok] [.ok] true hv rfl rfl rfl rfl rfl (by decide) (hsized (hbalanced n))⟩
        · exact wp_pure ⟨_, h, .of [.ok] [.ok] false hv rfl rfl rfl rfl rfl (by decide) (hsized (hbalanced n))⟩
      · exact wp_pure ⟨_, h, hlost⟩
    · refine wp_last_answer (t := begun r buf) h (Nat.zero_le 2) ?_ hlost
      exact .of [.no] [.no] true hv rfl rfl rfl rfl rfl (by decide) (hsized (balanced_begun r buf))

theorem wp_take {trust_fs : Bool} (h : Stands (opened r buf) s) (hv : r.verb = .take) :
    wp (take trust_fs r) (fun _ => Returned r) (Gone (verb_bits r.verb <<< 2)) Moment s := by
  have hsized : ∀ {t : Standing}, t.Balanced → t.Sized r := by
    intro t ht
    rw [Sized, hv]
    exact ht
  have hbalanced := (balanced_begun r buf).carry
  have hlost : Ended r (begun r buf).spoilt :=
    .of [] [] false hv rfl rfl rfl rfl rfl (by decide) (hsized (balanced_begun r buf))
  rw [take, ← hv]
  refine wp_bind (wp_set_verb h fun s h => wp_bind (wp_open_blob (t := begun r buf) h fun wrapped => ?_))
  refine wp_ite (fun _ => ?_) fun _ => ?_
  · refine wp_note_hazard (t := begun r buf) .in_wrap_set h rfl rfl rfl fun s h => ?_
    refine wp_last_answer (t := (begun r buf).spoilt) h (Nat.zero_le 2) ?_ hlost
    exact .of [.no] [.no] false hv rfl rfl rfl rfl rfl (by decide) (hsized (balanced_begun r buf))
  refine wp_bind (wp_open_blob (t := begun r buf) h fun found => wp_ite (fun _ => ?_) fun _ => ?_)
  · refine wp_bind (wp_write_reply (t := begun r buf) h (Nat.zero_le 2) (fun s h => ?_) fun s h => ?_)
    · refine wp_bind (wp_get_bytes (t := (begun r buf).reply .ok) h (fun n s h => ?_) fun n s h => ?_)
      · have hbad : Ended r (((begun r buf).reply .ok).carry n).spoilt :=
          .of [.ok] [.ok] false hv rfl rfl rfl rfl rfl (by decide) (hsized (hbalanced n))
        refine wp_bind (wp_read_reply (t := ((begun r buf).reply .ok).carry n) h (Nat.le_succ 1)
          (fun x s h => ?_) fun s h => wp_pure ⟨_, h, hbad⟩)
        cases x with
        | ok =>
          refine wp_bind (wp_store_op (t := (((begun r buf).reply .ok).carry n).hear .ok) h ?_)
          refine wp_last_answer (t := (((begun r buf).reply .ok).carry n).hear .ok) h le_rfl ?_ ?_
          · exact .of [.ok, .ok, .ok] [.ok, .ok] true hv rfl rfl rfl rfl rfl (by decide) (hsized (hbalanced n))
          · exact .of [.ok, .ok] [.ok] false hv rfl rfl rfl rfl rfl (by decide) (hsized (hbalanced n))
        | no =>
          refine wp_pure ⟨_, h, ?_⟩
          exact .of [.ok, .no] [.ok] true hv rfl rfl rfl rfl rfl (by decide) (hsized (hbalanced n))
      · exact wp_pure ⟨_, h, .of [.ok] [.ok] false hv rfl rfl rfl rfl rfl (by decide) (hsized (hbalanced n))⟩
    · exact wp_pure ⟨_, h, hlost⟩
  · refine wp_last_answer (t := begun r buf) h (Nat.zero_le 2) ?_ hlost
    exact .of [.no] [.no] true hv rfl rfl rfl rfl rfl (by decide) (hsized (balanced_begun r buf))

/-- The sizes of a put or a give whose bytes have been accepted. -/
theorem sized_of_put {t : Standing} (hv : r.verb = .put ∨ r.verb = .give)
    (ht : if r.digest = r.algorithm.empty_ascii then t.Unmoved else t.size = t.moved) : t.Sized r := by
  rcases hv with hv | hv
  · rw [Sized, hv]
    exact fun _ => ht
  · rw [Sized, hv]
    exact fun _ => ht

theorem sized_of_chat {t : Standing} (hv : r.verb = .put ∨ r.verb = .give)
    (ht : ¬ [.ok, .ok] <+: t.chat) : t.Sized r := by
  rcases hv with hv | hv
  · rw [Sized, hv]
    exact fun hok => absurd hok ht
  · rw [Sized, hv]
    exact fun hok => absurd hok ht

/-- A put or a give behind its first ok, with its bytes taken or lost. -/
structure Fed (r : Requested) (clean : Bool) (t : Standing) : Prop where
  requested : t.requested = r
  bits : t.bits = verb_bits r.verb <<< 2
  chat : t.chat = [.ok]
  said : t.said = [.ok]
  clean : t.clean = clean

theorem Fed.chat_reply {t : Standing} {clean : Bool} (ht : Fed r clean t) (x : Reply) :
    (t.reply x).chat = [.ok, x] := by
  rw [Standing.reply, ht.chat]
  rfl

theorem Fed.said_reply {t : Standing} {clean : Bool} (ht : Fed r clean t) (x : Reply) :
    (t.reply x).said = [.ok, x] := by
  rw [Standing.reply, ht.said]
  rfl

theorem wp_put_blob {Q : Bool → Child → Prop} (h : Stands ((begun r buf).reply .ok) s)
    (hput : ∀ t s', Stands t s' → Fed r true t →
      (if r.digest = r.algorithm.empty_ascii then t.Unmoved else t.size = t.moved) → Q true s')
    (hlost : ∀ t s', Stands t s' → Fed r false t → Q false s') :
    wp (put_bytes r) Q (Gone (verb_bits r.verb <<< 2)) Moment s := by
  refine wp_put_bytes (t := (begun r buf).reply .ok) h rfl (fun hr => ?_) (fun hr n s h => ?_) fun n s h => ?_
  · refine hput _ s h ⟨rfl, rfl, rfl, rfl, rfl⟩ ?_
    rw [if_pos hr]
    exact ⟨rfl, rfl⟩
  · refine hput _ s h ⟨rfl, rfl, rfl, rfl, rfl⟩ ?_
    rw [if_neg hr]
    exact size_eat_ahead ⟨rfl, rfl⟩ n
  · exact hlost _ s h ⟨rfl, rfl, rfl, rfl, rfl⟩

/-- The no to a blob whose bytes were lost. -/
theorem wp_refuse {t : Standing} (hv : r.verb = .put ∨ r.verb = .give) (h : Stands t s)
    (ht : Fed r false t) : wp (answer .no) (fun _ => Returned r) (Gone t.bits) Moment s := by
  have hallowed : ∀ rs : List Reply, rs ∈ RequestChild.reached .put →
      rs ∈ RequestChild.reached r.verb := by
    intro rs hrs
    rcases hv with hv | hv
    · rw [hv]
      exact hrs
    · rw [hv]
      revert rs
      decide
  have hwrap : r.verb ≠ .wrap := by
    rcases hv with hv | hv <;> simp [hv]
  have hrefusal : [Reply.ok, .no] ∈ refusals r.verb := by
    rcases hv with hv | hv <;> rw [hv] <;> exact List.mem_singleton_self _
  refine wp_last_answer h (by simp [ht.chat]) ?_ ?_
  · refine .of [.ok, .no] [.ok, .no] false rfl ht.requested ht.bits (ht.chat_reply .no) (ht.said_reply .no) ht.clean
      ⟨hallowed _ (by decide), nofun, nofun, fun h => absurd h hwrap, fun _ => hrefusal⟩ (sized_of_chat hv ?_)
    rw [ht.chat_reply]
    decide
  · refine .of [.ok] [.ok] false rfl ht.requested ht.bits ht.chat ht.said rfl
      ⟨hallowed _ (by decide), nofun, nofun, fun h => absurd h hwrap, nofun⟩ (sized_of_chat hv ?_)
    rw [Standing.spoilt, ht.chat]
    decide

theorem wp_put (h : Stands (opened r buf) s) (hv : r.verb = .put) :
    wp (put r) (fun _ => Returned r) (Gone (verb_bits r.verb <<< 2)) Moment s := by
  rw [put, ← hv]
  refine wp_bind (wp_set_verb h fun s h => ?_)
  refine wp_bind (wp_write_reply (t := begun r buf) h (Nat.zero_le 2) (fun s h => ?_) fun s h => ?_)
  · refine wp_bind (wp_put_blob h ?_ ?_)
    · intro t s h ht hsized
      have hput := sized_of_put (.inl hv) hsized
      rw [← ht.bits]
      refine wp_last_answer h (by simp [ht.chat]) ?_ ?_
      · exact .of [.ok, .ok] [.ok, .ok] true hv ht.requested ht.bits (ht.chat_reply .ok) (ht.said_reply .ok) ht.clean (by decide)
          (sized_of_put (.inl hv) hsized)
      · exact .of [.ok] [.ok] false hv ht.requested ht.bits ht.chat ht.said rfl (by decide) hput
    · intro t s h ht
      rw [← ht.bits]
      exact wp_refuse (.inl hv) h ht
  · refine wp_pure ⟨_, h, .of [] [] false hv rfl rfl rfl rfl rfl (by decide) (sized_of_chat (.inl hv) ?_)⟩
    exact fun hok => absurd (List.prefix_nil.mp hok) (List.cons_ne_nil _ _)

theorem wp_give (h : Stands (opened r buf) s) (hv : r.verb = .give) :
    wp (give r) (fun _ => Returned r) (Gone (verb_bits r.verb <<< 2)) Moment s := by
  rw [give, ← hv]
  refine wp_bind (wp_set_verb h fun s h => ?_)
  refine wp_bind (wp_write_reply (t := begun r buf) h (Nat.zero_le 2) (fun s h => ?_) fun s h => ?_)
  · refine wp_bind (wp_put_blob h ?_ ?_)
    · intro t s h ht hsized
      have hput := sized_of_put (.inr hv) hsized
      have hok := ht.chat_reply .ok
      have hsaid := ht.said_reply .ok
      rw [← ht.bits]
      refine wp_bind (wp_write_reply h (by simp [ht.chat]) (fun s h => ?_) fun s h => ?_)
      · refine wp_bind (wp_read_reply (t := t.reply .ok) h (by simp [hok]) (fun x s h => ?_) fun s h => ?_)
        · refine wp_pure ⟨_, h, ?_⟩
          refine .of [.ok, .ok, x] [.ok, .ok] true hv ht.requested ht.bits ?_ hsaid ht.clean ?_ (sized_of_put (.inr hv) hsized)
          · rw [Standing.hear, hok]
            rfl
          · cases x <;> decide
        · refine wp_pure ⟨_, h, ?_⟩
          exact .of [.ok, .ok] [.ok, .ok] false hv ht.requested ht.bits hok hsaid rfl (by decide) (sized_of_put (.inr hv) hsized)
      · exact wp_pure ⟨_, h, .of [.ok] [.ok] false hv ht.requested ht.bits ht.chat ht.said rfl (by decide) hput⟩
    · intro t s h ht
      rw [← ht.bits]
      exact wp_refuse (.inr hv) h ht
  · refine wp_pure ⟨_, h, .of [] [] false hv rfl rfl rfl rfl rfl (by decide) (sized_of_chat (.inr hv) ?_)⟩
    exact fun hok => absurd (List.prefix_nil.mp hok) (List.cons_ne_nil _ _)

theorem Stands.with_digest {t : Standing} (h : Stands t s) (d : Digest) :
    Stands { t with requested := { t.requested with digest := d.chars } } (with_digest d s) where
  requested := by
    rw [RequestChild.with_digest, h.requested]
    rfl
  scan_buf := h.scan_buf
  chatting := ⟨h.chatting.count, h.chatting.chat, h.chatting.replied, h.chatting.overflow⟩
  said := h.said
  size := h.size
  moved := h.moved
  bits := h.bits
  marks := marks_of_eq h.marks rfl rfl
  unrecorded := h.unrecorded
  running := h.running

theorem wp_wrap (h : Stands (opened r buf) s) (hv : r.verb = .wrap) :
    wp wrap (fun _ => Returned r) (Gone (verb_bits r.verb <<< 2)) Moment s := by
  have hsized : ∀ {t : Standing}, t.Unmoved → t.Sized r := by
    intro t ht
    rw [Sized, hv]
    exact ht
  have hwrapped : ∀ (b : Bool) (d : Digest), Ended r
      { begun r buf with
        requested := { r with digest := d.chars }
        chat := [.ok]
        said := [.ok]
        clean := b } := by
    intro b d
    refine ⟨.inr ⟨hv, d, rfl⟩, fun _ => .inr ⟨d, rfl⟩, rfl, ?_, fun _ => ?_, nofun, ?_, hsized ⟨rfl, rfl⟩⟩
    · rw [hv]
      exact List.mem_cons_of_mem _ List.mem_cons_self
    · rw [hv]
      exact List.mem_cons_self
    · intro hno
      cases List.mem_singleton.mp hno
  rw [wrap, ← hv]
  refine wp_bind (wp_set_verb h fun s h => wp_bind (wp_store_op (t := begun r buf) h ?_))
  refine wp_bind (wp_write_reply (t := begun r buf) h (Nat.zero_le 2) (fun s h => ?_) fun s h => ?_)
  · refine wp_bind (wp_turn h.moment fun x => wp_bind (wp_modify (wp_bind ?_)))
    refine wp_req_write (h.with_digest x.set_digest) (by decide) (wp_pure ?_) fun s h => wp_pure ?_
    · exact ⟨_, h.with_digest x.set_digest, hwrapped true _⟩
    · exact ⟨_, h, hwrapped false _⟩
  · exact wp_pure ⟨_, h, .of [] [] false hv rfl rfl rfl rfl rfl (by decide) (hsized ⟨rfl, rfl⟩)⟩

theorem wp_roll (h : Stands (opened r buf) s) (hv : r.verb = .roll) :
    wp roll (fun _ => Returned r) (Gone (verb_bits r.verb <<< 2)) Moment s := by
  have hsized : ∀ {t : Standing}, t.Unmoved → t.Sized r := by
    intro t ht
    rw [Sized, hv]
    exact ht
  -- the last reply, however clean the request is by then
  have hanswer : ∀ {x : Reply} {b : Bool} {s : Child}, Stands { begun r buf with clean := b } s →
      wp (answer x) (fun _ => Returned r) (Gone (verb_bits r.verb <<< 2)) Moment s := by
    intro x b s h
    refine wp_last_answer (t := { begun r buf with clean := b }) h (Nat.zero_le 2) ?_ ?_
    · exact .of [x] [x] b hv rfl rfl rfl rfl rfl (by cases x <;> cases b <;> decide) (hsized ⟨rfl, rfl⟩)
    · exact .of [] [] false hv rfl rfl rfl rfl rfl (by decide) (hsized ⟨rfl, rfl⟩)
  -- behind the copy
  have hslurp : ∀ {b : Bool} {s : Child}, Stands { begun r buf with clean := b } s →
      wp (do
        store_op
        let slurped ← turn
        if slurped.nread = 0 then answer .ok
        else if slurped.accepted then do
          store_op
          answer .ok
        else do
          modify (note .not_udig_set)
          error
          answer .no) (fun _ => Returned r) (Gone (verb_bits r.verb <<< 2)) Moment s := by
    intro b s h
    refine wp_bind (wp_store_op (t := { begun r buf with clean := b }) h (wp_bind (wp_turn h.moment fun x => ?_)))
    refine wp_ite (fun _ => hanswer h) fun _ => wp_ite (fun _ => ?_) fun _ => ?_
    · exact wp_bind (wp_store_op (t := { begun r buf with clean := b }) h (hanswer h))
    · exact wp_note_hazard (t := { begun r buf with clean := b }) .not_udig_set h rfl rfl rfl fun s h => hanswer h
  rw [roll, ← hv]
  refine wp_bind (wp_set_verb h fun s h => wp_bind (wp_store_op (t := begun r buf) h ?_))
  refine wp_bind (wp_turn h.moment fun x => wp_ite (fun _ => wp_panic (t := begun r buf) h) fun _ => ?_)
  refine wp_ite (fun _ => hanswer (b := true) h) fun _ => ?_
  by_cases hcopy : x.store = .given_up
  · rw [if_pos hcopy]
    refine wp_note_hazard (t := begun r buf) .given_up h rfl rfl rfl fun s h => ?_
    exact hslurp (b := false) h
  · rw [if_neg hcopy]
    exact hslurp (b := true) h

/-- From any answers, a callback comes to an end that the verb allows, or leaves with a mark. -/
theorem wp_callback {trust_fs : Bool} (h : Stands (opened r buf) s) :
    wp (callback trust_fs r) (fun _ => Returned r) (Gone (verb_bits r.verb <<< 2)) Moment s := by
  rw [callback]
  split
  · exact wp_cat h ‹_›
  · exact wp_get_verb h ‹_›
  · exact wp_put h ‹_›
  · exact wp_give h ‹_›
  · exact wp_take h ‹_›
  · exact wp_eat h ‹_›
  · exact wp_wrap h ‹_›
  · exact wp_roll h ‹_›

end verbs

/-! ### The request -/

theorem class_set_chat {c : BitVec 8} (hc : c <<< 5 &&& 0x3 = 0) (b : BitVec 8) :
    class_of (set_chat c b) = class_of b := by
  rw [class_of, set_chat, mask_or, hc, show 0x9F#8 &&& 0x3 = 0x3 from rfl]
  simp [class_of]

theorem class_chat_status {ch : Text} {b b' : BitVec 8} (h : chat_status ch b = some b') :
    class_of b' = class_of b := by
  have hif : ∀ {p : Prop} [Decidable p] {c : BitVec 8}, c <<< 5 &&& 0x3 = 0 →
      class_of (if p then set_chat c b else b) = class_of b := by
    intro p _ c hc
    split
    · exact class_set_chat hc b
    · rfl
  unfold chat_status at h
  split at h
  · rw [← Option.some.inj h]
    exact hif rfl
  · rw [← Option.some.inj h]
    exact hif rfl
  · rw [← Option.some.inj h]
    exact hif rfl
  · cases h

theorem rest_chat_status {ch : Text} {b b' : BitVec 8} (h : chat_status ch b = some b') :
    chat_status ch (rest_of b) = some (rest_of b') := by
  have hset : ∀ {c : BitVec 8}, c <<< 5 &&& (0xFC : BitVec 8) = c <<< 5 → set_chat c (rest_of b) = rest_of (set_chat c b) := by
    intro c hc
    rw [rest_of, rest_of, set_chat, set_chat, mask_or, hc, BitVec.and_assoc]
    rfl
  have hif : ∀ {p : Prop} [Decidable p] {c : BitVec 8}, c <<< 5 &&& (0xFC : BitVec 8) = c <<< 5 →
      (if p then set_chat c (rest_of b) else rest_of b) = rest_of (if p then set_chat c b else b) := by
    intro p _ c hc
    split
    · exact hset hc
    · rfl
  unfold chat_status at h ⊢
  split at h
  · rw [← Option.some.inj h]
    exact congrArg some (hif rfl)
  · rw [← Option.some.inj h]
    exact congrArg some (hif rfl)
  · rw [← Option.some.inj h]
    exact congrArg some (hif rfl)
  · cases h

/-- The status is coded just where there has been a reply. -/
theorem chat_status_joined {rs : List Reply} (hrs : rs.length ≤ 3) (b : BitVec 8) :
    chat_status (joined rs) b = none ↔ rs = [] := by
  match rs, hrs with
  | [], _ => exact ⟨fun _ => rfl, fun _ => rfl⟩
  | [x], _ => cases x <;> exact ⟨nofun, nofun⟩
  | [x, y], _ =>
    cases x <;> cases y <;> exact ⟨nofun, nofun⟩
  | [x, y, z], _ => cases x <;> cases y <;> cases z <;> exact ⟨nofun, nofun⟩

/-- The exit of a request whose callback has returned. -/
structure Closed (config : Config) (t : Standing) (s : Child) : Prop where
  requested : s.requested = some t.requested
  scan_buf : s.scan_buf = t.read_ahead
  chat : s.chat_history = joined t.chat
  size : s.blob_size = t.size
  moved : moved s.happened = t.moved
  replied : replies s.happened = t.chat
  running : Running s
  coded : chat_status (joined t.chat) t.bits = some (rest_of s.request_exit_status)
  marks : t.clean = true ∧ Clean s ∨ Marked s
  unfailed : t.clean = true → last_failure s.happened = none
  record : ∀ d, .brr d ∈ s.happened ↔
    brr_mask_is_set t.requested.verb config.brr_mask ∧ d = ⟨t.requested, joined t.chat, t.size⟩

/-- How a request process ends, when its callback has returned and when it has not. -/
inductive Finished (config : Config) : Child → Prop
  | closed {verb algorithm digest : Text} {r : Requested} {t : Standing} {s : Child}
    (hr : dispatch config.installed verb algorithm digest = .callback r) (ht : Ended r t)
    (hchat : t.chat ≠ []) (hs : Closed config t s) : Finished config s
  | spoilt {s : Child} (hm : Marked s) (hb : Unrecorded s) (ho : .overflow ∉ s.happened) :
    Finished config s
  | misled {s : Child} (hs : Hazardous s.happened) (hb : Unrecorded s) : Finished config s

/-- How a request process ends whose callback has returned. -/
inductive Exited (config : Config) (t : Standing) : Child → Prop
  | closed {s : Child} (hchat : t.chat ≠ []) (hs : Closed config t s) : Exited config t s
  | gone {bits : BitVec 8} {s : Child} (hbits : bits = t.bits ∨ chat_status (joined t.chat) t.bits = some bits)
    (hs : Gone bits s) : Exited config t s
  | unanswered {s : Child} (hchat : t.chat = []) (hno : .no_chat ∈ s.happened)
    (hf : last_failure s.happened ≠ some .fault) (hb : Unrecorded s) : Exited config t s

section request
variable {config : Config} {t : Standing} {s : Child}

theorem Gone.finished {bits : BitVec 8} (h : Gone bits s) : Finished config s := by
  obtain ⟨rs, hchat⟩ := h.chatting
  exact .spoilt h.marked h.unrecorded hchat.overflow

theorem marks_cases {clean : Bool} (hmarks : if clean then Clean s else Marked s) :
    clean = true ∧ Clean s ∨ Marked s := by
  cases clean
  · exact .inr hmarks
  · exact .inl ⟨rfl, hmarks⟩

theorem Stands.closed_masked {b : BitVec 8} (h : Stands { t with bits := b } s)
    (hb : chat_status (joined t.chat) t.bits = some b)
    (hmask : ¬ brr_mask_is_set t.requested.verb config.brr_mask) : Closed config t s where
  requested := h.requested
  scan_buf := h.scan_buf
  chat := h.chatting.chat
  size := h.size
  moved := h.moved
  replied := h.chatting.replied
  running := h.running
  coded := hb.trans (congrArg some h.bits.symm)
  marks := marks_cases h.marks
  unfailed := fun hclean => (h.clean hclean).last_failure
  record := by
    intro d
    constructor
    · intro hd
      exact absurd hd (h.unrecorded d)
    · intro hd
      exact absurd hd.1 hmask

theorem Stands.closed_brr {b : BitVec 8} (h : Stands { t with bits := b } s)
    (hb : chat_status (joined t.chat) t.bits = some b)
    (hmask : brr_mask_is_set t.requested.verb config.brr_mask) :
    Closed config t (note (.brr ⟨t.requested, joined t.chat, t.size⟩) s) where
  requested := h.requested
  scan_buf := h.scan_buf
  chat := h.chatting.chat
  size := h.size
  moved := by
    rw [note, moved_concat]
    exact h.moved
  replied := by
    rw [note, replies_concat, h.chatting.replied]
    exact List.append_nil _
  running := h.running.note rfl
  coded := hb.trans (congrArg some h.bits.symm)
  marks := marks_cases (marks_note h.marks rfl rfl)
  unfailed hclean := by
    rw [note, last_failure_of_none rfl]
    exact (h.clean hclean).last_failure
  record := by
    intro d
    have hd := h.unrecorded d
    simp [note, hd, hmask]

theorem Stands.coded {b : BitVec 8} (h : Stands t s)
    (hb : chat_status s.chat_history s.request_exit_status = some b) :
    Stands { t with bits := rest_of b } (with_status (fun _ => b) s) where
  requested := h.requested
  scan_buf := h.scan_buf
  chatting := ⟨h.chatting.count, h.chatting.chat, h.chatting.replied, h.chatting.overflow⟩
  said := h.said
  size := h.size
  moved := h.moved
  bits := rfl
  marks := by
    have hclass := class_chat_status hb
    have hmarks := h.marks
    change if t.clean then _ else _
    cases hclean : t.clean
    · rw [hclean] at hmarks
      have hm : Marked s := hmarks
      refine ⟨?_, ?_, hm.cause⟩
      · rw [with_status, hclass]
        exact hm.ne_zero
      · rw [with_status, hclass]
        exact hm.right
    · rw [hclean] at hmarks
      have hc : Clean s := hmarks
      exact ⟨hclass.trans hc.1, hc.2⟩
  unrecorded := h.unrecorded
  running := h.running

theorem Closed.of_spoilt (h : Closed config t.spoilt s)
    (hf : t.clean = true → last_failure s.happened = none) : Closed config t s :=
  { h with marks := .inr (h.marks.resolve_left fun hclean => nomatch hclean.1), unfailed := hf }

/-- The record, with a complaint before it where the clock was set back. -/
theorem wp_send_record {Q : Unit → Child → Prop} {b : BitVec 8} (h : Stands { t with bits := b } s)
    (hb : chat_status (joined t.chat) t.bits = some b)
    (hmask : brr_mask_is_set t.requested.verb config.brr_mask)
    (hclosed : ∀ s', Closed config t s' → Q () s') :
    wp (do
      let x ← turn
      if x.set_back then do
        modify (note .set_back)
        error
      else pure ()
      store_op
      modify (note (.brr ⟨t.requested, joined t.chat, t.size⟩))) Q (Gone b) Moment s := by
  refine wp_bind (wp_turn h.moment fun x => ?_)
  by_cases hback : x.set_back
  · rw [if_pos hback]
    have hback : Stands { t.spoilt with bits := b } (note .set_back (with_status error_status s)) :=
      h.mark rfl (rest_error_status _) (marked_of_hazard h.marks rfl rfl)
    refine wp_bind (wp_modify (wp_bind (wp_modify (wp_bind (wp_store_op hback ?_)))))
    refine wp_modify (hclosed _ ((Stands.closed_brr (t := t.spoilt) hback hb hmask).of_spoilt ?_))
    intro hclean
    rw [note, last_failure_of_none rfl, note, last_failure_of_none rfl]
    exact (h.clean hclean).last_failure
  · rw [if_neg hback]
    exact wp_bind (wp_store_op h (wp_modify (hclosed _ (h.closed_brr hb hmask))))

/-- A request whose status is coded from its chat. -/
theorem wp_record_coded {Q : Unit → Child → Prop} {b : BitVec 8} (h : Stands t s)
    (hb : chat_status s.chat_history s.request_exit_status = some b) :
    wp (record_request config) Q (Exited config t) Moment s := by
  have hcoded := h.coded hb
  have hrest := rest_chat_status hb
  rw [h.chatting.chat, h.bits] at hrest
  have hchat : t.chat ≠ [] := by
    intro hnil
    rw [(chat_status_joined h.chatting.count _).mpr hnil] at hrest
    cases hrest
  have hgone : ∀ s', Gone (rest_of b) s' → Exited config t s' := fun s' => .gone (.inr hrest)
  refine wp_bind (wp_get ?_)
  rw [hb]
  refine wp_bind (wp_modify (wp_bind (wp_mono (wp_store_op hcoded (wp_bind (wp_bind (wp_get ?_))))
    (fun _ _ h => h) hgone fun _ h => h)))
  rw [hcoded.requested, hcoded.chatting.chat, hcoded.size]
  refine wp_ite (fun hmask => ?_) fun hmask => wp_pure (wp_leave (.closed hchat ?_))
  · refine wp_mono (wp_send_record (t := t) hcoded hrest hmask ?_) (fun _ _ h => h) hgone fun _ h => h
    exact fun s' hclosed => wp_leave (.closed hchat hclosed)
  · exact hcoded.closed_masked hrest hmask

/-- A request without a chat ends in a panic. -/
theorem wp_record_unanswered {Q : Unit → Child → Prop} (h : Stands t s)
    (hb : chat_status s.chat_history s.request_exit_status = none) :
    wp (record_request config) Q (Exited config t) Moment s := by
  have hchat : t.chat = [] := by
    rw [h.chatting.chat] at hb
    exact (chat_status_joined h.chatting.count _).mp hb
  refine wp_bind (wp_get ?_)
  rw [hb]
  refine wp_bind (wp_modify (wp_bind (wp_modify (wp_bind (wp_modify (wp_leave ?_))))))
  change Exited config t (note .no_chat (with_status (set_class 3 ∘ error_status) s))
  refine .unanswered hchat (List.mem_append_right _ List.mem_cons_self) ?_ ?_
  · intro hf
    rw [note, last_failure_of_none rfl] at hf
    have hmem := List.mem_of_getLast? hf
    cases h.running _ (List.mem_filter.mp hmem).1
  · exact Unrecorded.note (s := with_status (set_class 3 ∘ error_status) s) h.unrecorded fun _ h => by cases h

theorem wp_record_request {Q : Unit → Child → Prop} (h : Stands t s) :
    wp (record_request config) Q (Exited config t) Moment s := by
  cases hb : chat_status s.chat_history s.request_exit_status with
  | some b => exact wp_record_coded h hb
  | none => exact wp_record_unanswered h hb

theorem Exited.finished {verb algorithm digest : Text} {r : Requested} (h : Exited config t s)
    (hr : dispatch config.installed verb algorithm digest = .callback r) (ht : Ended r t) :
    Finished config s := by
  cases h with
  | closed hchat hs => exact .closed hr ht hchat hs
  | gone _ hs => exact hs.finished
  | unanswered _ hno _ hb => exact .misled ⟨.no_chat, hno, rfl⟩ hb

theorem Standing.opened_stands (r : Requested) (buf : Text) :
    Stands (opened r buf) { requested := some r, scan_buf := buf, blob_size := buf.length } where
  requested := rfl
  scan_buf := rfl
  chatting := ⟨Nat.zero_le 3, rfl, rfl, nofun⟩
  said := rfl
  size := rfl
  moved := rfl
  bits := show rest_of 0 = 0 from rfl
  marks := ⟨show class_of 0 = 0 from rfl, nofun⟩
  unrecorded := fun _ => nofun
  running := nofun

/-- A process that leaves before its callback. -/
theorem finished_of_status {why : Happening} {f : BitVec 8 → BitVec 8}
    (hm : Marked (note why (with_status f {}))) (hwhy : why.plain) :
    Finished config (note why (with_status f {})) := by
  refine .spoilt hm (Unrecorded.note (fun _ => nofun) ?_) ?_
  · rintro b rfl
    cases hwhy
  · intro ho
    obtain rfl := List.mem_singleton.mp (show .overflow ∈ [why] from ho)
    cases hwhy

theorem wp_bio4d (verb algorithm digest scan_buf : Text) :
    wp (bio4d config verb algorithm digest scan_buf)
      (fun _ s => ∃ r, dispatch config.installed verb algorithm digest = .callback r ∧ Returned r s)
      (Finished config) Moment {} := by
  rw [bio4d]
  cases hd : dispatch config.installed verb algorithm digest with
  | die_NO =>
    refine wp_bind (wp_modify (wp_bind (wp_modify (wp_leave ?_))))
    exact finished_of_status (f := error_status) (marked_of_failure rfl (by decide) rfl) rfl
  | panic =>
    refine wp_bind (wp_modify (wp_bind (wp_modify (wp_bind (wp_modify (wp_leave ?_))))))
    exact .misled ⟨.unknown_algorithm, List.mem_singleton_self _, rfl⟩
      (Unrecorded.note (s := with_status (set_class 3 ∘ error_status) {}) (fun _ => nofun) nofun)
  | callback r =>
    have hop : ∀ {Q : Unit → Child → Prop} {t : Standing} {s : Child}, Stands t s → Q () s →
        wp store_op Q (Finished config) Moment s :=
      fun hs hQ => wp_mono (wp_store_op hs hQ) (fun _ _ h => h) (fun _ h => h.finished) fun _ h => h
    have hopened := Standing.opened_stands r scan_buf
    refine wp_bind (wp_modify (wp_bind (hop hopened (wp_bind ?_))))
    refine wp_mono (wp_callback hopened) ?_ (fun _ h => h.finished) fun _ h => h
    rintro _ s ⟨t, hs, ht⟩
    exact hop hs ⟨r, rfl, t, hs, ht⟩

/-- Where the loop over the client's bytes has ended. -/
def Scanned (config : Config) : Scanning → Child → Prop
  | .halted, s => ∃ verb algorithm digest r,
      dispatch config.installed verb algorithm digest = .callback r ∧ Returned r s
  | .ended _, s => s = {}
  | .unreadable, s => Marked s ∧ Unrecorded s ∧ .overflow ∉ s.happened

theorem moment_start : Moment {} :=
  ⟨⟨[], Nat.zero_le 3, rfl, rfl, nofun⟩, .inl ⟨rfl, nofun⟩⟩

theorem wp_read_line {Q : Option Text → Child → Prop} {L : Child → Prop}
    (hread : ∀ chunk, Q (some chunk) {}) (hlost : ∀ s', Marked s' → Unrecorded s' → .overflow ∉ s'.happened → Q none s') :
    wp (req_read .request_line 255) Q L Moment {} := by
  have hb : ∀ timed_out f, Unrecorded (note (.lost .request_line timed_out) (with_status f {})) :=
    fun _ _ => Unrecorded.note (fun _ => nofun) nofun
  have ho : ∀ timed_out f, .overflow ∉ (note (.lost .request_line timed_out) (with_status f {})).happened := by
    intro timed_out f
    simp [note, with_status]
  refine wp_bind (wp_turn moment_start fun x => ?_)
  cases x.read with
  | bytes chunk => exact wp_pure (hread _)
  | failed =>
    refine wp_bind (wp_bind (wp_modify (wp_bind (wp_modify (wp_modify (wp_pure (hlost _ ?_ ?_ ?_)))))))
    · exact marked_of_failure (c := 1) (f := set_class 1 ∘ error_status) rfl (by decide) rfl
    · exact hb false (set_class 1 ∘ error_status)
    · exact ho false (set_class 1 ∘ error_status)
  | timed_out =>
    refine wp_bind (wp_bind (wp_modify (wp_bind (wp_modify (wp_modify (wp_pure (hlost _ ?_ ?_ ?_)))))))
    · exact marked_of_failure (c := 2) (f := set_class 2 ∘ error_status) rfl (by decide) rfl
    · exact hb true (set_class 2 ∘ error_status)
    · exact ho true (set_class 2 ∘ error_status)

theorem wp_scan_client :
    wp (scan_client config) (Scanned config) (Finished config) Moment {} := by
  refine wp_loop (J := fun _ s => s = {}) ?_ (fun _ _ h => h ▸ moment_start) rfl
  rintro scan s rfl
  refine wp_bind (wp_read_line ?_ fun s hm hb ho => wp_pure ⟨hm, hb, ho⟩)
  intro chunk
  cases chunk with
  | nil => exact wp_pure rfl
  | cons c cs =>
    have hbad : ∀ {Q : Scan ⊕ Scanning → Child → Prop},
        wp (do modify (note .bad_line); die) Q (Finished config) Moment {} := by
      intro Q
      refine wp_bind (wp_modify (wp_bind (wp_modify (wp_leave ?_))))
      exact finished_of_status (f := error_status) (marked_of_failure rfl (by decide) rfl) rfl
    dsimp only
    cases ChunkedScans.scan scan_request scan (c :: cs) with
    | more scan => exact wp_pure rfl
    | stop e scan_buf =>
      cases e with
      | go verb algorithm digest =>
        refine wp_bind (wp_post (wp_bio4d verb algorithm digest scan_buf) ?_)
        rintro _ s ⟨r, hr, hs⟩
        exact wp_pure ⟨verb, algorithm, digest, r, hr, hs⟩
      | die_NO => exact hbad
      | die => exact hbad

/-- From any answers, a request process leaves with a record and its status, or with a mark. -/
theorem wp_request : wp (request config) (fun _ _ => False) (Finished config) Moment {} := by
  refine wp_bind (wp_post wp_scan_client ?_)
  rintro (_ | scan | _) s hs
  · obtain ⟨verb, algorithm, digest, r, hr, t, hs, ht⟩ := hs
    exact wp_mono (wp_record_request hs) (fun _ _ h => h) (fun _ h => h.finished hr ht) fun _ h => h
  · obtain rfl := hs
    have hmarked : Marked (note (.hung_up .request_line) (with_status error_status {})) :=
      marked_of_failure rfl (by decide) rfl
    have hleave : wp (do error; leave : Prog Unit) (fun _ _ => False) (Finished config) Moment
        (note (.hung_up .request_line) {}) :=
      wp_bind (wp_modify (wp_leave (finished_of_status hmarked rfl)))
    exact wp_bind (wp_modify (wp_ite (fun _ => hleave) fun _ => hleave))
  · refine wp_bind (wp_modify (wp_leave ?_))
    have hm : Marked s := hs.1
    rw [with_status, error_status_of_ne hm.ne_zero]
    exact .spoilt hm hs.2.1 hs.2.2

end request

end Blobio.RequestChild
