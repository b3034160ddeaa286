import Blobio.BlobSets
import Blobio.WrapSets

/-! The parse of a roll blob in its buffer: the null that ends a udig is written over its newline,
and each access goes where its pointer is. -/
namespace Blobio.RollBlobs
open BlobSets WrapSets TerminatedLines

def char_of (b : UInt8) : Char :=
  Char.ofNat b.toNat

def chars (bs : Bytes) : Text :=
  bs.map char_of

inductive State
  | NEW_UDIG
  | IN_ALGORITHM
  | IN_DIGEST
  | PUT_UDIG
  deriving DecidableEq

/-- The variables of `blob2udig_set`, the pointers as offsets in the blob. -/
structure Parse where
  blob : Bytes
  b : ℕ
  udig_start : ℕ
  digest_start : ℕ
  uset : HashSet
  aset : HashSet
  state : State

/-- An overrun is a read or a write behind the blob. -/
inductive Stop
  | croak
  | panic
  | overrun
  deriving DecidableEq

def write (blob : Bytes) (i : ℕ) (c : UInt8) : Except Stop Bytes :=
  if i < blob.length then .ok (blob.set i c) else .error .overrun

/-- `blob_set_put` of so many bytes from `udig_start` on, where `malloc` has the memory. -/
def Parse.put (p : Parse) (set : HashSet) (size : ℕ) : Except Stop (ℤ × HashSet) :=
  if p.blob.length < p.udig_start + size then .error .overrun
  else
    match blob_set_put set ⟨(p.blob.drop p.udig_start).take size, true, true⟩ size with
    | none => .error .panic
    | some answer => .ok answer

/-- The cases of the switch, behind the read of `c`. -/
def Parse.on_new_udig (p : Parse) (c : Char) : Except Stop Parse :=
  if c = '\n' then .error .croak
  else if c = ':' then .error .croak
  else if 'a' ≤ c ∧ c < 'z' then .ok { p with udig_start := p.b - 1, state := .IN_ALGORITHM }
  else .error .croak

def Parse.on_algorithm (p : Parse) (c : Char) : Except Stop Parse :=
  if MAX_ALGORITHM_SIZE < p.b - p.udig_start then .error .croak
  else if c = ':' then .ok { p with digest_start := p.b + 1, state := .IN_DIGEST }
  else if ¬ isgraph c then .error .croak
  else .ok p

def Parse.on_digest (p : Parse) (c : Char) : Except Stop Parse :=
  if MAX_DIGEST_SIZE < p.digest_start - p.udig_start then .error .croak
  else if c = '\n' then
    match write p.blob (p.b - 1) 0 with
    | .error stop => .error stop
    | .ok blob => .ok { p with blob := blob, b := p.b - 1, state := .PUT_UDIG }
  else if ¬ isgraph c then .error .croak
  else .ok p

/-- The null behind the udig of an error is written one further than the one that is there. -/
def Parse.on_put (p : Parse) : Except Stop Parse :=
  match p.put p.uset (p.b - p.udig_start - 1) with
  | .error stop => .error stop
  | .ok (status, uset) =>
    if status = 1 then
      match write p.blob p.b 0 with
      | .error stop => .error stop
      | .ok _ => .error .croak
    else
      match p.put p.aset (p.digest_start - p.udig_start - 2) with
      | .error stop => .error stop
      | .ok (_, aset) => .ok { p with uset := uset, aset := aset, state := .NEW_UDIG }

/-- One turn of the loop. -/
def Parse.turn (p : Parse) : Except Stop Parse :=
  match p.blob[p.b]? with
  | none => .error .overrun
  | some c =>
    let p' := { p with b := p.b + 1 }
    match p.state with
    | .NEW_UDIG => p'.on_new_udig (char_of c)
    | .IN_ALGORITHM => p'.on_algorithm (char_of c)
    | .IN_DIGEST => p'.on_digest (char_of c)
    | .PUT_UDIG => p'.on_put

/-- The turns that are left, at most. -/
def Parse.measure (p : Parse) : ℕ :=
  2 * (p.blob.length - p.b) + if p.state = .PUT_UDIG then 0 else 1

theorem turn_measure {p p' : Parse} (hb : p.b < p.blob.length) (h : p.turn = .ok p') :
    p'.measure < p.measure := by
  rw [Parse.turn, List.getElem?_eq_getElem hb] at h
  cases hstate : p.state with
  | NEW_UDIG =>
    simp only [hstate, Parse.on_new_udig] at h
    split_ifs at h
    cases h
    simp only [Parse.measure, hstate, reduceCtorEq, if_false]
    omega
  | IN_ALGORITHM =>
    simp only [hstate, Parse.on_algorithm] at h
    split_ifs at h
    · cases h
      simp only [Parse.measure, hstate, reduceCtorEq, if_false]
      omega
    · cases h
      simp only [Parse.measure, hstate, reduceCtorEq, if_false]
      omega
  | IN_DIGEST =>
    simp only [hstate, Parse.on_digest, write] at h
    split_ifs at h
    · cases h
      simp only [Parse.measure, hstate, reduceCtorEq, if_false, if_true, List.length_set]
      omega
    · cases h
      simp only [Parse.measure, hstate, reduceCtorEq, if_false]
      omega
  | PUT_UDIG =>
    simp only [hstate, Parse.on_put] at h
    split at h
    · cases h
    · split_ifs at h
      · split at h
        · cases h
        · cases h
      · split at h
        · cases h
        · cases h
          simp only [Parse.measure, hstate, reduceCtorEq, if_false, if_true]
          omega

def Parse.loop (p : Parse) : Except Stop Parse :=
  if _h : p.b < p.blob.length then
    match _h' : p.turn with
    | .error stop => .error stop
    | .ok p' => p'.loop
  else .ok p
  termination_by p.measure
  decreasing_by exact turn_measure _h _h'

def Parse.start (blob : Bytes) : Parse :=
  ⟨blob, 0, 0, 0, blob_set_alloc, blob_set_alloc, .NEW_UDIG⟩

/-- The udigs and their algorithms, or what stops the parse. -/
def blob2udig_set (blob : Bytes) : Except Stop (HashSet × HashSet) :=
  if blob = [] then .error .panic
  else if blob.getLast? ≠ some 10 then .error .croak
  else
    match (Parse.start blob).loop with
    | .error stop => .error stop
    | .ok p => if p.state ≠ .NEW_UDIG then .error .panic else .ok (p.uset, p.aset)

/-! ### The parse and its text -/

variable {p : Parse} {t : SetState × UdigSets} {rest done seg : Bytes} {c : UInt8}

theorem toNat_char_of (b : UInt8) : (char_of b).toNat = b.toNat :=
  (by decide +kernel : ∀ n < 256, (Char.ofNat n).toNat = n) _ b.toNat_lt

theorem char_of_injective : Function.Injective char_of := by
  intro a b h
  rw [← UInt8.toNat_inj, ← toNat_char_of, ← toNat_char_of, h]

theorem chars_injective : Function.Injective chars :=
  List.map_injective_iff.mpr char_of_injective

@[simp] theorem length_chars (bs : Bytes) : (chars bs).length = bs.length := List.length_map _

@[simp] theorem chars_append (a b : Bytes) : chars (a ++ b) = chars a ++ chars b := List.map_append

/-- The pointers, with these bytes behind the udigs before and in front of the next read. -/
def At (p : Parse) (done seg : Bytes) : SetState → Prop
  | .NEW_UDIG => p.state = .NEW_UDIG ∧ seg = []
  | .IN_ALGORITHM udig => p.state = .IN_ALGORITHM ∧ p.udig_start = done.length ∧ udig = chars seg
  | .IN_DIGEST algorithm udig => p.state = .IN_DIGEST ∧ p.udig_start = done.length ∧
      p.digest_start = done.length + algorithm.length + 2 ∧ udig = chars seg ∧
      algorithm.length ≤ seg.length ∧ algorithm.length < MAX_ALGORITHM_SIZE

structure Agrees (p : Parse) (t : SetState × UdigSets) (rest : Bytes) : Prop where
  text : ∃ done seg, p.blob = done ++ seg ++ rest ∧ p.b = (done ++ seg).length ∧ At p done seg t.1
  udigs : ∃ us, p.uset.Represents us ∧ us.map chars = t.2.udig_set
  algorithms : ∃ as, p.aset.Represents as

theorem turn_eq (hblob : p.blob = done ++ seg ++ c :: rest) (hb : p.b = (done ++ seg).length) :
    p.turn = match p.state with
      | .NEW_UDIG => Parse.on_new_udig { p with b := p.b + 1 } (char_of c)
      | .IN_ALGORITHM => Parse.on_algorithm { p with b := p.b + 1 } (char_of c)
      | .IN_DIGEST => Parse.on_digest { p with b := p.b + 1 } (char_of c)
      | .PUT_UDIG => Parse.on_put { p with b := p.b + 1 } := by
  have hread : p.blob[p.b]? = some c := by
    rw [hblob, hb, List.getElem?_append_right le_rfl, Nat.sub_self, List.getElem?_cons_zero]
  rw [Parse.turn, hread]

/-- Every turn but that of the newline behind a digest. -/
theorem turn_agrees (h : Agrees p t (c :: rest))
    (hc : ∀ algorithm udig, t.1 = .IN_DIGEST algorithm udig → char_of c ≠ '\n') :
    (parse_set t (char_of c) = none ∧ p.turn = .error .croak) ∨
      ∃ t' p', parse_set t (char_of c) = some t' ∧ p.turn = .ok p' ∧ Agrees p' t' rest := by
  obtain ⟨⟨done, seg, hblob, hb, hat⟩, hudigs, halgorithms⟩ := h
  obtain ⟨s, sets⟩ := t
  have hblob' : p.blob = done ++ (seg ++ [c]) ++ rest := by simp [hblob]
  have hb' : p.b + 1 = (done ++ (seg ++ [c])).length := by simp [hb, Nat.add_assoc]
  rw [turn_eq hblob hb]
  cases s with
  | NEW_UDIG =>
    obtain ⟨hstate, rfl⟩ := hat
    simp only [hstate, Parse.on_new_udig, parse_set]
    split_ifs with hnewline hcolon hfirst
    · exact .inl ⟨rfl, rfl⟩
    · exact .inl ⟨rfl, rfl⟩
    · refine .inr ⟨_, _, rfl, rfl, ⟨done, [c], hblob', hb', rfl, ?_, rfl⟩, hudigs, halgorithms⟩
      simp [hb]
    · exact .inl ⟨rfl, rfl⟩
  | IN_ALGORITHM udig =>
    obtain ⟨hstate, hstart, rfl⟩ := hat
    have hlength : p.b + 1 - p.udig_start = (chars seg).length + 1 := by
      rw [hb, hstart, length_chars, List.length_append]
      omega
    simp only [hstate, Parse.on_algorithm, parse_set, hlength]
    split_ifs with hlong hcolon hgraph
    · exact .inl ⟨rfl, rfl⟩
    · refine .inr ⟨_, _, rfl, rfl, ⟨done, seg ++ [c], hblob', hb', rfl, hstart, ?_, ?_, ?_, ?_⟩, hudigs,
      halgorithms⟩
      · simp [hb, Nat.add_assoc]
      · rw [chars_append]
        rfl
      · simp
      · exact not_lt.mp hlong
    · refine .inr ⟨_, _, rfl, rfl, ⟨done, seg ++ [c], hblob', hb', rfl, hstart, ?_⟩, hudigs, halgorithms⟩
      rw [chars_append]
      rfl
    · exact .inl ⟨rfl, rfl⟩
  | IN_DIGEST algorithm udig =>
    obtain ⟨hstate, hstart, hdigest, rfl, hle, hshort⟩ := hat
    have hlength : p.digest_start - p.udig_start = algorithm.length + 2 := by
      rw [hdigest, hstart]
      omega
    have hnewline := hc algorithm _ rfl
    simp only [hstate, Parse.on_digest, parse_set, hlength, if_neg hnewline]
    split_ifs with hlong hgraph
    · exact .inl ⟨rfl, rfl⟩
    · refine .inr ⟨_, _, rfl, rfl, ⟨done, seg ++ [c], hblob', hb', rfl, hstart, hdigest, ?_, ?_, hshort⟩,
      hudigs,
        halgorithms⟩
      · rw [chars_append]
        rfl
      · rw [List.length_append]
        exact hle.trans (Nat.le_add_right _ _)
    · exact .inl ⟨rfl, rfl⟩

/-- The udig in the buffer joins a set. -/
theorem put_eq (hblob : p.blob = done ++ seg ++ rest)
    (hstart : p.udig_start = done.length) {us : List Bytes}
    {set : HashSet} (h : set.Represents us) {size : ℕ} (hsize : size ≤ seg.length) :
    ∃ status set', p.put set size = .ok (status, set') ∧ set'.Represents (us ++ [seg.take size]) ∧
      status = if seg.take size ∈ us then 1 else 0 := by
  have hin : ¬ p.blob.length < p.udig_start + size := by
    rw [hblob, hstart, List.length_append, List.length_append]
    omega
  have helement : (p.blob.drop p.udig_start).take size = seg.take size := by
    rw [hblob, hstart, List.append_assoc, List.drop_left, List.take_append_of_le_length hsize]
  have hlength : (seg.take size).length = size := List.length_take_of_le hsize
  let put : Put := ⟨seg.take size, true, true⟩
  obtain ⟨⟨status, set'⟩, hput⟩ := @put_returns _ _ h put ⟨rfl, rfl⟩
  obtain ⟨hstatus, hrepresents⟩ := put_represents h hput
  refine ⟨status, set', ?_, hrepresents, hstatus⟩
  rw [Parse.put, if_neg hin, helement]
  change blob_set_put set put (seg.take size).length = _ at hput
  rw [hlength] at hput
  rw [hput]

/-- The newline behind a digest: the udig is put, or has been there before. -/
theorem newline_agrees {algorithm udig : Text} {sets : UdigSets}
    (h : Agrees p (.IN_DIGEST algorithm udig, sets) (10 :: rest)) :
    ∃ p', p.turn = .ok p' ∧ p'.b < p'.blob.length ∧
      if udig ∈ sets.udig_set then p'.turn = .error (if rest = [] then .overrun else .croak)
      else ∃ t' p'', parse_set (.IN_DIGEST algorithm udig, sets) '\n' = some t' ∧ p'.turn = .ok p'' ∧
        Agrees p'' t' rest := by
  obtain ⟨⟨done, seg, hblob, hb, hstate, hstart, hdigest, rfl, hle, hshort⟩, ⟨us, hus, hudigs⟩, as, has⟩ :=
    h
  have hlength : p.digest_start - p.udig_start = algorithm.length + 2 := by
    rw [hdigest, hstart]
    omega
  have hlong : ¬ MAX_DIGEST_SIZE < algorithm.length + 2 := by
    have h8 : algorithm.length < 8 := hshort
    rw [MAX_DIGEST_SIZE]
    omega
  have hset : p.blob.set p.b 0 = done ++ seg ++ 0 :: rest := by
    rw [hblob, hb, List.set_append_right _ _ le_rfl, Nat.sub_self, List.set_cons_zero]
  have hin : p.b < p.blob.length := by simp [hblob, hb]
  have hturn : p.turn = .ok { p with blob := done ++ seg ++ 0 :: rest, state := .PUT_UDIG } := by
    have hchar : char_of 10 = '\n' := by decide
    simp only [turn_eq hblob hb, hstate, Parse.on_digest, hlength, hlong, hchar, write, if_false, if_true,
      Nat.add_sub_cancel, hin, hset]
  refine ⟨_, hturn, by simp [hb], ?_⟩
  have hsize : p.b + 1 - p.udig_start - 1 = seg.length := by
    rw [hb, hstart, List.length_append]
    omega
  have hsize' : p.digest_start - p.udig_start - 2 = algorithm.length := by omega
  let q : Parse := { p with blob := done ++ seg ++ 0 :: rest, b := p.b + 1, state := .PUT_UDIG }
  obtain ⟨status, uset, hput, huset, hstatus⟩ := @put_eq q (0 :: rest) done seg rfl hstart us _ hus _ le_rfl
  obtain ⟨status', aset, hput', haset, -⟩ := @put_eq q (0 :: rest) done seg rfl hstart as _ has _ hle
  rw [List.take_length] at huset hstatus
  have hmem : chars seg ∈ sets.udig_set ↔ seg ∈ us := by
    rw [← hudigs, List.mem_map_of_injective chars_injective]
  have hon : q.on_put = if status = 1 then
      (match write q.blob q.b 0 with
      | .error stop => .error stop
      | .ok _ => .error .croak)
      else .ok { q with uset := uset, aset := aset, state := .NEW_UDIG } := by
    simp only [Parse.on_put, q, hsize, hsize'] at hput hput' ⊢
    rw [hput]
    simp only [hput']
  let p' : Parse := { p with blob := done ++ seg ++ 0 :: rest, state := .PUT_UDIG }
  have hnext : p'.turn = q.on_put := turn_eq rfl hb
  change if _ then p'.turn = _ else ∃ _ _, _ ∧ p'.turn = _ ∧ _
  rw [hnext, hon]
  by_cases hold : chars seg ∈ sets.udig_set
  · rw [if_pos hold, hstatus, if_pos (hmem.mp hold), if_pos rfl]
    by_cases hend : rest = []
    · have hout : ¬ q.b < q.blob.length := by simp [q, hb, hend, Nat.add_assoc]
      rw [write, if_neg hout, if_pos hend]
    · have hroom : q.b < q.blob.length := by
        have hpos := List.length_pos_iff.mpr hend
        simp only [q, hb, List.length_append, List.length_cons]
        omega
      rw [write, if_pos hroom, if_neg hend]
  · rw [if_neg hold, hstatus, if_neg (fun h => hold (hmem.mpr h)), if_neg (by decide)]
    obtain ⟨sets', hsets, hset'⟩ : ∃ sets', put_udig sets algorithm (chars seg) = some sets' ∧
        sets'.udig_set = sets.udig_set ++ [chars seg] := ⟨_, put_udig_eq_some.mpr ⟨hold, rfl⟩, rfl⟩
    have hstep : parse_set (.IN_DIGEST algorithm (chars seg), sets) '\n' = some (.NEW_UDIG, sets') := by
      simp only [parse_set, if_neg hlong, if_true, hsets, Option.map_some]
    refine ⟨_, _, hstep, rfl, ⟨done ++ seg ++ [0], [], ?_, ?_, rfl, rfl⟩, ?_, _, haset⟩
    · simp [q]
    · simp [q, hb, Nat.add_assoc]
    · refine ⟨_, huset, ?_⟩
      rw [List.map_append, hudigs]
      exact hset'.symm

/-! ### The loop -/

theorem loop_ok {p' : Parse} (hb : p.b < p.blob.length) (h : p.turn = .ok p') : p.loop = p'.loop := by
  rw [Parse.loop, dif_pos hb]
  split
  · next stop hstop =>
    rw [h] at hstop
    cases hstop
  · next p'' hp =>
    rw [h] at hp
    cases hp
    rfl

theorem loop_error {stop : Stop} (hb : p.b < p.blob.length) (h : p.turn = .error stop) :
    p.loop = .error stop := by
  rw [Parse.loop, dif_pos hb]
  split
  · next stop' hstop =>
    rw [h] at hstop
    cases hstop
    rfl
  · next p' hp =>
    rw [h] at hp
    cases hp

/-- The last byte of the blob ends a udig that the set has. -/
def Repeats : SetState × UdigSets → Bytes → Prop
  | _, [] => False
  | t, c :: rest =>
    (rest = [] ∧ c = 10 ∧ ∃ algorithm udig, t.1 = .IN_DIGEST algorithm udig ∧ udig ∈ t.2.udig_set) ∨
      ∃ t', parse_set t (char_of c) = some t' ∧ Repeats t' rest

theorem in_digest_repeated {algorithm udig : Text} {sets : UdigSets} (h : udig ∈ sets.udig_set) :
    parse_set (.IN_DIGEST algorithm udig, sets) '\n' = none := by
  simp only [parse_set, put_udig, if_pos h]
  split_ifs
  · rfl
  · rfl

theorem repeats_step {t' : SetState × UdigSets} (hstep : parse_set t (char_of c) = some t') :
    Repeats t (c :: rest) ↔ Repeats t' rest := by
  constructor
  · rintro (⟨-, rfl, algorithm, udig, hstate, hmem⟩ | ⟨t'', hstep', hrest⟩)
    · obtain ⟨s, sets⟩ := t
      obtain rfl : s = _ := hstate
      rw [show char_of 10 = '\n' by decide, in_digest_repeated hmem] at hstep
      cases hstep
    · rw [hstep] at hstep'
      cases hstep'
      exact hrest
  · exact fun hrest => .inr ⟨t', hstep, hrest⟩

theorem fold_of_repeats (h : Repeats t rest) : (chars rest).foldlM parse_set t = none := by
  induction rest generalizing t with
  | nil => cases h
  | cons c rest ih =>
    rw [chars, List.map_cons, List.foldlM_cons]
    obtain ⟨rfl, rfl, algorithm, udig, hstate, hmem⟩ | ⟨t', hstep, hrest⟩ := h
    · obtain ⟨s, sets⟩ := t
      obtain rfl : s = _ := hstate
      rw [show char_of 10 = '\n' by decide, in_digest_repeated hmem]
      rfl
    · rw [hstep, Option.bind_eq_bind, Option.bind_some]
      exact ih hrest

theorem loop_agrees (h : Agrees p t rest) :
    (∃ t' p', (chars rest).foldlM parse_set t = some t' ∧ p.loop = .ok p' ∧ Agrees p' t' []) ∨
      (Repeats t rest ∧ p.loop = .error .overrun) ∨
      (¬ Repeats t rest ∧ (chars rest).foldlM parse_set t = none ∧ p.loop = .error .croak) := by
  induction rest generalizing p t with
  | nil =>
    obtain ⟨done, seg, hblob, hb, -⟩ := h.text
    have hend : ¬ p.b < p.blob.length := by simp [hblob, hb]
    exact .inl ⟨t, p, rfl, by rw [Parse.loop, dif_neg hend], h⟩
  | cons c rest ih =>
    have hb : p.b < p.blob.length := by
      obtain ⟨done, seg, hblob, hb, -⟩ := h.text
      simp [hblob, hb]
    rw [chars, List.map_cons, List.foldlM_cons]
    by_cases hnewline : ∃ algorithm udig, t.1 = .IN_DIGEST algorithm udig ∧ c = 10
    · obtain ⟨algorithm, udig, hstate, rfl⟩ := hnewline
      obtain ⟨s, sets⟩ := t
      obtain rfl : s = _ := hstate
      have hchar : char_of 10 = '\n' := by decide
      obtain ⟨p', hturn, hb', hnext⟩ := newline_agrees h
      rw [loop_ok hb hturn]
      split_ifs at hnext with hold hend
      · exact .inr (.inl ⟨.inl ⟨hend, rfl, algorithm, udig, rfl, hold⟩, loop_error hb' hnext⟩)
      · have hnone := @in_digest_repeated algorithm _ _ hold
        refine .inr (.inr ⟨?_, by rw [hchar, hnone]; rfl, loop_error hb' hnext⟩)
        rintro (⟨hnil, -⟩ | ⟨t', hstep, -⟩)
        · exact hend hnil
        · rw [hchar, hnone] at hstep
          cases hstep
      · obtain ⟨t', p'', hstep, hturn', hagrees⟩ := hnext
        rw [← hchar] at hstep
        rw [repeats_step hstep, hstep, Option.bind_eq_bind, Option.bind_some, loop_ok hb' hturn']
        exact ih hagrees
    · have hc : ∀ algorithm udig, t.1 = .IN_DIGEST algorithm udig → char_of c ≠ '\n' := by
        intro algorithm udig hstate hchar
        exact hnewline ⟨algorithm, udig, hstate, char_of_injective hchar⟩
      rcases turn_agrees h hc with ⟨hnone, hturn⟩ | ⟨t', p', hstep, hturn, hagrees⟩
      · refine .inr (.inr ⟨?_, by rw [hnone]; rfl, loop_error hb hturn⟩)
        rintro (⟨-, rfl, algorithm, udig, hstate, -⟩ | ⟨t', hstep, -⟩)
        · exact hnewline ⟨algorithm, udig, hstate, rfl⟩
        · rw [hnone] at hstep
          cases hstep
      · rw [repeats_step hstep, hstep, Option.bind_eq_bind, Option.bind_some, loop_ok hb hturn]
        exact ih hagrees

/-! ### Inside a line -/

section line
variable {s : SetState} {sets sets' : UdigSets} {l a d : Text} {x : Char}

/-- The characters of the udig that is being read. -/
def udig_of : SetState → Text
  | .NEW_UDIG => []
  | .IN_ALGORITHM udig => udig
  | .IN_DIGEST _ udig => udig

theorem parse_set_other (hx : x ≠ '\n') (s : SetState) (sets sets' : UdigSets) :
    parse_set (s, sets) x = (parse_set (s, sets') x).map fun t => (t.1, sets) := by
  cases s with
  | NEW_UDIG =>
    simp only [parse_set]
    split_ifs <;> rfl
  | IN_ALGORITHM udig =>
    simp only [parse_set]
    split_ifs <;> rfl
  | IN_DIGEST algorithm udig =>
    simp only [parse_set, if_neg hx]
    split_ifs <;> rfl

/-- Between newlines the sets stay out of it. -/
theorem fold_other (hl : '\n' ∉ l) (s : SetState) (sets sets' : UdigSets) :
    l.foldlM parse_set (s, sets) = (l.foldlM parse_set (s, sets')).map fun t => (t.1, sets) := by
  induction l generalizing s with
  | nil => rfl
  | cons x l ih =>
    rw [List.mem_cons, not_or] at hl
    have hstep := parse_set_other (Ne.symm hl.1)
    rw [List.foldlM_cons, List.foldlM_cons, hstep s sets {}, hstep s sets' {}]
    cases parse_set (s, {}) x with
    | none => rfl
    | some t => exact ih hl.2 t.1

theorem parse_set_udig (hx : x ≠ '\n') (h : parse_set (s,
    sets) x = some t) : udig_of t.1 = udig_of s ++ [x] := by
  cases s with
  | NEW_UDIG =>
    simp only [parse_set] at h
    split_ifs at h
    cases h
    rfl
  | IN_ALGORITHM udig =>
    simp only [parse_set] at h
    split_ifs at h
    · cases h
      rfl
    · cases h
      rfl
  | IN_DIGEST algorithm udig =>
    simp only [parse_set, if_neg hx] at h
    split_ifs at h
    cases h
    rfl

theorem fold_udig (hl : '\n' ∉ l) (h : l.foldlM parse_set (s, sets) = some t) :
    t.2 = sets ∧ udig_of t.1 = udig_of s ++ l := by
  constructor
  · rw [fold_other hl s sets sets] at h
    obtain ⟨_, -, rfl⟩ := Option.map_eq_some_iff.mp h
    rfl
  · induction l generalizing s sets with
    | nil =>
      cases h
      exact (List.append_nil _).symm
    | cons x l ih =>
      rw [List.mem_cons, not_or] at hl
      rw [List.foldlM_cons] at h
      obtain ⟨⟨s', sets'⟩, hstep, hrest⟩ := Option.bind_eq_some_iff.mp h
      rw [ih hl.2 hrest, parse_set_udig (Ne.symm hl.1) hstep, List.append_assoc]
      rfl

/-- What the parser takes for a line brings it to the line's newline. -/
theorem fold_of_reads (h : ReadAs l a d) (sets : UdigSets) :
    ∃ algorithm, l.foldlM parse_set (.NEW_UDIG, sets) = some (.IN_DIGEST algorithm l, sets) := by
  have hl : '\n' ∉ l := h.text ▸ not_newline_of_graphic h.graphic h.graphic_digest
  have hline : (l ++ ['\n']).foldlM parse_set (.NEW_UDIG, {}) = some _ :=
    (parse_line hl).mpr ⟨a, d, h, _, put_udig_eq_some.mpr ⟨List.not_mem_nil, rfl⟩, rfl⟩
  rw [List.foldlM_append] at hline
  obtain ⟨⟨s, sets'⟩, hfold, hnewline⟩ := Option.bind_eq_some_iff.mp hline
  obtain ⟨-, hudig⟩ := fold_udig hl hfold
  rw [List.foldlM_cons] at hnewline
  obtain ⟨_, hstep, -⟩ := Option.bind_eq_some_iff.mp hnewline
  cases s with
  | NEW_UDIG => simp [parse_set] at hstep
  | IN_ALGORITHM udig => simp [parse_set, not_isgraph_newline] at hstep
  | IN_DIGEST algorithm udig =>
    obtain rfl : udig = l := hudig
    refine ⟨algorithm, ?_⟩
    rw [fold_other hl .NEW_UDIG sets {}, hfold]
    rfl

end line

/-! ### The lines of a roll blob -/

/-- The last line repeats one of the lines before it, of which all are read and differ. -/
def RepeatsAtEnd (blob : Text) : Prop :=
  ∃ init l, blob = terminated '\n' (init ++ [l]) ∧ init.Nodup ∧ (∀ x ∈ init, ∃ a d, ReadAs x a d) ∧ l ∈ init

theorem repeats_iff : Repeats t rest ↔ ∃ r t', rest = r ++ [10] ∧ (chars r).foldlM parse_set t = some t' ∧
    ∃ algorithm udig, t'.1 = .IN_DIGEST algorithm udig ∧ udig ∈ t'.2.udig_set := by
  induction rest generalizing t with
  | nil => exact iff_of_false nofun fun ⟨r, _, h, _⟩ => by simp at h
  | cons c rest ih =>
    rw [Repeats]
    constructor
    · rintro (⟨rfl, rfl, h⟩ | ⟨t', hstep, hrest⟩)
      · exact ⟨[], t, rfl, rfl, h⟩
      · obtain ⟨r, t'', rfl, hfold, h⟩ := ih.mp hrest
        refine ⟨c :: r, t'', rfl, ?_, h⟩
        rw [chars, List.map_cons, List.foldlM_cons, hstep]
        exact hfold
    · rintro ⟨r, t'', heq, hfold, h⟩
      cases r with
      | nil =>
        cases heq
        cases hfold
        exact .inl ⟨rfl, rfl, h⟩
      | cons c' r =>
        cases heq
        rw [chars, List.map_cons, List.foldlM_cons] at hfold
        obtain ⟨t', hstep, hrest⟩ := Option.bind_eq_some_iff.mp hfold
        exact .inr ⟨t', hstep, ih.mpr ⟨r, t'', rfl, hrest, h⟩⟩

variable {blob : Bytes} {lines : List Bytes}

theorem chars_terminated (lines : List Bytes) :
    chars (terminated 10 lines) = terminated '\n' (lines.map chars) := by
  induction lines with
  | nil => rfl
  | cons l lines ih =>
    rw [terminated_cons, List.map_cons, terminated_cons, chars_append, chars_append, ih]
    rfl

theorem newline_mem_chars {l : Bytes} : '\n' ∈ chars l ↔ 10 ∈ l :=
  List.mem_map_of_injective char_of_injective (a := 10)

theorem chars_no_newline (hlines : ∀ l ∈ lines, 10 ∉ l) : ∀ l ∈ lines.map chars, '\n' ∉ l :=
  List.forall_mem_map.mpr fun l hl hmem => hlines l hl (newline_mem_chars.mp hmem)

theorem repeatsAtEnd_iff (hlines : ∀ l ∈ lines, 10 ∉ l) :
    Repeats (.NEW_UDIG, {}) (terminated 10 lines) ↔ RepeatsAtEnd (chars (terminated 10 lines)) := by
  have hnewline := chars_no_newline hlines
  rw [chars_terminated]
  obtain rfl | ⟨init, l, rfl⟩ := List.eq_nil_or_concat lines
  · refine iff_of_false nofun ?_
    rintro ⟨init, l, heq, -⟩
    exact terminated_ne_nil (by simp) heq.symm
  rw [List.concat_eq_append] at *
  have hblob : terminated 10 (init ++ [l]) = terminated 10 init ++ l ++ [10] := by simp [terminated]
  have hinit : ∀ x ∈ init.map chars, '\n' ∉ x := by
    intro x hx
    exact hnewline x (by rw [List.map_append]; exact List.mem_append_left _ hx)
  have hl : '\n' ∉ chars l := hnewline (chars l) (by simp)
  rw [repeats_iff, hblob]
  constructor
  · rintro ⟨r, t', heq, hfold, algorithm, udig, hstate, hmem⟩
    obtain rfl := List.append_cancel_right heq
    rw [chars_append, chars_terminated, List.foldlM_append] at hfold
    obtain ⟨⟨s, sets⟩, hbefore, hlast⟩ := Option.bind_eq_some_iff.mp hfold
    obtain ⟨rfl, hset, hnodup, hreads⟩ := parse_lines hinit List.nodup_nil hbefore
    obtain ⟨hsets, hudig⟩ := fold_udig hl hlast
    rw [hstate] at hudig
    obtain rfl : udig = chars l := hudig
    rw [hset] at hnodup
    rw [hsets, hset] at hmem
    exact ⟨init.map chars, chars l, by simp, hnodup, hreads, hmem⟩
  · rintro ⟨init', l', heq, hnodup, hreads, hmem⟩
    have hreads' : ∀ x ∈ init' ++ [l'], ∃ a d, ReadAs x a d := by
      rw [List.forall_mem_append, List.forall_mem_singleton]
      exact ⟨hreads, hreads l' hmem⟩
    have hsame := terminated_injective hnewline (not_newline_of_reads hreads') heq
    rw [List.map_append, List.map_singleton] at hsame
    obtain ⟨rfl, hlast⟩ := List.append_inj' hsame rfl
    obtain rfl : chars l = l' := List.singleton_inj.mp hlast
    obtain ⟨⟨s, sets⟩, hbefore⟩ := exists_parse {} hinit hreads hnodup
    obtain ⟨rfl, hset, -, -⟩ := parse_lines hinit List.nodup_nil hbefore
    obtain ⟨a, d, hread⟩ := hreads _ hmem
    obtain ⟨algorithm, hfold⟩ := fold_of_reads hread sets
    refine ⟨_, (.IN_DIGEST algorithm (chars l), sets), rfl, ?_, algorithm, chars l, rfl, ?_⟩
    · rw [chars_append, chars_terminated, List.foldlM_append, hbefore]
      exact hfold
    · rw [hset]
      exact hmem

theorem start_agrees (blob : Bytes) : Agrees (Parse.start blob) (.NEW_UDIG, {}) blob where
  text := ⟨[], [], rfl, rfl, rfl, rfl⟩
  udigs := ⟨[], alloc_represents, rfl⟩
  algorithms := ⟨[], alloc_represents⟩

/-- The parse of lines: accepted, stopped by a write behind the blob, or refused. -/
theorem blob2udig_set_cases (hne : lines ≠ []) (hlines : ∀ l ∈ lines, 10 ∉ l) :
    (((lines.map chars).Nodup ∧ ∀ l ∈ lines.map chars, ∃ a d, ReadAs l a d) ∧
      ¬ RepeatsAtEnd (chars (terminated 10 lines)) ∧
      ∃ uset aset, blob2udig_set (terminated 10 lines) = .ok (uset, aset) ∧ uset.Represents lines) ∨
    (¬ ((lines.map chars).Nodup ∧ ∀ l ∈ lines.map chars, ∃ a d, ReadAs l a d) ∧
      ((RepeatsAtEnd (chars (terminated 10 lines)) ∧ blob2udig_set
        (terminated 10 lines) = .error .overrun) ∨
        (¬ RepeatsAtEnd (chars (terminated 10 lines)) ∧ blob2udig_set
          (terminated 10 lines) = .error .croak))) := by
  have hnewline := chars_no_newline hlines
  have hlast : (terminated 10 lines).getLast? = some 10 := getLast?_terminated hne
  have hnil : terminated 10 lines ≠ [] := by
    intro hnil
    rw [hnil] at hlast
    cases hlast
  have hnone : (chars (terminated 10 lines)).foldlM parse_set (.NEW_UDIG, {}) = none →
      ¬ ((lines.map chars).Nodup ∧ ∀ l ∈ lines.map chars, ∃ a d, ReadAs l a d) := by
    rintro hfold ⟨hnodup, hreads⟩
    obtain ⟨t, ht⟩ := exists_parse {} hnewline hreads hnodup
    rw [chars_terminated, ht] at hfold
    cases hfold
  rw [blob2udig_set, if_neg hnil, hlast, if_neg (not_not.mpr rfl), ← repeatsAtEnd_iff hlines]
  rcases loop_agrees (start_agrees (terminated 10 lines)) with ⟨t, p, hfold, hloop, hagrees⟩ | ⟨hrepeats,
    hloop⟩ |
    ⟨hnot, hfold, hloop⟩
  · have hnot : ¬ Repeats (.NEW_UDIG, {}) (terminated 10 lines) := by
      intro hrepeats
      rw [fold_of_repeats hrepeats] at hfold
      cases hfold
    rw [chars_terminated] at hfold
    obtain ⟨hstate, hset, hnodup, hreads⟩ := parse_lines hnewline List.nodup_nil hfold
    obtain ⟨done, seg, -, -, hat⟩ := hagrees.text
    rw [hstate] at hat
    obtain ⟨us, hus, hmap⟩ := hagrees.udigs
    rw [hset] at hmap hnodup
    obtain rfl : us = lines := List.map_injective_iff.mpr chars_injective hmap
    refine .inl ⟨⟨hnodup, hreads⟩, hnot, p.uset, p.aset, ?_, hus⟩
    rw [hloop]
    exact if_neg (not_not.mpr hat.1)
  · exact .inr ⟨hnone (fold_of_repeats hrepeats), .inl ⟨hrepeats, by rw [hloop]⟩⟩
  · exact .inr ⟨hnone hfold, .inr ⟨hnot, by rw [hloop]⟩⟩

/-! ### What the parse is to do -/

/-- A set as the comment over the parser has it, with an algorithm of eight characters or one that
starts with the last letter. -/
def Refused (blob : Text) : Prop :=
  ∃ lines, blob = terminated '\n' lines ∧ lines.Nodup ∧ (∀ l ∈ lines, ∃ a d, UdigLine l a d) ∧
    ∃ l ∈ lines, ∃ a d, UdigLine l a d ∧ (a.length = MAX_ALGORITHM_SIZE ∨ a.head? = some 'z')

/-- Exactly the sets of at least one line are accepted, the set has the lines, and no access is
behind the blob. -/
def ParsesRight (blob : Bytes) : Prop :=
  ((∃ sets, blob2udig_set blob = .ok sets) ↔ blob ≠ [] ∧ WellFormed (chars blob)) ∧
    (∀ uset aset, blob2udig_set blob = .ok (uset, aset) →
      ∃ lines, blob = terminated 10 lines ∧ (∀ l ∈ lines, 10 ∉ l) ∧ uset.Represents lines) ∧
    blob2udig_set blob ≠ .error .overrun

theorem colon_unique {a a' d d' : Text} (ha : ':' ∉ a) (ha' : ':' ∉ a')
    (h : a ++ ':' :: d = a' ++ ':' :: d') :
    a = a' := by
  rw [← takeWhile_ne ha d, h, takeWhile_ne ha' d']

theorem reads_of_udigLine {l a d : Text} (h : UdigLine l a d) (hlength : a.length ≠ MAX_ALGORITHM_SIZE)
    (hhead : a.head? ≠ some 'z') : ReadAs l a d := by
  refine ⟨h.text, ?_, h.graphic, lt_of_le_of_ne h.short hlength, h.graphic_digest⟩
  obtain ⟨c, r, rfl, hc⟩ := h.first
  rw [between, Bool.and_eq_true, decide_eq_true_eq, decide_eq_true_eq] at hc
  have hz : c ≠ 'z' := fun hz => hhead (by rw [hz]; rfl)
  exact ⟨c, r, rfl, hc.1, Char.not_le.mp fun hle => hz (Char.le_antisymm hc.2 hle)⟩

theorem newlines_of_udigLines {lines : List Text} (h : ∀ l ∈ lines, ∃ a d, UdigLine l a d) :
    ∀ l ∈ lines, '\n' ∉ l := by
  intro l hl
  obtain ⟨a, d, hline⟩ := h l hl
  exact hline.text ▸ not_newline_of_graphic hline.graphic hline.graphic_digest

theorem last_of_lines {l : List Text} (hne : l ≠ []) (h : chars blob = terminated '\n' l) :
    blob.getLast? = some 10 := by
  have hlast : (chars blob).getLast? = some '\n' := by
    rw [h]
    exact getLast?_terminated hne
  rw [chars, List.getLast?_map] at hlast
  obtain ⟨c, hc, hchar⟩ := Option.map_eq_some_iff.mp hlast
  rw [hc, char_of_injective (hchar.trans (by decide : '\n' = char_of 10))]

theorem parses_right_iff_lines (hne : lines ≠ []) (hlines : ∀ l ∈ lines, 10 ∉ l) :
    ParsesRight (terminated 10 lines) ↔ ¬ Overlooked (chars (terminated 10 lines)) ∧
      ¬ Refused (chars (terminated 10 lines)) ∧ ¬ RepeatsAtEnd (chars (terminated 10 lines)) := by
  have hnewline := chars_no_newline hlines
  have hsame : ∀ {l}, (∀ x ∈ l, '\n' ∉ x) → chars (terminated 10 lines) = terminated '\n' l →
    lines.map chars = l :=
    fun hl heq => terminated_injective hnewline hl ((chars_terminated lines).symm.trans heq)
  have hnil : terminated 10 lines ≠ [] := by
    intro hnil
    have hlast : (terminated 10 lines).getLast? = some 10 := getLast?_terminated hne
    rw [hnil] at hlast
    cases hlast
  constructor
  · rintro ⟨haccepts, -, hover⟩
    refine ⟨?_, ?_, ?_⟩
    · intro hoverlooked
      obtain ⟨l, heq, hnodup, hreads, -⟩ := id hoverlooked
      obtain rfl := hsame (not_newline_of_reads hreads) heq
      rcases blob2udig_set_cases hne hlines with ⟨-, -, uset, aset, hok, -⟩ | ⟨hnot, -⟩
      · exact not_wellFormed_of_overlooked hoverlooked (haccepts.mp ⟨_, hok⟩).2
      · exact hnot ⟨hnodup, hreads⟩
    · rintro ⟨l, heq, hnodup, hudigs, x, hx, a, d, hline, hbad⟩
      obtain ⟨sets, hok⟩ := haccepts.mpr ⟨hnil, l, heq, hnodup, hudigs⟩
      obtain rfl := hsame (newlines_of_udigLines hudigs) heq
      rcases blob2udig_set_cases hne hlines with ⟨⟨-, hreads⟩, -⟩ | ⟨-, ⟨-, herror⟩ | ⟨-, herror⟩⟩
      · obtain ⟨a', d', hread⟩ := hreads x hx
        obtain rfl : a = a' := colon_unique (fun hmem => (hline.graphic _ hmem).2 rfl)
          (fun hmem => (hread.graphic _ hmem).2 rfl) (hline.text.symm.trans hread.text)
        rcases hbad with hlength | hz
        · exact absurd hlength hread.short.ne
        · obtain ⟨c, r, rfl, -, hc⟩ := hread.first
          cases hz
          exact absurd hc (by decide)
      · rw [herror] at hok
        cases hok
      · rw [herror] at hok
        cases hok
    · intro hrepeats
      rcases blob2udig_set_cases hne hlines with ⟨-, hnot, -⟩ | ⟨-, ⟨-, herror⟩ | ⟨hnot, -⟩⟩
      · exact hnot hrepeats
      · exact hover herror
      · exact hnot hrepeats
  · rintro ⟨hoverlooked, hrefused, hrepeats⟩
    rcases blob2udig_set_cases hne hlines with ⟨⟨hnodup, hreads⟩, -, uset, aset, hok, huset⟩ |
      ⟨hnot, ⟨hrepeats', -⟩ | ⟨-, herror⟩⟩
    · have hwell : WellFormed (chars (terminated 10 lines)) := by
        refine ⟨lines.map chars, chars_terminated lines, hnodup, fun l hl => ?_⟩
        obtain ⟨a, d, hread⟩ := hreads l hl
        refine ⟨a, d, hread.udigLine ?_⟩
        by_contra hlength
        exact hoverlooked ⟨_, chars_terminated lines, hnodup, hreads, l, hl, a, d, hread, by omega⟩
      refine ⟨iff_of_true ⟨_, hok⟩ ⟨hnil, hwell⟩, ?_, by rw [hok]; nofun⟩
      intro uset' aset' hok'
      rw [hok] at hok'
      cases hok'
      exact ⟨lines, rfl, hlines, huset⟩
    · exact absurd hrepeats' hrepeats
    · refine ⟨iff_of_false ?_ ?_, ?_, by rw [herror]; nofun⟩
      · rw [herror]
        nofun
      · rintro ⟨-, l, heq, hnodup, hudigs⟩
        obtain rfl := hsame (newlines_of_udigLines hudigs) heq
        refine hnot ⟨hnodup, fun l hl => ?_⟩
        obtain ⟨a, d, hline⟩ := hudigs l hl
        refine ⟨a, d, reads_of_udigLine hline ?_ ?_⟩
        · exact fun hlength => hrefused ⟨_, heq, hnodup, hudigs, l, hl, a, d, hline, .inl hlength⟩
        · exact fun hz => hrefused ⟨_, heq, hnodup, hudigs, l, hl, a, d, hline, .inr hz⟩
      · rw [herror]
        nofun

/-- What is wrong: digests of any length are accepted, algorithms of eight characters or from `z`
on are refused, and the error of a last line that is there already is written behind the blob. -/
theorem parses_right_iff (blob : Bytes) : ParsesRight blob ↔
    ¬ Overlooked (chars blob) ∧ ¬ Refused (chars blob) ∧ ¬ RepeatsAtEnd (chars blob) := by
  by_cases hlast : blob.getLast? = some 10
  · obtain ⟨lines, hne, hlines, rfl⟩ := exists_terminated hlast
    exact parses_right_iff_lines hne hlines
  · obtain ⟨stop, hstop, hnot⟩ : ∃ stop, blob2udig_set blob = .error stop ∧ stop ≠ .overrun := by
      rw [blob2udig_set]
      split_ifs
      · exact ⟨.panic, rfl, nofun⟩
      · exact ⟨.croak, rfl, nofun⟩
    have hno : ∀ l : List Text, l ≠ [] → chars blob ≠ terminated '\n' l :=
      fun l hne heq => hlast (last_of_lines hne heq)
    have hmem : ∀ {l : List Text} {x}, x ∈ l → l ≠ [] := fun hx hnil => by simp [hnil] at hx
    rw [ParsesRight, hstop]
    refine iff_of_true ⟨iff_of_false nofun ?_, nofun, fun h => hnot (Except.error.inj h)⟩ ⟨?_, ?_, ?_⟩
    · rintro ⟨hnil, l, heq, -⟩
      refine hno l ?_ heq
      rintro rfl
      exact hnil (chars_injective heq)
    · rintro ⟨l, heq, -, -, x, hx, -⟩
      exact hno l (hmem hx) heq
    · rintro ⟨l, heq, -, -, x, hx, -⟩
      exact hno l (hmem hx) heq
    · rintro ⟨init, l, heq, -⟩
      exact hno _ (by simp) heq

def repeated_line : Bytes :=
  [115, 104, 97, 58] ++ List.replicate 28 97

theorem repeated_line_reads : ReadAs (chars repeated_line) "sha".toList (List.replicate 28 'a') where
  text := by decide
  first := ⟨'s', "ha".toList, rfl, by decide⟩
  graphic := by decide
  short := by decide
  graphic_digest := by decide

/-- A udig on two lines, and nothing else. -/
theorem repeat_writes_behind : ¬ ∀ blob, ParsesRight blob := by
  intro h
  have hrepeats : RepeatsAtEnd (chars (terminated 10 [repeated_line, repeated_line])) := by
    refine ⟨[chars repeated_line], chars repeated_line, chars_terminated _, by simp, ?_,
      List.mem_singleton_self _⟩
    rw [List.forall_mem_singleton]
    exact ⟨_, _, repeated_line_reads⟩
  have hlines : ∀ l ∈ [repeated_line, repeated_line], 10 ∉ l := by decide
  rcases blob2udig_set_cases (List.cons_ne_nil _ _) hlines with ⟨-, hnot, -⟩ | ⟨-, ⟨-, herror⟩ | ⟨hnot, -⟩⟩
  · exact hnot hrepeats
  · exact (h _).2.2 herror
  · exact hnot hrepeats

end Blobio.RollBlobs
