import Blobio.HexDigests
import Blobio.ChainedBuckets

/-! The in-memory set of small blobs, a hash table with a chain for each bucket. -/
namespace Blobio.BlobSets
open ChainedBuckets

def HASH_TABLE_SIZE : ℕ := 99991

def djb (buf : Bytes) : UInt32 :=
  buf.foldl (fun hash p => ((hash <<< 5) + hash) + p.toUInt32) 5381

/-- The index of a chain: `djb(element, size) % s->size`. -/
def bucket (element : Bytes) : Fin HASH_TABLE_SIZE :=
  ⟨(djb element).toNat % HASH_TABLE_SIZE, Nat.mod_lt _ (by decide)⟩

structure Element where
  value : Bytes
  size : ℕ
  deriving DecidableEq

/-- A chain is the list of its elements from `table[i]` along `next`. -/
structure HashSet where
  table : Fin HASH_TABLE_SIZE → List Element
  for_each_level : ℤ

def blob_set_alloc : HashSet where
  table _ := []
  for_each_level := 0

/-- The first `size` bytes behind `element` are what the call is about. -/
def blob_set_exists (s : HashSet) (element : Bytes) (size : ℕ) : ℤ :=
  if (s.table (bucket (element.take size))).any fun e =>
    size = e.size ∧ e.value.take size = element.take size then 1 else 0

/-- A call of `blob_set_put`, with what `malloc` gives for the entry and for its value. -/
structure Put where
  element : Bytes
  entry_block : Bool
  value_block : Bool

/-- The chain of the bucket with a new first element. -/
def HashSet.link (s : HashSet) (e_new : Element) : HashSet :=
  let hash := bucket e_new.value
  { s with table := Function.update s.table hash (e_new :: s.table hash) }

/-- `none` is a panic. -/
def blob_set_put (s : HashSet) (put : Put) (size : ℕ) : Option (ℤ × HashSet) :=
  if 0 < s.for_each_level then none
  else if blob_set_exists s put.element size ≠ 0 then some (1, s)
  else if !put.entry_block then none
  else if !put.value_block then none
  else some (0, s.link ⟨put.element.take size, size⟩)

section for_each
variable {σ : Type*} (each_callback : Bytes → ℕ → σ → ℤ × σ)

/-- The walk along a chain, left at the first callback that does not return 0. -/
def for_each_chain : List Element → σ → ℤ × σ
  | [], context => (0, context)
  | e :: chain, context =>
    let (status, context) := each_callback e.value e.size context
    if status ≠ 0 then (status, context) else for_each_chain chain context

def for_each_bucket (table : Fin HASH_TABLE_SIZE → List Element) : List (Fin HASH_TABLE_SIZE) → σ → ℤ × σ
  | [], context => (0, context)
  | i :: rest, context =>
    let (status, context) := for_each_chain each_callback (table i) context
    if status ≠ 0 then (status, context) else for_each_bucket table rest context

def blob_set_for_each (s : HashSet) (context_data : σ) : (ℤ × σ) × HashSet :=
  let s := { s with for_each_level := s.for_each_level + 1 }
  let answer := for_each_bucket each_callback s.table (List.finRange HASH_TABLE_SIZE) context_data
  (answer, { s with for_each_level := s.for_each_level - 1 })

end for_each

/-- One put after the other, each with the whole of its element. -/
def puts (s : HashSet) : List Put → Option (List ℤ × HashSet)
  | [] => some ([], s)
  | put :: rest => do
    let (reply, s) ← blob_set_put s put put.element.length
    let (replies, s) ← puts s rest
    some (reply :: replies, s)

/-! ### The set that a table stands for -/

/-- The element as the table stores it. -/
def Element.of (b : Bytes) : Element := ⟨b, b.length⟩

/-- Outside of a walk, with the given elements in the chains. -/
structure HashSet.Represents (s : HashSet) (elements : List Bytes) : Prop where
  level : s.for_each_level = 0
  chains : Holds (fun e => bucket e.value) s.table {e | ∃ b ∈ elements, e = Element.of b}

variable {s : HashSet} {elements : List Bytes}

theorem alloc_represents : blob_set_alloc.Represents [] := by
  refine ⟨rfl, ?_⟩
  have h : Holds (fun e : Element => bucket e.value) (fun _ => []) ∅ := holds_empty
  simpa [blob_set_alloc] using h

theorem of_mem_iff {b : Bytes} : (∃ c ∈ elements, Element.of b = Element.of c) ↔ b ∈ elements := by
  constructor
  · intro ⟨c, hc, h⟩
    obtain rfl : b = c := congrArg Element.value h
    exact hc
  · intro hb
    exact ⟨b, hb, rfl⟩

theorem stored_append (elements : List Bytes) (b : Bytes) :
    {e | ∃ c ∈ elements ++ [b], e = Element.of c} = insert (Element.of b) {e | ∃ c ∈ elements, e = Element.of c} := by
  ext e
  simp only [List.mem_append, List.mem_singleton, Set.mem_ofPred_eq, Set.mem_insert_iff]
  constructor
  · rintro ⟨c, hc | rfl, rfl⟩
    · exact Or.inr ⟨c, hc, rfl⟩
    · exact Or.inl rfl
  · rintro (rfl | ⟨c, hc, rfl⟩)
    · exact ⟨b, Or.inr rfl, rfl⟩
    · exact ⟨c, Or.inl hc, rfl⟩

theorem exists_iff (h : s.Represents elements) (b : Bytes) :
    blob_set_exists s b b.length = if b ∈ elements then 1 else 0 := by
  have hmem := (h.chains.mem (Element.of b)).trans of_mem_iff
  have hany : ((s.table (bucket b)).any fun e => b.length = e.size ∧ e.value.take b.length = b) ↔
      b ∈ elements := by
    rw [← hmem, List.any_eq_true]
    constructor
    · intro ⟨e, he, heq⟩
      have hb : b.length = e.size ∧ e.value.take b.length = b := by simpa using heq
      have hin := (h.chains.mem e).mp ((h.chains.hashed _ e he).symm ▸ he)
      obtain ⟨c, _, rfl⟩ := hin
      have hc : c = b := by simpa [Element.of, hb.1] using hb.2
      exact hc ▸ he
    · intro he
      exact ⟨Element.of b, he, by simp [Element.of]⟩
  simp only [blob_set_exists, List.take_length, hany]

theorem put_old (h : s.Represents elements) {put : Put} (hold : put.element ∈ elements) :
    blob_set_put s put put.element.length = some (1, s) := by
  have he := exists_iff h put.element
  rw [if_pos hold] at he
  simp [blob_set_put, h.level, he]

/-- An element that is new goes in front of the chain of its bucket. -/
theorem put_new (h : s.Represents elements) {put : Put} (hnew : put.element ∉ elements) :
    blob_set_put s put put.element.length =
      if put.entry_block ∧ put.value_block then some (0, s.link (Element.of put.element)) else none := by
  have he := exists_iff h put.element
  rw [if_neg hnew] at he
  cases h1 : put.entry_block <;> cases h2 : put.value_block <;>
    simp [blob_set_put, h.level, he, h1, h2, Element.of]

theorem Represents.old (h : s.Represents elements) {b : Bytes} (hold : b ∈ elements) :
    s.Represents (elements ++ [b]) := by
  refine ⟨h.level, ?_⟩
  have hin : Element.of b ∈ {e | ∃ c ∈ elements, e = Element.of c} := ⟨b, hold, rfl⟩
  rw [stored_append, Set.insert_eq_of_mem hin]
  exact h.chains

theorem Represents.link (h : s.Represents elements) {b : Bytes} (hnew : b ∉ elements) :
    (s.link (Element.of b)).Represents (elements ++ [b]) := by
  refine ⟨h.level, ?_⟩
  rw [stored_append]
  exact h.chains.cons fun hin => hnew (of_mem_iff.mp hin)

theorem put_represents (h : s.Represents elements) {put : Put} {reply : ℤ} {s' : HashSet}
    (hput : blob_set_put s put put.element.length = some (reply, s')) :
    reply = (if put.element ∈ elements then 1 else 0) ∧ s'.Represents (elements ++ [put.element]) := by
  by_cases hmem : put.element ∈ elements
  · rw [put_old h hmem] at hput
    obtain ⟨rfl, rfl⟩ : 1 = reply ∧ s = s' := by simpa using hput
    exact ⟨(if_pos hmem).symm, Represents.old h hmem⟩
  · rw [put_new h hmem] at hput
    split at hput
    · obtain ⟨rfl, rfl⟩ : 0 = reply ∧ s.link (Element.of put.element) = s' := by simpa using hput
      exact ⟨(if_neg hmem).symm, Represents.link h hmem⟩
    · cases hput

theorem put_returns (h : s.Represents elements) {put : Put}
    (hmalloc : put.entry_block = true ∧ put.value_block = true) :
    ∃ answer, blob_set_put s put put.element.length = some answer := by
  by_cases hmem : put.element ∈ elements
  · exact ⟨_, put_old h hmem⟩
  · exact ⟨_, by rw [put_new h hmem, if_pos hmalloc]⟩

/-- The elements of the calls made before join those that the table has. -/
theorem puts_represents {calls : List Put} (h : s.Represents elements) {replies : List ℤ} {s' : HashSet}
    (hrun : puts s calls = some (replies, s')) :
    s'.Represents (elements ++ calls.map Put.element) ∧ replies.length = calls.length ∧
      ∀ i put, calls[i]? = some put → replies[i]? =
        some (if put.element ∈ elements ++ (calls.take i).map Put.element then 1 else 0) := by
  induction calls generalizing s elements replies with
  | nil =>
    obtain ⟨rfl, rfl⟩ : [] = replies ∧ s = s' := by simpa [puts] using hrun
    simpa using h
  | cons put calls ih =>
    simp only [puts, Option.bind_eq_bind, Option.bind_eq_some_iff] at hrun
    obtain ⟨⟨reply, m⟩, hput, ⟨replies, t⟩, hrest, heq⟩ := hrun
    obtain ⟨rfl, rfl⟩ : reply :: replies = _ ∧ t = s' := by simpa using heq
    have hfirst := put_represents h hput
    have hthen := ih hfirst.2 hrest
    simp only [List.append_assoc, List.singleton_append] at hthen
    refine ⟨by simpa using hthen.1, by simp [hthen.2.1], ?_⟩
    intro i call hi
    cases i with
    | zero =>
      obtain rfl : put = call := by simpa using hi
      simp [hfirst.1]
    | succ i => simpa using hthen.2.2 i call (by simpa using hi)

theorem puts_return {calls : List Put} (h : s.Represents elements)
    (hmalloc : ∀ put ∈ calls, put.entry_block = true ∧ put.value_block = true) :
    ∃ answer, puts s calls = some answer := by
  induction calls generalizing s elements with
  | nil => exact ⟨_, rfl⟩
  | cons put calls ih =>
    obtain ⟨⟨reply, m⟩, hput⟩ := put_returns h (hmalloc put List.mem_cons_self)
    obtain ⟨⟨replies, t⟩, hrest⟩ := ih (put_represents h hput).2
      fun c hc => hmalloc c (List.mem_cons_of_mem _ hc)
    exact ⟨(reply :: replies, t), by simp [puts, hput, hrest]⟩

/-! ### The walk over a set -/

section walk
variable {σ : Type*} {each_callback : Bytes → ℕ → σ → ℤ × σ}

/-- The context after every element of a list. -/
def visit (each_callback : Bytes → ℕ → σ → ℤ × σ) (visited : List Element) (context : σ) : σ :=
  visited.foldl (fun context e => (each_callback e.value e.size context).2) context

theorem for_each_chain_eq (h0 : ∀ value size context, (each_callback value size context).1 = 0)
    (chain : List Element) (context : σ) :
    for_each_chain each_callback chain context = (0, visit each_callback chain context) := by
  induction chain generalizing context with
  | nil => rfl
  | cons e chain ih => simp [for_each_chain, h0, ih, visit]

theorem for_each_bucket_eq (h0 : ∀ value size context, (each_callback value size context).1 = 0)
    (table : Fin HASH_TABLE_SIZE → List Element) (buckets : List (Fin HASH_TABLE_SIZE)) (context : σ) :
    for_each_bucket each_callback table buckets context =
      (0, visit each_callback (buckets.flatMap table) context) := by
  induction buckets generalizing context with
  | nil => rfl
  | cons i buckets ih =>
    simp only [for_each_bucket, for_each_chain_eq h0, ih]
    simp [visit, List.foldl_append]

theorem for_each_eq (h0 : ∀ value size context, (each_callback value size context).1 = 0) (s : HashSet)
    (context : σ) : blob_set_for_each each_callback s context =
      ((0, visit each_callback (ChainedBuckets.elements s.table) context), s) := by
  simp [blob_set_for_each, for_each_bucket_eq h0, ChainedBuckets.elements]

end walk

/-- The elements of a table, each once. -/
theorem Represents.stored (h : s.Represents elements) : ∃ order : List Bytes, order.Nodup ∧
    (∀ b, b ∈ order ↔ b ∈ elements) ∧ ChainedBuckets.elements s.table = order.map Element.of := by
  have hof : ∀ e ∈ ChainedBuckets.elements s.table, Element.of e.value = e := by
    intro e he
    obtain ⟨b, _, rfl⟩ := h.chains.mem_elements.mp he
    rfl
  have hmap : ((ChainedBuckets.elements s.table).map Element.value).map Element.of =
      ChainedBuckets.elements s.table := by
    rw [List.map_map]
    exact (List.map_congr_left hof).trans (List.map_id _)
  refine ⟨(ChainedBuckets.elements s.table).map Element.value, ?_, ?_, hmap.symm⟩
  · apply List.Nodup.of_map Element.of
    rw [hmap]
    exact h.chains.nodup_elements
  · intro b
    refine Iff.trans ?_ of_mem_iff
    constructor
    · intro hb
      obtain ⟨e, he, rfl⟩ := List.mem_map.mp hb
      rw [hof e he]
      exact h.chains.mem_elements.mp he
    · intro hb
      exact List.mem_map.mpr ⟨Element.of b, h.chains.mem_elements.mpr hb, rfl⟩

/-- A run of puts that has its memory is a run of a finite set. -/
theorem puts_are_a_set (calls : List Put) :
    ((∀ put ∈ calls, put.entry_block = true ∧ put.value_block = true) →
      ∃ replies s, puts blob_set_alloc calls = some (replies, s)) ∧
    ∀ replies s, puts blob_set_alloc calls = some (replies, s) →
      (replies.length = calls.length ∧ ∀ i put, calls[i]? = some put → replies[i]? =
        some (if put.element ∈ (calls.take i).map Put.element then 1 else 0)) ∧
      (∀ b, blob_set_exists s b b.length = if b ∈ calls.map Put.element then 1 else 0) ∧
      (∃ order : List Bytes, order.Nodup ∧ (∀ b, b ∈ order ↔ b ∈ calls.map Put.element) ∧
        ∀ (σ : Type) (each_callback : Bytes → ℕ → σ → ℤ × σ),
          (∀ value size context, (each_callback value size context).1 = 0) → ∀ context,
            blob_set_for_each each_callback s context =
              ((0, order.foldl (fun context b => (each_callback b b.length context).2) context), s)) ∧
      ∀ i, ∀ e ∈ s.table i, e.size = e.value.length ∧ bucket e.value = i := by
  refine ⟨fun hmalloc => ?_, fun replies s hrun => ?_⟩
  · obtain ⟨answer, h⟩ := puts_return alloc_represents hmalloc
    exact ⟨answer.1, answer.2, h⟩
  · have h := puts_represents alloc_represents hrun
    simp only [List.nil_append] at h
    obtain ⟨hs, hreplies⟩ := h
    refine ⟨hreplies, exists_iff hs, ?_, ?_⟩
    · obtain ⟨order, hnodup, hmem, hstored⟩ := Represents.stored hs
      refine ⟨order, hnodup, hmem, fun σ each_callback h0 context => ?_⟩
      rw [for_each_eq h0, hstored, visit, List.foldl_map]
      rfl
    · intro i e he
      have hi := hs.chains.hashed i e he
      obtain ⟨b, _, rfl⟩ := (hs.chains.mem e).mp (hi.symm ▸ he)
      exact ⟨rfl, hi⟩

end Blobio.BlobSets
