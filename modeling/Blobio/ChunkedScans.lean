import Mathlib.Data.List.Basic

/-! Scanners that take a stream byte by byte to a stop, and what the cutting of the stream
into chunks makes of them: nothing. -/
namespace ChunkedScans

variable {β σ ω : Type}

/-- A scan of a text is still going on, or has stopped and left the rest. -/
inductive Scanned (σ ω β : Type)
  | more (s : σ)
  | stop (w : ω) (rest : List β)

def scan (step : σ → β → σ ⊕ ω) : σ → List β → Scanned σ ω β
  | s, [] => .more s
  | s, b :: bs =>
    match step s b with
    | .inl s => scan step s bs
    | .inr w => .stop w bs

/-- A scan of chunks stops inside one of them and leaves the later ones unread. -/
inductive Read (σ ω β : Type)
  | waiting (s : σ)
  | stopped (w : ω) (rest : List β) (unread : List (List β))

def scan_reads (step : σ → β → σ ⊕ ω) : σ → List (List β) → Read σ ω β
  | s, [] => .waiting s
  | s, chunk :: chunks =>
    match scan step s chunk with
    | .more s => scan_reads step s chunks
    | .stop w rest => .stopped w rest chunks

section scans
variable {step : σ → β → σ ⊕ ω} {s s' : σ} {w : ω} {as bs rest : List β} {chunks unread : List (List β)}

@[simp] theorem scan_nil : scan step s [] = .more s := rfl

theorem scan_cons_inl {b : β} (h : step s b = .inl s') : scan step s (b :: bs) = scan step s' bs := by
  rw [scan, h]

theorem scan_cons_inr {b : β} (h : step s b = .inr w) : scan step s (b :: bs) = .stop w bs := by
  rw [scan, h]

theorem scan_append_more (h : scan step s as = .more s') :
    scan step s (as ++ bs) = scan step s' bs := by
  induction as generalizing s with
  | nil =>
    cases h
    rfl
  | cons a as ih =>
    rw [List.cons_append]
    cases ha : step s a with
    | inl t =>
      rw [scan_cons_inl ha] at h ⊢
      exact ih h
    | inr w =>
      rw [scan_cons_inr ha] at h
      cases h

theorem scan_append_stop (h : scan step s as = .stop w rest) :
    scan step s (as ++ bs) = .stop w (rest ++ bs) := by
  induction as generalizing s with
  | nil => cases h
  | cons a as ih =>
    rw [List.cons_append]
    cases ha : step s a with
    | inl t =>
      rw [scan_cons_inl ha] at h ⊢
      exact ih h
    | inr v =>
      rw [scan_cons_inr ha] at h ⊢
      cases h
      rfl

/-- Where the chunked scan stops the scan of the whole stream stops, too. -/
theorem scan_flatten_of_stopped (h : scan_reads step s chunks = .stopped w rest unread) :
    scan step s chunks.flatten = .stop w (rest ++ unread.flatten) := by
  induction chunks generalizing s with
  | nil => cases h
  | cons chunk chunks ih =>
    rw [scan_reads] at h
    rw [List.flatten_cons]
    split at h
    · rename_i t ht
      rw [scan_append_more ht]
      exact ih h
    · rename_i v left ht
      cases h
      exact scan_append_stop ht

theorem scan_flatten_of_waiting (h : scan_reads step s chunks = .waiting s') :
    scan step s chunks.flatten = .more s' := by
  induction chunks generalizing s with
  | nil =>
    cases h
    rfl
  | cons chunk chunks ih =>
    rw [scan_reads] at h
    rw [List.flatten_cons]
    split at h
    · rename_i t ht
      rw [scan_append_more ht]
      exact ih h
    · cases h

/-- However the stream is cut, the scan stops where it stops on the whole of it. -/
theorem scan_reads_of_flatten (h : scan step s chunks.flatten = .stop w bs) :
    ∃ rest unread, scan_reads step s chunks = .stopped w rest unread ∧ rest ++ unread.flatten = bs := by
  cases hr : scan_reads step s chunks with
  | waiting t =>
    rw [scan_flatten_of_waiting hr] at h
    cases h
  | stopped v rest unread =>
    rw [scan_flatten_of_stopped hr] at h
    cases h
    exact ⟨rest, unread, rfl, rfl⟩

/-- The scan takes its text off the front of the stream, and stops in the last chunk it
has read. -/
theorem scan_reads_split (h : scan_reads step s chunks = .stopped w rest unread) :
    ∃ read chunk taken, chunks = read ++ chunk :: unread ∧ chunk = taken ++ rest ∧ taken ≠ [] ∧
      scan step s (read.flatten ++ taken) = .stop w [] := by
  have hsplit : ∀ {s : σ} {as : List β}, scan step s as = .stop w rest →
      ∃ taken, as = taken ++ rest ∧ taken ≠ [] ∧ scan step s taken = .stop w [] := by
    intro s as hs
    induction as generalizing s with
    | nil => cases hs
    | cons a as ih =>
      cases ha : step s a with
      | inl t =>
        rw [scan_cons_inl ha] at hs
        obtain ⟨taken, rfl, -, hstop⟩ := ih hs
        exact ⟨a :: taken, rfl, List.cons_ne_nil _ _, by rw [scan_cons_inl ha, hstop]⟩
      | inr v =>
        rw [scan_cons_inr ha] at hs
        cases hs
        exact ⟨[a], rfl, List.cons_ne_nil _ _, by rw [scan_cons_inr ha]⟩
  induction chunks generalizing s with
  | nil => cases h
  | cons chunk chunks ih =>
    rw [scan_reads] at h
    split at h
    · rename_i t ht
      obtain ⟨read, c, taken, rfl, rfl, hne, hstop⟩ := ih h
      refine ⟨chunk :: read, taken ++ rest, taken, rfl, rfl, hne, ?_⟩
      rw [List.flatten_cons, List.append_assoc, scan_append_more ht, hstop]
    · rename_i v left ht
      cases h
      obtain ⟨taken, rfl, hne, hstop⟩ := hsplit ht
      exact ⟨[], taken ++ rest, taken, rfl, rfl, hne, hstop⟩

end scans

end ChunkedScans
