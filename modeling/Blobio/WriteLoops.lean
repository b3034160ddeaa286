import Blobio.BufferPieces
import Blobio.HexDigests

/-! The loops that write a whole buffer: of the server to a file with a blob, and of
`flowd-execv` to flowd. -/
namespace Blobio.WriteLoops
open BufferPieces

/-- What a call of `write` comes to: as many of the bytes offered, an interruption or an error. -/
inductive Answer
  | wrote (n : ℕ)
  | interrupted
  | failed

inductive Ending
  | returned
  | failed
  | waiting
  deriving DecidableEq

/-- The pieces of the buffer that a loop has put on its descriptor, and how it has ended. -/
structure Written where
  pieces : List Piece
  ending : Ending

def Written.after (p : Piece) (w : Written) : Written :=
  { w with pieces := p :: w.pieces }

/-- `io_write` calls again when it is interrupted, `io_write_buf` until all bytes are written. -/
def io_write_buf (count : ℕ) : ℕ → List Answer → Written
  | _, [] => ⟨[], .waiting⟩
  | nwritten, .interrupted :: answers => io_write_buf count nwritten answers
  | _, .failed :: _ => ⟨[], .failed⟩
  | nwritten, .wrote n :: answers =>
    let nw := min n (count - nwritten)
    if nwritten + nw < count then (io_write_buf count (nwritten + nw) answers).after ⟨0, nw⟩
    else ⟨[⟨0, nw⟩], .returned⟩

/-- What a call of `jmscott_write` comes to. -/
inductive Call
  | wrote (n : ℕ)
  | failed

/-- Only the bytes of the last call are added to the start of the buffer. -/
def _write (nbytes nb : ℕ) : List Call → Written
  | [] => ⟨[], .waiting⟩
  | .failed :: _ => ⟨[], .failed⟩
  | .wrote n :: calls =>
    let next := min n nbytes
    if next = 0 then ⟨[], .failed⟩
    else if nbytes - next = 0 then ⟨[⟨nb, next⟩], .returned⟩
    else (_write (nbytes - next) next calls).after ⟨nb, next⟩

/-- The bytes on the descriptor are those of the buffer, in order and each once: all of them
when the loop returns, the first of them when it does not. -/
def Right (count : ℕ) (w : Written) : Prop :=
  positions w.pieces = List.range (total w.pieces) ∧
    (∀ buf : Bytes, bytes buf w.pieces = buf.take (total w.pieces)) ∧
    (w.ending = .returned → total w.pieces = count)

/-- The sizes of the writes before an error, those of no bytes left out. -/
def Answer.sizes : List Answer → List ℕ
  | [] => []
  | .failed :: _ => []
  | .interrupted :: answers => Answer.sizes answers
  | .wrote n :: answers => if n = 0 then Answer.sizes answers else n :: Answer.sizes answers

/-- Here a write of no bytes is an error. -/
def Call.sizes : List Call → List ℕ
  | [] => []
  | .failed :: _ => []
  | .wrote n :: calls => if n = 0 then [] else n :: Call.sizes calls

variable {count nwritten nbytes nb o : ℕ} {answers : List Answer} {calls : List Call}

theorem right_iff_chained {w : Written} (htotal : w.ending = .returned → total w.pieces = count) :
    Right count w ↔ Chained 0 w.pieces := by
  rw [Right, List.range_eq_range', positions_eq_iff]
  constructor
  · intro h
    exact h.1
  · intro h
    refine ⟨h, fun buf => ?_, htotal⟩
    rw [bytes_of_chained buf h, List.drop_zero]

theorem io_write_buf_total (h : nwritten ≤ count) (hret : (io_write_buf count nwritten answers).ending = .returned) :
    total (io_write_buf count nwritten answers).pieces = count - nwritten := by
  induction answers generalizing nwritten with
  | nil => cases hret
  | cons a answers ih =>
    cases a with
    | interrupted => exact ih h hret
    | failed => cases hret
    | wrote n =>
      simp only [io_write_buf] at hret ⊢
      by_cases hlt : nwritten + min n (count - nwritten) < count
      · rw [if_pos hlt] at hret ⊢
        have hrest := ih (Nat.le_of_lt hlt) hret
        simp only [Written.after, total_cons, hrest]
        omega
      · rw [if_neg hlt]
        simp only [total_cons, total_nil]
        omega

/-- Behind the first bytes every write starts at the wrong place. -/
theorem io_write_buf_resumed (hpos : 0 < nwritten) (hlt : nwritten < count) :
    Chained nwritten (io_write_buf count nwritten answers).pieces ↔ Answer.sizes answers = [] := by
  induction answers with
  | nil => exact iff_of_true trivial rfl
  | cons a answers ih =>
    cases a with
    | interrupted => exact ih
    | failed => exact iff_of_true trivial rfl
    | wrote n =>
      by_cases hn : n = 0
      · subst hn
        simpa [io_write_buf, hlt, Written.after, Chained, Answer.sizes] using ih
      · have hpiece : ¬ (min n (count - nwritten) = 0 ∨ 0 = nwritten) := by omega
        refine iff_of_false ?_ (by simp [Answer.sizes, hn])
        simp only [io_write_buf]
        split
        · exact fun h => hpiece h.1
        · exact fun h => hpiece h.1

theorem io_write_buf_chained : Chained 0 (io_write_buf count 0 answers).pieces ↔
    ∀ n rest, Answer.sizes answers = n :: rest → count ≤ n ∨ rest = [] := by
  induction answers with
  | nil => exact iff_of_true trivial (by simp [Answer.sizes])
  | cons a answers ih =>
    cases a with
    | interrupted => exact ih
    | failed => exact iff_of_true trivial (by simp [Answer.sizes])
    | wrote n =>
      by_cases hn : n = 0
      · subst hn
        by_cases hcount : 0 < count
        · simpa [io_write_buf, hcount, Written.after, Chained, Answer.sizes] using ih
        · obtain rfl : count = 0 := by omega
          exact iff_of_true (by simp [io_write_buf, Chained]) (by simp)
      · have hsizes : Answer.sizes (.wrote n :: answers) = n :: Answer.sizes answers := by
          simp [Answer.sizes, hn]
        have hright : (∀ m rest, Answer.sizes (.wrote n :: answers) = m :: rest → count ≤ m ∨ rest = []) ↔
            count ≤ n ∨ Answer.sizes answers = [] := by
          rw [hsizes]
          constructor
          · intro h
            exact h n _ rfl
          · intro h m rest heq
            obtain ⟨rfl, rfl⟩ := List.cons.inj heq
            exact h
        rw [hright]
        by_cases hlt : n < count
        · have hmin : min n count = n := Nat.min_eq_left (Nat.le_of_lt hlt)
          have hrest : Chained n (io_write_buf count n answers).pieces ↔ Answer.sizes answers = [] :=
            io_write_buf_resumed (Nat.pos_of_ne_zero hn) hlt
          simp [io_write_buf, hmin, hlt, Written.after, Chained, hrest]
        · refine iff_of_true ?_ (Or.inl (Nat.le_of_not_lt hlt))
          simp [io_write_buf, hlt, Chained]

theorem _write_total (hret : (_write nbytes nb calls).ending = .returned) :
    total (_write nbytes nb calls).pieces = nbytes := by
  induction calls generalizing nbytes nb with
  | nil => cases hret
  | cons c calls ih =>
    cases c with
    | failed => cases hret
    | wrote n =>
      simp only [_write] at hret ⊢
      split_ifs at hret ⊢ with hzero hall
      · simp
        omega
      · have hrest := ih hret
        simp only [Written.after, total_cons, hrest]
        omega

/-- From a wrong place no byte comes out right. -/
theorem _write_astray (hne : nb ≠ o) (hpos : 0 < nbytes) :
    Chained o (_write nbytes nb calls).pieces ↔ Call.sizes calls = [] := by
  cases calls with
  | nil => exact iff_of_true trivial rfl
  | cons c calls =>
    cases c with
    | failed => exact iff_of_true trivial rfl
    | wrote n =>
      by_cases hn : n = 0
      · subst hn
        exact iff_of_true (by simp [_write, Chained]) (by simp [Call.sizes])
      · have hpiece : ¬ (min n nbytes = 0 ∨ nb = o) := by omega
        refine iff_of_false ?_ (by simp [Call.sizes, hn])
        simp only [_write, if_neg (fun h => hpiece (Or.inl h))]
        split
        · exact fun h => hpiece h.1
        · exact fun h => hpiece h.1

/-- A second call from the right place leaves the third at a wrong one. -/
theorem _write_in_step (hpos : 0 < o) : Chained o (_write nbytes o calls).pieces ↔
    ∀ m rest, Call.sizes calls = m :: rest → nbytes ≤ m ∨ rest = [] := by
  cases calls with
  | nil => exact iff_of_true trivial (by simp [Call.sizes])
  | cons c calls =>
    cases c with
    | failed => exact iff_of_true trivial (by simp [Call.sizes])
    | wrote m =>
      rcases Nat.eq_zero_or_pos m with rfl | hm
      · exact iff_of_true (by simp [_write, Chained]) (by simp [Call.sizes])
      · have hsizes : Call.sizes (.wrote m :: calls) = m :: Call.sizes calls := by
          simp [Call.sizes, Nat.ne_of_gt hm]
        by_cases hall : nbytes ≤ m
        · refine iff_of_true ?_ fun k rest hk => Or.inl ?_
          · simp only [_write, Nat.min_eq_right hall, Nat.sub_self, if_true]
            split <;> simp [Chained]
          · rw [hsizes] at hk
            exact (List.cons.inj hk).1 ▸ hall
        · have hmin : min m nbytes = m := Nat.min_eq_left (Nat.le_of_not_le hall)
          have hrest : Chained (o + m) (_write (nbytes - m) m calls).pieces ↔ Call.sizes calls = [] :=
            _write_astray (by omega) (by omega)
          have hm0 : m ≠ 0 := Nat.ne_of_gt hm
          have hleft : nbytes - m ≠ 0 := by omega
          simp [_write, hmin, hm0, hleft, Written.after, Chained, hrest, hsizes, hall]

/-- The second call starts where the first has ended. -/
theorem _write_chained : Chained 0 (_write nbytes 0 calls).pieces ↔
    ∀ n m rest, Call.sizes calls = n :: m :: rest → nbytes ≤ n + m ∨ rest = [] := by
  cases calls with
  | nil => exact iff_of_true trivial (by simp [Call.sizes])
  | cons c calls =>
    cases c with
    | failed => exact iff_of_true trivial (by simp [Call.sizes])
    | wrote n =>
      rcases Nat.eq_zero_or_pos n with rfl | hn
      · exact iff_of_true (by simp [_write, Chained]) (by simp [Call.sizes])
      · have hsizes : Call.sizes (.wrote n :: calls) = n :: Call.sizes calls := by
          simp [Call.sizes, Nat.ne_of_gt hn]
        by_cases hall : nbytes ≤ n
        · refine iff_of_true ?_ fun k m rest hk => Or.inl ?_
          · simp only [_write, Nat.min_eq_right hall, Nat.sub_self, if_true]
            split <;> simp [Chained]
          · rw [hsizes] at hk
            obtain ⟨rfl, -⟩ := List.cons.inj hk
            omega
        · have hmin : min n nbytes = n := Nat.min_eq_left (Nat.le_of_not_le hall)
          have hrest : Chained n (_write (nbytes - n) n calls).pieces ↔
              ∀ m rest, Call.sizes calls = m :: rest → nbytes - n ≤ m ∨ rest = [] := _write_in_step hn
          have hn0 : n ≠ 0 := Nat.ne_of_gt hn
          have hleft : nbytes - n ≠ 0 := by omega
          have hchained : Chained 0 (_write nbytes 0 (.wrote n :: calls)).pieces ↔
              Chained n (_write (nbytes - n) n calls).pieces := by
            simp [_write, hmin, hn0, hleft, Written.after, Chained]
          rw [hchained, hrest, hsizes]
          constructor
          · intro h k m rest hk
            obtain ⟨rfl, hm⟩ := List.cons.inj hk
            exact (h m rest hm).imp_left (by omega)
          · intro h m rest hm
            exact (h n m rest (hm ▸ rfl)).imp_left (by omega)

/-- Neither loop advances as it should: the one is right when a single write takes bytes, the
other when two do. -/
theorem writes_right_iff (count nbytes : ℕ) (answers : List Answer) (calls : List Call) :
    (Right count (io_write_buf count 0 answers) ↔
      ∀ n rest, Answer.sizes answers = n :: rest → count ≤ n ∨ rest = []) ∧
    (Right nbytes (_write nbytes 0 calls) ↔
      ∀ n m rest, Call.sizes calls = n :: m :: rest → nbytes ≤ n + m ∨ rest = []) := by
  constructor
  · have htotal : (io_write_buf count 0 answers).ending = .returned →
        total (io_write_buf count 0 answers).pieces = count := io_write_buf_total (Nat.zero_le count)
    rw [right_iff_chained htotal]
    exact io_write_buf_chained
  · rw [right_iff_chained _write_total]
    exact _write_chained

/-- Three bytes in two writes, and in three. -/
theorem short_writes_astray : ¬ ∀ (count nbytes : ℕ) (answers : List Answer) (calls : List Call),
    Right count (io_write_buf count 0 answers) ∧ Right nbytes (_write nbytes 0 calls) := by
  intro h
  have hbuf := (h 3 3 [.wrote 1, .wrote 2] [.wrote 1, .wrote 1, .wrote 1]).1.1
  revert hbuf
  decide

end Blobio.WriteLoops
