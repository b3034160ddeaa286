import Blobio.LastVerdicts
import Blobio.WrapWalks
import Mathlib.Data.Char
import Mathlib.Data.List.Lex
import Mathlib.Logic.Function.Basic

/-! The scan of `walk-wrap-set` over the logs of a walk, from the last row back to the first. -/
namespace Blobio.Walk
open LastVerdicts ArcOrders

/-! ### The scan -/

/-- The variables of the scan. -/
structure Scan where
  UDIG : Finset Text
  TAKEN : Finset Text
  NO_EXIST : Finset Text
  BLOB_SIZE : Text → Option Text
  OK_VERB_COUNT : Verb → ℕ
  NO_VERB_COUNT : Verb → ℕ
  MIN_BRR_LOG_START_TIME : Text
  MAX_BRR_LOG_START_TIME : Text
  MIN_RECENT_TIME : Text
  MAX_RECENT_TIME : Text

/-- The wrap sets that the walk has found are there from the start. -/
def Scan.start (s : State) : Scan :=
  ⟨s.UDIG.toFinset, ∅, ∅, fun _ => none, fun _ => 0, fun _ => 0, [], [], [], []⟩

def max_time (time start_time : Text) : Text := if time = [] ∨ time < start_time then start_time else time

def min_time (time start_time : Text) : Text := if time = [] ∨ start_time ≤ time then start_time else time

/-- A blob that is not there, as far as the row goes. -/
def Scan.row_no (s : Scan) (b : Brr) : Scan :=
  let s := { s with NO_VERB_COUNT := Function.update s.NO_VERB_COUNT b.verb (s.NO_VERB_COUNT b.verb + 1) }
  if b.udig ∉ s.UDIG ∧ (b.verb = .eat ∨ b.verb = .get) then { s with NO_EXIST := insert b.udig s.NO_EXIST } else s

def Scan.row_take (s : Scan) (b : Brr) : Scan :=
  if b.udig ∈ s.UDIG then s
  else { s with NO_EXIST := insert b.udig s.NO_EXIST, TAKEN := insert b.udig s.TAKEN }

def Scan.row_recent (s : Scan) (b : Brr) : Scan :=
  let s := { s with
    MAX_RECENT_TIME := max_time s.MAX_RECENT_TIME b.start_time
    MIN_RECENT_TIME := min_time s.MIN_RECENT_TIME b.start_time }
  if b.udig ∈ s.TAKEN ∨ b.udig ∈ s.NO_EXIST then s
  else
    { s with
      UDIG := insert b.udig s.UDIG
      BLOB_SIZE := if b.verb = .get ∨ b.verb = .put ∨ b.verb = .give then
        Function.update s.BLOB_SIZE b.udig (some b.blob_size) else s.BLOB_SIZE }

def Scan.row (s : Scan) (b : Brr) : Scan :=
  let s := { s with
    MAX_BRR_LOG_START_TIME := max_time s.MAX_BRR_LOG_START_TIME b.start_time
    MIN_BRR_LOG_START_TIME := min_time s.MIN_BRR_LOG_START_TIME b.start_time }
  if b.no then s.row_no b
  else
    let s := { s with OK_VERB_COUNT := Function.update s.OK_VERB_COUNT b.verb (s.OK_VERB_COUNT b.verb + 1) }
    if b.verb = .take then s.row_take b else s.row_recent b

/-- The rows of a log, the last one first. The count of rows in the message only goes down behind a row that puts
a blob in the set. -/
def scan_back (brr_log : Text) : ℕ → List Text → Scan → Except Text Scan
  | _, [], s => .ok s
  | rc, line :: ls, s =>
    match brr_re line with
    | none => .error ("row ".toList ++ Nat.toDigits 10 rc ++ " is not brr in log: ".toList ++ brr_log)
    | some b =>
      let rc' := if b.no ∨ b.verb = .take ∨ b.udig ∈ s.TAKEN ∨ b.udig ∈ s.NO_EXIST then rc else rc - 1
      scan_back brr_log rc' ls (s.row b)

def scan_brr_logs (w : World) : List Text → Scan → Except Text Scan
  | [], s => .ok s
  | brr_log :: ls, s =>
    match w.service brr_log with
    | .error status => .error ("blobio get brr log failed: exit status=".toList ++ Nat.toDigits 10 status)
    | .ok none => scan_brr_logs w ls s
    | .ok (some blob) =>
      match scan_back brr_log (lines blob).length (lines blob).reverse s with
      | .error msg => .error msg
      | .ok s => scan_brr_logs w ls s

/-- The logs in the order of the scan, from what `tsort` has printed. -/
def brr_logs (tsorted : List Text) (s : State) : List Text := (tsorted.filter (· ∈ s.BRR_LOG)).reverse

/-! ### What the scan makes of the rows -/

/-- What a row says of its udig. -/
def Brr.verdict (b : Brr) : Option Bool :=
  if b.no then if b.verb = .eat ∨ b.verb = .get then some false else none
  else some (b.verb ≠ .take)

def Scan.decided (s : Scan) : Decided Text := ⟨s.UDIG, s.NO_EXIST⟩

section rows
variable {s t : Scan} {b : Brr} {h : List Brr} {U : Finset Text}

/-- A row with the size of a blob that is there. -/
def Brr.sized (b : Brr) : Bool := !b.no && (b.verb = .get || b.verb = .put || b.verb = .give)

def Brr.taken (b : Brr) : Bool := !b.no && b.verb = .take

/-- What the scan knows behind rows, of which the last one was the first to be scanned. -/
structure Accounts (U : Finset Text) (h : List Brr) (t : Scan) : Prop where
  decided : Decides ⟨U, ∅⟩ t.decided (last Brr.udig Brr.verdict h)
  taken : ∀ u, u ∈ t.TAKEN ↔ u ∈ t.NO_EXIST ∧ ∃ b ∈ h, b.udig = u ∧ b.taken
  size : ∀ u ∉ t.NO_EXIST, t.BLOB_SIZE u = (h.find? fun b => b.udig = u ∧ b.sized).map Brr.blob_size
  ok_count : ∀ v, t.OK_VERB_COUNT v = h.countP fun b => b.verb = v ∧ b.no = false
  no_count : ∀ v, t.NO_VERB_COUNT v = h.countP fun b => b.verb = v ∧ b.no

/-- What a row does to the sets is to judge by its verdict. -/
theorem row_decided (htaken : t.TAKEN ⊆ t.NO_EXIST) :
    (t.row b).decided = judge Brr.udig Brr.verdict b t.decided := by
  by_cases hno : b.no
  · by_cases hverb : b.verb = .eat ∨ b.verb = .get
    · have hverdict : b.verdict = some false := by
        rw [Brr.verdict, if_pos hno, if_pos hverb]
      unfold Scan.row
      dsimp only
      rw [judge, hverdict, if_pos hno, Scan.row_no]
      by_cases hudig : b.udig ∈ t.UDIG
      · simp [Scan.decided, hudig]
      · simp [Scan.decided, hudig, hverb]
    · have hverdict : b.verdict = none := by
        rw [Brr.verdict, if_pos hno, if_neg hverb]
      unfold Scan.row
      dsimp only
      rw [judge, hverdict, if_pos hno, Scan.row_no]
      simp [Scan.decided, hverb]
  · by_cases hverb : b.verb = .take
    · have hverdict : b.verdict = some false := by
        rw [Brr.verdict, if_neg hno]
        simp [hverb]
      unfold Scan.row
      dsimp only
      rw [judge, hverdict, if_neg hno, if_pos hverb, Scan.row_take]
      by_cases hudig : b.udig ∈ t.UDIG
      · simp [Scan.decided, hudig]
      · simp [Scan.decided, hudig]
    · have hverdict : b.verdict = some true := by
        rw [Brr.verdict, if_neg hno]
        simp [hverb]
      unfold Scan.row
      dsimp only
      rw [judge, hverdict, if_neg hno, if_neg hverb, Scan.row_recent]
      by_cases hudig : b.udig ∈ t.NO_EXIST
      · simp [Scan.decided, hudig]
      · have hnot : b.udig ∉ t.TAKEN := fun hmem => hudig (htaken hmem)
        simp [Scan.decided, hudig, hnot]

theorem verdict_of_taken (h : b.taken) : b.verdict = some false := by
  simp only [Brr.taken, Bool.and_eq_true, Bool.not_eq_true', decide_eq_true_eq] at h
  rw [Brr.verdict, h.1, if_neg Bool.false_ne_true, h.2]
  rfl

theorem row_no_eq (h : b.no = true) : (t.row b).TAKEN = t.TAKEN ∧ (t.row b).BLOB_SIZE = t.BLOB_SIZE ∧
    (t.row b).OK_VERB_COUNT = t.OK_VERB_COUNT ∧
      (t.row b).NO_VERB_COUNT = Function.update t.NO_VERB_COUNT b.verb (t.NO_VERB_COUNT b.verb + 1) := by
  unfold Scan.row
  dsimp only
  rw [if_pos h, Scan.row_no]
  dsimp only
  split_ifs <;> exact ⟨rfl, rfl, rfl, rfl⟩

theorem row_take_eq (h : b.no = false) (hverb : b.verb = .take) :
    (t.row b).TAKEN = (if b.udig ∈ t.UDIG then t.TAKEN else insert b.udig t.TAKEN) ∧
      (t.row b).BLOB_SIZE = t.BLOB_SIZE ∧
        (t.row b).OK_VERB_COUNT = Function.update t.OK_VERB_COUNT b.verb (t.OK_VERB_COUNT b.verb + 1) ∧
          (t.row b).NO_VERB_COUNT = t.NO_VERB_COUNT := by
  unfold Scan.row
  dsimp only
  rw [h, if_neg Bool.false_ne_true, if_pos hverb, Scan.row_take]
  dsimp only
  split_ifs <;> exact ⟨rfl, rfl, rfl, rfl⟩

theorem row_recent_eq (h : b.no = false) (hverb : b.verb ≠ .take) : (t.row b).TAKEN = t.TAKEN ∧
    (t.row b).BLOB_SIZE = (if (b.udig ∈ t.TAKEN ∨ b.udig ∈ t.NO_EXIST) ∨
      ¬ (b.verb = .get ∨ b.verb = .put ∨ b.verb = .give) then t.BLOB_SIZE
        else Function.update t.BLOB_SIZE b.udig (some b.blob_size)) ∧
      (t.row b).OK_VERB_COUNT = Function.update t.OK_VERB_COUNT b.verb (t.OK_VERB_COUNT b.verb + 1) ∧
        (t.row b).NO_VERB_COUNT = t.NO_VERB_COUNT := by
  unfold Scan.row
  dsimp only
  rw [h, if_neg Bool.false_ne_true, if_neg hverb, Scan.row_recent]
  dsimp only
  by_cases hgone : b.udig ∈ t.TAKEN ∨ b.udig ∈ t.NO_EXIST
  · rw [if_pos hgone, if_pos (.inl hgone)]
    exact ⟨rfl, rfl, rfl, rfl⟩
  · rw [if_neg hgone]
    by_cases hsized : b.verb = .get ∨ b.verb = .put ∨ b.verb = .give
    · rw [if_pos hsized, if_neg (not_or.mpr ⟨hgone, not_not_intro hsized⟩)]
      exact ⟨rfl, rfl, rfl, rfl⟩
    · rw [if_neg hsized, if_pos (.inr hsized)]
      exact ⟨rfl, rfl, rfl, rfl⟩

theorem update_count (f : Verb → ℕ) (v v' : Verb) :
    Function.update f v (f v + 1) v' = f v' + if v = v' then 1 else 0 := by
  by_cases h : v = v'
  · subst h
    rw [Function.update_self, if_pos rfl]
  · rw [Function.update_of_ne (Ne.symm h), if_neg h, Nat.add_zero]

theorem row_OK_VERB_COUNT (v : Verb) :
    (t.row b).OK_VERB_COUNT v = t.OK_VERB_COUNT v + if b.verb = v ∧ b.no = false then 1 else 0 := by
  cases hno : b.no with
  | true => simp [(row_no_eq hno).2.2.1]
  | false =>
    have hcount : (t.row b).OK_VERB_COUNT =
        Function.update t.OK_VERB_COUNT b.verb (t.OK_VERB_COUNT b.verb + 1) := by
      by_cases hverb : b.verb = .take
      · exact (row_take_eq hno hverb).2.2.1
      · exact (row_recent_eq hno hverb).2.2.1
    rw [hcount, update_count]
    simp

theorem row_NO_VERB_COUNT (v : Verb) :
    (t.row b).NO_VERB_COUNT v = t.NO_VERB_COUNT v + if b.verb = v ∧ b.no then 1 else 0 := by
  cases hno : b.no with
  | true =>
    rw [(row_no_eq hno).2.2.2, update_count]
    simp
  | false =>
    have hcount : (t.row b).NO_VERB_COUNT = t.NO_VERB_COUNT := by
      by_cases hverb : b.verb = .take
      · exact (row_take_eq hno hverb).2.2.2
      · exact (row_recent_eq hno hverb).2.2.2
    simp [hcount]

theorem mem_row_TAKEN (u : Text) : u ∈ (t.row b).TAKEN ↔ u ∈ t.TAKEN ∨ (b.udig = u ∧ b.taken ∧ u ∉ t.UDIG) := by
  cases hno : b.no with
  | true => simp [(row_no_eq hno).1, Brr.taken, hno]
  | false =>
    by_cases hverb : b.verb = .take
    · rw [(row_take_eq hno hverb).1, Brr.taken, hno]
      by_cases hudig : b.udig ∈ t.UDIG
      · rw [if_pos hudig]
        refine (or_iff_left ?_).symm
        rintro ⟨rfl, -, hnot⟩
        exact hnot hudig
      · rw [if_neg hudig, Finset.mem_insert]
        constructor
        · rintro (rfl | hu)
          · exact .inr ⟨rfl, by simp [hverb], hudig⟩
          · exact .inl hu
        · rintro (hu | ⟨rfl, -⟩)
          · exact .inr hu
          · exact .inl rfl
    · simp [(row_recent_eq hno hverb).1, Brr.taken, hverb]

theorem row_BLOB_SIZE (htaken : t.TAKEN ⊆ t.NO_EXIST) {u : Text} (hu : u ∉ t.NO_EXIST) : (t.row b).BLOB_SIZE u =
    if b.udig = u ∧ b.sized then some b.blob_size else t.BLOB_SIZE u := by
  cases hno : b.no with
  | true => simp [(row_no_eq hno).2.1, Brr.sized, hno]
  | false =>
    by_cases hverb : b.verb = .take
    · simp [(row_take_eq hno hverb).2.1, Brr.sized, hverb]
    · rw [(row_recent_eq hno hverb).2.1]
      by_cases hudig : b.udig = u
      · subst hudig
        have hgone : ¬ (b.udig ∈ t.TAKEN ∨ b.udig ∈ t.NO_EXIST) := not_or.mpr ⟨fun h => hu (htaken h), hu⟩
        by_cases hsized : b.verb = .get ∨ b.verb = .put ∨ b.verb = .give
        · rw [if_neg (not_or.mpr ⟨hgone, not_not_intro hsized⟩), Function.update_self, if_pos]
          simpa [Brr.sized, hno, or_assoc] using hsized
        · rw [if_pos (.inr hsized), if_neg]
          simpa [Brr.sized, hno, or_assoc] using hsized
      · rw [@if_neg (b.udig = u ∧ b.sized) _ fun h => hudig h.1]
        split_ifs
        · rfl
        · exact Function.update_of_ne (Ne.symm hudig) _ _

theorem Accounts.row (ht : Accounts U h t) (b : Brr) : Accounts U (b :: h) (t.row b) := by
  have htaken : t.TAKEN ⊆ t.NO_EXIST := fun u hu => ((ht.taken u).mp hu).1
  have hdecides : Decides ⟨U, ∅⟩ (t.row b).decided (last Brr.udig Brr.verdict (b :: h)) := by
    rw [row_decided htaken]
    exact ht.decided.judge b
  have hgrows : t.NO_EXIST ⊆ (t.row b).NO_EXIST := by
    intro u hu
    change u ∈ (t.row b).decided.no
    rw [row_decided htaken, mem_judge_no]
    exact .inl hu
  refine ⟨hdecides, fun u => ?_, fun u hu => ?_, fun v => ?_, fun v => ?_⟩
  · rw [mem_row_TAKEN]
    constructor
    · rintro (hu | ⟨hudig, htake, hnot⟩)
      · obtain ⟨hno, b', hb', hu'⟩ := (ht.taken u).mp hu
        exact ⟨hgrows hno, b', List.mem_cons_of_mem _ hb', hu'⟩
      · refine ⟨?_, b, List.mem_cons_self, hudig, htake⟩
        change u ∈ (t.row b).decided.no
        rw [row_decided htaken, mem_judge_no]
        exact .inr ⟨hudig, verdict_of_taken htake, hnot⟩
    · rintro ⟨hno, b', hb', hudig, htake⟩
      have hnot : u ∉ t.UDIG := by
        intro hyes
        have hyes' : u ∈ (t.row b).decided.yes := by
          rw [row_decided htaken, mem_judge_yes]
          exact .inl hyes
        exact Finset.disjoint_left.mp hdecides.disjoint hyes' hno
      rcases List.mem_cons.mp hb' with rfl | hb'
      · exact .inr ⟨hudig, htake, hnot⟩
      · refine .inl ((ht.taken u).mpr ⟨?_, b', hb', hudig, htake⟩)
        by_contra hundecided
        have hnone := ht.decided.undecided hnot hundecided b' hb' hudig
        rw [verdict_of_taken htake] at hnone
        cases hnone
  · have hu' : u ∉ t.NO_EXIST := fun h => hu (hgrows h)
    rw [row_BLOB_SIZE htaken hu', ht.size u hu', List.find?_cons]
    by_cases hb : b.udig = u ∧ b.sized
    · simp [hb]
    · simp [hb]
  · rw [row_OK_VERB_COUNT, ht.ok_count, List.countP_cons]
    simp
  · rw [row_NO_VERB_COUNT, ht.no_count, List.countP_cons]
    simp

/-- The rows behind which the scan has come to the first of these. -/
theorem Accounts.rows (ht : Accounts U h t) (bs : List Brr) : Accounts U (bs ++ h) (bs.reverse.foldl Scan.row t) := by
  induction bs with
  | nil => exact ht
  | cons b bs ih =>
    rw [List.reverse_cons, List.foldl_append]
    exact ih.row b

theorem Accounts.start (s : State) : Accounts s.UDIG.toFinset [] (.start s) where
  decided := scan_decides (Finset.disjoint_empty_right _) ([] : List Brr)
  taken u := by simp [Scan.start]
  size u _ := rfl
  ok_count v := rfl
  no_count v := rfl

end rows

/-! ### The logs of a walk -/

section logs
variable {w : World} {stop n : ℕ} {start : Text} {s : State} {t : Scan} {p : List Text}

/-- The rows of logs that are scanned in this order, the first row first. -/
def history (w : World) (p : List Text) : List Brr := p.reverse.flatMap (log_rows w)

theorem history_cons (L : Text) : history w (L :: p) = history w p ++ log_rows w L := by
  rw [history, List.reverse_cons, List.flatMap_append, List.flatMap_singleton]
  rfl

theorem scan_back_eq_ok (L : Text) {ls : List Text} {bs : List Brr} (hrows : ls.map brr_re = bs.map some) (rc : ℕ) :
    scan_back L rc ls t = .ok (bs.foldl Scan.row t) := by
  induction ls generalizing bs rc t with
  | nil =>
    obtain rfl := List.map_eq_nil_iff.mp hrows.symm
    rfl
  | cons line ls ih =>
    cases bs with
    | nil => cases hrows
    | cons b bs =>
      rw [List.map_cons, List.map_cons, List.cons.injEq] at hrows
      rw [scan_back, hrows.1]
      exact ih hrows.2 _

theorem scan_brr_logs_spec {U : Finset Text} {h : List Brr} (hlogs : ∀ L ∈ p, w.service L = .ok none ∨ IsLog w L)
    (ht : Accounts U h t) : ∃ t', scan_brr_logs w p t = .ok t' ∧ Accounts U (history w p ++ h) t' := by
  induction p generalizing h t with
  | nil => exact ⟨t, rfl, ht⟩
  | cons L p ih =>
    rw [List.forall_mem_cons] at hlogs
    rcases hlogs.1 with hnone | ⟨blob, hblob, hrows⟩
    · obtain ⟨t', ht', haccounts⟩ := ih hlogs.2 ht
      refine ⟨t', ?_, ?_⟩
      · rw [scan_brr_logs, hnone]
        exact ht'
      · rw [history_cons, log_rows_of_missing hnone, List.append_nil]
        exact haccounts
    · obtain ⟨t', ht', haccounts⟩ := ih hlogs.2 (ht.rows (log_rows w L))
      refine ⟨t', ?_, ?_⟩
      · rw [scan_brr_logs, hblob]
        dsimp only
        have hreversed : (lines blob).reverse.map brr_re = (log_rows w L).reverse.map some := by
          rw [List.map_reverse, hrows, List.map_reverse]
        rw [scan_back_eq_ok L hreversed]
        exact ht'
      · rw [history_cons, List.append_assoc]
        exact haccounts

theorem Walking.scanned (h : Walking w start s) (tsorted : List Text) :
    ∀ L ∈ brr_logs tsorted s, w.service L = .ok none ∨ IsLog w L := by
  intro L hL
  rw [brr_logs, List.mem_reverse, List.mem_filter, decide_eq_true_eq] at hL
  exact (h.logs L hL.2).2.1

/-- No log that the walk has met is a wrap set, nor the udig of a wrap or a roll. -/
structure Apart (w : World) (s : State) : Prop where
  seen : ∀ L ∈ s.BRR_LOG, L ∉ s.WRAP_SET
  marked : ∀ L ∈ s.BRR_LOG, ∀ L' ∈ s.BRR_LOG, ∀ row ∈ log_rows w L', row.Marks → row.udig ≠ L

/-- The order of udigs says nothing of two logs: when `tsort` may print any order at all, it may print one in which
the logs come to be scanned in any order that one likes. -/
theorem logs_in_any_order (h : walk w stop n (.start start) = some (.ok s)) (hapart : Apart w s) {order : List Text}
    (horder : IsOrder s.UDIG_AFTER order) {p : List Text} (hp : p.Perm s.BRR_LOG) :
    ∃ order', IsOrder s.UDIG_AFTER order' ∧ brr_logs order' s = p := by
  have hwalking := (walk_keeps (fun s s' hs => hs.turn) h (Walking.start start)).1
  let log (u : Text) : Bool := u ∈ s.BRR_LOG
  have hsink : ∀ a b, Arc s.UDIG_AFTER a b → log a = false := by
    intro a b hab
    refine decide_eq_false fun ha => ?_
    rcases hwalking.after (a, b) hab.1 with hseen | ⟨L', hL', row, hrow, hmarks, hudig⟩
    · exact hapart.seen a ha hseen
    · exact hapart.marked a ha L' hL' row hrow hmarks hudig.symm
  have hlogs : (order.filter log).Perm s.BRR_LOG := by
    refine (List.perm_ext_iff_of_nodup (horder.nodup.filter _) hwalking.log_nodup).mpr fun L => ?_
    rw [List.mem_filter, decide_eq_true_eq, horder.mem_iff, and_iff_right_of_imp]
    intro hL
    obtain ⟨-, -, W, hpair⟩ := hwalking.logs L hL
    exact ⟨(W, L), hpair, .inr rfl⟩
  have hq : p.reverse.Perm (order.filter log) := p.reverse_perm.trans (hp.trans hlogs.symm)
  refine ⟨_, horder.sinks_last hsink hq, ?_⟩
  have hnone : (order.filter (!log ·)).filter log = [] := by
    refine List.filter_eq_nil_iff.mpr fun u hu => ?_
    simpa using (List.mem_filter.mp hu).2
  have hall : p.reverse.filter log = p.reverse := by
    refine List.filter_eq_self.mpr fun u hu => ?_
    exact decide_eq_true (hp.subset (List.mem_reverse.mp hu))
  change ((order.filter (!log ·) ++ p.reverse).filter log).reverse = p
  rw [List.filter_append, hnone, hall, List.nil_append, List.reverse_reverse]

/-- The log of the put may come to be scanned before that of the take, or behind it. -/
theorem put_world_orders : ∃ s order order', IsOrder s.UDIG_AFTER order ∧ IsOrder s.UDIG_AFTER order' ∧
    brr_logs order s = [udig_of 'b', udig_of 'c'] ∧ brr_logs order' s = [udig_of 'c', udig_of 'b'] := by
  obtain ⟨s, h, hseen, hlogs, -, hafter⟩ := put_world_walk
  have hapart : Apart put_world s := by
    have hrows : ∀ L ∈ [udig_of 'b', udig_of 'c'], ∀ row ∈ log_rows put_world L, ¬ (row.verb = .wrap ∨ row.verb = .roll) := by
      decide +kernel
    refine ⟨?_, fun L _ L' hL' row hrow hmarks => ?_⟩
    · rw [hlogs, hseen]
      decide
    · exact absurd hmarks.2 (hrows L' (hlogs ▸ hL') row hrow)
  have horder : IsOrder s.UDIG_AFTER [udig_of 'a', udig_of 'b', udig_of 'c'] := by
    rw [hafter]
    refine ⟨by decide, fun v => ?_, fun a b hab => ?_⟩
    · simp only [IsNode, List.mem_cons, List.not_mem_nil, or_false, exists_eq_or_imp, exists_eq_left]
      tauto
    · have hpair := hab.1
      simp only [List.mem_cons, List.not_mem_nil, or_false, Prod.mk.injEq] at hpair
      rcases hpair with ⟨rfl, rfl⟩ | ⟨rfl, rfl⟩
      · decide
      · decide
  obtain ⟨order, hbc, hlogs_bc⟩ := logs_in_any_order h hapart horder (p := [udig_of 'b', udig_of 'c']) (hlogs ▸ .refl _)
  obtain ⟨order', hcb, hlogs_cb⟩ := logs_in_any_order h hapart horder (p := [udig_of 'c', udig_of 'b'])
    (hlogs ▸ .swap _ _ _)
  exact ⟨s, order, order', hbc, hcb, hlogs_bc, hlogs_cb⟩

end logs

end Blobio.Walk
