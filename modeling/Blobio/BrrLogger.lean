import Blobio.BlobPaths
import Blobio.EventRuns

/-! The brr logger: the one process that appends the blob request records of every
request to the active log, and freezes that log when a wrap asks for it. -/
namespace Blobio
open DecimalNumerals EventRuns FileTrees

/-- The log spool, each of its logs as the list of its records. -/
abbrev Spool := FileTree Text (List Bytes)

def log_path : Path := [spool, "bio4d.brr".toList]

/-- The format `bio4d-%010u-%05u.brr`. `answer_wrap` passes it the function `time`, not
the time of day: the first numeral is the low half of an address. -/
def log_wrap_name (time : ℕ) (seq : UInt16) : Text :=
  "bio4d-".toList ++ padded 10 (time % 2 ^ 32) ++ '-' :: padded 5 seq.toNat ++ ".brr".toList

/-- A frozen log: under the name it was frozen with, or taken from there by its wrap. -/
inductive FrozenLog
  | spooled (time : ℕ) (seq : UInt16)
  | wrapped (records : List Bytes)
  deriving DecidableEq

def FrozenLog.name? : FrozenLog → Option Text
  | spooled time seq => some (log_wrap_name time seq)
  | wrapped _ => none

def FrozenLog.records (t : Spool) : FrozenLog → List Bytes
  | spooled time seq => (t.file? (frozen_path (log_wrap_name time seq))).getD []
  | wrapped records => records

/-- The log of that name leaves it, with its records. -/
def FrozenLog.take_out (t : Spool) (name : Text) (log : FrozenLog) : FrozenLog :=
  if log.name? = some name then .wrapped (log.records t) else log

structure Logger where
  /-- The address that the function `time` has in this run of the server. -/
  time : ℕ
  seq : UInt16
  tree : Spool
  /-- The logs in the order they were frozen, and the records in the order they came. -/
  frozen : List FrozenLog
  received : List Bytes

inductive LogEvent
  | message (payload : Bytes)
  | wrap (time : ℕ) (seq : UInt16)
  | restart (time : ℕ)
  deriving DecidableEq

/-- The request of a wrap: the path `run/wrap-%010u.fifo` and its null. -/
def wrap_request (pid : ℕ) : Bytes :=
  ("run/wrap-".toList ++ padded 10 pid ++ ".fifo".toList).map Char.toUInt8 ++ [0]

def io_open_append (t : Spool) (p : Path) : Spool :=
  (t.create p []).toOption.getD t

def Logger.active (s : Logger) : List Bytes :=
  (s.tree.file? log_path).getD []

def answer_wrap (s : Logger) : Option Logger :=
  let seq := s.seq + 1
  (s.tree.rename log_path (frozen_path (log_wrap_name s.time seq))).toOption.map fun t =>
    { s with
      seq := seq
      tree := io_open_append t log_path
      frozen := s.frozen ++ [.spooled s.time seq] }

/-- One turn of the loop. A message of exactly 25 bytes is the fifo path of a wrap; the
length of a message is one byte that is not zero. -/
def brr_logger (s : Logger) (payload : Bytes) : Option Logger :=
  if payload = [] ∨ 255 < payload.length then none
  else if payload.length = 25 then answer_wrap s
  else some
    { s with
      tree := s.tree.modify log_path (· ++ [payload])
      received := s.received ++ [payload] }

/-- A wrap renames the log that was frozen for it out of the spool. -/
def Logger.take_out (s : Logger) (time : ℕ) (seq : UInt16) : Option Logger :=
  let name := log_wrap_name time seq
  (s.tree.unlink (frozen_path name)).toOption.map fun t =>
    { s with tree := t, frozen := s.frozen.map (FrozenLog.take_out s.tree name) }

def Logger.step (s : Logger) : LogEvent → Option Logger
  | .message payload => brr_logger s payload
  | .wrap time seq => s.take_out time seq
  | .restart time => some { s with time := time, seq := 0, tree := io_open_append s.tree log_path }

/-- The first start of a server on a new blobio root. -/
def Logger.started (time : ℕ) : Logger where
  time := time
  seq := 0
  tree := io_open_append (FileTree.ofDirs [[spool], wrap_dir]) log_path
  frozen := []
  received := []

/-- The frozen logs and then the active one hold the records as they came, and no file
is two of the frozen logs. -/
structure Logger.Conserved (s : Logger) : Prop where
  order : s.frozen.flatMap (FrozenLog.records s.tree) ++ s.active = s.received
  once : (s.frozen.filterMap FrozenLog.name?).Nodup

/-- The event freezes the active log over a file of that name. -/
def Overwrites (s : Logger) (e : LogEvent) : Prop :=
  ∃ payload, e = .message payload ∧ payload.length = 25 ∧
    (s.tree.lstat (frozen_path (log_wrap_name s.time (s.seq + 1)))).isSome

def LogsKept (s : Logger) (e : LogEvent) : Prop :=
  ¬ Overwrites s e ∧ ∀ s', s.step e = some s' → s'.Conserved

/-- No log still in the spool was frozen at the same number, in a run of the server with
the same low half of the address. -/
def FreshName (s : Logger) (e : LogEvent) : Prop :=
  ∀ payload, e = .message payload → payload.length = 25 →
    ∀ time, .spooled time (s.seq + 1) ∈ s.frozen → time % 2 ^ 32 ≠ s.time % 2 ^ 32

/-! ### The names of the logs -/

theorem log_wrap_name_eq_iff {time time' : ℕ} {seq seq' : UInt16} :
    log_wrap_name time seq = log_wrap_name time' seq' ↔
      time % 2 ^ 32 = time' % 2 ^ 32 ∧ seq = seq' := by
  constructor
  · intro h
    have hlen : ∀ n, (padded 10 (n % 2 ^ 32)).length = 10 := by
      intro n
      have hn : n % 2 ^ 32 < 10 ^ 10 := by omega
      exact length_padded (by decide) hn
    have hbase := List.append_cancel_right h
    have hlen' : ("bio4d-".toList ++ padded 10 (time % 2 ^ 32)).length =
        ("bio4d-".toList ++ padded 10 (time' % 2 ^ 32)).length := by
      rw [List.length_append, List.length_append, hlen, hlen]
    obtain ⟨htime, hseq⟩ := List.append_inj hbase hlen'
    exact ⟨padded_injective (List.append_cancel_left htime),
      UInt16.toNat_inj.mp (padded_injective (List.cons.inj hseq).2)⟩
  · rintro ⟨htime, rfl⟩
    unfold log_wrap_name
    rw [htime]

theorem log_wrap_path_eq_iff {time time' : ℕ} {seq seq' : UInt16} :
    frozen_path (log_wrap_name time seq) = frozen_path (log_wrap_name time' seq') ↔
      time % 2 ^ 32 = time' % 2 ^ 32 ∧ seq = seq' := by
  rw [← log_wrap_name_eq_iff]
  simp [frozen_path]

theorem log_wrap_path_ne (time : ℕ) (seq : UInt16) :
    frozen_path (log_wrap_name time seq) ≠ log_path := by
  intro h
  have hname : log_wrap_name time seq = "bio4d.brr".toList := by simpa [frozen_path, log_path] using h
  have hdash := congrArg (·[5]?) hname
  cases hdash

theorem log_wrap_path_ne_wrap_dir (time : ℕ) (seq : UInt16) :
    frozen_path (log_wrap_name time seq) ≠ wrap_dir := by
  intro h
  have hname : log_wrap_name time seq = "wrap".toList := by simpa [frozen_path, wrap_dir] using h
  have hhead := congrArg List.head? hname
  cases hhead

/-! ### One turn of the logger -/

theorem io_open_append_present {t : Spool} {p : Path} {n : Node (List Bytes)}
    (h : t.lstat p = some n) : io_open_append t p = t := by
  unfold io_open_append
  cases hc : t.create p [] with
  | error e => rfl
  | ok t' => cases h.symm.trans (FileTree.create_ok hc).2.1

theorem io_open_append_new {t : Spool} {p : Path} (hp : t.HasParent p) (h : t.lstat p = none)
    (q : Path) : (io_open_append t p).lstat q = if q = p then some (.file []) else t.lstat q := by
  obtain ⟨t', ht'⟩ : ∃ t', t.create p [] = .ok t' := by
    unfold FileTree.create
    rw [dif_pos hp]
    split
    · rename_i hsome
      cases h.symm.trans hsome
    · exact ⟨_, rfl⟩
  rw [io_open_append, ht']
  exact (FileTree.create_ok ht').2.2 q

/-- What the logger's spool looks like between two messages. -/
structure Logger.Intact (s : Logger) : Prop where
  conserved : s.Conserved
  active : ∃ records, s.tree.file? log_path = some records
  present : ∀ time seq, .spooled time seq ∈ s.frozen →
    ∃ records, s.tree.file? (frozen_path (log_wrap_name time seq)) = some records
  named : ∀ time seq n, s.tree.lstat (frozen_path (log_wrap_name time seq)) = some n →
    ∃ time', .spooled time' seq ∈ s.frozen ∧ time' % 2 ^ 32 = time % 2 ^ 32

section turns
variable {s s' : Logger}

/-- The answer to a wrap: the active log has the frozen name, and an empty one its place. -/
theorem answer_wrap_ok (hs : answer_wrap s = some s') :
    ∃ t, s' = { s with
      seq := s.seq + 1
      tree := t
      frozen := s.frozen ++ [.spooled s.time (s.seq + 1)] } ∧
      ∀ q, t.lstat q = if q = log_path then some (.file [])
        else if q = frozen_path (log_wrap_name s.time (s.seq + 1)) then some (.file s.active)
        else s.tree.lstat q := by
  obtain ⟨t, ht, rfl⟩ := Option.map_eq_some_iff.mp hs
  have hren : s.tree.rename log_path (frozen_path (log_wrap_name s.time (s.seq + 1))) = .ok t := by
    cases hr : s.tree.rename log_path (frozen_path (log_wrap_name s.time (s.seq + 1))) with
    | error e => simp [hr, Except.toOption] at ht
    | ok t' =>
      rw [hr] at ht
      exact congrArg Except.ok (Option.some.inj ht)
  obtain ⟨-, records, hrecords, hst⟩ :=
    FileTree.rename_ok (log_wrap_path_ne s.time (s.seq + 1)).symm hren
  have hactive : s.active = records := by
    rw [Logger.active, FileTree.file?_eq_some.mpr hrecords]
    rfl
  have hpar : t.HasParent log_path := by
    have hold := (FileTree.hasParent_of_lstat (by simp [log_path]) hrecords).2
    refine ⟨by simp [log_path], ?_⟩
    rw [hst, if_neg (by simp [log_path, frozen_path]), if_neg (by simp [log_path])]
    exact hold
  have hgone : t.lstat log_path = none := by
    rw [hst, if_neg (log_wrap_path_ne s.time (s.seq + 1)).symm, if_pos rfl]
  refine ⟨_, rfl, fun q => ?_⟩
  rw [io_open_append_new hpar hgone, hst, hactive]
  by_cases hq : q = log_path
  · rw [if_pos hq, if_pos hq]
  · rw [if_neg hq, if_neg hq, if_neg hq]

/-- A frozen log's records depend on its own file only. -/
theorem records_congr {t t' : Spool} {log : FrozenLog}
    (h : ∀ time seq, log = .spooled time seq →
      t'.file? (frozen_path (log_wrap_name time seq)) = t.file? (frozen_path (log_wrap_name time seq))) :
    log.records t' = log.records t := by
  cases log with
  | spooled time seq => simp only [FrozenLog.records, h time seq rfl]
  | wrapped records => rfl

theorem flatMap_records_congr {t t' : Spool} {logs : List FrozenLog}
    (h : ∀ time seq, .spooled time seq ∈ logs →
      t'.file? (frozen_path (log_wrap_name time seq)) = t.file? (frozen_path (log_wrap_name time seq))) :
    logs.flatMap (FrozenLog.records t') = logs.flatMap (FrozenLog.records t) := by
  refine List.flatMap_congr fun log hlog => records_congr fun time seq heq => ?_
  exact h time seq (heq ▸ hlog)

theorem intact_answer_wrap (h : s.Intact)
    (hfresh : ∀ time, .spooled time (s.seq + 1) ∈ s.frozen → time % 2 ^ 32 ≠ s.time % 2 ^ 32)
    (hs : answer_wrap s = some s') : s'.Intact := by
  obtain ⟨t, rfl, hst⟩ := answer_wrap_ok hs
  have hlog : t.file? log_path = some [] := by
    rw [FileTree.file?_eq_some, hst, if_pos rfl]
  have hnew : t.file? (frozen_path (log_wrap_name s.time (s.seq + 1))) = some s.active := by
    rw [FileTree.file?_eq_some, hst, if_neg (log_wrap_path_ne _ _), if_pos rfl]
  have hold : ∀ time seq, .spooled time seq ∈ s.frozen →
      t.file? (frozen_path (log_wrap_name time seq)) =
        s.tree.file? (frozen_path (log_wrap_name time seq)) := by
    intro time seq hmem
    refine FileTree.file?_congr ?_
    rw [hst, if_neg (log_wrap_path_ne _ _), if_neg]
    intro heq
    obtain ⟨htime, rfl⟩ := log_wrap_path_eq_iff.mp heq
    exact hfresh time hmem htime
  refine ⟨⟨?_, ?_⟩, ⟨[], hlog⟩, ?_, ?_⟩
  · simp only [List.flatMap_append, flatMap_records_congr hold, List.flatMap_cons,
      List.flatMap_nil, List.append_nil, FrozenLog.records, hnew, Option.getD_some, Logger.active,
      hlog]
    exact h.conserved.order
  · rw [List.filterMap_append]
    refine List.nodup_append.mpr ⟨h.conserved.once, by simp [FrozenLog.name?], ?_⟩
    intro name hname name' hname' heq
    obtain ⟨log, hmem, hlog⟩ := List.mem_filterMap.mp hname
    simp only [FrozenLog.name?, List.filterMap_cons, List.filterMap_nil, List.mem_singleton] at hname'
    cases log with
    | spooled time seq =>
      simp only [FrozenLog.name?, Option.some.injEq] at hlog
      obtain ⟨htime, rfl⟩ := log_wrap_name_eq_iff.mp (hlog.trans (heq.trans hname'))
      exact hfresh time hmem htime
    | wrapped records => cases hlog
  · intro time seq hmem
    rcases List.mem_append.mp hmem with hmem | hmem
    · obtain ⟨records, hrecords⟩ := h.present time seq hmem
      exact ⟨records, (hold time seq hmem).trans hrecords⟩
    · cases List.mem_singleton.mp hmem
      exact ⟨_, hnew⟩
  · intro time seq n hn
    rw [hst, if_neg (log_wrap_path_ne _ _)] at hn
    split at hn
    · rename_i heq
      obtain ⟨htime, rfl⟩ := log_wrap_path_eq_iff.mp heq
      exact ⟨s.time, by simp, htime.symm⟩
    · obtain ⟨time', hmem, htime⟩ := h.named time seq n hn
      exact ⟨time', List.mem_append_left _ hmem, htime⟩

theorem intact_record (h : s.Intact) (payload : Bytes) :
    Logger.Intact { s with
      tree := s.tree.modify log_path (· ++ [payload])
      received := s.received ++ [payload] } := by
  obtain ⟨records, hrecords⟩ := h.active
  have hst := FileTree.lstat_modify (FileTree.file?_eq_some.mp hrecords) (· ++ [payload])
  have hlog : (s.tree.modify log_path (· ++ [payload])).file? log_path = some (records ++ [payload]) := by
    rw [FileTree.file?_eq_some, hst, if_pos rfl]
  have hold : ∀ time seq, (s.tree.modify log_path (· ++ [payload])).lstat
      (frozen_path (log_wrap_name time seq)) =
        s.tree.lstat (frozen_path (log_wrap_name time seq)) := by
    intro time seq
    rw [hst, if_neg (log_wrap_path_ne time seq)]
  have horder := h.conserved.order
  refine ⟨⟨?_, h.conserved.once⟩, ⟨_, hlog⟩, ?_, ?_⟩
  · simp only [Logger.active, hrecords, hlog, Option.getD_some] at horder ⊢
    rw [flatMap_records_congr fun time seq _ => FileTree.file?_congr (hold time seq),
      ← List.append_assoc, horder]
  · intro time seq hmem
    obtain ⟨r, hr⟩ := h.present time seq hmem
    exact ⟨r, (FileTree.file?_congr (hold time seq)).trans hr⟩
  · intro time seq n hn
    exact h.named time seq n ((hold time seq).symm.trans hn)

theorem take_out_names (t : Spool) (name : Text) (logs : List FrozenLog) :
    ((logs.map (FrozenLog.take_out t name)).filterMap FrozenLog.name?).Sublist
      (logs.filterMap FrozenLog.name?) := by
  induction logs with
  | nil => exact List.Sublist.slnil
  | cons log logs ih =>
    rw [List.map_cons, FrozenLog.take_out]
    split
    · rename_i hname
      rw [List.filterMap_cons_none rfl, List.filterMap_cons_some hname]
      exact ih.cons _
    · cases hname : log.name? with
      | none =>
        rw [List.filterMap_cons_none hname, List.filterMap_cons_none hname]
        exact ih
      | some other =>
        rw [List.filterMap_cons_some hname, List.filterMap_cons_some hname]
        exact ih.cons_cons _

theorem mem_take_out {t : Spool} {name : Text} {logs : List FrozenLog} {time : ℕ} {seq : UInt16} :
    FrozenLog.spooled time seq ∈ logs.map (FrozenLog.take_out t name) ↔
      FrozenLog.spooled time seq ∈ logs ∧ log_wrap_name time seq ≠ name := by
  constructor
  · intro h
    obtain ⟨log, hlog, heq⟩ := List.mem_map.mp h
    rw [FrozenLog.take_out] at heq
    split at heq
    · cases heq
    · rename_i hname
      subst heq
      exact ⟨hlog, fun h => hname (congrArg some h)⟩
  · rintro ⟨hlog, hne⟩
    exact List.mem_map.mpr ⟨_, hlog, if_neg fun h => hne (Option.some.inj h)⟩

theorem intact_take_out (h : s.Intact) {time : ℕ} {seq : UInt16}
    (hs : s.take_out time seq = some s') : s'.Intact := by
  obtain ⟨t, ht, rfl⟩ := Option.map_eq_some_iff.mp hs
  have hun : s.tree.unlink (frozen_path (log_wrap_name time seq)) = .ok t := by
    cases hr : s.tree.unlink (frozen_path (log_wrap_name time seq)) with
    | error e => simp [hr, Except.toOption] at ht
    | ok t' =>
      rw [hr] at ht
      exact congrArg Except.ok (Option.some.inj ht)
  have hst := (FileTree.unlink_ok hun).2
  have hlog : t.file? log_path = s.tree.file? log_path :=
    FileTree.file?_congr (by rw [hst, if_neg (log_wrap_path_ne time seq).symm])
  have hold : ∀ time' seq', log_wrap_name time' seq' ≠ log_wrap_name time seq →
      t.lstat (frozen_path (log_wrap_name time' seq')) =
        s.tree.lstat (frozen_path (log_wrap_name time' seq')) := by
    intro time' seq' hne
    rw [hst, if_neg]
    intro hpath
    exact hne (log_wrap_name_eq_iff.mpr (log_wrap_path_eq_iff.mp hpath))
  have hsame : ∀ log ∈ s.frozen,
      (log.take_out s.tree (log_wrap_name time seq)).records t = log.records s.tree := by
    intro log hmem
    rw [FrozenLog.take_out]
    split
    · rfl
    · rename_i hname
      refine records_congr fun time' seq' heq => FileTree.file?_congr (hold time' seq' ?_)
      subst heq
      exact fun h => hname (congrArg some h)
  refine ⟨⟨?_, h.conserved.once.sublist (take_out_names ..)⟩, ?_, ?_, ?_⟩
  · rw [List.flatMap_map, Logger.active, hlog, List.flatMap_congr hsame]
    exact h.conserved.order
  · obtain ⟨records, hrecords⟩ := h.active
    exact ⟨records, hlog.trans hrecords⟩
  · intro time' seq' hmem
    obtain ⟨hmem, hne⟩ := mem_take_out.mp hmem
    obtain ⟨records, hrecords⟩ := h.present time' seq' hmem
    exact ⟨records, (FileTree.file?_congr (hold time' seq' hne)).trans hrecords⟩
  · intro time' seq' n hn
    have hne : log_wrap_name time' seq' ≠ log_wrap_name time seq := by
      intro hname
      rw [hst, hname, if_pos rfl] at hn
      cases hn
    obtain ⟨time'', hmem, htime⟩ := h.named time' seq' n (by rw [← hold time' seq' hne, hn])
    refine ⟨time'', mem_take_out.mpr ⟨hmem, fun hname => hne ?_⟩, htime⟩
    rw [← hname, log_wrap_name_eq_iff.mpr ⟨htime, rfl⟩]

theorem intact_step (h : s.Intact) {e : LogEvent} (hfresh : FreshName s e) (hs : s.step e = some s') :
    s'.Intact := by
  cases e with
  | message payload =>
    simp only [Logger.step, brr_logger] at hs
    split at hs
    · cases hs
    · split at hs
      · rename_i hlen
        exact intact_answer_wrap h (hfresh payload rfl hlen) hs
      · cases hs
        exact intact_record h payload
  | wrap time seq => exact intact_take_out h hs
  | restart time =>
    cases hs
    obtain ⟨records, hrecords⟩ := h.active
    rw [io_open_append_present (FileTree.file?_eq_some.mp hrecords)]
    exact ⟨⟨h.conserved.order, h.conserved.once⟩, ⟨records, hrecords⟩, h.present, h.named⟩

/-- The logger panics at no message: the rename of the active log always goes through. -/
theorem brr_logger_isSome (h : s.Intact) {payload : Bytes} (hne : payload ≠ [])
    (hlen : payload.length ≤ 255) : (brr_logger s payload).isSome := by
  unfold brr_logger
  rw [if_neg (by simp [hne, hlen])]
  split
  · obtain ⟨records, hrecords⟩ := h.active
    have hactive := FileTree.file?_eq_some.mp hrecords
    have hpar : s.tree.HasParent (frozen_path (log_wrap_name s.time (s.seq + 1))) :=
      ⟨by simp [frozen_path], (FileTree.hasParent_of_lstat (by simp [log_path]) hactive).2⟩
    have hfile : ∀ n, s.tree.lstat (frozen_path (log_wrap_name s.time (s.seq + 1))) = some n →
        n.isDir = false := by
      intro n hn
      obtain ⟨time, hmem, htime⟩ := h.named _ _ n hn
      obtain ⟨r, hr⟩ := h.present _ _ hmem
      rw [log_wrap_path_eq_iff.mpr ⟨htime, rfl⟩, FileTree.file?_eq_some, hn] at hr
      rw [Option.some.inj hr]
      rfl
    obtain ⟨t, ht⟩ := FileTree.rename_of_file hactive hpar hfile
    simp [answer_wrap, ht, Except.toOption]
  · rfl

theorem freshName_of_not_overwrites (h : s.Intact) {e : LogEvent} (hno : ¬ Overwrites s e) :
    FreshName s e := by
  intro payload he hlen time hmem htime
  obtain ⟨records, hrecords⟩ := h.present time (s.seq + 1) hmem
  rw [log_wrap_path_eq_iff.mpr ⟨htime, rfl⟩] at hrecords
  exact hno ⟨payload, he, hlen, by simp [FileTree.file?_eq_some.mp hrecords]⟩

theorem logsKept_of_freshName (h : s.Intact) {e : LogEvent} (hfresh : FreshName s e) :
    LogsKept s e := by
  refine ⟨?_, fun s' hs => (intact_step h hfresh hs).conserved⟩
  rintro ⟨payload, he, hlen, hsome⟩
  obtain ⟨n, hn⟩ := Option.isSome_iff_exists.mp hsome
  obtain ⟨time, hmem, htime⟩ := h.named _ _ n hn
  exact hfresh payload he hlen time hmem htime

end turns

theorem started_tree (time : ℕ) (q : Path) :
    (Logger.started time).tree.lstat q =
      if q = log_path then some (.file []) else
        (FileTree.ofDirs [[spool], wrap_dir] : Spool).lstat q := by
  have hpar : (FileTree.ofDirs [[spool], wrap_dir] : Spool).HasParent log_path := by
    decide +kernel
  have hnone : (FileTree.ofDirs [[spool], wrap_dir] : Spool).lstat log_path = none := by
    decide +kernel
  exact io_open_append_new hpar hnone q

theorem intact_started (time : ℕ) : (Logger.started time).Intact := by
  have hlog : (Logger.started time).tree.file? log_path = some [] := by
    rw [FileTree.file?_eq_some, started_tree, if_pos rfl]
  refine ⟨⟨?_, List.nodup_nil⟩, ⟨[], hlog⟩, fun _ _ hmem => ?_, fun t q n hn => ?_⟩
  · rw [Logger.active, hlog]
    rfl
  · cases hmem
  · rw [started_tree, if_neg (log_wrap_path_ne t q)] at hn
    rcases (FileTree.lstat_ofDirs hn).2 with hnil | hmem
    · cases hnil
    · simp only [List.mem_cons, List.not_mem_nil, or_false] at hmem
      rcases hmem with hroot | hwrap
      · simpa using congrArg List.length hroot
      · exact absurd hwrap (log_wrap_path_ne_wrap_dir t q)

/-- Over a run from the server's first start no record is lost and no frozen log is
overwritten just when each freeze finds a fresh name. -/
theorem logs_kept_iff (time : ℕ) (es : List LogEvent) :
    Along Logger.step LogsKept (.started time) es ↔ Along Logger.step FreshName (.started time) es := by
  constructor
  · intro h
    refine Along.imp (I := Logger.Intact) ?_ ?_ (intact_started time) h
    · intro s e s' hs hkept hstep
      exact intact_step hs (freshName_of_not_overwrites hs hkept.1) hstep
    · intro s e hs hkept
      exact freshName_of_not_overwrites hs hkept.1
  · intro h
    refine Along.imp (I := Logger.Intact) ?_ ?_ (intact_started time) h
    · intro s e s' hs hfresh hstep
      exact intact_step hs hfresh hstep
    · intro s e hs hfresh
      exact logsKept_of_freshName hs hfresh

/-- A record, a freeze, and the same again after a restart that brings `time` to the
same address while the first frozen log is still in the spool. -/
def frozen_again : List LogEvent :=
  let record (sec : String) : Bytes := ("2024-01-02T03:04:" ++ sec ++
    ".000000001+00:00\ttcp4~127.0.0.1:50000;127.0.0.1:1797\teat\t" ++
    "sha:da39a3ee5e6b4b0d3255bfef95601890afd80709\tok\t0\t0.000000001\n").toList.map Char.toUInt8
  [.message (record "05"), .message (wrap_request 7), .restart 4198448, .message (record "59"),
    .message (wrap_request 9)]

/-- The second freeze renames over the first frozen log, whose record is gone. -/
theorem logs_not_always_kept :
    ∃ s ∈ exec Logger.step (.started 4198448) frozen_again, ¬ s.Conserved := by
  have hend : ∃ s ∈ exec Logger.step (.started 4198448) frozen_again,
      s.frozen.flatMap (FrozenLog.records s.tree) ++ s.active ≠ s.received := by
    decide +kernel
  obtain ⟨s, hrun, hlost⟩ := hend
  exact ⟨s, hrun, fun h => hlost h.order⟩

end Blobio
