import Blobio.Bio4Sessions

/-! What a client gets from a server: the blob of the digest that it has asked for, or none. -/
namespace Blobio.Client
open EarlyExits

/-- A session on a connection that has just been opened. -/
def Session.opened (ssl : OpenSSL) (m : DigestModule) (server input : Stream) : Session ssl m where
  server := server
  input := input
  ctx := init ssl m
  ok_no := -1

/-- The request for a udig of the command line. -/
def Request.about (verb : Verb) (u : Udig) (input_path : Bool) : Request :=
  ⟨verb.text, u.algorithm.name, u.digest.chars, input_path⟩

section transfers
variable {ssl : OpenSSL} {m : DigestModule} {w : World} {q : Request} {bin : Bytes}
  {before : List Bytes} {s : Session ssl m}

/-- The contexts have taken these chunks. -/
def Session.Chewed (s : Session ssl m) (before : List Bytes) : Prop :=
  s.ctx = before.foldl (update ssl m) (init ssl m)

/-- The last of the chunks completes a blob of the digest, and none before it does. -/
structure Completes (ssl : OpenSSL) (m : DigestModule) (bin : Bytes) (before taken : List Bytes) : Prop where
  digest : ssl.hash m (before ++ taken).flatten = bin
  first : ∀ n, 0 < n → n < taken.length → ssl.hash m (before ++ taken.take n).flatten ≠ bin

/-- The beginning of the chunks, with none before its last that completes a blob of the digest. -/
structure Unfinished (ssl : OpenSSL) (m : DigestModule) (bin : Bytes) (before chunks : List Bytes) (out : Bytes) :
    Prop where
  beginning : out <+: chunks.flatten
  not_yet : ∀ n, 0 < n → (chunks.take n).flatten.length < out.length →
    ssl.hash m (before ++ chunks.take n).flatten ≠ bin

/-! ### One call -/

theorem write_spec (put : Session ssl m → Bytes → Session ssl m) (buf : Bytes) (s : Session ssl m) :
    wp (write w put buf) (fun _ s' => s' = put s buf) (fun _ s' => ∃ n, s' = put s (buf.take n)) s := by
  rw [wp, write]
  cases w.write s.writes with
  | all => rfl
  | failed sent err => exact ⟨sent, rfl⟩
  | timed_out sent => exact ⟨sent, rfl⟩
  | killed sent => exact ⟨sent, rfl⟩

theorem write_all (h : ∀ n, w.write n = .all) (put : Session ssl m → Bytes → Session ssl m) (buf : Bytes) :
    write w put buf s = .ok ((), put s buf) := by
  rw [write, h]

theorem write_output_spec (buf : Bytes) (s : Session ssl m) : wp (write_output w buf)
    (fun _ s' => s.output_open = true ∧ s' = s.outputs buf)
    (fun _ s' => s'.to_server = s.to_server ∧ ∃ n, s'.output = s.output ++ buf.take n) s := by
  rw [wp, write_output]
  by_cases hopen : s.output_open = true
  · rw [if_pos hopen]
    refine wp_mono (write_spec Session.outputs buf s) (fun _ _ h => ⟨hopen, h⟩) ?_
    rintro why s' ⟨n, rfl⟩
    exact ⟨rfl, n, rfl⟩
  · rw [if_neg hopen]
    exact ⟨rfl, 0, (List.append_nil _).symm⟩

theorem write_output_all (h : ∀ n, w.write n = .all) (hopen : s.output_open = true) (buf : Bytes) :
    write_output w buf s = .ok ((), s.outputs buf) := by
  rw [write_output, if_pos hopen, write_all h]

/-- A chunk with which the digest is seen, or is not. -/
theorem get_update_eq (hs : s.Chewed before) (bin chunk : Bytes) : get_update bin chunk s =
    .ok (decide (ssl.hash m (before ++ [chunk]).flatten = bin), { s with ctx := update ssl m s.ctx chunk }) := by
  have htmp : tmp_digest ssl m (update ssl m s.ctx chunk) = ssl.hash m (before ++ [chunk]).flatten := by
    rw [← tmp_digest_foldl, List.foldl_append, ← show s.ctx = _ from hs]
    rfl
  rw [get_update, chew, htmp]

theorem Session.Chewed.snoc (hs : s.Chewed before) (chunk : Bytes) :
    Session.Chewed { s with ctx := update ssl m s.ctx chunk } (before ++ [chunk]) := by
  unfold Session.Chewed
  rw [List.foldl_append, ← show s.ctx = _ from hs]
  rfl

theorem read_reply_into_cases {err : Option Text} {buf : Text} {nread : ℕ} {chunks : List Text} {reply : ℤ}
    (h : Bio4.read_reply_into err buf nread chunks = .ok reply) : reply = 0 ∨ reply = 1 := by
  induction chunks generalizing buf nread with
  | nil => cases h
  | cons c cs ih =>
    rw [Bio4.read_reply_into] at h
    split at h
    · exact ih h
    · unfold Bio4.ok_or_no at h
      split at h
      · cases h
      · split at h
        · exact .inl (Except.ok.inj h).symm
        · split at h
          · exact .inr (Except.ok.inj h).symm
          · cases h

theorem read_ok_no_spec (s : Session ssl m) : wp (read_ok_no w)
    (fun _ s' => ∃ reply, (reply = 0 ∨ reply = 1) ∧
      s' = { s.hears (skip 3 s.server.chunks) with ok_no := reply })
    (fun _ s' => s' = s.hears (skip 3 s.server.chunks)) s := by
  rw [wp, read_ok_no]
  dsimp only
  split
  · rename_i x h
    split at h
    · rename_i reply hreply
      cases h
      exact ⟨reply, read_reply_into_cases hreply, rfl⟩
    · cases h
  · rename_i x h
    split at h
    · cases h
    · cases h
      rfl

/-- After a request the session has a reply, and the output is as it was. -/
theorem request_spec (s : Session ssl m) : wp (request w q)
    (fun _ s' => ∃ reply writes, (reply = 0 ∨ reply = 1) ∧
      s' = { s.hears (skip 3 s.server.chunks) with
        ok_no := reply, to_server := s.to_server ++ bytes (make_request q), writes := writes })
    (fun _ s' => s'.output = s.output ∧ ∃ sent, s'.to_server = s.to_server ++ sent ∧
      sent <+: bytes (make_request q)) s := by
  refine wp_seq (write_spec Session.sends (bytes (make_request q)) s) ?_ ?_
  · rintro - s₁ rfl
    refine wp_mono (read_ok_no_spec _) ?_ ?_
    · rintro - s' ⟨reply, hreply, rfl⟩
      exact ⟨reply, s.writes + 1, hreply, rfl⟩
    · rintro why s' rfl
      exact ⟨rfl, _, rfl, List.prefix_rfl⟩
  · rintro why s' ⟨n, rfl⟩
    exact ⟨rfl, _, rfl, List.take_prefix n _⟩

/-! ### The blob -/

theorem hears_self (s : Session ssl m) : s.hears s.server.chunks = s := rfl

theorem Unfinished.nil (before chunks : List Bytes) : Unfinished ssl m bin before chunks [] where
  beginning := List.nil_prefix
  not_yet _ _ hlen := absurd hlen (Nat.not_lt_zero _)

theorem Unfinished.first (before : List Bytes) (c : Bytes) (cs : List Bytes) (k : ℕ) :
    Unfinished ssl m bin before (c :: cs) (c.take k) where
  beginning := by
    rw [List.flatten_cons]
    exact (List.take_prefix k c).trans (List.prefix_append c _)
  not_yet n hn hlen := by
    obtain ⟨k', rfl⟩ := Nat.exists_eq_succ_of_ne_zero (Nat.ne_of_gt hn)
    rw [List.take_succ_cons, List.flatten_cons, List.length_append, List.length_take] at hlen
    omega

theorem Unfinished.cons {c : Bytes} {cs : List Bytes} {out : Bytes}
    (hc : ssl.hash m (before ++ [c]).flatten ≠ bin)
    (h : Unfinished ssl m bin (before ++ [c]) cs out) : Unfinished ssl m bin before (c :: cs) (c ++ out) where
  beginning := by
    rw [List.flatten_cons]
    exact (List.prefix_append_right_inj c).mpr h.beginning
  not_yet n hn hlen := by
    obtain ⟨k, rfl⟩ := Nat.exists_eq_succ_of_ne_zero (Nat.ne_of_gt hn)
    rw [List.take_succ_cons, List.flatten_cons, List.length_append, List.length_append,
      Nat.add_lt_add_iff_left] at hlen
    rw [List.take_succ_cons, List.append_cons]
    cases k with
    | zero => simpa using hc
    | succ k => exact h.not_yet _ (Nat.succ_pos k) hlen

theorem Completes.cons {c : Bytes} {taken : List Bytes} (hc : ssl.hash m (before ++ [c]).flatten ≠ bin)
    (h : Completes ssl m bin (before ++ [c]) taken) : Completes ssl m bin before (c :: taken) where
  digest := by
    rw [List.append_cons]
    exact h.digest
  first n hn hlen := by
    obtain ⟨k, rfl⟩ := Nat.exists_eq_succ_of_ne_zero (Nat.ne_of_gt hn)
    rw [List.take_succ_cons, List.append_cons]
    cases k with
    | zero => simpa using hc
    | succ k => exact h.first _ (Nat.succ_pos k) (Nat.lt_of_succ_lt_succ hlen)

/-- The loop ends with a blob of the digest on the output, or stops with the beginning of none. -/
theorem get_chunks_spec {chunks : List Bytes} (hs : s.Chewed before) (hchunks : s.server.chunks = chunks)
    (err : Option Text) : wp (get_chunks w bin err chunks)
      (fun _ s' => ∃ taken rest ctx writes, chunks = taken ++ rest ∧ Completes ssl m bin before taken ∧
        (taken ≠ [] → s.output_open = true) ∧ s' = { s.hears rest with ctx := ctx, writes := writes, output := s.output ++ taken.flatten })
      (fun _ s' => s'.to_server = s.to_server ∧ ∃ out, s'.output = s.output ++ out ∧
        Unfinished ssl m bin before chunks out) s := by
  induction chunks generalizing s before with
  | nil =>
    rw [get_chunks, wp_bind]
    cases err with
    | some err => exact ⟨rfl, [], (List.append_nil _).symm, .nil _ _⟩
    | none =>
      rw [at_end, wp_pure, wp_bind, wp_of_ok (get_update_eq hs bin [])]
      have hsame : (before ++ [[]]).flatten = before.flatten := by simp
      rw [hsame]
      by_cases hbin : ssl.hash m before.flatten = bin
      · rw [decide_eq_true hbin, if_pos rfl, wp_pure]
        refine ⟨[], [], update ssl m s.ctx [], s.writes, rfl, ⟨by rwa [List.append_nil], ?_⟩, ?_, ?_⟩
        · exact fun n _ hlen => absurd hlen (Nat.not_lt_zero n)
        · exact fun h => absurd rfl h
        · rw [List.flatten_nil, List.append_nil, ← hchunks, hears_self]
      · rw [decide_eq_false hbin]
        exact ⟨rfl, [], (List.append_nil _).symm, .nil _ _⟩
  | cons c cs ih =>
    have hs₁ : (s.hears cs).Chewed before := hs
    rw [get_chunks, wp_bind, wp_modify, wp_bind, wp_of_ok (get_update_eq hs₁ bin c)]
    refine wp_seq (write_output_spec c _) ?_ ?_
    · rintro - s₂ ⟨hopen, rfl⟩
      by_cases hbin : ssl.hash m (before ++ [c]).flatten = bin
      · rw [decide_eq_true hbin, if_pos rfl, wp_pure]
        refine ⟨[c], cs, update ssl m s.ctx c, s.writes + 1, rfl, ⟨hbin, fun n hn hlen => ?_⟩, fun _ => hopen, ?_⟩
        · rw [List.length_singleton] at hlen
          omega
        · rw [List.flatten_singleton]
          rfl
      · rw [decide_eq_false hbin]
        have hs₃ : Session.Chewed ((Session.outputs { s.hears cs with
            ctx := update ssl m (s.hears cs).ctx c } c)) (before ++ [c]) := hs₁.snoc c
        refine wp_mono (ih hs₃ rfl) ?_ ?_
        · rintro - s' ⟨taken, rest, ctx, writes, rfl, hdone, -, rfl⟩
          refine ⟨c :: taken, rest, ctx, writes, rfl, hdone.cons hbin, fun _ => hopen, ?_⟩
          rw [List.flatten_cons, ← List.append_assoc]
          rfl
        · rintro why s' ⟨hsent, out, hout, hshort⟩
          exact ⟨hsent, c ++ out, by rw [hout, ← List.append_assoc]; rfl, hshort.cons hbin⟩
    · rintro why s' ⟨hsent, k, hout⟩
      exact ⟨hsent, _, hout, .first before c cs k⟩

/-- Where no write fails, the loop ends behind the chunk that completes the blob. -/
theorem get_chunks_complete (hw : ∀ n, w.write n = .all) {taken rest : List Bytes} {err : Option Text}
    (hs : s.Chewed before) (hchunks : s.server.chunks = taken ++ rest) (hopen : s.output_open = true)
    (hdone : Completes ssl m bin before taken)
    (hne : taken = [] → rest = [] ∧ err = none) : wp (get_chunks w bin err (taken ++ rest))
      (fun _ s' => s'.ok_no = s.ok_no ∧ s'.output = s.output ++ taken.flatten) (fun _ _ => False) s := by
  induction taken generalizing s before with
  | nil =>
    obtain ⟨rfl, rfl⟩ := hne rfl
    have hseen : ssl.hash m (before ++ [[]]).flatten = bin := by
      simpa using hdone.digest
    rw [List.append_nil, get_chunks, wp_bind, at_end, wp_pure, wp_bind, wp_of_ok (get_update_eq hs bin []),
      decide_eq_true hseen, if_pos rfl, wp_pure]
    exact ⟨rfl, (List.append_nil _).symm⟩
  | cons c taken ih =>
    have hs₁ : (s.hears (taken ++ rest)).Chewed before := hs
    rw [List.cons_append, get_chunks, wp_bind, wp_modify, wp_bind, wp_of_ok (get_update_eq hs₁ bin c), wp_bind,
      wp_of_ok (@write_output_all ssl m w { s.hears (taken ++ rest) with
        ctx := update ssl m (s.hears (taken ++ rest)).ctx c } hw hopen c)]
    by_cases hbin : ssl.hash m (before ++ [c]).flatten = bin
    · rw [decide_eq_true hbin, if_pos rfl, wp_pure]
      have hlast : taken = [] := by
        by_contra hmore
        have hlen := List.length_pos_iff.mpr hmore
        refine hdone.first 1 Nat.one_pos ?_ ?_
        · rw [List.length_cons]
          omega
        · rwa [List.take_succ_cons, List.take_zero]
      subst hlast
      exact ⟨rfl, by rw [List.flatten_singleton]; rfl⟩
    · rw [decide_eq_false hbin]
      have hdone' : Completes ssl m bin (before ++ [c]) taken :=
        { digest := by
            rw [← List.append_cons]
            exact hdone.digest
          first := fun n hn hlen => by
            have h := hdone.first (n + 1) (Nat.succ_pos n) (Nat.succ_lt_succ hlen)
            rwa [List.take_succ_cons, List.append_cons] at h }
      have hne' : taken = [] → rest = [] ∧ err = none := by
        rintro rfl
        refine absurd hdone.digest ?_
        exact hbin
      refine wp_mono (ih (s := Session.outputs { s.hears (taken ++ rest) with
        ctx := update ssl m (s.hears (taken ++ rest)).ctx c } c) (hs₁.snoc c) rfl hopen hdone' hne') ?_ fun _ _ h => h
      rintro - s' ⟨hok, hout⟩
      refine ⟨hok, ?_⟩
      rw [hout, List.flatten_cons, ← List.append_assoc]
      rfl

/-! ### Gets and takes -/

/-- The reads behind the reply, which bring the blob. -/
def Stream.behind_reply (server : Stream) : List Bytes := skip 3 server.chunks

/-- A get ends with the beginning of what was sent that has the digest, of all that the reads have
made the shortest, or with none. -/
def Session.Got (s : Session ssl m) (d : Digest) (server : Stream) : Prop :=
  (s.ok_no = 1 ∧ s.output = []) ∨ (s.ok_no = 0 ∧ digest_of ssl m s.output = d ∧
    ∃ taken rest, server.behind_reply = taken ++ rest ∧ s.output = taken.flatten ∧
      ∀ n, 0 < n → n < taken.length → digest_of ssl m (taken.take n).flatten ≠ d)

/-- A get that stops has put out the beginning of what was sent, none of it behind a blob of the
digest. -/
def Session.Cut (s : Session ssl m) (d : Digest) (server : Stream) : Prop :=
  s.output <+: server.behind_reply.flatten ∧ ∀ n, 0 < n →
    (server.behind_reply.take n).flatten.length < s.output.length →
      digest_of ssl m (server.behind_reply.take n).flatten ≠ d

theorem digest_of_eq_iff {d : Digest} {blob : Bytes} : digest_of ssl m blob = d ↔ ssl.hash m blob = d.raw := by
  constructor
  · rintro rfl
    exact (digest_of_raw m blob).symm
  · intro h
    apply Digest.ext
    rw [← Digest.hex_raw d, ← h]
    rfl

theorem Unfinished.cut {d : Digest} {server : Stream} (h : Unfinished ssl m d.raw [] server.behind_reply s.output) :
    s.Cut d server where
  left := h.beginning
  right n hn hlen heq := h.not_yet n hn hlen (digest_of_eq_iff.mp heq)

theorem Completes.got {d : Digest} {server : Stream} {taken rest : List Bytes}
    (hcut : server.behind_reply = taken ++ rest) (h : Completes ssl m d.raw [] taken)
    (hok : s.ok_no = 0) (hout : s.output = taken.flatten) : s.Got d server := by
  refine .inr ⟨hok, ?_, taken, rest, hcut, hout, fun n hn hlen heq => h.first n hn hlen (digest_of_eq_iff.mp heq)⟩
  rw [hout]
  exact digest_of_eq_iff.mpr h.digest

section udig
variable {u : Udig} {server input : Stream} {verb : Verb} {path : Bool}

/-- What a get leaves, of a take's get unless the digest is the empty one. Where the output is not open
there is nothing to be put out. -/
theorem get_spec {in_take : Bool} (output_open : Bool) (hempty : ¬ (in_take ∧ is_empty u.algorithm u.digest.chars)) :
    wp (_bio4_get w (.about verb u path) in_take)
      (fun _ s' => s'.Got u.digest server ∧ s'.to_server = bytes (make_request (.about verb u path)) ∧
        (output_open = false → s'.output = []))
      (fun _ s' => s'.Cut u.digest server ∧ s'.to_server <+: bytes (make_request (.about verb u path)))
      { Session.opened ssl u.algorithm server input with output_open := output_open } := by
  refine wp_seq (request_spec _) ?_ ?_
  · rintro - s₁ ⟨reply, writes, hreply, rfl⟩
    rw [wp_bind, wp_get]
    rcases hreply with rfl | rfl
    · rw [if_neg fun h => h.elim Int.zero_ne_one hempty,
        show bin_digest (Request.about verb u path).ascii_digest = u.digest.raw from bin_digest_eq u.digest]
      refine wp_seq (@get_chunks_spec ssl u.algorithm w _ [] _ _ ?_ ?_ _) ?_ ?_
      · rfl
      · rfl
      · rintro - s₂ ⟨taken, rest, ctx, writes', hcut, hdone, hopen, rfl⟩
        refine ⟨hdone.got hcut rfl rfl, rfl, fun hclosed => ?_⟩
        have hnil : taken = [] := by
          by_contra hne
          have hopen : output_open = true := hopen hne
          rw [hclosed] at hopen
          cases hopen
        rw [hnil]
        rfl
      · rintro why s' ⟨hsent, out, hout, hshort⟩
        refine ⟨Unfinished.cut (by rw [hout]; exact hshort), ?_⟩
        rw [hsent]
        exact List.prefix_rfl
    · rw [if_pos (.inl rfl)]
      exact ⟨.inl ⟨rfl, rfl⟩, rfl, fun _ => rfl⟩
  · rintro why s' ⟨hout, sent, hsent, hle⟩
    refine ⟨Unfinished.cut ?_, ?_⟩
    · rw [hout]
      exact .nil _ _
    · rw [hsent]
      exact hle

/-- Whatever the server sends and in whatever pieces, the blob that a get ends with is the one that it
was asked for. -/
theorem got_blob_verified (w : World) (u : Udig) (server input : Stream) :
    wp (bio4_get w (.about .get u false)) (fun _ s' => s'.Got u.digest server) (fun _ s' => s'.Cut u.digest server)
      (.opened ssl u.algorithm server input) :=
  wp_mono (get_spec true (by simp)) (fun _ _ h => h.1) fun _ _ h => h.1

/-- What has been put out has the digest, or nothing had to be, as the digest is the empty one. -/
def Session.Vouched (s : Session ssl m) (d : Digest) : Prop :=
  digest_of ssl m s.output = d ∨ (d = m.empty ∧ s.output = [])

theorem is_empty_iff {d : Digest} : is_empty m d.chars ↔ d = m.empty := by
  rw [is_empty, decide_eq_true_eq]
  constructor
  · intro h
    exact Digest.ext h.symm
  · rintro rfl
    rfl

/-- What a take leaves. -/
theorem take_spec (output_open : Bool) :
    wp (bio4_take w (.about .take u path))
      (fun _ s' => (s'.to_server = bytes (make_request (.about .take u path)) ∧ s'.ok_no = 1 ∧ s'.output = []) ∨
        (s'.to_server = bytes (make_request (.about .take u path)) ++ ok_line ∧ s'.Vouched u.digest ∧
          (output_open = false → s'.output = []) ∧ (s'.ok_no = 0 ∨ s'.ok_no = 1)))
      (fun _ s' => s'.to_server <+: bytes (make_request (.about .take u path)) ∨
        s'.to_server <+: bytes (make_request (.about .take u path)) ++ ok_line ∧ s'.Vouched u.digest)
      { Session.opened ssl u.algorithm server input with output_open := output_open } := by
  have hget : wp (_bio4_get w (.about .take u path) true)
      (fun _ s' => s'.to_server = bytes (make_request (.about .take u path)) ∧
        ((s'.ok_no = 1 ∧ s'.output = []) ∨
          s'.ok_no = 0 ∧ s'.Vouched u.digest ∧ (output_open = false → s'.output = [])))
      (fun _ s' => s'.to_server <+: bytes (make_request (.about .take u path)))
      { Session.opened ssl u.algorithm server input with output_open := output_open } := by
    by_cases hempty : is_empty u.algorithm u.digest.chars
    · refine wp_seq (request_spec _) ?_ fun _ _ ⟨_, sent, hsent, hle⟩ => by rw [hsent]; exact hle
      rintro - s₁ ⟨reply, writes, hreply, rfl⟩
      rw [wp_bind, wp_get, if_pos (.inr ⟨rfl, hempty⟩)]
      rcases hreply with rfl | rfl
      · exact ⟨rfl, .inr ⟨rfl, .inr ⟨is_empty_iff.mp hempty, rfl⟩, fun _ => rfl⟩⟩
      · exact ⟨rfl, .inl ⟨rfl, rfl⟩⟩
    · refine wp_mono (get_spec output_open fun h => hempty h.2) ?_ fun _ _ h => h.2
      rintro - s' ⟨⟨hno, hout⟩ | ⟨hok, hdigest, -⟩, hline, hclosed⟩
      · exact ⟨hline, .inl ⟨hno, hout⟩⟩
      · exact ⟨hline, .inr ⟨hok, .inl hdigest, hclosed⟩⟩
  refine wp_seq hget ?_ fun _ _ h => .inl h
  rintro - s₁ ⟨hline, hend⟩
  rw [wp_bind, wp_get]
  rcases hend with ⟨hno, hout⟩ | ⟨hok, hvouched, hclosed⟩
  · rw [if_pos hno]
    exact .inl ⟨hline, hno, hout⟩
  · rw [if_neg (by rw [hok]; decide)]
    refine wp_seq (write_spec _ _ _) ?_ ?_
    · rintro - s₂ rfl
      refine wp_seq (read_ok_no_spec _) ?_ ?_
      · rintro - s₃ ⟨reply, hreply, rfl⟩
        exact .inr ⟨by rw [← hline]; rfl, hvouched, hclosed, hreply⟩
      · rintro why s' rfl
        exact .inr ⟨by rw [← hline]; exact List.prefix_rfl, hvouched⟩
    · rintro why s' ⟨n, rfl⟩
      refine .inr ⟨?_, hvouched⟩
      rw [← hline]
      exact (List.prefix_append_right_inj _).mpr (List.take_prefix n _)

/-- Nothing goes to the server behind the request line, the ok of a take least of all, before the whole
blob has been put out. -/
theorem take_acknowledged_last (w : World) (u : Udig) (server input : Stream) :
    let line := bytes (make_request (.about .take u false))
    wp (bio4_take w (.about .take u false))
      (fun _ s' => s'.to_server = line ∧ s'.ok_no = 1 ∨ s'.to_server = line ++ ok_line ∧ s'.Vouched u.digest)
      (fun _ s' => s'.to_server <+: line ∨ s'.to_server <+: line ++ ok_line ∧ s'.Vouched u.digest)
      (.opened ssl u.algorithm server input) := by
  refine wp_mono (take_spec true) ?_ fun _ _ h => h
  rintro - s' (⟨hline, hno, -⟩ | ⟨hline, hvouched, -⟩)
  · exact .inl ⟨hline, hno⟩
  · exact .inr ⟨hline, hvouched⟩

end udig

end transfers

/-! ### A process that is killed -/

section killed
variable {ssl : OpenSSL} {m : DigestModule} {w : World} {q : Request} {α β : Type}

/-- What kills the process, if anything does, is a write. -/
def KilledByWrite (w : World) (p : Run ssl m α) : Prop :=
  ∀ s, wp p (fun _ _ => True) (fun why _ => why = .killed → ∃ n, (w.write n).kills) s

theorem KilledByWrite.bind {p : Run ssl m α} {f : α → Run ssl m β} (hp : KilledByWrite w p)
    (hf : ∀ a, KilledByWrite w (f a)) : KilledByWrite w (p >>= f) :=
  fun s => wp_seq (hp s) (fun a s' _ => hf a s') fun _ _ h => h

theorem killed_by_pure (a : α) : KilledByWrite w (pure a : Run ssl m α) := fun _ => trivial

theorem killed_by_stop {why : Halt} (h : why ≠ .killed) : KilledByWrite w (stop why : Run ssl m α) :=
  fun _ hkilled => absurd hkilled h

theorem killed_by_modify (f : Session ssl m → Session ssl m) : KilledByWrite w (modify f : Run ssl m PUnit) :=
  fun _ => trivial

theorem killed_by_get : KilledByWrite w (get : Run ssl m (Session ssl m)) := fun _ => trivial

theorem killed_by_write (put : Session ssl m → Bytes → Session ssl m) (buf : Bytes) :
    KilledByWrite w (write w put buf) := by
  intro s
  rw [wp, write]
  cases hwrite : w.write s.writes with
  | all => trivial
  | failed sent err =>
    intro h
    cases h
  | timed_out sent =>
    intro h
    cases h
  | killed sent => exact fun _ => ⟨s.writes, by rw [hwrite]; rfl⟩

theorem killed_by_write_output (buf : Bytes) : KilledByWrite w (write_output w buf : Run ssl m Unit) := by
  intro s
  rw [wp, write_output]
  split_ifs
  · exact killed_by_write Session.outputs buf s
  · intro h
    cases h

theorem killed_by_update (bin chunk : Bytes) : KilledByWrite w (get_update bin chunk : Run ssl m Bool) :=
  fun _ => trivial

theorem killed_by_read_ok_no : KilledByWrite w (read_ok_no w : Run ssl m Unit) := by
  intro s
  rw [wp, read_ok_no]
  split
  · trivial
  · rename_i x h
    split at h
    · cases h
    · cases h
      intro h
      cases h

theorem killed_by_at_end (err : Option Text) : KilledByWrite w (at_end err : Run ssl m Unit) := by
  cases err with
  | none => exact killed_by_pure ()
  | some err => exact killed_by_stop fun h => nomatch h

theorem killed_by_get_chunks (bin : Bytes) (err : Option Text) (chunks : List Bytes) :
    KilledByWrite w (get_chunks w bin err chunks : Run ssl m Unit) := by
  induction chunks with
  | nil =>
    refine (killed_by_at_end err).bind fun _ => (killed_by_update bin []).bind fun seen => ?_
    split_ifs
    · exact killed_by_pure ()
    · exact killed_by_stop fun h => nomatch h
  | cons c cs ih =>
    refine (killed_by_modify _).bind fun _ => (killed_by_update bin c).bind fun seen =>
      (killed_by_write_output c).bind fun _ => ?_
    split_ifs
    · exact killed_by_pure ()
    · exact ih

theorem killed_by_get_request (in_take : Bool) : KilledByWrite w (_bio4_get w q in_take : Run ssl m Unit) := by
  refine ((killed_by_write _ _).bind fun _ => killed_by_read_ok_no).bind fun _ => killed_by_get.bind fun s => ?_
  split_ifs
  · exact killed_by_pure ()
  · exact (killed_by_get_chunks _ _ _).bind fun _ => killed_by_modify _

theorem killed_by_take : KilledByWrite w (bio4_take w q : Run ssl m Unit) := by
  refine (killed_by_get_request true).bind fun _ => killed_by_get.bind fun s => ?_
  split_ifs
  · exact killed_by_pure ()
  · exact (killed_by_write _ _).bind fun _ => killed_by_read_ok_no.bind fun _ => killed_by_modify _

end killed

end Blobio.Client
