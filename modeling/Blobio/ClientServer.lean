import Blobio.Bio4Transfers
import Blobio.RequestLines

/-! The client's driver against the server: each reads what the other has written, in whatever pieces
that arrives. -/
namespace Blobio.Client
open EarlyExits FileTrees

/-! ### A blob that is served and got -/

section served
variable {ssl : Btc20.OpenSSL} {sw : Btc20.World} {r : Btc20.Request}

theorem req_write_done (hsw : ∀ n, sw.client n = .done) (buf : Bytes) (r : Btc20.Request) :
    Btc20.req_write sw buf r = .ok (0, { r with sent := r.sent ++ buf, writes := r.writes + 1 }) := by
  rw [Btc20.req_write]
  simp only [hsw]

theorem write_ok_done (hsw : ∀ n, sw.client n = .done) (r : Btc20.Request) :
    ∃ r', Btc20.write_ok sw r = .ok (0, r') ∧ r'.sent = r.sent ++ Btc20.ok_line ∧ r'.store = r.store ∧
      r'.blob_fd = r.blob_fd := by
  rw [Btc20.write_ok, Btc20.bind_ok (req_write_done hsw _ r)]
  exact ⟨_, rfl, rfl, rfl, rfl⟩

theorem write_no_done (hsw : ∀ n, sw.client n = .done) (r : Btc20.Request) :
    ∃ r', Btc20.write_no sw r = .ok (0, r') ∧ r'.sent = r.sent ++ Btc20.no_line := by
  rw [Btc20.write_no, Btc20.bind_ok (req_write_done hsw _ r)]
  exact ⟨_, rfl, rfl⟩

theorem serve_chunks_done (hsw : ∀ n, sw.client n = .done) (chunks : List Bytes) (r : Btc20.Request) :
    ∃ r', Btc20.serve_chunks (Btc20.blob_write sw) chunks r = .ok (false, r') ∧
      r'.sent = r.sent ++ chunks.flatten := by
  induction chunks generalizing r with
  | nil => exact ⟨r, rfl, (List.append_nil _).symm⟩
  | cons c cs ih =>
    have hwrite : ∃ r₁, Btc20.blob_write sw c r = .ok (0, r₁) ∧ r₁.sent = r.sent ++ c := by
      rw [Btc20.blob_write, Btc20.bind_ok (req_write_done hsw c r)]
      exact ⟨_, rfl, rfl⟩
    obtain ⟨r₁, hr₁, hsent₁⟩ := hwrite
    obtain ⟨r', hr', hsent'⟩ := ih r₁
    refine ⟨r', ?_, ?_⟩
    · rw [Btc20.serve_chunks, Btc20.bind_ok hr₁, if_neg (by simp)]
      exact hr'
    · rw [hsent', hsent₁, List.flatten_cons, List.append_assoc]

/-- What a get sends when no write fails. -/
theorem get_sent {t : Store} (ht : Btc20.ContentAddressed ssl t) (hsw : ∀ n, sw.client n = .done)
    (trust_fs : ℤ) (d : Digest) : ∃ status r, Btc20.get ssl sw trust_fs d (Btc20.opened t) = .ok (status, r) ∧
      r.sent = if d = DigestModule.btc20.empty then Btc20.ok_line else
        match t.file? (Btc20.blob_path d) with
        | some b => Btc20.ok_line ++ b
        | none => Btc20.no_line := by
  have hempty : DigestModule.btc20.is_digest d.chars = 2 ↔ d = DigestModule.btc20.empty := by
    constructor
    · intro h
      apply Digest.ext
      by_contra hne
      have hne' : d.chars ≠ DigestModule.btc20.empty_ascii := hne
      unfold DigestModule.is_digest at h
      rw [if_neg hne'] at h
      split at h
      · cases h
      · split at h <;> cases h
    · rintro rfl
      decide
  rw [Btc20.get]
  by_cases hd : d = DigestModule.btc20.empty
  · obtain ⟨r, hr, hsent, -⟩ := write_ok_done hsw (Btc20.opened t)
    rw [if_pos (hempty.mpr hd), Btc20.bind_ok hr, if_pos hd]
    exact ⟨0, r, rfl, hsent⟩
  · rw [if_neg fun h => hd (hempty.mp h), if_neg hd]
    cases hn : t.lstat (Btc20.blob_path d) with
    | none =>
      obtain ⟨r, hr, hsent⟩ := write_no_done hsw (Btc20.opened t)
      have hfile : t.file? (Btc20.blob_path d) = none := by
        cases hfile : t.file? (Btc20.blob_path d) with
        | none => rfl
        | some b => rw [FileTree.file?_eq_some, hn] at hfile; cases hfile
      rw [Btc20.fs_btc20_get_request, Btc20.bind_ok (Btc20.open_missing (r := Btc20.opened t) ht hn), hfile]
      exact ⟨0, r, hr, hsent⟩
    | some n =>
      obtain ⟨b, rfl, hb⟩ := ht.blob d n hn
      obtain ⟨r₁, hr₁, hsent₁, -, hfd⟩ := write_ok_done hsw
        { Btc20.opened t with blob_fd := some (.file b) }
      obtain ⟨r₂, hr₂, hsent₂⟩ := serve_chunks_done hsw (Btc20.reads sw.cut b) r₁
      rw [Btc20.fs_btc20_get_request, Btc20.bind_ok (Btc20.open_present (r := Btc20.opened t) hn),
        FileTree.file?_eq_some.mpr hn]
      change ∃ status r, (Btc20.write_ok sw >>= _) { Btc20.opened t with blob_fd := some (.file b) } = _ ∧ _
      rw [Btc20.bind_ok hr₁, if_neg (by simp), Btc20.get_bytes_trusted hfd hb,
        Btc20.fs_btc20_get_trusted_bytes, Btc20.bind_ok (Btc20.blob_chunks_eq hfd), Btc20.bind_ok hr₂]
      refine ⟨0, _, rfl, ?_⟩
      change r₂.sent = _
      rw [hsent₂, hsent₁, Btc20.flatten_reads]
      rfl

end served

section got
variable {ssl : OpenSSL} {m : DigestModule} {w : World} {s : Session ssl m}

theorem flatten_skip (n : ℕ) (chunks : List Bytes) : (skip n chunks).flatten = chunks.flatten.drop n := by
  induction chunks generalizing n with
  | nil => simp [skip]
  | cons c cs ih =>
    rw [skip, List.flatten_cons, List.drop_append]
    split
    · rename_i hle
      rw [ih, List.drop_eq_nil_of_le hle, List.nil_append]
    · rename_i hlt
      rw [List.flatten_cons, Nat.sub_eq_zero_of_le (Nat.le_of_not_le hlt), List.drop_zero]

/-- A reply that arrives in one piece is read as it was written. -/
theorem read_ok_no_whole {c : Bytes} {cs : List Bytes} {line : Bytes} {reply : ℤ} (hchunks : s.server.chunks = c :: cs)
    (hlen : 3 ≤ c.length) (hline : c.take 3 = line) (hreply : Bio4.ok_or_no (text line) = .ok reply) :
    read_ok_no w s = .ok ((), { s.hears (skip 3 s.server.chunks) with ok_no := reply }) := by
  have hread : ∀ junk : Char × Char × Char, Bio4.read_reply_into s.server.err [junk.1, junk.2.1, junk.2.2] 0
      (s.server.chunks.map text) = .ok reply := by
    intro junk
    have htake : (text c).take 3 = text line := by
      rw [text, ← List.map_take, hline, text]
    have hthree : (text line).length = 3 := by
      rw [← htake, List.length_take, text, List.length_map]
      omega
    rw [hchunks, List.map_cons, Bio4.read_reply_into, Nat.sub_zero, htake, hthree, if_neg (by omega),
      Bio4.read_into, Nat.sub_zero, htake, hthree]
    simpa using hreply
  rw [read_ok_no, hread]

/-- A request whose reply arrives in one piece, and what is left to be read behind it. -/
theorem request_answered (hw : ∀ n, w.write n = .all) (q : Request) {server input : Stream} {c : Bytes}
    {cs : List Bytes} (hchunks : server.chunks = c :: cs) (hlen : 3 ≤ c.length) {line rest : Bytes} {reply : ℤ}
    (hthree : line.length = 3) (hsent : server.chunks.flatten = line ++ rest)
    (hreply : Bio4.ok_or_no (text line) = .ok reply) :
    request w q (.opened ssl m server input) = .ok ((), { (Session.opened ssl m server input).hears
      server.behind_reply with ok_no := reply, to_server := bytes (make_request q), writes := 1 }) ∧
    server.behind_reply.flatten = rest := by
  have hline : c.take 3 = line := by
    rw [hchunks, List.flatten_cons] at hsent
    have htake := congrArg (List.take 3) hsent
    rwa [List.take_append_of_le_length hlen, List.take_left' hthree] at htake
  constructor
  · rw [request, bind_ok (write_all hw _ _)]
    exact read_ok_no_whole hchunks hlen hline hreply
  · rw [Stream.behind_reply, flatten_skip, hsent]
    exact List.drop_left' hthree

/-- Of the beginnings that have the digest the first one completes the blob. -/
theorem exists_completes {bin : Bytes} {chunks : List Bytes} (h : ssl.hash m chunks.flatten = bin) :
    ∃ taken rest, chunks = taken ++ rest ∧ Completes ssl m bin [] taken ∧ (taken = [] → chunks = []) := by
  by_cases hnil : chunks = []
  · subst hnil
    exact ⟨[], [], rfl, ⟨h, fun n _ hlen => absurd hlen (Nat.not_lt_zero n)⟩, fun _ => rfl⟩
  · have hex : ∃ n, 0 < n ∧ ssl.hash m (chunks.take n).flatten = bin :=
      ⟨chunks.length, List.length_pos_iff.mpr hnil, by rwa [List.take_length]⟩
    classical
    obtain ⟨hpos, hdigest⟩ := Nat.find_spec hex
    refine ⟨chunks.take (Nat.find hex), chunks.drop (Nat.find hex), (List.take_append_drop _ _).symm,
      ⟨hdigest, fun n hn hlen heq => ?_⟩, fun htake => ?_⟩
    · rw [List.length_take] at hlen
      have hlt : n < Nat.find hex := by omega
      refine Nat.find_min hex hlt ⟨hn, ?_⟩
      rwa [List.nil_append, List.take_take, Nat.min_eq_left (Nat.le_of_lt hlt)] at heq
    · rcases List.take_eq_nil_iff.mp htake with hzero | hchunks
      · omega
      · exact hchunks

/-- A get of a blob that is sent whole behind an ok. -/
theorem get_of_sent (hw : ∀ n, w.write n = .all) {u : Udig} {server input : Stream} {c : Bytes} {cs : List Bytes}
    (hchunks : server.chunks = c :: cs) (hlen : 3 ≤ c.length) {b : Bytes}
    (hsent : server.chunks.flatten = ok_line ++ b) (hend : server.err = none)
    (hb : ssl.hash u.algorithm b = u.digest.raw)
    (hfirst : ∀ p, p <+: b → ssl.hash u.algorithm p = u.digest.raw → p = b) :
    wp (bio4_get w (.about .get u false)) (fun _ s' => s'.ok_no = 0 ∧ s'.output = b) (fun _ _ => False)
      (.opened ssl u.algorithm server input) := by
  obtain ⟨hreply, hbehind⟩ := @request_answered ssl u.algorithm w hw (.about .get u false) server input
    c cs hchunks hlen ok_line b 0 rfl hsent rfl
  have hbin : ssl.hash u.algorithm server.behind_reply.flatten = u.digest.raw := by
    rwa [hbehind]
  obtain ⟨taken, rest, hcut, hdone, hne⟩ := exists_completes hbin
  have hout : taken.flatten = b := by
    refine hfirst _ ?_ hdone.digest
    rw [← hbehind, hcut, List.flatten_append]
    exact List.prefix_append _ _
  rw [bio4_get, _bio4_get, wp_bind, wp_of_ok hreply, wp_bind, wp_get,
    if_neg (fun h => h.elim Int.zero_ne_one fun h => absurd h.1 Bool.false_ne_true),
    show bin_digest (Request.about .get u false).ascii_digest = u.digest.raw from bin_digest_eq u.digest]
  rw [show (server.behind_reply) = taken ++ rest from hcut]
  refine wp_seq (@get_chunks_complete ssl u.algorithm w _ [] _ hw taken rest _ ?_ ?_ ?_ hdone ?_) ?_ fun _ _ h => h
  · rfl
  · rfl
  · rfl
  · intro hnil
    have hchunks' := hne hnil
    rw [hcut, hnil] at hchunks'
    exact ⟨hchunks', hend⟩
  · rintro - s' ⟨hok, hs'⟩
    refine ⟨hok, ?_⟩
    change s'.output = b
    rw [hs', hout]
    rfl

theorem get_of_refused (hw : ∀ n, w.write n = .all) {u : Udig} {server input : Stream} {c : Bytes} {cs : List Bytes}
    (hchunks : server.chunks = c :: cs) (hlen : 3 ≤ c.length) (hsent : server.chunks.flatten = no_line) :
    wp (bio4_get w (.about .get u false)) (fun _ s' => s'.ok_no = 1 ∧ s'.output = []) (fun _ _ => False)
      (.opened ssl u.algorithm server input) := by
  obtain ⟨hreply, -⟩ := @request_answered ssl u.algorithm w hw (.about .get u false) server input c cs hchunks
    hlen no_line [] 1 rfl (hsent.trans (List.append_nil no_line).symm) rfl
  rw [bio4_get, _bio4_get, wp_bind, wp_of_ok hreply, wp_bind, wp_get, if_pos (.inl rfl)]
  exact ⟨rfl, rfl⟩

/-- Where the client's get ends: with the blob that the store has, or told that there is none. The empty
blob is there for every store. -/
def GotFrom (t : Store) (d : Digest) (s : Session ssl m) : Prop :=
  match t.file? (Btc20.blob_path d) with
  | some b => s.ok_no = 0 ∧ s.output = b
  | none => if d = DigestModule.btc20.empty then s.ok_no = 0 ∧ s.output = [] else s.ok_no = 1 ∧ s.output = []

/-- A blob that the server has is got as it lies in the store, however what the server sends is cut
behind the reply, as long as no beginning of the blob has its digest. -/
theorem served_blob_got {t : Store} (ht : Btc20.ContentAddressed ssl.toOpenSSL t)
    (hnil : ssl.hash .btc20 [] = DigestModule.btc20.empty.raw) {sw : Btc20.World}
    (hsw : ∀ n, sw.client n = .done) (hw : ∀ n, w.write n = .all) (trust_fs : ℤ) (d : Digest)
    (hfirst : ∀ b p, t.file? (Btc20.blob_path d) = some b → p <+: b → ssl.hash .btc20 p = d.raw → p = b) :
    ∃ status r, Btc20.get ssl.toOpenSSL sw trust_fs d (Btc20.opened t) = .ok (status, r) ∧
      ∀ (server input : Stream) (c : Bytes) (cs : List Bytes), server.chunks = c :: cs → 3 ≤ c.length →
        server.chunks.flatten = r.sent → server.err = none →
          wp (bio4_get w (.about .get ⟨.btc20, d⟩ false)) (fun _ s' => GotFrom t d s') (fun _ _ => False)
            (.opened ssl .btc20 server input) := by
  obtain ⟨status, r, hr, hsent⟩ := get_sent ht hsw trust_fs d
  refine ⟨status, r, hr, fun server input c cs hchunks hlen hflat hend => ?_⟩
  rw [hsent] at hflat
  by_cases hd : d = DigestModule.btc20.empty
  · rw [if_pos hd] at hflat
    have hraw : ssl.hash .btc20 [] = d.raw := by
      rw [hd, hnil]
    refine wp_mono (get_of_sent (u := ⟨.btc20, d⟩) hw hchunks hlen (b := []) (by rw [hflat]; rfl) hend hraw
      fun p hp _ => List.prefix_nil.mp hp) ?_ fun _ _ h => h
    rintro - s' ⟨hok, hout⟩
    rw [GotFrom]
    split
    · rename_i b hb
      exact ⟨hok, by rw [hout]; exact hfirst b [] hb List.nil_prefix hraw⟩
    · rw [if_pos hd]
      exact ⟨hok, hout⟩
  · rw [if_neg hd] at hflat
    split at hflat
    · rename_i b hb
      obtain ⟨b', hb', hdigest⟩ := ht.blob d _ (FileTree.file?_eq_some.mp hb)
      cases hb'
      refine wp_mono (get_of_sent (u := ⟨.btc20, d⟩) hw hchunks hlen hflat hend hdigest
        fun p hp hraw => hfirst b p hb hp hraw) ?_ fun _ _ h => h
      rintro - s' hgot
      rw [GotFrom, hb]
      exact hgot
    · rename_i hb
      refine wp_mono (get_of_refused (u := ⟨.btc20, d⟩) hw hchunks hlen hflat) ?_ fun _ _ h => h
      rintro - s' hgot
      rw [GotFrom, hb]
      dsimp only
      rw [if_neg hd]
      exact hgot

/-- What the library says of the empty blob and of that of the first three letters. -/
def known_sha1 (blob : Bytes) : Bytes :=
  if blob = [] then decode_hex "da39a3ee5e6b4b0d3255bfef95601890afd80709".toList
  else if blob = bytes "abc".toList then decode_hex "a9993e364706816aba3e25717850c26c9cd0d89d".toList
  else List.replicate 20 0

theorem length_known_sha1 (blob : Bytes) : (known_sha1 blob).length = 20 := by
  unfold known_sha1
  split
  · rfl
  · split <;> rfl

def known_ssl : OpenSSL :=
  { Btc20.known_ssl with SHA1 := Btc20.collected known_sha1 length_known_sha1 }

/-- No write fails, and nothing is wrong with a udig. -/
def quiet_world : World where
  write _ := .all
  junk _ := ('a', 'b', 'c')
  frisk_udig _ := none
  unlink := none

theorem served_abc_got : ∃ status r, Btc20.get known_ssl.toOpenSSL Btc20.quiet_world 0
      Btc20.abc_btc20.digest (Btc20.opened Btc20.btc20_store) = .ok (status, r) ∧
    r.sent = ok_line ++ bytes "abc".toList ∧
    wp (bio4_get quiet_world (.about .get ⟨.btc20, Btc20.abc_btc20.digest⟩ false))
      (fun _ s' => s'.ok_no = 0 ∧ s'.output = bytes "abc".toList) (fun _ _ => False)
      (.opened known_ssl .btc20 ⟨[r.sent.take 4, r.sent.drop 4], none⟩ ⟨[], none⟩) := by
  have hnil : known_ssl.hash .btc20 [] = DigestModule.btc20.empty.raw := by
    decide +kernel
  have hfile : Btc20.btc20_store.file? (Btc20.blob_path Btc20.abc_btc20.digest) = some (bytes "abc".toList) :=
    FileTree.file?_eq_some.mpr Btc20.btc20_store_blob
  have hshorter : ∀ k : Fin 3, known_ssl.hash .btc20 ((bytes "abc".toList).take k) ≠ Btc20.abc_btc20.digest.raw := by
    decide +kernel
  have hfirst : ∀ b p, Btc20.btc20_store.file? (Btc20.blob_path Btc20.abc_btc20.digest) = some b → p <+: b →
      known_ssl.hash .btc20 p = Btc20.abc_btc20.digest.raw → p = b := by
    intro b p hb hp hraw
    obtain rfl : bytes "abc".toList = b := Option.some.inj (hfile.symm.trans hb)
    rcases Nat.lt_or_ge p.length 3 with hlt | hge
    · rw [List.prefix_iff_eq_take.mp hp] at hraw
      exact absurd hraw (hshorter ⟨p.length, hlt⟩)
    · exact hp.eq_of_length_le hge
  obtain ⟨status, r, hr, hgot⟩ := @served_blob_got known_ssl quiet_world Btc20.btc20_store
    Btc20.btc20_store_addressed hnil Btc20.quiet_world (fun _ => rfl) (fun _ => rfl) 0 _ hfirst
  obtain ⟨_, r', hr', hsent⟩ := @get_sent Btc20.known_ssl Btc20.quiet_world _ Btc20.btc20_store_addressed (fun _ => rfl) 0
    Btc20.abc_btc20.digest
  have hsame := hr.symm.trans hr'
  cases hsame
  rw [if_neg (by decide), hfile] at hsent
  have hsent : r.sent = ok_line ++ bytes "abc".toList := hsent
  refine ⟨status, r, hr, hsent, wp_mono (hgot ⟨[r.sent.take 4, r.sent.drop 4], none⟩ ⟨[], none⟩ _ _ rfl ?_ ?_ rfl)
    ?_ fun _ _ h => h⟩
  · rw [hsent]
    decide
  · simp
  · rintro - s' h
    rwa [GotFrom, hfile] at h

/-- The digest that the client prints for an input is one that it takes, and by which it gets the input
back from a server that has it. -/
theorem eaten_blob_got (m : DigestModule) (reads : List Bytes)
    (hfirst : ∀ p, p <+: reads.flatten → ssl.hash m p = ssl.hash m reads.flatten → p = reads.flatten) :
    ∃ d : Digest, eat_input ssl m reads none = .ok d.chars ∧ syntax_of m d.chars ≠ 0 ∧
      ∀ (w : World) (server input : Stream) (c : Bytes) (cs : List Bytes), (∀ n, w.write n = .all) →
        server.chunks = c :: cs → 3 ≤ c.length → server.chunks.flatten = ok_line ++ reads.flatten →
          server.err = none → wp (bio4_get w (.about .get ⟨m, d⟩ false))
            (fun _ s' => s'.ok_no = 0 ∧ s'.output = reads.flatten) (fun _ _ => False)
            (.opened ssl m server input) := by
  refine ⟨digest_of ssl m reads.flatten, eat_input_digest m reads, ?_, ?_⟩
  · exact syntax_of_ne_zero.mpr ⟨Digest.length_chars _, Digest.hex_chars _⟩
  · intro w server input c cs hw hchunks hlen hflat hend
    have hraw : ssl.hash m reads.flatten = (digest_of ssl m reads.flatten).raw := (digest_of_raw m _).symm
    exact get_of_sent (u := ⟨m, digest_of ssl m reads.flatten⟩) hw hchunks hlen hflat hend hraw
      fun p hp hdigest => hfirst p hp (hdigest.trans hraw.symm)

theorem abc_got : ∃ d : Digest, eat_input known_ssl .sha [[97], [98, 99]] none = .ok d.chars ∧
    wp (bio4_get quiet_world (.about .get ⟨.sha, d⟩ false))
      (fun _ s' => s'.ok_no = 0 ∧ s'.output = bytes "abc".toList) (fun _ _ => False)
      (.opened known_ssl .sha ⟨[ok_line ++ [97], [98, 99]], none⟩ ⟨[], none⟩) := by
  have habc : known_sha1 (bytes "abc".toList) ≠ known_sha1 [] ∧
      known_sha1 (bytes "abc".toList) ≠ List.replicate 20 0 := by
    decide +kernel
  have hfirst : ∀ p, p <+: [[97], [98, 99]].flatten →
      known_ssl.hash .sha p = known_ssl.hash .sha [[97], [98, 99]].flatten → p = [[97], [98, 99]].flatten := by
    intro p _ hp
    change known_sha1 p = known_sha1 (bytes "abc".toList) at hp
    by_contra hne
    have hne : p ≠ bytes "abc".toList := hne
    by_cases hnil : p = []
    · rw [hnil] at hp
      exact habc.1 hp.symm
    · rw [known_sha1, if_neg hnil, if_neg hne] at hp
      exact habc.2 hp.symm
  obtain ⟨d, hd, -, hgot⟩ := @eaten_blob_got known_ssl .sha [[97], [98, 99]] hfirst
  exact ⟨d, hd, hgot quiet_world ⟨[ok_line ++ [97], [98, 99]], none⟩ ⟨[], none⟩ _ _ (fun _ => rfl) rfl (by decide)
    rfl rfl⟩

end got

/-! ### A request line that is written and read -/

section lines
variable {installed : Installed}

theorem text_bytes {t : Text} (h : ∀ c ∈ t, c.toNat < 256) : text (bytes t) = t := by
  rw [text, bytes, List.map_map]
  conv_rhs => rw [← List.map_id t]
  refine List.map_congr_left fun c hc => ?_
  have hlt : c.toNat < 2 ^ 8 := h c hc
  have hnat : c.toUInt8.toNat = c.toNat := by
    rw [Char.toUInt8]
    change c.toNat % 2 ^ 8 = c.toNat
    exact Nat.mod_eq_of_lt hlt
  rw [Function.comp_apply, hnat, Char.ofNat_toNat, id]

/-- A line of a request that arrives in whatever pieces reaches its callback, and what the pieces bring
behind it is left to that. -/
theorem callback_of_line {r : Requested} {line rest : Text} (hline : RequestLine installed r line)
    {reads : List Text} (hreads : ∀ chunk ∈ reads, chunk ≠ []) (hflat : reads.flatten = line ++ rest) :
    ∃ scan_buf unread, request_callback installed reads = some (r, scan_buf, unread) ∧
      scan_buf ++ unread.flatten = rest := by
  obtain ⟨a, hends, hdispatch⟩ := ends_of_requestLine hline
  have hscan : ChunkedScans.scan scan_request Scan.start reads.flatten =
      .stop (.go r.verb.text a r.digest) ([] ++ rest) := by
    rw [hflat]
    exact ChunkedScans.scan_append_stop hends
  obtain ⟨scan_buf, unread, hread, hrest⟩ := ChunkedScans.scan_reads_of_flatten hscan
  exact ⟨scan_buf, unread, (request_callback_eq_some hreads).mpr ⟨_, _, _, hread, hdispatch⟩, hrest⟩

theorem make_request_about (verb : Verb) (u : Udig) (path : Bool) : make_request (.about verb u path) =
    verb.text ++ ' ' :: (u.text ++ ['\n']) := by
  have hverb : verb.text.take 4 = verb.text := by
    cases verb <;> rfl
  have hname : u.algorithm.name ≠ [] := by
    cases u.algorithm <;> decide
  have hdigest : u.digest.chars ≠ [] := by
    intro h
    have hlen := u.digest.length_chars
    rw [h] at hlen
    cases hlen
  rw [make_request, Request.about, Udig.text]
  dsimp only
  rw [hverb, if_neg hname, if_neg hdigest]
  simp

theorem requestLine_about (verb : Verb) (hverb : verb ≠ .wrap) {u : Udig} (hmem : u.algorithm ∈ installed.modules)
    (path : Bool) : RequestLine installed ⟨verb, u.algorithm, u.digest.chars⟩ (make_request (.about verb u path)) := by
  refine .inr ⟨hverb, hmem, ?_, ['\n'], .inl rfl, by rw [make_request_about, Udig.text]; simp⟩
  exact (is_digest_ne_zero _ _).mpr ⟨u.digest.length_chars, u.digest.hex_chars⟩

theorem ascii_udig (u : Udig) : ∀ c ∈ u.text, c.toNat < 256 := by
  have hname : ∀ c ∈ u.algorithm.name, c.toNat < 256 := by
    cases u.algorithm <;> decide
  have hhex : ∀ c ∈ nib2hex, c.toNat < 256 := by decide
  intro c hc
  rw [Udig.text, List.mem_append, List.mem_cons] at hc
  rcases hc with hc | rfl | hc
  · exact hname c hc
  · decide
  · exact hhex c (u.digest.hex_chars c hc)

theorem ascii_about (verb : Verb) (u : Udig) (path : Bool) :
    ∀ c ∈ make_request (.about verb u path), c.toNat < 256 := by
  have hverb : ∀ c ∈ verb.text, c.toNat < 256 := by
    cases verb <;> decide
  intro c hc
  rw [make_request_about] at hc
  simp only [List.mem_append, List.mem_cons, List.not_mem_nil, or_false] at hc
  rcases hc with hc | rfl | hc | rfl
  · exact hverb c hc
  · decide
  · exact ascii_udig u c hc
  · decide

end lines

end Blobio.Client
