import Blobio.ClientServer

/-! What a client hands over to a server: its input behind the request line, which a give removes when
all of it is there. -/
namespace Blobio.Client
open EarlyExits ChunkedScans

section puts
variable {ssl : OpenSSL} {m : DigestModule} {w : World} {q : Request} {s : Session ssl m}

/-- The loop ends when the whole input has been written, or stops with the beginning of it. -/
theorem put_trusted_chunks_spec {chunks : List Bytes} (hchunks : s.input.chunks = chunks) (err : Option Text) :
    wp (put_trusted_chunks w err chunks)
      (fun _ s' => err = none ∧ ∃ writes, s' =
        { s.feeds [] with writes := writes, to_server := s.to_server ++ chunks.flatten })
      (fun _ s' => s'.input_removed = s.input_removed ∧ s'.ok_no = s.ok_no ∧
        ∃ sent, s'.to_server = s.to_server ++ sent ∧ sent <+: chunks.flatten) s := by
  induction chunks generalizing s with
  | nil =>
    rw [put_trusted_chunks, wp_bind]
    cases err with
    | some err => exact ⟨rfl, rfl, [], (List.append_nil _).symm, List.nil_prefix⟩
    | none =>
      rw [at_end, wp_pure]
      refine wp_mono (write_spec Session.sends [] s) ?_ ?_
      · rintro - s' rfl
        refine ⟨rfl, s.writes + 1, ?_⟩
        have hfeeds : s.feeds [] = s := by
          rw [← hchunks]
          rfl
        rw [hfeeds]
        rfl
      · rintro why s' ⟨n, rfl⟩
        exact ⟨rfl, rfl, [], by rw [List.take_nil]; rfl, List.nil_prefix⟩
  | cons c cs ih =>
    rw [put_trusted_chunks, wp_bind, wp_modify]
    refine wp_seq (write_spec Session.sends c _) ?_ ?_
    · rintro - s₁ rfl
      refine wp_mono (ih (s := Session.sends (s.feeds cs) c) rfl) ?_ ?_
      · rintro - s' ⟨herr, writes, rfl⟩
        refine ⟨herr, writes, ?_⟩
        rw [List.flatten_cons, ← List.append_assoc]
        rfl
      · rintro why s' ⟨hremoved, hok, sent, hsent, hle⟩
        refine ⟨hremoved, hok, c ++ sent, by rw [hsent, ← List.append_assoc]; rfl, ?_⟩
        rw [List.flatten_cons]
        exact (List.prefix_append_right_inj c).mpr hle
    · rintro why s' ⟨n, rfl⟩
      refine ⟨rfl, rfl, c.take n, rfl, ?_⟩
      rw [List.flatten_cons]
      exact (List.take_prefix n c).trans (List.prefix_append c _)

/-- What the server has been sent by a put that ends: the request line, and behind it the whole input
unless the server has declined it. -/
structure Session.Put (s : Session ssl m) (line : Bytes) (input : Stream) : Prop where
  kept : s.input_removed = false
  reply : s.ok_no = 0 ∨ s.ok_no = 1
  sent : (s.ok_no = 1 ∧ s.to_server = line) ∨ (input.err = none ∧ s.to_server = line ++ input.chunks.flatten)

/-- What it has been sent by a put that stops. -/
structure Session.PutCut (s : Session ssl m) (line : Bytes) (input : Stream) : Prop where
  kept : s.input_removed = false
  sent : s.to_server <+: line ++ input.chunks.flatten

section udig
variable {u : Udig} {server input : Stream} {verb : Verb} {path : Bool}

theorem put_spec : wp (bio4_put w (.about verb u path))
    (fun _ s' => s'.Put (bytes (make_request (.about verb u path))) input)
    (fun _ s' => s'.PutCut (bytes (make_request (.about verb u path))) input)
    (.opened ssl u.algorithm server input) := by
  refine wp_seq (write_spec Session.sends _ _) ?_ ?_
  · rintro - s₁ rfl
    refine wp_seq (read_ok_no_spec _) ?_ fun _ s' hs' => ?_
    · rintro - s₂ ⟨reply, hreply, rfl⟩
      rw [wp_bind, wp_get]
      dsimp only
      split
      · rename_i hno
        exact ⟨rfl, .inr hno, .inl ⟨hno, rfl⟩⟩
      · rw [if_neg (by decide)]
        refine wp_seq (@put_trusted_chunks_spec ssl u.algorithm w _ _ ?_ _) ?_ ?_
        · rfl
        · rintro - s₃ ⟨herr, writes, rfl⟩
          refine wp_seq (read_ok_no_spec _) ?_ fun _ s' hs' => ?_
          · rintro - s₄ ⟨last, hlast, rfl⟩
            exact ⟨rfl, hlast, .inr ⟨herr, rfl⟩⟩
          · subst hs'
            exact ⟨rfl, List.prefix_rfl⟩
        · rintro why s' ⟨hremoved, -, sent, hsent, hle⟩
          refine ⟨hremoved, ?_⟩
          rw [hsent]
          exact (List.prefix_append_right_inj _).mpr hle
    · subst hs'
      exact ⟨rfl, List.prefix_append _ _⟩
  · rintro why s' ⟨n, rfl⟩
    exact ⟨rfl, (List.take_prefix n _).trans (List.prefix_append _ _)⟩

/-- How far a give has come. The input is gone only when all of it has been read and sent and the server
has taken it; from then on the server is told of the removal, or that it has failed. -/
structure Session.Given (s : Session ssl m) (all : Bytes) (input : Stream) (path : Bool) : Prop where
  removed : s.input_removed = true → path = true ∧ s.ok_no = 0 ∧ input.err = none ∧ all <+: s.to_server
  told : s.to_server <+: all ∨ (s.ok_no = 0 ∧ ((s.input_removed = path ∧ s.to_server <+: all ++ ok_line) ∨
    (path = true ∧ s.input_removed = false ∧ s.to_server <+: all ++ no_line)))

theorem Session.Given.of_kept {all : Bytes} (hkept : s.input_removed = false) (hsent : s.to_server <+: all) :
    s.Given all input path where
  removed h := by
    rw [hkept] at h
    cases h
  told := .inl hsent

theorem Session.Given.of_acked {all : Bytes} (hall : s.to_server = all) (hok : s.ok_no = 0)
    (hend : input.err = none) (hremoved : s.input_removed = path) (n : ℕ) :
    (s.sends (ok_line.take n)).Given all input path where
  removed h := ⟨hremoved.symm.trans h, hok, hend, hall ▸ List.prefix_append _ _⟩
  told := .inr ⟨hok, .inl ⟨hremoved, hall ▸ (List.prefix_append_right_inj _).mpr (List.take_prefix n _)⟩⟩

theorem Session.Given.of_refused {all : Bytes} (hall : s.to_server = all) (hok : s.ok_no = 0)
    (hkept : s.input_removed = false) (n : ℕ) : (s.sends (no_line.take n)).Given all input true where
  removed h := absurd (hkept.symm.trans h) Bool.false_ne_true
  told := .inr ⟨hok, .inr ⟨rfl, hkept, hall ▸ (List.prefix_append_right_inj _).mpr (List.take_prefix n _)⟩⟩

/-- The end of a give whose input the server has taken. -/
theorem ok_acked {all : Bytes} (hall : s.to_server = all) (hok : s.ok_no = 0) (hend : input.err = none)
    (hremoved : s.input_removed = path) : wp (do write w Session.sends ok_line; bio4_set_brr "ok,ok,ok".toList)
      (fun _ s' => s'.Given all input path ∧ s'.ok_no = 0 ∧ s'.input_removed = path ∧ s'.to_server = all ++ ok_line)
      (fun _ s' => s'.Given all input path) s := by
  refine wp_seq (write_spec Session.sends ok_line s) ?_ ?_
  · rintro - s₁ rfl
    have hgiven : (s.sends ok_line).Given all input path := .of_acked hall hok hend hremoved 3
    exact ⟨⟨hgiven.removed, hgiven.told⟩, hok, hremoved, by rw [← hall]; rfl⟩
  · rintro why s' ⟨n, rfl⟩
    exact .of_acked hall hok hend hremoved n

theorem write_quietly_spec (put : Session ssl m → Bytes → Session ssl m) (buf : Bytes) (s : Session ssl m) :
    wp (write_quietly w put buf) (fun _ s' => ∃ n, s' = put s (buf.take n)) (fun _ s' => ∃ n, s' = put s (buf.take n))
      s := by
  rw [wp, write_quietly]
  cases w.write s.writes with
  | all => exact ⟨buf.length, by rw [List.take_length]⟩
  | failed sent err => exact ⟨sent, rfl⟩
  | timed_out sent => exact ⟨sent, rfl⟩
  | killed sent => exact ⟨sent, rfl⟩

theorem give_removed_last (w : World) (u : Udig) (server input : Stream) (path : Bool) :
    let all := bytes (make_request (.about .give u path)) ++ input.chunks.flatten
    wp (bio4_give w (.about .give u path))
      (fun _ s' => s'.Given all input path ∧ ((s'.ok_no = 1 ∧ s'.input_removed = false) ∨
        (s'.ok_no = 0 ∧ s'.input_removed = path ∧ s'.to_server = all ++ ok_line)))
      (fun _ s' => s'.Given all input path) (.opened ssl u.algorithm server input) := by
  intro all
  refine wp_seq put_spec ?_ fun _ s' hcut => .of_kept hcut.kept hcut.sent
  rintro - s₁ ⟨hkept, hreply, hsent⟩
  rw [wp_bind, wp_get]
  by_cases hno : s₁.ok_no = 1
  · rw [if_pos hno]
    refine ⟨.of_kept hkept ?_, .inl ⟨hno, hkept⟩⟩
    rcases hsent with ⟨-, hline⟩ | ⟨-, hall⟩
    · rw [hline]
      exact List.prefix_append _ _
    · rw [hall]
  · have hok := hreply.resolve_right hno
    obtain ⟨hend, hall⟩ := hsent.resolve_left fun h => hno h.1
    rw [if_neg hno]
    cases path with
    | false =>
      exact wp_mono (ok_acked hall hok hend hkept) (fun _ _ h => ⟨h.1, .inr h.2⟩) fun _ _ h => h
    | true =>
      cases hunlink : w.unlink with
      | none =>
        have hacked := ok_acked (w := w) (s := { s₁ with input_removed := true }) hall hok hend rfl
        exact wp_mono hacked (fun _ _ h => ⟨h.1, .inr h.2⟩) fun _ _ h => h
      | some err =>
        refine wp_seq (write_quietly_spec Session.sends no_line s₁) ?_ ?_
        · rintro - s₂ ⟨n, rfl⟩
          exact .of_refused hall hok hkept n
        · rintro why s₂ ⟨n, rfl⟩
          exact .of_refused hall hok hkept n

/-- What the server's lexer makes of the bytes that a put has sent it, however they arrive: nothing but the
request, and behind it the input as far as it has come. -/
def HandedOver (installed : Installed) (r : Requested) (input sent : Bytes) : Prop :=
  ∀ reads : List Text, (∀ chunk ∈ reads, chunk ≠ []) → reads.flatten = text sent →
    ∀ r' scan_buf unread, request_callback installed reads = some (r', scan_buf, unread) →
      r' = r ∧ scan_buf ++ unread.flatten <+: text input

/-- What it makes of them when all of them are there. -/
def HandedOverWhole (installed : Installed) (r : Requested) (input sent : Bytes) : Prop :=
  ∀ reads : List Text, (∀ chunk ∈ reads, chunk ≠ []) → reads.flatten = text sent →
    ∃ scan_buf unread, request_callback installed reads = some (r, scan_buf, unread) ∧
      scan_buf ++ unread.flatten = text input

theorem text_append (a b : Bytes) : text (a ++ b) = text a ++ text b :=
  List.map_append

theorem handed_over_of_line {installed : Installed} {r : Requested} {line : Text} (hline : RequestLine installed r line)
    (hascii : ∀ c ∈ line, c.toNat < 256) {all sent : Bytes} (hsent : sent <+: bytes line ++ all) :
    HandedOver installed r all sent := by
  intro reads hreads hflat r' scan_buf unread hcallback
  obtain ⟨v, a, d, hread, hdispatch⟩ := (request_callback_eq_some hreads).mp hcallback
  obtain ⟨a', hends, hdispatch'⟩ := ends_of_requestLine hline
  obtain ⟨rest, hrest⟩ := hsent
  have hscan : scan scan_request .start (text (sent ++ rest)) = .stop (.go v a d) (scan_buf ++ unread.flatten ++ text rest) := by
    rw [text_append, ← hflat]
    exact scan_append_stop (scan_flatten_of_stopped hread)
  have hscan' : scan scan_request .start (text (sent ++ rest)) = .stop (.go r.verb.text a' r.digest) ([] ++ text all) := by
    rw [hrest, text_append, text_bytes hascii]
    exact scan_append_stop hends
  rw [hscan] at hscan'
  injection hscan' with hgo hleft
  injection hgo with hv ha hd
  subst hv ha hd
  rw [hdispatch] at hdispatch'
  injection hdispatch' with hr
  exact ⟨hr, text rest, hleft⟩

/-- A put hands over its request and the beginning of its input, however it ends and however that arrives,
and all of it when it ends with an ok. -/
theorem put_handed_over (installed : Installed) (w : World) {verb : Verb} (hverb : verb ≠ .wrap) {u : Udig}
    (hmem : u.algorithm ∈ installed.modules) (path : Bool) (server input : Stream) :
    wp (bio4_put w (.about verb u path))
      (fun _ s' => HandedOver installed ⟨verb, u.algorithm, u.digest.chars⟩ input.chunks.flatten s'.to_server ∧
        (s'.ok_no = 0 → input.err = none ∧
          HandedOverWhole installed ⟨verb, u.algorithm, u.digest.chars⟩ input.chunks.flatten s'.to_server))
      (fun _ s' => HandedOver installed ⟨verb, u.algorithm, u.digest.chars⟩ input.chunks.flatten s'.to_server)
      (.opened ssl u.algorithm server input) := by
  have hline := requestLine_about verb hverb hmem path
  have hascii := ascii_about verb u path
  refine wp_mono put_spec ?_ ?_
  · rintro - s' ⟨-, -, ⟨hno, hsent⟩ | ⟨hend, hsent⟩⟩
    · refine ⟨handed_over_of_line hline hascii (hsent ▸ List.prefix_append _ _), fun hok => ?_⟩
      rw [hok] at hno
      cases hno
    · refine ⟨handed_over_of_line hline hascii (hsent ▸ List.prefix_rfl), fun _ => ⟨hend, ?_⟩⟩
      intro reads hreads hflat
      refine callback_of_line hline hreads ?_
      rw [hflat, hsent, text_append, text_bytes hascii]
  · rintro why s' ⟨-, hsent⟩
    exact handed_over_of_line hline hascii hsent

theorem abc_handed_over : wp (bio4_put quiet_world (.about .put ⟨.sha, DigestModule.sha.empty⟩ false))
    (fun _ s' => HandedOver every_module ⟨.put, .sha, DigestModule.sha.empty.chars⟩ (bytes "abc".toList) s'.to_server ∧
      (s'.ok_no = 0 → (none : Option Text) = none ∧
        HandedOverWhole every_module ⟨.put, .sha, DigestModule.sha.empty.chars⟩ (bytes "abc".toList) s'.to_server))
    (fun _ s' => HandedOver every_module ⟨.put, .sha, DigestModule.sha.empty.chars⟩ (bytes "abc".toList) s'.to_server)
    (.opened known_ssl .sha ⟨[ok_line, ok_line], none⟩ ⟨[[97], [98, 99]], none⟩) :=
  put_handed_over every_module quiet_world (u := ⟨.sha, DigestModule.sha.empty⟩) (by decide) (by decide) false
    ⟨[ok_line, ok_line], none⟩ ⟨[[97], [98, 99]], none⟩

end udig

/-! ### The udig of a wrap -/

/-- A line that arrives in whatever pieces is read to its end, and no further. -/
theorem read_udig_line {line : Text} (hline : '\n' ∉ line) (hlen : line.length + 1 < max_udig) {chunks : List Bytes}
    (hne : ∀ c ∈ chunks, c ≠ []) (hmore : chunks ≠ []) (hflat : s.udig ++ text chunks.flatten = line ++ ['\n'])
    (err : Option Text) : wp (read_udig err chunks)
      (fun _ s' => s'.ok_no = s.ok_no ∧ s'.to_server = s.to_server ∧ s'.udig = line ++ ['\n']) (fun _ _ => False) s := by
  induction chunks generalizing s with
  | nil => exact absurd rfl hmore
  | cons c cs ih =>
    rw [List.flatten_cons, text_append] at hflat
    have hcount := congrArg List.length hflat
    simp only [List.length_append, List.length_singleton] at hcount
    have hc : text c ≠ [] := fun h => hne c List.mem_cons_self (List.map_eq_nil_iff.mp h)
    have hclen : (text c).length = c.length := List.length_map _
    have hcpos := List.length_pos_iff.mpr hc
    have hroom : c.length ≤ max_udig - s.udig.length := by omega
    rw [read_udig, wp_bind, wp_get, if_pos (by omega), wp_bind, wp_modify, List.take_of_length_le hroom]
    by_cases hlast : (text c).getLast? = some '\n'
    · rw [if_pos hlast, wp_pure]
      refine ⟨rfl, rfl, ?_⟩
      have hfront : s.udig ++ text c <+: line ++ ['\n'] := ⟨text cs.flatten, by rw [← hflat, List.append_assoc]⟩
      refine (List.prefix_concat_iff.mp hfront).resolve_right fun hle => hline (hle.subset ?_)
      exact List.mem_append_right _ (List.mem_of_getLast? hlast)
    · rw [if_neg hlast, if_pos hroom]
      have hcs : cs ≠ [] := by
        rintro rfl
        refine hlast ?_
        rw [List.flatten_nil, show text [] = [] from rfl, List.append_nil] at hflat
        have h := congrArg List.getLast? hflat
        rwa [List.getLast?_append_of_ne_nil _ hc, List.getLast?_concat] at h
      refine ih (fun c' hc' => hne c' (List.mem_cons_of_mem c hc')) hcs ?_
      change s.udig ++ text c ++ text cs.flatten = _
      rwa [List.append_assoc]

theorem skip_ne_nil {n : ℕ} {chunks : List Bytes} (hne : ∀ c ∈ chunks, c ≠ []) : ∀ c ∈ skip n chunks, c ≠ [] := by
  induction chunks generalizing n with
  | nil => exact fun c hc => absurd hc List.not_mem_nil
  | cons c cs ih =>
    rw [skip]
    split
    · exact ih fun c' hc' => hne c' (List.mem_cons_of_mem c hc')
    · rename_i hlt
      intro c' hc'
      rcases List.mem_cons.mp hc' with rfl | hc'
      · exact fun h => hlt (List.drop_eq_nil_iff.mp h)
      · exact hne c' (List.mem_cons_of_mem c hc')

theorem text_of_udig (u : Udig) : '\n' ∉ u.text ∧ 34 ≤ u.text.length ∧ u.text.length + 1 < max_udig := by
  have hname : '\n' ∉ u.algorithm.name ∧ u.algorithm.name.length ≤ 8 := by
    cases u.algorithm <;> decide
  have hhex : '\n' ∉ u.digest.chars := fun h => absurd (u.digest.hex_chars _ h) (by decide)
  refine ⟨?_, ?_, ?_⟩
  · rw [Udig.text, List.mem_append, List.mem_cons]
    rintro (h | h | h)
    · exact hname.1 h
    · exact absurd h (by decide)
    · exact hhex h
  · rw [Udig.text, List.length_append, List.length_cons, u.digest.length_chars]
    omega
  · rw [Udig.text, List.length_append, List.length_cons, u.digest.length_chars, max_udig]
    omega

/-- The udig that a server answers a wrap with is the one that the client prints, however the answer
arrives behind its ok. -/
theorem wrapped_udig_named {w : World} (hw : ∀ n, w.write n = .all) (q : Request) (u : Udig)
    (hfrisk : w.frisk_udig u.text = none) {server : Stream} (input : Stream) {c : Bytes} {cs : List Bytes}
    (hchunks : server.chunks = c :: cs) (hlen : 3 ≤ c.length) (hne : ∀ c ∈ server.chunks, c ≠ [])
    (hflat : server.chunks.flatten = ok_line ++ bytes (u.text ++ ['\n'])) :
    wp (bio4_wrap w q) (fun _ s' => s'.ok_no = 0 ∧ s'.udig = u.text ∧ s'.to_server = bytes (make_request q))
      (fun _ _ => False) (.opened ssl m server input) := by
  obtain ⟨hline, hlong, hshort⟩ := text_of_udig u
  obtain ⟨hreply, hbehind⟩ :=
    @request_answered ssl m w hw q server input c cs hchunks hlen ok_line _ 0 rfl hflat rfl
  have hmore : server.behind_reply ≠ [] := by
    intro hnil
    rw [hnil] at hbehind
    have h := congrArg List.length hbehind
    simp [bytes] at h
  have hascii : text (bytes (u.text ++ ['\n'])) = u.text ++ ['\n'] := by
    refine text_bytes fun c hc => ?_
    rcases List.mem_append.mp hc with hc | hc
    · exact ascii_udig u c hc
    · rw [List.mem_singleton.mp hc]
      decide
  rw [bio4_wrap, wp_bind, wp_of_ok hreply, wp_bind, wp_get, if_neg (by simp), wp_bind, wp_modify]
  refine wp_seq (read_udig_line hline hshort (skip_ne_nil hne) hmore ?_ _) ?_ fun _ _ h => h
  · change [] ++ text server.behind_reply.flatten = _
    rw [hbehind, hascii, List.nil_append]
  · rintro - s₁ ⟨hok, hsent, hudig⟩
    have hcount : s₁.udig.length = u.text.length + 1 := by
      rw [hudig, List.length_append, List.length_singleton]
    have hdrop : s₁.udig.dropLast = u.text := by
      rw [hudig, List.dropLast_concat]
    rw [wp_bind, wp_get, if_neg (by omega), if_neg (by omega), wp_bind, wp_modify, hdrop, hfrisk]
    exact ⟨hok, rfl, hsent⟩

theorem empty_udig_named : wp (bio4_wrap quiet_world ⟨"wrap".toList, [], [], false⟩)
    (fun _ s' => s'.ok_no = 0 ∧ s'.udig = (Udig.mk .sha DigestModule.sha.empty).text ∧
      s'.to_server = bytes (make_request ⟨"wrap".toList, [], [], false⟩)) (fun _ _ => False)
    (.opened known_ssl .sha ⟨[ok_line ++ bytes "sha:da39a3ee".toList,
      bytes "5e6b4b0d3255bfef95601890afd80709\n".toList], none⟩ ⟨[], none⟩) :=
  wrapped_udig_named (fun _ => rfl) _ ⟨.sha, DigestModule.sha.empty⟩ rfl _ rfl (by decide) (by decide)
    (by decide +kernel)

end puts

end Blobio.Client
