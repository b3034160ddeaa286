import Blobio.FlowParser

/-! What the parser keeps of the references of a configuration: each of them is counted, and each is a
dependency of the rule that it stands in. -/
namespace Blobio.Flowd

/-- What a node needs of the rest of a configuration. -/
inductive Use
  | tail
  | command (name : String)
  | query (name : String)
  | sync_map (name : String)
  deriving DecidableEq

namespace Use

/-- The command or query that is projected from. -/
def reference : Use → Option (Bool × String)
  | command n => some (true, n)
  | query n => some (false, n)
  | _ => none

def depends_on (tail_name : String) : Use → Option String
  | tail => some tail_name
  | command n | query n => some n
  | sync_map _ => none

end Use

/-- What a tree needs, node by node. -/
def Ast.uses : Ast → List Use
  | PROJECT_BRR _ => [.tail]
  | PROJECT_XDR_EXIT_STATUS n => [.command n]
  | PROJECT_SQL_QUERY_ROW_BOOL n _ | PROJECT_QDR_ROWS_AFFECTED n | PROJECT_QDR_SQLSTATE n => [.query n]
  | PROJECT_SYNC_MAP_LOS_TRUE_LOADED n left => left.uses ++ [.sync_map n]
  | CAST_UINT64 left | CAST_STRING left | EQ_UINT64 _ left | NEQ_UINT64 _ left | EQ_STRING _ left
  | NEQ_STRING _ left | MATCH_STRING _ left | NO_MATCH_STRING _ left | EQ_BOOL _ left | NEQ_BOOL _ left =>
    left.uses
  | yy_AND left right | yy_OR left right => left.uses ++ right.uses
  | _ => []

def references (us : List Use) : List (Bool × String) := us.filterMap Use.reference

theorem references_append (us vs : List Use) : references (us ++ vs) = references us ++ references vs :=
  List.filterMap_append ..

namespace Grammar

theorem bind_ok {α β : Type} {x : Except String α} {f : α → Except String β} {b : β}
    (h : (x >>= f) = .ok b) : ∃ a, x = .ok a ∧ f a = .ok b := by
  cases x with
  | error e => cases h
  | ok a => exact ⟨a, rfl, h⟩

theorem ite_ok {α : Type} {p : Prop} [Decidable p] {x : Except String α} {e : String} {a : α}
    (h : (if p then .error e else x) = .ok a) : ¬ p ∧ x = .ok a := by
  split_ifs at h with hp
  exact ⟨hp, h⟩

theorem ite_ok' {α : Type} {p : Prop} [Decidable p] {x : Except String α} {e : String} {a : α}
    (h : (if p then x else .error e) = .ok a) : p ∧ x = .ok a := by
  split_ifs at h with hp
  exact ⟨hp, h⟩

/-! ### What one action does -/

/-- A target after some references. -/
def Target.referred (refs : List (Bool × String)) (t : Target) : Target :=
  { t with depend_ref_count := t.depend_ref_count + UInt8.ofNat ((refs.map Prod.snd).count t.name) }

/-- What the parse of a part of the rule `name` does, by what the part uses. -/
structure Refers (name : String) (us : List Use) (l l' : yyLexState) : Prop where
  target : l'.target = l.target.map (Target.referred (references us))
  room : ∀ t ∈ l.target, t.depend_ref_count.toNat + ((references us).map Prod.snd).count t.name < 256
  known : ∀ r ∈ references us, r.2 ≠ name ∧ ∃ t ∈ l.target, t.name = r.2 ∧ t.object.is_command = r.1
  has_tail : .tail ∈ us → l.tail.isSome
  has_sync_map : ∀ n, .sync_map n ∈ us → n ∈ l.sync_map.map Prod.fst
  depends : l'.depends = l.depends ++ (us.filterMap (Use.depends_on (l.tail.getD ""))).map fun n => (name, n)
  tail : l'.tail = l.tail
  sync_map : l'.sync_map = l.sync_map.map fun sm => (sm.1, sm.2 || decide (.sync_map sm.1 ∈ us))
  ast_root : l'.ast_root = l.ast_root

section refers
variable {name : String} {us vs : List Use} {l l' l'' : yyLexState}

theorem referred_nil (t : Target) : t.referred [] = t := by simp [Target.referred]

theorem referred_append (refs refs' : List (Bool × String)) (t : Target) :
    (t.referred refs).referred refs' = t.referred (refs ++ refs') := by
  simp [Target.referred, UInt8.ofNat_add, UInt8.add_assoc]

theorem Refers.refl (name : String) (l : yyLexState) : Refers name [] l l where
  target := by
    have hid : Target.referred (references []) = id := funext referred_nil
    rw [hid, List.map_id]
  room := fun t _ => by simpa [references] using t.depend_ref_count.toNat_lt
  known := fun _ hno => absurd hno List.not_mem_nil
  has_tail := fun hno => absurd hno List.not_mem_nil
  has_sync_map := fun _ hno => absurd hno List.not_mem_nil
  depends := by simp
  tail := rfl
  sync_map := by simp
  ast_root := rfl

theorem Refers.names (h : Refers name us l l') : l'.target.map Target.name = l.target.map Target.name := by
  rw [h.target, List.map_map]
  rfl

theorem Refers.append (h : Refers name us l l') (h' : Refers name vs l' l'') : Refers name (us ++ vs) l l'' where
  target := by
    rw [h'.target, h.target, List.map_map, references_append]
    exact List.map_congr_left fun t _ => referred_append _ _ t
  room := fun t ht => by
    have hfirst := h.room t ht
    have hsecond := h'.room (t.referred (references us)) (h.target ▸ List.mem_map_of_mem ht)
    have hcount : (t.referred (references us)).depend_ref_count.toNat =
        t.depend_ref_count.toNat + ((references us).map Prod.snd).count t.name := by
      simp only [Target.referred, UInt8.toNat_add, UInt8.toNat_ofNat']
      omega
    rw [hcount] at hsecond
    rw [references_append, List.map_append, List.count_append, ← Nat.add_assoc]
    exact hsecond
  known := fun r hr => by
    rw [references_append] at hr
    rcases List.mem_append.mp hr with hr | hr
    · exact h.known r hr
    · obtain ⟨hne, t', ht', hname, hobject⟩ := h'.known r hr
      rw [h.target] at ht'
      obtain ⟨t, ht, rfl⟩ := List.mem_map.mp ht'
      exact ⟨hne, t, ht, hname, hobject⟩
  has_tail := fun htail => by
    rcases List.mem_append.mp htail with htail | htail
    · exact h.has_tail htail
    · exact h.tail ▸ h'.has_tail htail
  has_sync_map := fun n hn => by
    rcases List.mem_append.mp hn with hn | hn
    · exact h.has_sync_map n hn
    · have hmem := h'.has_sync_map n hn
      rw [h.sync_map, List.map_map] at hmem
      exact hmem
  depends := by
    rw [h'.depends, h.depends, h.tail, List.filterMap_append, List.map_append, List.append_assoc]
  tail := h'.tail.trans h.tail
  sync_map := by
    rw [h'.sync_map, h.sync_map, List.map_map]
    refine List.map_congr_left fun sm _ => ?_
    simp [Bool.or_assoc]
  ast_root := h'.ast_root.trans h.ast_root

theorem lookup_some {n : String} {t : Target} (h : l.lookup n = some t) : t ∈ l.target ∧ t.name = n :=
  ⟨List.mem_of_find?_eq_some h, by simpa using List.find?_some h⟩

/-- The use of a target by a projection from it. -/
def Target.use (t : Target) : Use := if t.object.is_command then .command t.name else .query t.name

theorem references_use (t : Target) : references [t.use] = [(t.object.is_command, t.name)] := by
  unfold Target.use
  cases hobject : t.object.is_command <;> simp [references, Use.reference]

theorem eq_of_name (hnames : (l.target.map Target.name).Nodup) {t u : Target} (ht : t ∈ l.target) (hu : u ∈ l.target)
    (hname : t.name = u.name) : t = u :=
  List.inj_on_of_nodup_map hnames ht hu hname

theorem refer_refers {s : Subject} {too_many : String} {t : Target} (hnames : (l.target.map Target.name).Nodup)
    (ht : t ∈ l.target) (h : refer l s too_many t = .ok l') : Refers s.name [t.use] l l' := by
  obtain ⟨hfull, h⟩ := ite_ok h
  obtain ⟨hself, h⟩ := ite_ok h
  obtain rfl := Except.ok.inj h
  have hdepend : t.use.depends_on (l.tail.getD "") = some t.name := by
    unfold Target.use
    split_ifs <;> rfl
  have huse : ∀ u, t.use = u → u = .command t.name ∨ u = .query t.name := by
    rintro u rfl
    unfold Target.use
    split_ifs
    · exact .inl rfl
    · exact .inr rfl
  have hcount : ∀ u : Target, ((references [t.use]).map Prod.snd).count u.name = if u.name = t.name then 1 else 0 := by
    intro u
    rw [references_use, List.map_singleton, List.count_singleton]
    by_cases hname : u.name = t.name
    · rw [if_pos hname, hname, if_pos (beq_self_eq_true _)]
    · rw [if_neg hname, if_neg (fun heq => hname (eq_of_beq heq).symm)]
  refine
    { target := List.map_congr_left fun u hu => ?_
      room := fun u hu => ?_
      known := fun r hr => ?_
      has_tail := fun hmem => ?_
      has_sync_map := fun n hmem => ?_
      depends := by simp [hdepend]
      tail := rfl
      sync_map := ?_
      ast_root := rfl }
  · rw [Target.referred, hcount u, Target.refer]
    split_ifs
    · rfl
    · change u = { u with depend_ref_count := u.depend_ref_count + 0 }
      rw [UInt8.add_zero]
  · rw [hcount u]
    have hlt := u.depend_ref_count.toNat_lt
    split_ifs with hname
    · have hne : u.depend_ref_count.toNat ≠ 255 := fun hbyte => hfull (by
        rw [← eq_of_name hnames hu ht hname]
        exact UInt8.toNat_inj.mp hbyte)
      omega
    · omega
  · rw [references_use, List.mem_singleton] at hr
    subst hr
    exact ⟨Ne.symm hself, t, ht, rfl, rfl⟩
  · rcases huse _ (List.mem_singleton.mp hmem).symm with hno | hno <;> cases hno
  · rcases huse _ (List.mem_singleton.mp hmem).symm with hno | hno <;> cases hno
  · have hno : ∀ n, Use.sync_map n ∉ [t.use] := fun n hmem => by
      rcases huse _ (List.mem_singleton.mp hmem).symm with hno | hno <;> cases hno
    simp [hno]

theorem command_use {n : String} {t : Target} (h : l.command n = .ok t) : t ∈ l.target ∧ t.use = .command n := by
  unfold yyLexState.command at h
  split at h
  case h_1 u hu =>
    obtain ⟨hcommand, h⟩ := ite_ok' h
    obtain rfl := Except.ok.inj h
    obtain ⟨hmem, rfl⟩ := lookup_some hu
    exact ⟨hmem, if_pos hcommand⟩
  case h_2 => cases h

theorem query_use {n : String} {t : Target} (h : l.query n = .ok t) : t ∈ l.target ∧ t.use = .query n := by
  unfold yyLexState.query at h
  split at h
  case h_1 u hu =>
    obtain ⟨hcommand, h⟩ := ite_ok h
    obtain rfl := Except.ok.inj h
    obtain ⟨hmem, rfl⟩ := lookup_some hu
    exact ⟨hmem, if_neg hcommand⟩
  case h_2 => cases h

theorem arg_refers {s : Subject} {p : Arg} {a : Ast} (hnames : (l.target.map Target.name).Nodup)
    (h : arg l s p = .ok (a, l')) : Refers s.name a.uses l l' := by
  induction p generalizing l' a with
  | constant c =>
    obtain ⟨rfl, rfl⟩ := Prod.mk.inj (Except.ok.inj h)
    cases c <;> exact .refl _ _
  | tail_project tail brr_field =>
    obtain ⟨htail, h⟩ := ite_ok' h
    obtain ⟨rfl, rfl⟩ := Prod.mk.inj (Except.ok.inj h)
    have hnone := Refers.refl s.name l
    exact
      { target := hnone.target
        room := hnone.room
        known := fun _ hno => absurd hno List.not_mem_nil
        has_tail := fun _ => by rw [htail]; rfl
        has_sync_map := fun n hno => by simp [Ast.uses] at hno
        depends := by simp [Ast.uses, Use.depends_on, htail]
        tail := rfl
        sync_map := by simp [Ast.uses]
        ast_root := rfl }
  | call_project command =>
    obtain ⟨t, ht, h⟩ := bind_ok h
    obtain ⟨l₁, hrefer, h⟩ := bind_ok h
    obtain ⟨rfl, rfl⟩ := Prod.mk.inj (Except.ok.inj h)
    obtain ⟨hmem, huse⟩ := command_use ht
    have hone := refer_refers hnames hmem hrefer
    rwa [huse] at hone
  | project_sync_map sync_map p ih =>
    obtain ⟨hsync, h⟩ := ite_ok' h
    obtain ⟨⟨left, l₁⟩, hleft, h⟩ := bind_ok h
    obtain ⟨rfl, rfl⟩ := Prod.mk.inj (Except.ok.inj h)
    refine (ih hleft).append ?_
    have hnone := Refers.refl s.name l₁
    have hknown : sync_map ∈ l₁.sync_map.map Prod.fst := by
      rw [(ih hleft).sync_map, List.map_map]
      obtain ⟨sm, hsm, hname⟩ := List.any_eq_true.mp hsync
      exact List.mem_map.mpr ⟨sm, hsm, of_decide_eq_true hname⟩
    exact
      { target := hnone.target
        room := hnone.room
        known := fun _ hno => absurd hno List.not_mem_nil
        has_tail := fun hno => by simp at hno
        has_sync_map := fun n hn => by
          obtain rfl := Use.sync_map.inj (List.mem_singleton.mp hn)
          exact hknown
        depends := by simp [Use.depends_on, reference_sync_map]
        tail := rfl
        sync_map := List.map_congr_left fun sm _ => by
          by_cases hname : sm.1 = sync_map <;> simp [hname]
        ast_root := rfl }

theorem query_project_refers {s : Subject} {p : QueryProject} {a : Ast} (hnames : (l.target.map Target.name).Nodup)
    (h : query_project l s p = .ok (a, l')) : Refers s.name a.uses l l' := by
  have hone : ∀ {n : String} {t : Target} {too_many : String}, l.query n = .ok t → refer l s too_many t = .ok l' →
      Refers s.name [.query n] l l' := fun ht hrefer => by
    obtain ⟨hmem, huse⟩ := query_use ht
    exact huse ▸ refer_refers hnames hmem hrefer
  cases p with
  | query_row_bool query name =>
    obtain ⟨t, ht, h⟩ := bind_ok h
    split at h
    case h_1 =>
      split at h
      case h_1 => cases h
      case h_2 =>
        obtain ⟨l₁, hrefer, h⟩ := bind_ok h
        obtain ⟨rfl, rfl⟩ := Prod.mk.inj (Except.ok.inj h)
        exact hone ht hrefer
    case h_2 => cases h
  | rows_affected query | sqlstate query =>
    obtain ⟨t, ht, h⟩ := bind_ok h
    obtain ⟨l₁, hrefer, h⟩ := bind_ok h
    obtain ⟨rfl, rfl⟩ := Prod.mk.inj (Except.ok.inj h)
    exact hone ht hrefer

section comparisons
variable {regexp_Compile : String → Bool} {left a : Ast} {o : RelOp} {c : Constant}

theorem uint64_rel_op_uses (left : Ast) (o : RelOp) (ui64 : UInt64) : (uint64_rel_op left o ui64).uses = left.uses := by
  unfold uint64_rel_op
  split_ifs <;> rfl

theorem bool_rel_op_uses (left : Ast) (o : RelOp) (v : Bool) : (bool_rel_op left o v).uses = left.uses := by
  unfold bool_rel_op
  split_ifs <;> rfl

theorem string_rel_op_uses {error s : String} (h : string_rel_op regexp_Compile error left s o = .ok a) :
    a.uses = left.uses := by
  cases o with
  | EQ | NEQ =>
    obtain rfl := Except.ok.inj h
    rfl
  | MATCH | NO_MATCH =>
    obtain ⟨-, h⟩ := ite_ok' h
    obtain rfl := Except.ok.inj h
    rfl

theorem wire_rel_op_uses {tail : String} (h : wire_rel_op regexp_Compile tail left o c = .ok a) : a.uses = left.uses := by
  unfold wire_rel_op at h
  split at h
  case h_1 | h_3 =>
    split at h
    · obtain rfl := Except.ok.inj h
      exact uint64_rel_op_uses ..
    · cases h
  case h_2 =>
    split at h
    · exact string_rel_op_uses h
    · cases h
  case h_4 =>
    obtain ⟨-, h⟩ := ite_ok' h
    split at h
    · obtain rfl := Except.ok.inj h
      exact bool_rel_op_uses ..
    · obtain rfl := Except.ok.inj h
      exact bool_rel_op_uses ..
    · cases h
  case h_5 => cases h

theorem query_rel_op_uses (h : query_rel_op regexp_Compile left o c = .ok a) : a.uses = left.uses := by
  cases c with
  | yy_TRUE | yy_FALSE =>
    obtain ⟨-, h⟩ := ite_ok' h
    obtain rfl := Except.ok.inj h
    exact bool_rel_op_uses ..
  | UINT64 =>
    obtain ⟨-, h⟩ := ite_ok' h
    obtain rfl := Except.ok.inj h
    exact uint64_rel_op_uses ..
  | STRING =>
    obtain ⟨-, h⟩ := ite_ok' h
    exact string_rel_op_uses h

theorem qualify_refers {s : Subject} {q : Qualify} (hnames : (l.target.map Target.name).Nodup)
    (h : qualify regexp_Compile l s q = .ok (a, l')) : Refers s.name a.uses l l' := by
  induction q generalizing l l' a with
  | projection p o c =>
    obtain ⟨⟨left, l₁⟩, hleft, h⟩ := bind_ok h
    obtain ⟨b, hb, h⟩ := bind_ok h
    obtain ⟨rfl, rfl⟩ := Prod.mk.inj (Except.ok.inj h)
    rw [wire_rel_op_uses hb]
    exact arg_refers hnames hleft
  | query_project p o c =>
    obtain ⟨⟨left, l₁⟩, hleft, h⟩ := bind_ok h
    obtain ⟨b, hb, h⟩ := bind_ok h
    obtain ⟨rfl, rfl⟩ := Prod.mk.inj (Except.ok.inj h)
    rw [query_rel_op_uses hb]
    exact query_project_refers hnames hleft
  | yy_AND left right ihl ihr | yy_OR left right ihl ihr =>
    obtain ⟨⟨left, l₁⟩, hleft, h⟩ := bind_ok h
    obtain ⟨⟨right, l₂⟩, hright, h⟩ := bind_ok h
    obtain ⟨rfl, rfl⟩ := Prod.mk.inj (Except.ok.inj h)
    have hfirst := ihl hnames hleft
    exact hfirst.append (ihr (hfirst.names ▸ hnames) hright)

theorem when_clause_refers {s : Subject} {q : Option Qualify} (hnames : (l.target.map Target.name).Nodup)
    (h : when_clause regexp_Compile l s q = .ok (a, l')) : Refers s.name a.uses l l' := by
  cases q with
  | none =>
    obtain ⟨rfl, rfl⟩ := Prod.mk.inj (Except.ok.inj h)
    exact .refl _ _
  | some q => exact qualify_refers hnames h

end comparisons

theorem arg_list_refers {s : Subject} {ps : List Arg} {as : List Ast} (hnames : (l.target.map Target.name).Nodup)
    (h : arg_list l s ps = .ok (as, l')) : Refers s.name (as.flatMap Ast.uses) l l' := by
  induction ps generalizing l l' as with
  | nil =>
    obtain ⟨rfl, rfl⟩ := Prod.mk.inj (Except.ok.inj h)
    exact .refl _ _
  | cons p ps ih =>
    obtain ⟨⟨a, l₁⟩, ha, h⟩ := bind_ok h
    obtain ⟨⟨as, l₂⟩, has, h⟩ := bind_ok h
    obtain ⟨rfl, rfl⟩ := Prod.mk.inj (Except.ok.inj h)
    have hfirst := arg_refers hnames ha
    exact hfirst.append (ih (hfirst.names ▸ hnames) has)

theorem cast_argument_uses (a : Ast) : (cast_argument a).uses = a.uses := by
  unfold cast_argument
  split_ifs <;> rfl

def yyLexState.call (l : yyLexState) (n : String) : yyLexState := { l with target := l.target.map (Target.call n) }

theorem call_name (n : String) (t : Target) : (t.call n).name = t.name := by
  unfold Target.call
  split_ifs <;> rfl

theorem call_object (n : String) (t : Target) : (t.call n).object = t.object := by
  unfold Target.call
  split_ifs <;> rfl

theorem call_count (n : String) (t : Target) : (t.call n).depend_ref_count = t.depend_ref_count := by
  unfold Target.call
  split_ifs <;> rfl

theorem call_called (n : String) (t : Target) : (t.call n).called = true ↔ t.called = true ∨ t.name = n := by
  unfold Target.call
  split_ifs with hn <;> simp [hn]

theorem call_referred (n : String) (refs : List (Bool × String)) (t : Target) :
    (t.call n).referred refs = (t.referred refs).call n := by
  unfold Target.call Target.referred
  split_ifs <;> rfl

/-- That a statement is called makes no difference for the references in it. -/
theorem Refers.of_call {n : String} (h : Refers name us (l.call n) l'') : ∃ l', Refers name us l l' ∧ l'' = l'.call n := by
  have htarget : l''.target = (l.target.map (Target.referred (references us))).map (Target.call n) := by
    rw [h.target, yyLexState.call, List.map_map, List.map_map]
    exact List.map_congr_left fun t _ => call_referred ..
  refine ⟨{ l'' with target := l.target.map (Target.referred (references us)) },
    { target := rfl
      room := fun t ht => ?_
      known := fun r hr => ?_
      has_tail := h.has_tail
      has_sync_map := h.has_sync_map
      depends := h.depends
      tail := h.tail
      sync_map := h.sync_map
      ast_root := h.ast_root }, ?_⟩
  · have hroom := h.room (t.call n) (List.mem_map_of_mem ht)
    rwa [call_count, call_name] at hroom
  · obtain ⟨hne, t', ht', hname, hobject⟩ := h.known r hr
    obtain ⟨t, ht, rfl⟩ := List.mem_map.mp ht'
    rw [call_name] at hname
    rw [call_object] at hobject
    exact ⟨hne, t, ht, hname, hobject⟩
  · rw [yyLexState.call, ← htarget]

def Fire.uses (f : Fire) : List Use := f.args.flatMap Ast.uses ++ f.when_clause.uses

/-- What a statement that fires leaves. -/
theorem fire_cases {regexp_Compile : String → Bool} {s : Subject} {called_twice : String} {t : Target} {tok : Firing}
    {args : List Arg} {q : Option Qualify} (hnames : (l.target.map Target.name).Nodup) (hs : s.name = t.name)
    (h : fire regexp_Compile l s called_twice t tok args q = .ok l') :
    ∃ f l₁, t.called = false ∧ f.tok = tok ∧ f.name = t.name ∧ Refers t.name f.uses l l₁ ∧
      l' = { l₁.call t.name with ast_root := l.ast_root ++ [f] } := by
  obtain ⟨⟨as, l₁⟩, has, h⟩ := bind_ok h
  obtain ⟨hcalled, h⟩ := ite_ok h
  obtain ⟨⟨a, l₂⟩, ha, h⟩ := bind_ok h
  obtain rfl := Except.ok.inj h
  have hargs := arg_list_refers hnames has
  have hnames' : ((l₁.call t.name).target.map Target.name).Nodup := by
    have hsame : (l₁.call t.name).target.map Target.name = l₁.target.map Target.name := by
      rw [yyLexState.call, List.map_map]
      exact List.map_congr_left fun u _ => call_name ..
    rw [hsame, hargs.names]
    exact hnames
  obtain ⟨l₃, hwhen, rfl⟩ := (when_clause_refers hnames' ha).of_call
  have hboth := hargs.append hwhen
  have huses : (as.map cast_argument).flatMap Ast.uses = as.flatMap Ast.uses := by
    rw [List.flatMap_map]
    exact List.flatMap_congr fun a _ => cast_argument_uses a
  rw [hs, ← huses] at hboth
  refine ⟨⟨tok, t.name, as.map cast_argument, a⟩, l₃, Bool.not_eq_true _ ▸ hcalled, rfl, rfl, hboth, ?_⟩
  rw [← hboth.ast_root]
  rfl

end refers

/-! ### What a configuration as a whole leaves -/

/-- The dependencies of a rule. -/
def Fire.arcs (tail : String) (f : Fire) : List (String × String) :=
  (f.uses.filterMap (Use.depends_on tail)).map fun n => (f.name, n)

def yyLexState.references (l : yyLexState) : List (Bool × String) := l.ast_root.flatMap fun f => Flowd.references f.uses

/-- Names are unique, every projection is counted and a dependency, and every statement is called once. -/
structure Accounted (l : yyLexState) : Prop where
  names : (l.target.map Target.name).Nodup
  apart : ∀ t ∈ l.target, l.tail ≠ some t.name
  spaceless : ∀ t ∈ l.target, ' ' ∉ t.name.toList
  tail_spaceless : ∀ n, l.tail = some n → ' ' ∉ n.toList
  counted : ∀ t ∈ l.target, t.depend_ref_count.toNat = (l.references.map Prod.snd).count t.name
  known : ∀ f ∈ l.ast_root, ∀ r ∈ Flowd.references f.uses,
    r.2 ≠ f.name ∧ ∃ t ∈ l.target, t.name = r.2 ∧ t.object.is_command = r.1
  has_tail : ∀ f ∈ l.ast_root, .tail ∈ f.uses → l.tail.isSome
  has_sync_map : ∀ f ∈ l.ast_root, ∀ n, .sync_map n ∈ f.uses → n ∈ l.sync_map.map Prod.fst
  referenced : ∀ sm ∈ l.sync_map, sm.2 = true ↔ ∃ f ∈ l.ast_root, .sync_map sm.1 ∈ f.uses
  fires : (l.ast_root.map Fire.name).Nodup
  called : ∀ t ∈ l.target, t.called = true ↔ t.name ∈ l.ast_root.map Fire.name
  aimed : ∀ f ∈ l.ast_root, ∃ t ∈ l.target, t.name = f.name ∧ t.object.is_command = f.is_call
  depends : l.depends = l.ast_root.flatMap (Fire.arcs (l.tail.getD ""))

section accounted
variable {l l' : yyLexState} {n : String}

theorem accounted_start : Accounted {} where
  names := List.nodup_nil
  apart := fun _ hno => absurd hno List.not_mem_nil
  spaceless := fun _ hno => absurd hno List.not_mem_nil
  tail_spaceless := fun _ hno => by cases hno
  counted := fun _ hno => absurd hno List.not_mem_nil
  known := fun _ hno => absurd hno List.not_mem_nil
  has_tail := fun _ hno => absurd hno List.not_mem_nil
  has_sync_map := fun _ hno => absurd hno List.not_mem_nil
  referenced := fun _ hno => absurd hno List.not_mem_nil
  fires := List.nodup_nil
  called := fun _ hno => absurd hno List.not_mem_nil
  aimed := fun _ hno => absurd hno List.not_mem_nil
  depends := rfl

/-- A name that is new. -/
structure Fresh (l : yyLexState) (n : String) : Prop where
  spaceless : ' ' ∉ n.toList
  tail : l.tail ≠ some n
  sync_map : n ∉ l.sync_map.map Prod.fst
  target : n ∉ l.target.map Target.name

theorem fresh_of_new_name {u : Unit} (h : new_name l n = .ok u) : Fresh l n := by
  obtain ⟨hname, -⟩ := ite_ok' h
  obtain ⟨-, hword, htail, hsync, htarget⟩ := of_decide_eq_true hname
  refine ⟨fun hspace => ?_, htail, fun hmem => ?_, fun hmem => ?_⟩
  · have hblank := of_decide_eq_true (List.all_eq_true.mp hword _ hspace)
    exact absurd hblank (by decide)
  · obtain ⟨sm, hsm, hname⟩ := List.mem_map.mp hmem
    exact of_decide_eq_true (List.all_eq_true.mp hsync sm hsm) hname
  · obtain ⟨t, ht, hname⟩ := List.mem_map.mp hmem
    exact List.find?_eq_none.mp htarget t ht (decide_eq_true hname)

theorem Accounted.reference_known (h : Accounted l) {r : Bool × String} (hr : r ∈ l.references) :
    ∃ t ∈ l.target, t.name = r.2 ∧ t.object.is_command = r.1 := by
  obtain ⟨f, hf, hr⟩ := List.mem_flatMap.mp hr
  exact (h.known f hf r hr).2

theorem Accounted.declare_target (h : Accounted l) (hn : Fresh l n) (o : Object) :
    Accounted { l with target := l.target ++ [⟨n, o, 0, false⟩] } where
  names := by
    rw [List.map_append, List.nodup_append]
    refine ⟨h.names, List.nodup_singleton _, fun m hm k hk heq => ?_⟩
    obtain rfl := List.mem_singleton.mp hk
    exact hn.target (heq ▸ hm)
  apart := fun t ht => by
    rcases List.mem_append.mp ht with ht | ht
    · exact h.apart t ht
    · obtain rfl := List.mem_singleton.mp ht
      exact hn.tail
  spaceless := fun t ht => by
    rcases List.mem_append.mp ht with ht | ht
    · exact h.spaceless t ht
    · obtain rfl := List.mem_singleton.mp ht
      exact hn.spaceless
  tail_spaceless := h.tail_spaceless
  counted := fun t ht => by
    rcases List.mem_append.mp ht with ht | ht
    · exact h.counted t ht
    · obtain rfl := List.mem_singleton.mp ht
      refine (List.count_eq_zero.mpr fun hmem => ?_).symm
      obtain ⟨r, hr, rfl⟩ := List.mem_map.mp hmem
      obtain ⟨t, ht, hname, -⟩ := h.reference_known hr
      exact hn.target (hname ▸ List.mem_map_of_mem ht)
  known := fun f hf r hr => by
    obtain ⟨hne, t, ht, hknown⟩ := h.known f hf r hr
    exact ⟨hne, t, List.mem_append_left _ ht, hknown⟩
  has_tail := h.has_tail
  has_sync_map := h.has_sync_map
  referenced := h.referenced
  fires := h.fires
  called := fun t ht => by
    rcases List.mem_append.mp ht with ht | ht
    · exact h.called t ht
    · obtain rfl := List.mem_singleton.mp ht
      refine iff_of_false Bool.false_ne_true fun hmem => ?_
      obtain ⟨f, hf, hname⟩ := List.mem_map.mp hmem
      obtain ⟨t, ht, htarget, -⟩ := h.aimed f hf
      exact hn.target (List.mem_map.mpr ⟨t, ht, htarget.trans hname⟩)
  aimed := fun f hf => by
    obtain ⟨t, ht, haimed⟩ := h.aimed f hf
    exact ⟨t, List.mem_append_left _ ht, haimed⟩
  depends := h.depends

theorem Accounted.declare_tail (h : Accounted l) (hn : Fresh l n) (htail : l.tail = none) :
    Accounted { l with tail := some n } where
  names := h.names
  apart := fun t ht heq => hn.target (Option.some.inj heq ▸ List.mem_map_of_mem ht)
  spaceless := h.spaceless
  tail_spaceless := fun m hm => Option.some.inj hm ▸ hn.spaceless
  counted := h.counted
  known := h.known
  has_tail := fun _ _ _ => rfl
  has_sync_map := h.has_sync_map
  referenced := h.referenced
  fires := h.fires
  called := h.called
  aimed := h.aimed
  depends := by
    refine h.depends.trans (List.flatMap_congr fun f hf => ?_)
    have hno : .tail ∉ f.uses := fun hmem => by
      have hsome := h.has_tail f hf hmem
      rw [htail] at hsome
      cases hsome
    unfold Fire.arcs
    refine congrArg _ (List.filterMap_congr fun u hu => ?_)
    cases u with
    | tail => exact absurd hu hno
    | command | query | sync_map => rfl

theorem Accounted.declare_sync_map (h : Accounted l) (hn : Fresh l n) :
    Accounted { l with sync_map := l.sync_map ++ [(n, false)] } where
  names := h.names
  apart := h.apart
  spaceless := h.spaceless
  tail_spaceless := h.tail_spaceless
  counted := h.counted
  known := h.known
  has_tail := h.has_tail
  has_sync_map := fun f hf m hm => by
    rw [List.map_append]
    exact List.mem_append_left _ (h.has_sync_map f hf m hm)
  referenced := fun sm hsm => by
    rcases List.mem_append.mp hsm with hsm | hsm
    · exact h.referenced sm hsm
    · obtain rfl := List.mem_singleton.mp hsm
      exact iff_of_false Bool.false_ne_true fun ⟨f, hf, huse⟩ => hn.sync_map (h.has_sync_map f hf n huse)
  fires := h.fires
  called := h.called
  aimed := h.aimed
  depends := h.depends

section fire
variable {name : String} {f : Fire}

/-- A statement that fires changes the counts of the targets and what has been called, nothing else of them. -/
theorem Refers.mem_target (hrefers : Refers name f.uses l l') {u : Target} : u ∈ (l'.call name).target ↔
    ∃ v ∈ l.target, (v.referred (Flowd.references f.uses)).call name = u := by
  rw [yyLexState.call, hrefers.target, List.map_map, List.mem_map]
  rfl

theorem Refers.target_names (hrefers : Refers name f.uses l l') :
    (l'.call name).target.map Target.name = l.target.map Target.name := by
  rw [yyLexState.call, hrefers.target, List.map_map, List.map_map]
  exact List.map_congr_left fun u _ => call_name ..

theorem Refers.target_known (hrefers : Refers name f.uses l l') {n : String} {is_command : Bool}
    (h : ∃ u ∈ l.target, u.name = n ∧ u.object.is_command = is_command) :
    ∃ u ∈ (l'.call name).target, u.name = n ∧ u.object.is_command = is_command := by
  obtain ⟨u, hu, rfl, rfl⟩ := h
  exact ⟨_, hrefers.mem_target.mpr ⟨u, hu, rfl⟩, call_name .., congrArg Object.is_command (call_object ..)⟩

theorem Accounted.fire_counted (h : Accounted l) (hrefers : Refers name f.uses l l') {u : Target}
    (hu : u ∈ (l'.call name).target) : u.depend_ref_count.toNat =
      (((l.ast_root ++ [f]).flatMap fun g => Flowd.references g.uses).map Prod.snd).count u.name := by
  obtain ⟨v, hv, rfl⟩ := hrefers.mem_target.mp hu
  have hroom := hrefers.room v hv
  have hcount := h.counted v hv
  rw [call_count, call_name]
  simp only [List.flatMap_append, List.flatMap_singleton, List.map_append, List.count_append]
  rw [yyLexState.references] at hcount
  simp only [Target.referred, UInt8.toNat_add, UInt8.toNat_ofNat']
  omega

theorem Accounted.fire_known (h : Accounted l) (hrefers : Refers name f.uses l l') (hname : f.name = name) :
    ∀ g ∈ l.ast_root ++ [f], ∀ r ∈ Flowd.references g.uses,
      r.2 ≠ g.name ∧ ∃ u ∈ (l'.call name).target, u.name = r.2 ∧ u.object.is_command = r.1 := by
  intro g hg r hr
  rcases List.mem_append.mp hg with hg | hg
  · exact (h.known g hg r hr).imp_right hrefers.target_known
  · obtain rfl := List.mem_singleton.mp hg
    obtain ⟨hne, hknown⟩ := hrefers.known r hr
    exact ⟨hname ▸ hne, hrefers.target_known hknown⟩

theorem Accounted.fire_has_sync_map (h : Accounted l) (hrefers : Refers name f.uses l l') :
    ∀ g ∈ l.ast_root ++ [f], ∀ n, .sync_map n ∈ g.uses → n ∈ l'.sync_map.map Prod.fst := by
  intro g hg n hu
  have hnames : l'.sync_map.map Prod.fst = l.sync_map.map Prod.fst := by
    rw [hrefers.sync_map, List.map_map]
    rfl
  rw [hnames]
  rcases List.mem_append.mp hg with hg | hg
  · exact h.has_sync_map g hg n hu
  · obtain rfl := List.mem_singleton.mp hg
    exact hrefers.has_sync_map n hu

theorem Accounted.fire_referenced (h : Accounted l) (hrefers : Refers name f.uses l l') :
    ∀ sm ∈ l'.sync_map, sm.2 = true ↔ ∃ g ∈ l.ast_root ++ [f], .sync_map sm.1 ∈ g.uses := by
  intro sm hsm
  rw [hrefers.sync_map] at hsm
  obtain ⟨old, hsm', rfl⟩ := List.mem_map.mp hsm
  rw [Bool.or_eq_true, decide_eq_true_eq, h.referenced old hsm']
  simp [or_and_right, exists_or]

theorem Accounted.fire (h : Accounted l) {t : Target} (ht : t ∈ l.target) (hcalled : t.called = false)
    (hname : f.name = t.name) (hcall : t.object.is_command = f.is_call) (hrefers : Refers t.name f.uses l l') :
    Accounted { l'.call t.name with ast_root := l.ast_root ++ [f] } := by
  have htail : (l'.call t.name).tail = l.tail := hrefers.tail
  have hold : ∀ g, g ∈ l.ast_root ++ [f] → g ∈ l.ast_root ∨ g = f := fun g hg =>
    (List.mem_append.mp hg).imp_right List.mem_singleton.mp
  refine
    { names := hrefers.target_names ▸ h.names
      apart := fun u hu => ?apart
      spaceless := fun u hu => ?spaceless
      tail_spaceless := fun n hn => h.tail_spaceless n (htail ▸ hn)
      counted := fun u hu => h.fire_counted hrefers hu
      known := h.fire_known hrefers hname
      has_tail := fun g hg hu => ?has_tail
      has_sync_map := fun g hg n hu => h.fire_has_sync_map hrefers g hg n hu
      referenced := fun sm hsm => h.fire_referenced hrefers sm hsm
      fires := ?fires
      called := fun u hu => ?called
      aimed := fun g hg => hrefers.target_known ?aimed
      depends := ?depends }
  case apart =>
    obtain ⟨v, hv, rfl⟩ := hrefers.mem_target.mp hu
    rw [call_name]
    exact htail ▸ h.apart v hv
  case spaceless =>
    obtain ⟨v, hv, rfl⟩ := hrefers.mem_target.mp hu
    rw [call_name]
    exact h.spaceless v hv
  case has_tail =>
    refine htail.symm ▸ ?_
    rcases hold g hg with hg | rfl
    · exact h.has_tail g hg hu
    · exact hrefers.has_tail hu
  case fires =>
    rw [List.map_append, List.nodup_append]
    refine ⟨h.fires, List.nodup_singleton _, fun m hm k hk heq => ?_⟩
    obtain rfl := List.mem_singleton.mp hk
    rw [heq, hname] at hm
    rw [(h.called t ht).mpr hm] at hcalled
    cases hcalled
  case called =>
    obtain ⟨v, hv, rfl⟩ := hrefers.mem_target.mp hu
    rw [call_called, call_name, List.map_append, List.mem_append, List.map_singleton, List.mem_singleton, hname]
    exact or_congr (h.called v hv) Iff.rfl
  case aimed =>
    rcases hold g hg with hg | rfl
    · exact h.aimed g hg
    · exact ⟨t, ht, hname.symm, hcall⟩
  case depends =>
    change l'.depends = (l.ast_root ++ [f]).flatMap (Fire.arcs (l'.tail.getD ""))
    rw [hrefers.depends, hrefers.tail, h.depends, List.flatMap_append, List.flatMap_singleton, Fire.arcs, hname]

end fire

theorem statement_accounted {regexp_Compile : String → Bool} {st : Statement} (h : Accounted l)
    (hst : statement regexp_Compile l st = .ok l') : Accounted l' := by
  cases st with
  | sync_map name =>
    obtain ⟨u, hnew, hst⟩ := bind_ok hst
    obtain rfl := Except.ok.inj hst
    exact h.declare_sync_map (fresh_of_new_name hnew)
  | tail name =>
    obtain ⟨u, hnew, hst⟩ := bind_ok hst
    split at hst
    case h_1 htail =>
      obtain rfl := Except.ok.inj hst
      exact h.declare_tail (fresh_of_new_name hnew) htail
    case h_2 => cases hst
  | command name path =>
    obtain ⟨u, hnew, hst⟩ := bind_ok hst
    obtain ⟨-, hst⟩ := ite_ok hst
    obtain ⟨-, hst⟩ := ite_ok hst
    obtain rfl := Except.ok.inj hst
    exact h.declare_target (fresh_of_new_name hnew) _
  | sql_query_row name row =>
    obtain ⟨u, hnew, hst⟩ := bind_ok hst
    obtain ⟨name2result, -, hst⟩ := bind_ok hst
    obtain ⟨-, hst⟩ := ite_ok hst
    obtain rfl := Except.ok.inj hst
    exact h.declare_target (fresh_of_new_name hnew) _
  | sql_exec name stmts =>
    obtain ⟨u, hnew, hst⟩ := bind_ok hst
    obtain ⟨-, hst⟩ := ite_ok hst
    obtain rfl := Except.ok.inj hst
    exact h.declare_target (fresh_of_new_name hnew) _
  | call name args when_ =>
    rw [statement] at hst
    split at hst
    case h_1 => cases hst
    case h_2 t hlookup =>
      obtain ⟨ht, hname⟩ := lookup_some hlookup
      split at hst
      case h_1 path hobject =>
        obtain ⟨f, l₁, hcalled, htok, hfire, hrefers, rfl⟩ := fire_cases h.names hname.symm hst
        refine h.fire ht hcalled hfire ?_ hrefers
        rw [hobject, Fire.is_call, htok]
        split_ifs <;> rfl
      case h_2 => cases hst
  | query name args when_ =>
    rw [statement] at hst
    split at hst
    case h_1 => cases hst
    case h_2 t hlookup =>
      obtain ⟨ht, hname⟩ := lookup_some hlookup
      split at hst
      case h_1 => cases hst
      case h_2 row hobject =>
        obtain ⟨f, l₁, hcalled, htok, hfire, hrefers, rfl⟩ := fire_cases h.names hname.symm hst
        refine h.fire ht hcalled hfire ?_ hrefers
        rw [hobject, Fire.is_call, htok]
        rfl
      case h_3 stmts hobject =>
        obtain ⟨f, l₁, hcalled, htok, hfire, hrefers, rfl⟩ := fire_cases h.names hname.symm hst
        refine h.fire ht hcalled hfire ?_ hrefers
        rw [hobject, Fire.is_call, htok]
        split_ifs <;> rfl

theorem statement_list_accounted {regexp_Compile : String → Bool} {conf : List Statement} (h : Accounted l)
    (hconf : statement_list regexp_Compile l conf = .ok l') : Accounted l' := by
  induction conf generalizing l with
  | nil =>
    obtain rfl := Except.ok.inj hconf
    exact h
  | cons st conf ih =>
    obtain ⟨l₁, hst, hconf⟩ := bind_ok hconf
    exact ih (statement_accounted h hst) hconf

end accounted

/-! ### The order that the dependencies are compiled in -/

section order
variable {arcs : List (String × String)} {hlen : arcs.length < 2 ^ 63} {o : Tsort.MapOrder Text} {order : List Text}

theorem pair_edge {e : String × String} (h : ' ' ∉ e.1.toList) (h' : ' ' ∉ e.2.toList) :
    Tsort.pair (edge e) = (e.1.toList, e.2.toList) := by
  rw [Tsort.pair, edge, List.splitOn_append_cons_self_of_not_mem h, List.splitOn_eq_singleton h']
  rfl

theorem graph_arcs (hspace : ∀ e ∈ arcs, ' ' ∉ e.1.toList ∧ ' ' ∉ e.2.toList) :
    (graph arcs hlen).arcs = arcs.map fun e => (e.1.toList, e.2.toList) := by
  rw [Tsort.Graph.arcs, graph, List.map_map]
  exact List.map_congr_left fun e he => pair_edge (hspace e he).1 (hspace e he).2

/-- The names of the dependencies, each behind those that it depends on. -/
theorem depend_order_spec (h : Tsort.tsort o (graph arcs hlen) = some order)
    (hspace : ∀ e ∈ arcs, ' ' ∉ e.1.toList ∧ ' ' ∉ e.2.toList) :
    (∀ n, n ∈ order.reverse.map String.ofList ↔ ∃ e ∈ arcs, n = e.1 ∨ n = e.2) ∧
      ∀ pre n post m, order.reverse.map String.ofList = pre ++ n :: post → (n, m) ∈ arcs → n ≠ m → m ∈ pre := by
  have horder := (Tsort.tsort_order o _).2.2 order h
  rw [graph_arcs hspace] at horder
  refine ⟨fun n => ?_, fun pre n post m heq harc hne => ?_⟩
  · have hmem : n ∈ order.reverse.map String.ofList ↔ n.toList ∈ order := by
      rw [List.mem_map]
      constructor
      · rintro ⟨t, ht, rfl⟩
        rw [String.toList_ofList]
        exact List.mem_reverse.mp ht
      · exact fun ht => ⟨n.toList, List.mem_reverse.mpr ht, String.ofList_toList⟩
    rw [hmem, horder.mem_iff]
    constructor
    · rintro ⟨e, he, hn⟩
      obtain ⟨arc, harc, rfl⟩ := List.mem_map.mp he
      exact ⟨arc, harc, hn.imp String.toList_inj.mp String.toList_inj.mp⟩
    · rintro ⟨arc, harc, hn⟩
      exact ⟨_, List.mem_map_of_mem harc, hn.imp (congrArg _) (congrArg _)⟩
  · have horder' : order = (post.map String.toList).reverse ++ n.toList :: (pre.map String.toList).reverse := by
      have hlists := congrArg (List.map String.toList) heq
      have hid : (String.toList ∘ String.ofList) = id := funext fun t => String.toList_ofList
      rw [List.map_map, hid, List.map_id] at hlists
      rw [← List.reverse_reverse order, hlists]
      simp
    rw [horder'] at horder
    have hbehind := horder.mem_behind (b := m.toList)
      ⟨List.mem_map.mpr ⟨(n, m), harc, rfl⟩, fun hsame => hne (String.toList_inj.mp hsame)⟩
    rw [List.mem_reverse] at hbehind
    obtain ⟨k, hk, hsame⟩ := List.mem_map.mp hbehind
    exact String.toList_inj.mp hsame ▸ hk

end order

/-! ### What compile() is given -/

end Grammar

def Rule.is_call (r : Rule) : Bool := r.tok = .CALLX0 ∨ r.tok = .CALL

def Rule.uses (r : Rule) : List Use := r.args.flatMap Ast.uses ++ r.when_clause.uses

def Rule.references (r : Rule) : List (Bool × String) := Flowd.references r.uses

def Parse.rules (par : Parse) : List Rule := par.call2ast ++ par.query2ast

def Parse.references (par : Parse) : List (Bool × String) := par.rules.flatMap Rule.references

/-- The calls and queries that the order has: the builtin command without dependencies is not among
them. -/
def Parse.Orders (par : Parse) (r : Rule) : Prop :=
  r.uses.filterMap (Use.depends_on par.tail) ≠ [] ∨ r.name ∈ par.references.map Prod.snd ∨ r.tok ≠ .CALLX0

namespace Grammar

/-- What is true of all that the parser accepts. -/
structure Parsed (par : Parse) : Prop where
  names : (par.rules.map Rule.name).Nodup
  calls : ∀ r ∈ par.call2ast, r.is_call = true
  queries : ∀ r ∈ par.query2ast, r.is_call = false
  apart : ∀ r ∈ par.rules, r.name ≠ par.tail
  counted : ∀ r ∈ par.rules, r.depend_ref_count.toNat = (par.references.map Prod.snd).count r.name
  known : ∀ ref ∈ par.references, ref.2 ≠ par.tail ∧ ∀ r ∈ par.rules, r.name = ref.2 → r.is_call = ref.1
  ahead : ∀ pre post r, par.depend_order = pre ++ r.name :: post → r ∈ par.rules → ∀ ref ∈ r.references, ref.2 ∈ pre
  ordered : ∀ r ∈ par.rules, r.name ∈ par.depend_order ↔ par.Orders r
  referenced : ∀ sm ∈ par.sync_map, sm.2 = true ↔ ∃ r ∈ par.rules, .sync_map sm.1 ∈ r.uses

section parsed
variable {l : yyLexState} {keys : KeyOrder} {tail : String}

theorem Accounted.lookup_eq (h : Accounted l) {t : Target} (ht : t ∈ l.target) : l.lookup t.name = some t := by
  cases hlookup : l.lookup t.name with
  | none =>
    exact absurd (decide_eq_true rfl) (List.find?_eq_none.mp hlookup t ht)
  | some u =>
    obtain ⟨hu, hname⟩ := lookup_some hlookup
    rw [eq_of_name h.names hu ht hname]

theorem rules_perm (l : yyLexState) : ((l.ast_root.filter Fire.is_call).map l.rule ++
    (l.ast_root.filter fun f => !f.is_call).map l.rule).Perm (l.ast_root.map l.rule) := by
  rw [← List.map_append]
  exact (List.filter_append_perm Fire.is_call l.ast_root).map _

theorem mem_root_depend (h : Accounted l) {n : String} : n ∈ root_depend l ↔
    ∃ f ∈ l.ast_root, f.name = n ∧ f.tok ≠ .CALLX0 ∧ n ∉ l.references.map Prod.snd := by
  have hone : ∀ f ∈ l.ast_root, unreferenced l f = true ↔ f.tok ≠ .CALLX0 ∧ f.name ∉ l.references.map Prod.snd := by
    intro f hf
    obtain ⟨t, ht, hname, -⟩ := h.aimed f hf
    have hcalled : t.called = true := (h.called t ht).mpr (hname ▸ List.mem_map_of_mem hf)
    have hzero : t.depend_ref_count = 0 ↔ f.name ∉ l.references.map Prod.snd := by
      rw [← List.count_eq_zero, ← hname, ← h.counted t ht, ← UInt8.toNat_inj]
      rfl
    unfold unreferenced
    rw [← hname, h.lookup_eq ht, hname]
    cases f.tok <;> simp [hcalled, hzero]
  rw [root_depend, List.mem_dedup, List.mem_map]
  constructor
  · rintro ⟨f, hf, rfl⟩
    obtain ⟨hmem, hun⟩ := List.mem_filter.mp hf
    exact ⟨f, hmem, rfl, (hone f hmem).mp hun⟩
  · rintro ⟨f, hf, rfl, hun⟩
    exact ⟨f, List.mem_filter.mpr ⟨hf, (hone f hf).mpr hun⟩, rfl⟩

theorem mem_depends (h : Accounted l) (htail : l.tail = some tail) {e : String × String} : e ∈ depends keys l ↔
    (∃ f ∈ l.ast_root, f.name = e.1 ∧ e.2 ∈ f.uses.filterMap (Use.depends_on tail)) ∨
      e.1 = e.2 ∧ e.1 ∈ root_depend l := by
  rw [Grammar.depends, List.mem_append, h.depends, htail, Option.getD_some]
  refine or_congr ?_ ?_
  · rw [List.mem_flatMap]
    refine exists_congr fun f => and_congr_right fun _ => ?_
    rw [Fire.arcs, List.mem_map]
    constructor
    · rintro ⟨n, hn, rfl⟩
      exact ⟨rfl, hn⟩
    · rintro ⟨hname, hn⟩
      exact ⟨e.2, hn, by rw [hname]⟩
  · rw [List.mem_map]
    constructor
    · rintro ⟨n, hn, rfl⟩
      exact ⟨rfl, (keys.perm _).mem_iff.mp hn⟩
    · rintro ⟨hsame, hn⟩
      exact ⟨e.1, (keys.perm _).mem_iff.mpr hn, by rw [Prod.ext_iff]; exact ⟨rfl, hsame⟩⟩

theorem depends_on_iff {us : List Use} {n : String} : n ∈ us.filterMap (Use.depends_on tail) ↔
    n = tail ∧ .tail ∈ us ∨ n ∈ (references us).map Prod.snd := by
  rw [List.mem_filterMap]
  constructor
  · rintro ⟨u, hu, heq⟩
    cases u with
    | tail => exact .inl ⟨(Option.some.inj heq).symm, hu⟩
    | command m =>
      obtain rfl := Option.some.inj heq
      exact .inr (List.mem_map.mpr ⟨(true, m), List.mem_filterMap.mpr ⟨_, hu, rfl⟩, rfl⟩)
    | query m =>
      obtain rfl := Option.some.inj heq
      exact .inr (List.mem_map.mpr ⟨(false, m), List.mem_filterMap.mpr ⟨_, hu, rfl⟩, rfl⟩)
    | sync_map m => cases heq
  · rintro (⟨rfl, hu⟩ | hn)
    · exact ⟨.tail, hu, rfl⟩
    · obtain ⟨r, hr, rfl⟩ := List.mem_map.mp hn
      obtain ⟨u, hu, heq⟩ := List.mem_filterMap.mp hr
      refine ⟨u, hu, ?_⟩
      cases u with
      | tail | sync_map => cases heq
      | command m | query m =>
        obtain rfl := Option.some.inj heq
        rfl

theorem depends_spaceless (h : Accounted l) (htail : l.tail = some tail) :
    ∀ e ∈ depends keys l, ' ' ∉ e.1.toList ∧ ' ' ∉ e.2.toList := by
  have hfire : ∀ f ∈ l.ast_root, ' ' ∉ f.name.toList := fun f hf => by
    obtain ⟨t, ht, hname, -⟩ := h.aimed f hf
    exact hname ▸ h.spaceless t ht
  intro e he
  rcases (mem_depends h htail).mp he with ⟨f, hf, hname, hon⟩ | ⟨hsame, hroot⟩
  · refine ⟨hname ▸ hfire f hf, ?_⟩
    rcases depends_on_iff.mp hon with ⟨heq, -⟩ | href
    · exact heq ▸ h.tail_spaceless _ htail
    · obtain ⟨r, hr, heq⟩ := List.mem_map.mp href
      obtain ⟨-, t, ht, hname, -⟩ := h.known f hf r hr
      exact heq ▸ hname ▸ h.spaceless t ht
  · obtain ⟨f, hf, hname, -⟩ := (mem_root_depend h).mp hroot
    exact ⟨hname ▸ hfire f hf, hsame ▸ hname ▸ hfire f hf⟩

theorem rule_references (l : yyLexState) (fs : List Fire) : (fs.map l.rule).flatMap Rule.references =
    fs.flatMap fun f => Flowd.references f.uses := by
  rw [List.flatMap_map]
  rfl

/-- The parts of an accepted parse. -/
theorem config_parse_cases {regexp_Compile : String → Bool} {o : Tsort.MapOrder Text} {conf : List Statement}
    {par : Parse} (h : config_parse regexp_Compile o keys conf = .ok par) :
    ∃ l order hlen, statement_list regexp_Compile {} conf = .ok l ∧ l.tail = some par.tail ∧
      Tsort.tsort o (graph (depends keys l) hlen) = some order ∧
      par.depend_order = order.reverse.map String.ofList ∧ par.sync_map = l.sync_map ∧
      par.call2ast = (l.ast_root.filter Fire.is_call).map l.rule ∧
      par.query2ast = (l.ast_root.filter fun f => !f.is_call).map l.rule := by
  unfold config_parse at h
  split at h
  case h_1 => cases h
  case h_2 l hl =>
    split at h
    case h_1 => cases h
    case h_2 tail htail =>
      split_ifs at h with hlen
      split at h
      case h_1 => cases h
      case h_2 order horder =>
        obtain rfl := Except.ok.inj h
        exact ⟨l, order, hlen, hl, htail, horder, rfl, rfl, rfl, rfl⟩

theorem config_parse_ok {regexp_Compile : String → Bool} {o : Tsort.MapOrder Text} {conf : List Statement}
    {order : List Text} {hlen : (depends keys l).length < 2 ^ 63} (hl : statement_list regexp_Compile {} conf = .ok l)
    (htail : l.tail = some tail) (h : Tsort.tsort o (graph (depends keys l) hlen) = some order) :
    ∃ par, config_parse regexp_Compile o keys conf = .ok par ∧
      par.call2ast = (l.ast_root.filter Fire.is_call).map l.rule ∧
      par.query2ast = (l.ast_root.filter fun f => !f.is_call).map l.rule := by
  unfold config_parse
  simp only [hl, htail, dif_pos hlen]
  split
  case h_1 hno =>
    rw [h] at hno
    cases hno
  case h_2 => exact ⟨_, rfl, rfl, rfl⟩

/-- A configuration is accepted when all of its dependencies are of one name on one other, or on itself. -/
theorem config_parse_flat {regexp_Compile : String → Bool} (o : Tsort.MapOrder Text) {conf : List Statement}
    {x y : String} (hl : statement_list regexp_Compile {} conf = .ok l) (htail : l.tail = some tail)
    (hlen : (depends keys l).length < 2 ^ 63) (hne : y ≠ x)
    (harcs : ∀ e ∈ depends keys l, e = (x, y) ∨ e.1 = e.2) :
    ∃ par, config_parse regexp_Compile o keys conf = .ok par ∧ par.sync_map = l.sync_map ∧
      par.rules = (l.ast_root.filter Fire.is_call).map l.rule ++ (l.ast_root.filter fun f => !f.is_call).map l.rule := by
  have hspace : ∀ e ∈ depends keys l, ' ' ∉ e.1.toList ∧ ' ' ∉ e.2.toList :=
    depends_spaceless (statement_list_accounted accounted_start hl) htail
  have hone : ∀ a b, ArcOrders.Arc (graph (depends keys l) hlen).arcs a b → a = x.toList ∧ b = y.toList := by
    rintro a b ⟨hmem, hne⟩
    rw [graph_arcs hspace] at hmem
    obtain ⟨e, he, heq⟩ := List.mem_map.mp hmem
    obtain ⟨rfl, rfl⟩ := Prod.mk.inj heq
    rcases harcs e he with rfl | hsame
    · exact ⟨rfl, rfl⟩
    · exact absurd (congrArg String.toList hsame) hne
  obtain ⟨order, horder⟩ : ∃ order, Tsort.tsort o (graph (depends keys l) hlen) = some order := by
    rw [← Option.isSome_iff_exists, Option.isSome_iff_ne_none]
    intro hnone
    refine ArcOrders.not_cyclic_of_flat (fun a b c hab hbc => hne ?_) ((Tsort.tsort_order o _).2.1.mp hnone)
    exact String.ext ((hone a b hab).2.symm.trans (hone b c hbc).1)
  obtain ⟨par, hpar, hcalls, hqueries⟩ := config_parse_ok hl htail horder
  obtain ⟨l', -, -, hl', -, -, -, hsync, -⟩ := config_parse_cases hpar
  obtain rfl := Except.ok.inj (hl.symm.trans hl')
  exact ⟨par, hpar, hsync, by rw [Parse.rules, hcalls, hqueries]⟩

/-- What stands behind an accepted parse, with the order as that of the dependencies. -/
theorem config_parse_order {regexp_Compile : String → Bool} {o : Tsort.MapOrder Text} {conf : List Statement}
    {par : Parse} (h : config_parse regexp_Compile o keys conf = .ok par) :
    ∃ l, Accounted l ∧ l.tail = some par.tail ∧ par.sync_map = l.sync_map ∧
      par.call2ast = (l.ast_root.filter Fire.is_call).map l.rule ∧
      par.query2ast = (l.ast_root.filter fun f => !f.is_call).map l.rule ∧
      (∀ n, n ∈ par.depend_order ↔ ∃ e ∈ depends keys l, n = e.1 ∨ n = e.2) ∧
      ∀ pre n post m, par.depend_order = pre ++ n :: post → (n, m) ∈ depends keys l → n ≠ m → m ∈ pre := by
  obtain ⟨l, order, hlen, hl, htail, horder, hdepend, hsync, hcalls, hqueries⟩ := config_parse_cases h
  have hacc := statement_list_accounted accounted_start hl
  obtain ⟨hnodes, hbehind⟩ := depend_order_spec horder (depends_spaceless hacc htail)
  rw [← hdepend] at hnodes hbehind
  exact ⟨l, hacc, htail, hsync, hcalls, hqueries, hnodes, hbehind⟩

theorem rules_eq_fires {par : Parse} (hcalls : par.call2ast = (l.ast_root.filter Fire.is_call).map l.rule)
    (hqueries : par.query2ast = (l.ast_root.filter fun f => !f.is_call).map l.rule) :
    par.rules.Perm (l.ast_root.map l.rule) := by
  rw [Parse.rules, hcalls, hqueries]
  exact rules_perm l

/-- The arcs name a call or query that depends on something, is referenced or is no builtin command. -/
theorem arcs_name_iff (h : Accounted l) (htail : l.tail = some tail) {f : Fire} (hf : f ∈ l.ast_root) :
    (∃ e ∈ depends keys l, f.name = e.1 ∨ f.name = e.2) ↔
      f.uses.filterMap (Use.depends_on tail) ≠ [] ∨ f.name ∈ l.references.map Prod.snd ∨ f.tok ≠ .CALLX0 := by
  have hname_eq : ∀ g ∈ l.ast_root, f.name = g.name → f = g := fun g hg heq =>
    List.inj_on_of_nodup_map h.fires hf hg heq
  have harc : f.name ∈ l.references.map Prod.snd → ∃ e ∈ depends keys l, f.name = e.1 ∨ f.name = e.2 := by
    intro href
    obtain ⟨ref, href, heq⟩ := List.mem_map.mp href
    obtain ⟨g, hg, hgref⟩ := List.mem_flatMap.mp href
    refine ⟨(g.name, f.name), (mem_depends h htail).mpr (.inl ⟨g, hg, rfl, ?_⟩), .inr rfl⟩
    exact depends_on_iff.mpr (.inr (List.mem_map.mpr ⟨ref, hgref, heq⟩))
  constructor
  · rintro ⟨e, he, hname⟩
    rcases (mem_depends h htail).mp he with ⟨g, hg, hgname, hon⟩ | ⟨hsame, hroot⟩
    · rcases hname with hname | hname
      · have hfg : f = g := hname_eq g hg (hname.trans hgname.symm)
        exact .inl (List.ne_nil_of_mem (hfg ▸ hon))
      · rcases depends_on_iff.mp hon with ⟨heq, -⟩ | href
        · obtain ⟨t, ht, htname, -⟩ := h.aimed f hf
          have heq : f.name = tail := hname.trans heq
          exact absurd (htail.trans (congrArg some (heq.symm.trans htname.symm))) (h.apart t ht)
        · refine .inr (.inl ?_)
          obtain ⟨ref, href, heq⟩ := List.mem_map.mp href
          exact List.mem_map.mpr ⟨ref, List.mem_flatMap.mpr ⟨g, hg, href⟩, heq.trans hname.symm⟩
    · obtain ⟨g, hg, hgname, htok, -⟩ := (mem_root_depend h).mp hroot
      have hname : f.name = e.1 := hname.elim id fun hname => hname.trans hsame.symm
      have hfg : f = g := hname_eq g hg (hname.trans hgname.symm)
      exact .inr (.inr (hfg ▸ htok))
  · rintro (hon | href | htok)
    · obtain ⟨n, hn⟩ := List.exists_mem_of_ne_nil _ hon
      exact ⟨(f.name, n), (mem_depends h htail).mpr (.inl ⟨f, hf, rfl, hn⟩), .inl rfl⟩
    · exact harc href
    · by_cases href : f.name ∈ l.references.map Prod.snd
      · exact harc href
      · exact ⟨(f.name, f.name), (mem_depends h htail).mpr
          (.inr ⟨rfl, (mem_root_depend h).mpr ⟨f, hf, rfl, htok, href⟩⟩), .inl rfl⟩

theorem config_parse_parsed {regexp_Compile : String → Bool} {o : Tsort.MapOrder Text} {conf : List Statement}
    {par : Parse} (h : config_parse regexp_Compile o keys conf = .ok par) : Parsed par := by
  obtain ⟨l, hacc, htail, hsync, hcalls, hqueries, hnodes, hbehind⟩ := config_parse_order h
  have hperm := rules_eq_fires hcalls hqueries
  have hmem : ∀ r, r ∈ par.rules ↔ ∃ f ∈ l.ast_root, l.rule f = r := fun r => by
    rw [hperm.mem_iff, List.mem_map]
  have hrefs : par.references.Perm l.references := by
    have hflat := hperm.flatMap_right Rule.references
    rwa [rule_references] at hflat
  have hnames := hrefs.map Prod.snd
  refine
    { names := (hperm.map Rule.name).nodup_iff.mpr (by rw [List.map_map]; exact hacc.fires)
      calls := fun r hr => ?calls
      queries := fun r hr => ?queries
      apart := fun r hr => ?apart
      counted := fun r hr => ?counted
      known := fun ref href => ?known
      ahead := fun pre post r heq hr ref href => ?ahead
      ordered := fun r hr => ?ordered
      referenced := fun sm hsm => ?referenced }
  case calls =>
    rw [hcalls] at hr
    obtain ⟨f, hf, rfl⟩ := List.mem_map.mp hr
    exact (List.mem_filter.mp hf).2
  case queries =>
    rw [hqueries] at hr
    obtain ⟨f, hf, rfl⟩ := List.mem_map.mp hr
    exact Bool.not_eq_true' _ ▸ (List.mem_filter.mp hf).2
  case apart =>
    obtain ⟨f, hf, rfl⟩ := (hmem r).mp hr
    obtain ⟨t, ht, hname, -⟩ := hacc.aimed f hf
    intro heq
    exact hacc.apart t ht (htail.trans (congrArg some (heq.symm.trans hname.symm)))
  case counted =>
    obtain ⟨f, hf, rfl⟩ := (hmem r).mp hr
    obtain ⟨t, ht, hname, -⟩ := hacc.aimed f hf
    rw [hnames.count_eq]
    change (((l.lookup f.name).map Target.depend_ref_count).getD 0).toNat = (l.references.map Prod.snd).count f.name
    rw [← hname, hacc.lookup_eq ht]
    exact hacc.counted t ht
  case known =>
    obtain ⟨t, ht, hname, hobject⟩ := hacc.reference_known (hrefs.mem_iff.mp href)
    refine ⟨fun heq => hacc.apart t ht (htail.trans (congrArg some (heq.symm.trans hname.symm))), fun r hr heq => ?_⟩
    obtain ⟨f, hf, rfl⟩ := (hmem r).mp hr
    obtain ⟨u, hu, huname, hcall⟩ := hacc.aimed f hf
    rw [← hobject, eq_of_name hacc.names ht hu (hname.trans (heq.symm.trans huname.symm)), hcall]
    rfl
  case ahead =>
    obtain ⟨f, hf, rfl⟩ := (hmem r).mp hr
    refine hbehind pre f.name post ref.2 heq ((mem_depends hacc htail).mpr (.inl ⟨f, hf, rfl, ?_⟩)) ?_
    · exact depends_on_iff.mpr (.inr (List.mem_map_of_mem href))
    · exact Ne.symm (hacc.known f hf ref href).1
  case ordered =>
    obtain ⟨f, hf, rfl⟩ := (hmem r).mp hr
    rw [hnodes, Parse.Orders, hnames.mem_iff]
    exact arcs_name_iff hacc htail hf
  case referenced =>
    rw [hsync] at hsm
    rw [hacc.referenced sm hsm]
    constructor
    · rintro ⟨f, hf, huse⟩
      exact ⟨l.rule f, (hmem _).mpr ⟨f, hf, rfl⟩, huse⟩
    · rintro ⟨r, hr, huse⟩
      obtain ⟨f, hf, rfl⟩ := (hmem r).mp hr
      exact ⟨f, hf, huse⟩

/-- The order has the tail, the rules, and what the rules project from. -/
theorem config_parse_named {regexp_Compile : String → Bool} {o : Tsort.MapOrder Text} {conf : List Statement}
    {par : Parse} (h : config_parse regexp_Compile o keys conf = .ok par) {n : String} (hn : n ∈ par.depend_order) :
    n = par.tail ∨ n ∈ par.rules.map Rule.name ∨ n ∈ par.references.map Prod.snd := by
  obtain ⟨l, hacc, htail, -, hcalls, hqueries, hnodes, -⟩ := config_parse_order h
  have hperm := rules_eq_fires hcalls hqueries
  have hrule : ∀ f ∈ l.ast_root, f.name ∈ par.rules.map Rule.name := fun f hf =>
    List.mem_map.mpr ⟨l.rule f, hperm.mem_iff.mpr (List.mem_map_of_mem hf), rfl⟩
  obtain ⟨e, he, hname⟩ := (hnodes n).mp hn
  rcases (mem_depends hacc htail).mp he with ⟨f, hf, hfname, hon⟩ | ⟨hsame, hroot⟩
  · rcases hname with rfl | rfl
    · exact .inr (.inl (hfname ▸ hrule f hf))
    · rcases depends_on_iff.mp hon with ⟨heq, -⟩ | href
      · exact .inl heq
      · obtain ⟨ref, href, heq⟩ := List.mem_map.mp href
        refine .inr (.inr (List.mem_map.mpr ⟨ref, List.mem_flatMap.mpr ⟨l.rule f, ?_, href⟩, heq⟩))
        exact hperm.mem_iff.mpr (List.mem_map_of_mem hf)
  · obtain ⟨f, hf, hfname, -⟩ := (mem_root_depend hacc).mp hroot
    have heq : n = e.1 := hname.elim id fun hname => hname.trans hsame.symm
    exact .inr (.inl (heq ▸ hfname ▸ hrule f hf))

end parsed

end Grammar

end Blobio.Flowd
