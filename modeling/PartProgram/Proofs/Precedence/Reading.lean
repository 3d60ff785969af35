import PartProgram.Proofs.Precedence.Numeral
import PartProgram.Proofs.RoundTrip.Expr

/-!
# What tokens spell is read

A ranked tree that tokens spell is what is read from them: an operand by its kind, a list entry
by entry, and an operation by the trees on its sides.
-/

set_option autoImplicit false

namespace PartProgram

namespace Reader

variable {c after : Cursor} {t : Token}

def bare (ahead : List Char) : Reader Expr := operandOf {} (nested ahead) ahead

theorem operand_bare {ts : List Token} {e : Expr} {next : Option Token}
    (hspells : SpellsOperand ts e next) (hs : c.Steps ts after) (h : Reads bare c e after) :
    Reads (operand {}) c e after := by
  obtain ⟨t, us, rfl, -, hk⟩ := hspells.head
  have hplain : ∀ t ∈ c.held, t.kind ≠ .operator := by
    rw [hs.1]
    rintro _ ⟨⟩
    exact hk
  obtain ⟨n, hn⟩ := h
  refine ⟨n + 1, ?_⟩
  rintro (_ | ⟨x, ahead⟩) hahead
  · simp at hahead
  · rw [operand_plain hplain]
    exact hn ahead (by simpa using hahead)

theorem operand_plus {mid : Cursor} {e : Expr} (hc : c.held = some t)
    (hplus : t.is .operator "+" = true) (ha : advance {} c = .ok () mid)
    (h : Reads bare mid e after) : Reads (operand {}) c e after := by
  obtain ⟨hk, ht⟩ := Token.is_iff.mp hplus
  have hu : unaryOperator {} c = .ok none mid := by
    rw [unaryOperator, run_bind, heldOperator_some hc hk (by simp [ht])]
    simp only [ht, if_true]
    rw [run_bind, ha]
    rfl
  obtain ⟨n, hn⟩ := h
  refine ⟨n + 1, ?_⟩
  rintro (_ | ⟨x, ahead⟩) hahead
  · simp at hahead
  · rw [operand, run_bind, hu]
    exact hn ahead (by simpa using hahead)

theorem operand_un {mid : Cursor} {op : UnaryOp} {e : Expr} (hc : c.held = some t)
    (hop : t.unary? = some op) (ha : advance {} c = .ok () mid)
    (h : Reads (operand {}) mid e after) : Reads (operand {}) c (op.apply e) after := by
  obtain ⟨hoperator, hof⟩ := Token.unary_iff.mp hop
  obtain ⟨n, hn⟩ := h
  refine ⟨n + 1, ?_⟩
  rintro (_ | ⟨x, ahead⟩) hahead
  · simp at hahead
  · rw [operand_prefixed hc (Token.isOperator_iff.mp hoperator).1 hof ha, run_map,
      hn ahead (by simpa using hahead)]

end Reader

theorem UnaryOp.tightness_apply (op : UnaryOp) {arg : Expr} (h : arg.tightness = 11) :
    (op.apply arg).tightness = 11 := by
  unfold UnaryOp.apply
  split <;> rfl

theorem Expr.ranked_apply {op : UnaryOp} {arg : Expr} (h : (op.apply arg).Ranked) :
    arg.Ranked ∧ arg.tightness = 11 := by
  unfold UnaryOp.apply at h
  split at h
  · exact ⟨every_leaf rfl trivial, rfl⟩
  · exact ⟨h.arg, inOrder_un.mp h.self⟩

/-- A tree is read from a position: all of it, and as an operand if it is one. -/
def ReadsTree (c : Cursor) (e : Expr) (after : Cursor) : Prop :=
  (e.tightness = 11 → Reads (Reader.operand {}) c e after) ∧ ReadsSpine c e after

theorem readsTree_operand {c after : Cursor} {e : Expr} (ht : e.tightness = 11)
    (h : Reads (Reader.operand {}) c e after) : ReadsTree c e after :=
  ⟨fun _ => h, readsSpine_operand ht h⟩

theorem readsTree_bin {c after : Cursor} {ts us : List Token} {sign : Token} {op : BinaryOp}
    {lhs rhs : Expr} (hop : sign.binary? = some op) (hr : (Expr.bin op lhs rhs).Ranked)
    (hs : c.Steps (ts ++ sign :: us) after)
    (hl : ∀ {mid : Cursor}, c.Steps ts mid → mid.held = some sign → ReadsTree c lhs mid)
    (h : ∀ {mid : Cursor}, mid.Steps us after → ReadsTree mid rhs after) :
    ReadsTree c (.bin op lhs rhs) after := by
  obtain ⟨mid, hleft, hheld, -, right, ha, hright⟩ := hs.split
  obtain ⟨hoperator, hof⟩ := Token.binary_iff.mp hop
  obtain ⟨hk, ht⟩ := Token.isOperator_iff.mp hoperator
  refine ⟨fun htight => absurd rfl (Expr.tightness_eq_iff.mp htight _ _ _), ?_⟩
  exact readsSpine_bin hr (hl hleft hheld).2 hheld hk ht hof ha (h hright).2

theorem ReadsTree.reads {c after : Cursor} {e : Expr} (h : ReadsTree c e after)
    (hend : ∀ t ∈ after.held, t.isOperator = false) : Reads Reader.nested c e after := by
  apply h.2.reads
  intro t ht hk
  simpa [Token.isOperator, hk] using hend t ht

theorem Token.not_operator_of_is {kind : TokenKind} {text : String} {t : Token}
    (h : t.is kind text = true) (hk : kind ≠ .operator) : t.isOperator = false := by
  simp [isOperator, (is_iff.mp h).1, hk]

namespace Reader

variable {c after : Cursor} {t : Token} {ts us : List Token} {next : Option Token}

theorem bare_num {n : Number} (h : SpellsNumber ts n next) (hs : c.Steps ts after)
    (hn : after.held = next) : Reads bare c (.num n) after := by
  obtain ⟨t, us, rfl, hk⟩ := h.head
  refine ⟨0, fun ahead _ => ?_⟩
  rw [bare, operandOf_held hs.1 (by simp [hk]) (by simp [hk]), hk]
  simp only
  rw [run_map, number_read h hs hn hs.1]

theorem bare_str (hk : t.kind = .string) (hs : c.Steps [t] after) :
    Reads bare c (.str t.text) after := by
  obtain ⟨hheld, -, mid, ha, rfl⟩ := hs
  refine ⟨0, fun ahead _ => ?_⟩
  rw [bare, operandOf_held hheld (by simp [hk]) (by simp [hk]), hk]
  simp only
  rw [run_bind, ha]
  rfl

theorem bare_name (hc : c.held = some t) (hk : t.kind = .identifier) (ahead : List Char) :
    bare ahead c = variableOrCall {} t.text (nested ahead) ahead c := by
  rw [bare, operandOf_held hc (by simp [hk]) (by simp [hk]), hk]

theorem bare_var {name : String} (h : SpellsName ts name next) (hs : c.Steps ts after)
    (hn : after.held = next) (hf : ∀ u ∈ next, u.is .fieldBrace "[" = false) :
    Reads bare c (.var name none) after := by
  obtain ⟨t, mid, hheld, hk, ha, hm, hg⟩ := name_read h hs hn
  have hfield : after.holds .fieldBrace "[" = false := not_holds_of (by rw [hn]; exact hf)
  refine ⟨0, fun ahead _ => ?_⟩
  rw [bare_name hheld hk, variableOrCall_var ha hm hg, hfield]
  rfl

def bracedNested (b : Braces) (ahead : List Char) : Reader Slots := braced {} b (nested ahead) ahead

theorem bracedNested_read {b : Braces} {brace : Token} {slots : Slots}
    (hs : c.Steps (brace :: us) after)
    (h : ∀ {mid : Cursor}, mid.Steps us after → ReadsSlots b mid slots after) :
    Reads (bracedNested b) c slots after := by
  obtain ⟨-, -, mid, ha, hrest⟩ := hs
  obtain ⟨n, hn⟩ := h hrest
  refine ⟨n, fun ahead hahead => ?_⟩
  rw [bracedNested, braced, run_bind, ha]
  exact hn ahead ahead hahead hahead

theorem bare_element {brace : Token} {name : String} {fields : Slots}
    (h : SpellsName ts name (some brace)) (hb : brace.is .fieldBrace "[" = true)
    (hs : c.Steps (ts ++ brace :: us) after)
    (hslots : ∀ {mid : Cursor}, mid.Steps us after → ReadsSlots .field mid fields after) :
    Reads bare c (.var name (some fields)) after := by
  obtain ⟨behind, hleft, hright⟩ := hs.split
  obtain ⟨t, mid, hheld, hk, ha, hm, hg⟩ := name_read h hleft hright.1
  obtain ⟨n, hn⟩ := bracedNested_read hright hslots
  refine ⟨n, fun ahead hahead => ?_⟩
  have hbraced : braced {} .field (nested ahead) ahead behind = .ok fields after := hn ahead hahead
  rw [bare_name hheld hk, variableOrCall_var ha hm hg, if_pos (holds_of_is hright.1 hb), run_map,
    hbraced]
  rfl

theorem bare_call {brace : Token} {args : Slots} (hk : t.kind = .identifier)
    (hb : brace.is .brace "(" = true) (hs : c.Steps (t :: brace :: us) after)
    (hslots : ∀ {mid : Cursor}, mid.Steps us after → ReadsSlots .round mid args after) :
    Reads bare c (.call t.text args) after := by
  obtain ⟨hheld, -, mid, ha, hrest⟩ := hs
  obtain ⟨n, hn⟩ := bracedNested_read hrest hslots
  refine ⟨n, fun ahead hahead => ?_⟩
  have hbraced : braced {} .round (nested ahead) ahead mid = .ok args after := hn ahead hahead
  rw [bare_name hheld hk, variableOrCall_call ha (holds_of_is hrest.1 hb), run_map, hbraced]

theorem bare_bracket {opening closing : Token} {inner : Expr} (ho : opening.is .brace "(" = true)
    (hc : closing.is .brace ")" = true) (hs : c.Steps (opening :: (ts ++ [closing])) after)
    (h : ∀ {mid behind : Cursor}, mid.Steps ts behind → behind.held = some closing →
      ReadsTree mid inner behind) : Reads bare c (.bracket inner) after := by
  obtain ⟨hheld, -, mid, ha, hrest⟩ := hs
  obtain ⟨behind, hinner, hclosing, -, _, ha', rfl⟩ := hrest.split
  have hend : ∀ t ∈ behind.held, t.isOperator = false := by
    rw [hclosing]
    rintro _ ⟨⟩
    exact Token.not_operator_of_is hc (by decide)
  obtain ⟨n, hn⟩ := (h hinner hclosing).reads hend
  obtain ⟨hk, htext⟩ := Token.is_iff.mp ho
  refine ⟨n, fun ahead hahead => ?_⟩
  rw [bare, operandOf_held hheld (by simp [hk]) (by simp [hk]), hk]
  simp only [htext, if_true]
  rw [bracket, run_bind, ha]
  simp only
  rw [run_bind, hn ahead hahead]
  simp only
  rw [run_bind, expect_held _ (holds_of_is hclosing hc) ha']
  rfl

end Reader

section Slots

variable {b : Braces} {c after : Cursor} {ts us : List Token} {slots : Slots} {e : Expr}

theorem readsSlots_nil {closing : Token} (hc : closing.is b.kind b.closing = true)
    (hs : c.Steps [closing] after) : ReadsSlots b c [] after := by
  obtain ⟨hheld, -, mid, ha, rfl⟩ := hs
  refine ⟨1, ?_⟩
  rintro ahead (_ | ⟨x, more⟩) _ hmore
  · simp at hmore
  · exact Reader.slots_end (Reader.holds_of_is hheld hc) ha x more

theorem readsSlots_gap {comma : Token} (hc : comma.is .separator "," = true)
    (hs : c.Steps (comma :: ts) after)
    (h : ∀ {mid : Cursor}, mid.Steps ts after → ReadsSlots b mid slots after) :
    ReadsSlots b c (none :: slots) after := by
  obtain ⟨hheld, -, mid, ha, hrest⟩ := hs
  obtain ⟨n, hn⟩ := h hrest
  refine ⟨n + 1, ?_⟩
  rintro ahead (_ | ⟨x, more⟩) hahead hmore
  · simp at hmore
  · simp only [List.length_cons] at hmore
    exact Reader.slots_gap (Reader.holds_of_is hheld hc) ha x (hn ahead more (by omega) (by omega))

theorem readsSlots_some {mid next : Cursor} {comma : Bool} {other : Option Token}
    (hspells : Spells ts e other) (hs : c.Steps ts mid) (hread : ReadsTree c e mid)
    (hend : ∀ t ∈ mid.held, t.isOperator = false)
    (hcomma : Reader.accept {} .separator "," mid = .ok comma next)
    (h : ReadsSlots b next slots after) : ReadsSlots b c (some e :: slots) after := by
  obtain ⟨t, _, rfl, hopens⟩ := hspells.head
  obtain ⟨k, hk⟩ := hread.reads hend
  obtain ⟨n, hn⟩ := h
  refine ⟨max k n + 1, ?_⟩
  rintro ahead (_ | ⟨x, more⟩) hahead hmore
  · simp at hmore
  · simp only [List.length_cons] at hmore
    exact Reader.slots_entry hs.1 hopens (hk ahead (by omega)) hcomma x
      (hn ahead more (by omega) (by omega))

theorem readsSlots_entry {comma : Token} (hspells : Spells ts e (some comma))
    (hc : comma.is .separator "," = true) (hs : c.Steps (ts ++ comma :: us) after)
    (hread : ∀ {mid : Cursor}, c.Steps ts mid → mid.held = some comma → ReadsTree c e mid)
    (h : ∀ {mid : Cursor}, mid.Steps us after → ReadsSlots b mid slots after) :
    ReadsSlots b c (some e :: slots) after := by
  obtain ⟨mid, hleft, hheld, -, next, ha, hrest⟩ := hs.split
  apply readsSlots_some hspells hleft (hread hleft hheld) _
    (Reader.accept_held (Reader.holds_of_is hheld hc) ha) (h hrest)
  rw [hheld]
  rintro _ ⟨⟩
  exact Token.not_operator_of_is hc (by decide)

theorem readsSlots_joined {first : Token} (hspells : Spells ts e (some first))
    (hc : first.is .separator "," = false) (ho : first.isOperator = false)
    (hs : c.Steps (ts ++ first :: us) after)
    (hread : ∀ {mid : Cursor}, c.Steps ts mid → mid.held = some first → ReadsTree c e mid)
    (h : ∀ {mid : Cursor}, mid.Steps (first :: us) after → ReadsSlots b mid slots after) :
    ReadsSlots b c (some e :: slots) after := by
  obtain ⟨mid, hleft, hright⟩ := hs.split
  have honly : ∀ t ∈ mid.held, t = first := by
    rw [hright.1]
    rintro _ ⟨⟩
    rfl
  apply readsSlots_some hspells hleft (hread hleft hright.1) _
    (Lockstep.accept_missing (Reader.not_holds_of _)) (h hright)
  · intro t ht
    rw [honly t ht]
    exact ho
  · intro t ht
    rw [honly t ht]
    exact hc

end Slots

mutual

/-- A ranked tree is read from the tokens that spell it. -/
theorem Spells.reads : ∀ {ts : List Token} {e : Expr} {next : Option Token}, Spells ts e next →
    e.Ranked → ∀ {c after : Cursor}, c.Steps ts after → after.held = next → ReadsTree c e after
  | _, _, _, .operand h, hr, _, _, hs, hn =>
    readsTree_operand h.tightness (Reader.operand_bare h hs (h.reads hr hs hn))
  | _, _, _, .plus hplus h, hr, _, _, hs, hn =>
    have ⟨hheld, _, _, ha, hrest⟩ := hs
    readsTree_operand h.tightness (Reader.operand_plus hheld hplus ha (h.reads hr hrest hn))
  | _, _, _, .un hop h, hr, _, _, hs, hn =>
    have ⟨hheld, _, _, ha, hrest⟩ := hs
    have ⟨hranked, htight⟩ := Expr.ranked_apply hr
    readsTree_operand (UnaryOp.tightness_apply _ htight)
      (Reader.operand_un hheld hop ha ((h.reads hranked hrest hn).1 htight))
  | _, _, _, .bin hl hop h, hr, _, _, hs, hn =>
    readsTree_bin hop hr hs (fun hs hn => hl.reads hr.lhs hs hn) (fun hs => h.reads hr.rhs hs hn)

theorem SpellsOperand.reads : ∀ {ts : List Token} {e : Expr} {next : Option Token},
    SpellsOperand ts e next → e.Ranked → ∀ {c after : Cursor}, c.Steps ts after →
      after.held = next → Reads Reader.bare c e after
  | _, _, _, .num h, _, _, _, hs, hn => Reader.bare_num h hs hn
  | _, _, _, .str hk, _, _, _, hs, _ => Reader.bare_str hk hs
  | _, _, _, .var h hf, _, _, _, hs, hn => Reader.bare_var h hs hn hf
  | _, _, _, .element h hb hslots, hr, _, _, hs, _ =>
    Reader.bare_element h hb hs (fun hs => hslots.reads hr.fields hs)
  | _, _, _, .call hk hb hslots, hr, _, _, hs, _ =>
    Reader.bare_call hk hb hs (fun hs => hslots.reads hr.args hs)
  | _, _, _, .bracket ho h hc, hr, _, _, hs, _ =>
    Reader.bare_bracket ho hc hs (fun hs hn => h.reads hr.inner hs hn)

theorem SpellsSlots.reads : ∀ {b : Braces} {ts : List Token} {slots : Slots},
    SpellsSlots b ts slots → (∀ e, some e ∈ slots → e.Ranked) → ∀ {c after : Cursor},
      c.Steps ts after → ReadsSlots b c slots after
  | _, _, _, .nil hc, _, _, _, hs => readsSlots_nil hc hs
  | _, _, _, .gap hc h, hr, _, _, hs =>
    readsSlots_gap hc hs (fun hs => h.reads (fun e he => hr e (List.mem_cons_of_mem _ he)) hs)
  | _, _, _, .entry h hc hslots, hr, _, _, hs =>
    readsSlots_entry h hc hs (fun hs hn => h.reads (hr _ List.mem_cons_self) hs hn)
      (fun hs => hslots.reads (fun e he => hr e (List.mem_cons_of_mem _ he)) hs)
  | _, _, _, .joined h hc ho hslots, hr, _, _, hs =>
    readsSlots_joined h hc ho hs (fun hs hn => h.reads (hr _ List.mem_cons_self) hs hn)
      (fun hs => hslots.reads (fun e he => hr e (List.mem_cons_of_mem _ he)) hs)

end

end PartProgram
