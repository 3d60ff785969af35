import PartProgram.Proofs.Precedence.Steps

/-!
# Numbers and names by their tokens

An exponent or a number directly behind the letter of a variable goes with the token in front
of it. What is read as a number or name is spelled by the tokens read, and conversely.
-/

set_option autoImplicit false

namespace PartProgram

namespace Reader

variable {c after : Cursor} {t : Token}

theorem exponent_ok {x : Float} (h : exponent {} c = .ok x after) :
    ∃ ts, c.Steps ts after ∧ SpellsExponent ts x := by
  obtain ⟨sign, mid, hsign, h⟩ := ok_bind h
  -- The digits, and the token in front of them if there was a sign.
  simp only [run_get] at h
  cases hdigits : mid.held.filter Token.isDecimal with
  | none =>
    simp only [hdigits, Option.bind_none] at h
    cases h
  | some t =>
    obtain ⟨ht, hdecimal⟩ := Option.filter_eq_some_iff.mp hdigits
    cases hvalue : readReal t.text with
    | none =>
      simp only [hdigits, Option.bind_some, hvalue] at h
      cases h
    | some y =>
      simp only [hdigits, Option.bind_some, hvalue] at h
      obtain ⟨_, _, ha, hp⟩ := ok_bind h
      cases hp
      have hkind : t.kind = .number := by
        simp only [Token.isDecimal, Bool.and_eq_true, beq_iff_eq] at hdecimal
        exact hdecimal.1
      have hlast := steps_advance ht (by simp [hkind]) (by simp [hkind]) ha
      obtain ⟨minus, behind, hminus, hrest⟩ := ok_bind hsign
      rcases accept_ok hminus with ⟨rfl, hheld, hstep⟩ | ⟨rfl, -, rfl⟩
      · cases hrest
        obtain ⟨u, hu, his⟩ := steps_holds hheld (by decide) (by decide) hstep
        exact ⟨[u, t], hu.append hlast, .negative his hdecimal hvalue⟩
      · obtain ⟨plus, _, hplus, hp⟩ := ok_bind hrest
        cases hp
        rcases accept_ok hplus with ⟨rfl, hheld, hstep⟩ | ⟨rfl, -, rfl⟩
        · obtain ⟨u, hu, his⟩ := steps_holds hheld (by decide) (by decide) hstep
          exact ⟨[u, t], hu.append hlast, .positive his hdecimal hvalue⟩
        · exact ⟨[t], hlast, .unsigned hdecimal hvalue⟩

theorem number_ok {n : Number} (h : number {} t c = .ok n after) (ht : c.held = some t)
    (hk : t.kind = .number) : ∃ ts, c.Steps ts after ∧ SpellsNumber ts n after.held := by
  cases hvalue : t.number? with
  | none =>
    simp only [number, hvalue] at h
    cases h
  | some value =>
    cases hmark : t.text.toList.head? with
    | none =>
      simp only [number, hvalue, hmark] at h
      cases h
    | some mark =>
      have hliteral :
          t.literal? = some ⟨value, !t.text.toList.contains '.', Radix.ofMark mark⟩ := by
        rw [Token.literal?, hvalue, hmark]
      simp only [number, hvalue, hmark] at h
      obtain ⟨_, mid, ha, h⟩ := ok_bind h
      have hfirst := steps_advance ht (by simp [hk]) (by simp [hk]) ha
      simp only [run_get] at h
      cases hex : mid.held.any (fun next => next.isKeyword "EX" && !next.spaced) with
      | true =>
        simp only [hex, if_true] at h
        obtain ⟨_, behind, ha', h⟩ := ok_bind h
        obtain ⟨x, _, hx, hp⟩ := ok_bind h
        cases hp
        obtain ⟨u, hu, hword⟩ : ∃ u, mid.held = some u ∧ u.isExponentMark = true := by
          cases hu : mid.held with
          | none => simp [hu] at hex
          | some u => exact ⟨u, rfl, by simpa [hu, Token.isExponentMark] using hex⟩
        have hkind : u.kind = .identifier := by
          simp only [Token.isExponentMark, Token.isKeyword, Bool.and_eq_true, beq_iff_eq] at hword
          exact hword.1.1
        obtain ⟨ts, hts, hspells⟩ := exponent_ok hx
        have hsecond := steps_advance hu (by simp [hkind]) (by simp [hkind]) ha'
        have hnumber : SpellsNumber (t :: u :: ts) _ after.held :=
          .scaled hk hliteral hword hspells
        exact ⟨t :: u :: ts, hfirst.append (hsecond.append hts), hnumber⟩
      | false =>
        simp only [hex, Bool.false_eq_true, if_false] at h
        cases h
        refine ⟨[t], hfirst, .plain hk hliteral ?_⟩
        intro u hu
        simpa [Option.mem_def.mp hu, Token.isExponentMark] using hex

theorem gluedDigits_ok {mid : Cursor} {name : String}
    (h : gluedDigits {} t.text mid = .ok name after)
    (hk : t.kind = .identifier) (hc : c.Steps [t] mid) (hb : mid.holds .brace "(" = false) :
    ∃ ts, c.Steps ts after ∧ SpellsName ts name after.held := by
  simp only [gluedDigits, run_get] at h
  have hround := Cursor.not_of_holds hb
  cases hheld : mid.held with
  | none =>
    simp only [hheld] at h
    cases h
    refine ⟨[t], hc, .word hk ?_⟩
    rw [hheld]
    simp
  | some u =>
    simp only [hheld] at h
    cases hglued : u.glues t.text with
    | true =>
      have hif := hglued
      simp only [Token.glues] at hif
      simp only [hif, if_true] at h
      obtain ⟨_, _, ha, hp⟩ := ok_bind h
      cases hp
      have hkind : u.kind = .number := by
        simp only [Token.glues, Token.isDecimal, Bool.and_eq_true, beq_iff_eq] at hglued
        exact hglued.1.2.1
      have hstep := steps_advance hheld (by simp [hkind]) (by simp [hkind]) ha
      exact ⟨[t, u], hc.append hstep, .numbered hk hglued⟩
    | false =>
      have hif := hglued
      simp only [Token.glues] at hif
      simp only [hif, Bool.false_eq_true, if_false] at h
      cases h
      refine ⟨[t], hc, .word hk ?_⟩
      rw [hheld]
      rintro _ ⟨⟩
      exact ⟨hround u hheld, hglued⟩

theorem holds_of_is {kind : TokenKind} {text : String} (h : c.held = some t)
    (ht : t.is kind text = true) : c.holds kind text = true := by
  simp [Cursor.holds, h, ht]

theorem not_holds_of {kind : TokenKind} {text : String}
    (h : ∀ u ∈ c.held, u.is kind text = false) : c.holds kind text = false := by
  cases hc : c.held with
  | none => simp [Cursor.holds, hc]
  | some u => simp [Cursor.holds, hc, h u hc]

theorem digits_read {x : Float} (hs : c.Steps [t] after) (hd : t.isDecimal = true)
    (hx : readReal t.text = some x) (sign : Float) :
    (do
      match ((← get).held.filter Token.isDecimal).bind (fun t => readReal t.text) with
      | some value =>
        advance {}
        return sign * value
      | none => failWith .expectedNumber : Reader Float) c = .ok (sign * x) after := by
  obtain ⟨hheld, -, mid, ha, rfl⟩ := hs
  have hfilter : c.held.filter Token.isDecimal = some t := by
    rw [hheld, Option.filter_eq_some_iff]
    exact ⟨rfl, hd⟩
  simp only [run_get, hfilter, Option.bind_some, hx]
  rw [run_bind, ha]
  rfl

theorem exponent_read {ts : List Token} {x : Float} (h : SpellsExponent ts x)
    (hs : c.Steps ts after) : exponent {} c = .ok x after := by
  cases h with
  | @unsigned t x hdecimal hvalue =>
    have hno : ∀ text, c.holds .operator text = false := by
      intro text
      apply not_holds_of
      rw [hs.1]
      rintro _ ⟨⟩
      rw [Token.isDecimal, Bool.and_eq_true, beq_iff_eq] at hdecimal
      simp [Token.is, hdecimal.1]
    have hsign : exponentSign {} c = .ok 1.0 c := by
      rw [exponentSign, run_bind, Lockstep.accept_missing (hno "-")]
      simp only [Bool.false_eq_true, if_false]
      rw [run_bind, Lockstep.accept_missing (hno "+")]
      rfl
    rw [exponent, run_bind, hsign]
    exact digits_read hs hdecimal hvalue 1.0
  | @positive sign t x hplus hdecimal hvalue =>
    obtain ⟨hheld, -, mid, ha, hrest⟩ := hs
    have hminus : c.holds .operator "-" = false := by
      apply not_holds_of
      rw [hheld]
      rintro _ ⟨⟩
      simp [Token.is, (Token.is_iff.mp hplus).2]
    have hsign : exponentSign {} c = .ok 1.0 mid := by
      rw [exponentSign, run_bind, Lockstep.accept_missing hminus]
      simp only [Bool.false_eq_true, if_false]
      rw [run_bind, accept_held (holds_of_is hheld hplus) ha]
      rfl
    rw [exponent, run_bind, hsign]
    exact digits_read hrest hdecimal hvalue 1.0
  | @negative sign t x hminus hdecimal hvalue =>
    obtain ⟨hheld, -, mid, ha, hrest⟩ := hs
    have hsign : exponentSign {} c = .ok (-1.0) mid := by
      rw [exponentSign, run_bind, accept_held (holds_of_is hheld hminus) ha]
      rfl
    rw [exponent, run_bind, hsign]
    exact digits_read hrest hdecimal hvalue (-1.0)

theorem number_read {ts : List Token} {n : Number} {next : Option Token}
    (h : SpellsNumber ts n next) (hs : c.Steps ts after) (hn : after.held = next)
    (ht : c.held = some t) : number {} t c = .ok n after := by
  cases h with
  | @plain t' n next _ hvalue halone =>
    obtain ⟨hheld, -, mid, ha, rfl⟩ := hs
    cases ht.symm.trans hheld
    have hex : after.held.any (fun next => next.isKeyword "EX" && !next.spaced) = false := by
      cases hu : after.held with
      | none => rfl
      | some u => exact halone u (hn.symm.trans hu)
    obtain ⟨value, mark, hnumber, hmark, rfl⟩ := Token.literal_eq_some hvalue
    simp only [number, hnumber, hmark]
    rw [run_bind, ha]
    simp only [run_get, hex]
    rfl
  | @scaled t' mark ts n x next _ hvalue hword hexponent =>
    obtain ⟨hheld, -, mid, ha, hheld', -, behind, ha', hrest⟩ := hs
    cases ht.symm.trans hheld
    have hex : mid.held.any (fun next => next.isKeyword "EX" && !next.spaced) = true := by
      rw [hheld']
      exact hword
    obtain ⟨value, mark, hnumber, hmark, rfl⟩ := Token.literal_eq_some hvalue
    simp only [number, hnumber, hmark]
    rw [run_bind, ha]
    simp only [run_get, hex, if_true]
    rw [run_bind, ha']
    simp only
    rw [run_bind, exponent_read hexponent hrest]
    rfl

theorem name_read {ts : List Token} {name : String} {next : Option Token}
    (h : SpellsName ts name next) (hs : c.Steps ts after) (hn : after.held = next) :
    ∃ t mid, c.held = some t ∧ t.kind = .identifier ∧ advance {} c = .ok () mid ∧
      mid.holds .brace "(" = false ∧ gluedDigits {} t.text mid = .ok name after := by
  cases h with
  | word hk halone =>
    obtain ⟨hheld, -, mid, ha, rfl⟩ := hs
    refine ⟨_, after, hheld, hk, ha, ?_, ?_⟩
    · apply not_holds_of
      rw [hn]
      exact fun u hu => (halone u hu).1
    · simp only [gluedDigits, run_get]
      cases hu : after.held with
      | none => rfl
      | some u =>
        have hglues := (halone u (hn.symm.trans hu)).2
        simp only [Token.glues] at hglues
        simp only [hglues, Bool.false_eq_true, if_false]
        rfl
  | numbered hk hglued =>
    obtain ⟨hheld, -, mid, ha, hheld', -, _, ha', rfl⟩ := hs
    refine ⟨_, mid, hheld, hk, ha, ?_, ?_⟩
    · apply not_holds_of
      rw [hheld']
      rintro _ ⟨⟩
      simp only [Token.glues, Token.isDecimal, Bool.and_eq_true, beq_iff_eq] at hglued
      simp [Token.is, hglued.1.2.1]
    · simp only [Token.glues] at hglued
      simp only [gluedDigits, run_get, hheld', hglued, if_true]
      rw [run_bind, ha']
      rfl

end Reader

end PartProgram
