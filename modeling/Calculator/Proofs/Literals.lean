import Calculator.Proofs.Reentry
import Calculator.Proofs.Outcomes
/-!
A literal evaluated on its own. A text that reads as a decimal is an optional sign, then digits
and points with a digit among them, then perhaps an exponent mark, a sign and digits
(`IsUnsignedLiteral`). The scanner reads all of it after the sign as one number, so a literal is
one number token, after a minus or a plus when it has a sign. The evaluator reads the number back
and negates it after the minus, and the request rounds and checks it: the literal rounded. A plus
has no unary reading: it is a binary operator with no left operand, and the evaluation fails.
-/

namespace Calculator

namespace Decimal

def ExponentPart (tail : List Char) : Prop :=
  tail = [] ∨ ∃ mark sign ds, tail = mark :: (sign ++ ds) ∧ isExponentMark mark = true ∧
    (sign = [] ∨ sign = ['+'] ∨ sign = ['-']) ∧ ds ≠ [] ∧ ∀ c ∈ ds, c.isDigit = true

def IsUnsignedLiteral (cs : List Char) : Prop :=
  ∃ body tail, cs = body ++ tail ∧ (∀ c ∈ body, c.isDigit = true ∨ c = '.') ∧
    body.any Char.isDigit = true ∧ ExponentPart tail

/-- The mantissa of a literal is digits and points, with a digit among them. -/
theorem readBody?_some {body : List Char} {r : Nat × Nat} (h : readBody? body = some r) :
    (∀ c ∈ body, c.isDigit = true ∨ c = '.') ∧ body.any Char.isDigit = true := by
  unfold readBody? at h
  extract_lets whole fraction at h
  split_ifs at h with hempty hdigits
  simp only [Bool.not_eq_true, Bool.or_eq_false_iff, Bool.not_eq_false', List.all_eq_true]
    at hdigits
  have hsplit : body = whole ++ body.dropWhile (· != '.') := List.takeWhile_append_dropWhile.symm
  -- what follows the whole part is empty, or a point and the fraction
  have hrest : body.dropWhile (· != '.') = [] ∨ body.dropWhile (· != '.') = '.' :: fraction := by
    cases hdrop : body.dropWhile (· != '.') with
    | nil => exact .inl rfl
    | cons c more =>
      have hc := List.head_dropWhile_not (· != '.') (l := body) (by simp [hdrop])
      simp only [hdrop, List.head_cons, bne_eq_false_iff_eq] at hc
      subst hc
      refine .inr ?_
      simp only [fraction, hdrop, List.drop_succ_cons, List.drop_zero]
  constructor
  · intro c hc
    rw [hsplit] at hc
    rcases List.mem_append.mp hc with hc | hc
    · exact .inl (hdigits.1 c hc)
    · rcases hrest with hnil | hcons
      · rw [hnil] at hc
        cases hc
      · rw [hcons] at hc
        rcases List.mem_cons.mp hc with rfl | hc
        · exact .inr rfl
        · exact .inl (hdigits.2 c hc)
  · simp only [Bool.not_eq_true, Bool.and_eq_false_iff, List.isEmpty_eq_false_iff] at hempty
    rw [List.any_eq_true]
    rcases hempty with hwhole | hfraction
    · obtain ⟨c, hc⟩ := List.exists_mem_of_ne_nil _ hwhole
      exact ⟨c, hsplit ▸ List.mem_append_left _ hc, hdigits.1 c hc⟩
    · obtain ⟨c, hc⟩ := List.exists_mem_of_ne_nil _ hfraction
      refine ⟨c, ?_, hdigits.2 c hc⟩
      rcases hrest with hnil | hcons
      · simp [fraction, hnil] at hc
      · rw [hsplit, hcons]
        exact List.mem_append_right _ (List.mem_cons_of_mem _ hc)

theorem takeSign_cases (cs : List Char) :
    takeSign cs = (false, cs) ∨ (∃ rest, cs = '-' :: rest ∧ takeSign cs = (true, rest)) ∨
      ∃ rest, cs = '+' :: rest ∧ takeSign cs = (false, rest) := by
  unfold takeSign
  split
  · exact .inr (.inl ⟨_, rfl, rfl⟩)
  · exact .inr (.inr ⟨_, rfl, rfl⟩)
  · exact .inl rfl

theorem readExponent?_some {cs : List Char} {e : Int} (h : readExponent? cs = some e) :
    ∃ sign ds, cs = sign ++ ds ∧ (sign = [] ∨ sign = ['+'] ∨ sign = ['-']) ∧ ds ≠ [] ∧
      ∀ c ∈ ds, c.isDigit = true := by
  unfold readExponent? at h
  rcases hsign : takeSign cs with ⟨negative, ds⟩
  rw [hsign] at h
  simp only at h
  have hds : ¬(ds.isEmpty || !ds.all Char.isDigit) = true := fun hds => by
    rw [if_pos hds] at h
    cases h
  simp only [Bool.not_eq_true, Bool.or_eq_false_iff, List.isEmpty_eq_false_iff, Bool.not_eq_false',
    List.all_eq_true] at hds
  rcases takeSign_cases cs with hplain | ⟨rest, rfl, hminus⟩ | ⟨rest, rfl, hplus⟩
  · rw [hplain] at hsign
    cases hsign
    exact ⟨[], cs, rfl, .inl rfl, hds⟩
  · rw [hminus] at hsign
    cases hsign
    exact ⟨['-'], _, rfl, .inr (.inr rfl), hds⟩
  · rw [hplus] at hsign
    cases hsign
    exact ⟨['+'], _, rfl, .inr (.inl rfl), hds⟩

theorem isUnsignedLiteral_of_ofChars? {cs : List Char} {d : Decimal} (h : ofChars? cs = some d) :
    IsUnsignedLiteral (takeSign cs).2 := by
  unfold ofChars? at h
  rcases hsign : takeSign cs with ⟨negative, rest⟩
  rw [hsign] at h
  simp only at h ⊢
  split at h
  · rename_i e m places hexp hbody
    obtain ⟨hchars, hdigit⟩ := readBody?_some hbody
    refine ⟨_, _, List.takeWhile_append_dropWhile.symm, hchars, hdigit, ?_⟩
    split at hexp
    · rename_i hnil
      exact .inl hnil
    · rename_i mark expChars hcons
      have hmark := List.head_dropWhile_not (fun c => !isExponentMark c) (l := rest)
        (by simp [hcons])
      simp only [hcons, List.head_cons, Bool.not_eq_false'] at hmark
      obtain ⟨sign, ds, rfl, hsign', hne, hds⟩ := readExponent?_some hexp
      exact .inr ⟨mark, sign, ds, hcons, hmark, hsign', hne, hds⟩
  · cases h

theorem IsUnsignedLiteral.takeSign {cs : List Char} (hcs : IsUnsignedLiteral cs) :
    takeSign cs = (false, cs) := by
  obtain ⟨body, tail, rfl, hchars, hdigit, -⟩ := hcs
  obtain ⟨c, more, rfl⟩ := List.exists_cons_of_ne_nil (show body ≠ [] by rintro rfl; cases hdigit)
  exact takeSign_of_head (hchars c List.mem_cons_self) _

theorem ofChars?_plus {rest : List Char} (hsign : takeSign rest = (false, rest)) :
    ofChars? ('+' :: rest) = ofChars? rest := by
  have hplus : takeSign ('+' :: rest) = (false, rest) := rfl
  simp only [ofChars?, hplus, hsign]

theorem neg_neg (x : Decimal) : -(-x) = x := by
  show (⟨-(-x.mantissa), x.scale⟩ : Decimal) = x
  rw [Int.neg_neg]

theorem ofChars?_cases {cs : List Char} {d : Decimal} (h : ofChars? cs = some d) :
    ∃ rest, IsUnsignedLiteral rest ∧
      (cs = rest ∧ ofChars? rest = some d ∨ cs = '-' :: rest ∧ ofChars? rest = some (-d) ∨
        cs = '+' :: rest ∧ ofChars? rest = some d) := by
  have hlit := isUnsignedLiteral_of_ofChars? h
  rcases takeSign_cases cs with hplain | ⟨rest, rfl, hminus⟩ | ⟨rest, rfl, hplus⟩
  · rw [hplain] at hlit
    exact ⟨cs, hlit, .inl ⟨rfl, h⟩⟩
  · rw [hminus] at hlit
    rw [ofChars?_minus hlit.takeSign, Option.map_eq_some_iff] at h
    obtain ⟨d', hd', rfl⟩ := h
    exact ⟨rest, hlit, .inr (.inl ⟨rfl, by rw [hd', neg_neg]⟩)⟩
  · rw [hplus] at hlit
    rw [ofChars?_plus hlit.takeSign] at h
    exact ⟨rest, hlit, .inr (.inr ⟨rfl, h⟩)⟩

end Decimal

namespace Token

open Decimal

theorem scanFrom_exponentMark {mark : Char} {r rest : List Char} (hr : r.any Char.isDigit = true)
    (hmark : mark = 'E' ∨ (mark = 'e' ∧ exponentFollows rest = true)) (done : List Token) :
    scanFrom (mark :: rest) (.number r) done = scanFrom rest (.number (mark :: r)) done := by
  rcases hmark with rfl | ⟨rfl, hfollow⟩
  · exact scanFrom_mark hr rest done
  · rw [scanFrom, if_neg (by decide), if_neg (by decide),
      if_pos (by simp [Pending.hasDigit, hr, hfollow])]
    rfl

theorem scanFrom_exponentSign {s mark : Char} (hs : s = '+' ∨ s = '-')
    (hmark : isExponentMark mark = true) (rest r : List Char) (done : List Token) :
    scanFrom (s :: rest) (.number (mark :: r)) done =
      scanFrom rest (.number (s :: mark :: r)) done := by
  have hends : (Pending.number (mark :: r)).endsWithMark = true := by
    simpa [Pending.endsWithMark, isExponentMark, Bool.or_comm] using hmark
  rcases hs with rfl | rfl
  · rw [scanFrom, if_neg (by decide), if_neg (by decide), if_neg (by simp),
      if_pos (by simp [hends])]
    rfl
  · rw [scanFrom, if_neg (by decide), if_neg (by decide), if_neg (by simp),
      if_pos (by simp [hends])]
    rfl

theorem scanFrom_plus (rest : List Char) (done : List Token) :
    scanFrom ('+' :: rest) .empty done = scanFrom rest .empty (.operator .plus :: done) := by
  rw [scanFrom]
  rfl

theorem scanFrom_exponentPart {tail : List Char} (htail : ExponentPart tail) {r : List Char}
    (hr : r.any Char.isDigit = true) (rest : List Char) (done : List Token) :
    scanFrom (tail ++ rest) (.number r) done = scanFrom rest (.number (tail.reverse ++ r)) done := by
  rcases htail with rfl | ⟨mark, sign, ds, rfl, hmark, hsign, hne, hds⟩
  · rfl
  obtain ⟨first, more, rfl⟩ := List.exists_cons_of_ne_nil hne
  have hfirst := hds first List.mem_cons_self
  have hfollow : exponentFollows (sign ++ (first :: more) ++ rest) = true := by
    rcases hsign with rfl | rfl | rfl <;> simp [exponentFollows, hfirst]
  have hmark' : mark = 'E' ∨ (mark = 'e' ∧ exponentFollows (sign ++ (first :: more) ++ rest)) := by
    simp only [isExponentMark, Bool.or_eq_true, beq_iff_eq] at hmark
    rcases hmark with rfl | rfl
    · exact .inr ⟨rfl, hfollow⟩
    · exact .inl rfl
  rw [List.cons_append, scanFrom_exponentMark hr hmark']
  have hsigned : scanFrom (sign ++ (first :: more) ++ rest) (.number (mark :: r)) done =
      scanFrom ((first :: more) ++ rest) (.number (sign.reverse ++ mark :: r)) done := by
    rcases hsign with rfl | rfl | rfl
    · rfl
    · exact scanFrom_exponentSign (.inl rfl) hmark _ _ done
    · exact scanFrom_exponentSign (.inr rfl) hmark _ _ done
  rw [hsigned, scanFrom_mantissa (fun c hc => .inl (hds c hc))]
  simp

theorem scanFrom_unsignedLiteral {cs : List Char} (hcs : IsUnsignedLiteral cs) (done : List Token) :
    scanFrom cs .empty done = .ok (.number (String.ofList cs) :: done).reverse := by
  obtain ⟨body, tail, rfl, hchars, hdigit, htail⟩ := hcs
  have hne : body ≠ [] := by
    rintro rfl
    cases hdigit
  rw [← List.append_nil (body ++ tail), List.append_assoc, scanFrom_mantissa_start hne hchars,
    scanFrom_exponentPart htail (by rwa [List.any_reverse])]
  rw [scanFrom]
  simp [Pending.close]

end Token

namespace Evaluation

open Decimal

variable {p : Precision}

theorem readNumber_of_some {text : String} {x : Decimal} (hx : ofString? text = some x) :
    readNumber text = pure x := by
  unfold readNumber
  rw [hx]

theorem run_literal {text : String} {x : Decimal} (hx : ofString? text = some x) :
    run p [.number text] none [] [] = pure x := by
  rw [run_number, readNumber_of_some hx]
  simp only [pure_bind, run_nil, result_singleton]

theorem run_negLiteral {text : String} {x : Decimal} (hx : ofString? text = some x) :
    run p [.operator .minus, .number text] none [] [] = pure (-x) := by
  rw [run_negNumber rfl, readNumber_of_some hx]
  simp only [pure_bind, run_nil, result_singleton]

theorem run_plusLiteral {text : String} {x : Decimal} (hx : ofString? text = some x) :
    run p [.operator .plus, .number text] none [] [] = throw .malformedExpression := by
  rw [run_binary (by decide) (by decide), reduceFor, pure_bind]
  dsimp only
  rw [run_number, readNumber_of_some hx, pure_bind, run_nil, result_cons]
  rfl

theorem evaluate_of_run {tokens : List Token} {v : Decimal} (h : run p tokens none [] [] = pure v)
    (trace : Array Step) : ((evaluate tokens p).run.run trace).1 = (v.round p).checked := by
  unfold evaluate
  rw [h, pure_bind]
  exact Eval.yields_lift _ trace

end Evaluation

namespace Gateway

open Decimal Evaluation

theorem validPrecision_digits {p : Precision} (hp : p.digits ≤ maxPrecision) :
    validPrecision p.digits = .ok p := by
  have hpos := p.digits_pos
  unfold validPrecision
  rw [dif_pos ⟨by omega, by exact_mod_cast hp⟩]
  cases p
  simp

theorem isBlank_of_digit {s : String} {c : Char} (hc : c ∈ s.toList) (hdigit : c.isDigit = true) :
    isBlank s = false := by
  rw [isBlank_eq_all, List.all_eq_false]
  exact ⟨c, hc, by simp [Token.isBlank_of_mantissa (.inl hdigit)]⟩

theorem dropEquals_of_head {s : String} {c : Char} {more : List Char} (hs : s.toList = c :: more)
    (hc : c ≠ '=') : dropEquals s = s := by
  unfold dropEquals
  rw [hs]
  split
  · rename_i heq
    exact absurd (List.cons.inj heq).1 hc
  · rfl

theorem requestValue_of_scan {text : String} {tokens : List Token} {p : Precision}
    (hblank : isBlank text = false) (hdrop : dropEquals text = text)
    (hp : p.digits ≤ maxPrecision) (hscan : Token.scan text = .ok tokens) :
    requestValue text p.digits = (((evaluate tokens p).run.run #[]).1).mapError Failure.eval := by
  unfold requestValue
  rw [hblank, validPrecision_digits hp]
  simp only [Bool.false_eq_true, if_false]
  rw [hdrop, hscan]
  rcases h : ((evaluate tokens p).run.run #[]).1 with f | v <;> simp only [h] <;> rfl

/-- What a request computes for a literal: the literal rounded and checked, or, after a plus, the
failure of a binary operator with no left operand. -/
theorem requestValue_literal {text : String} {d : Decimal} (hd : ofString? text = some d)
    {p : Precision} (hp : p.digits ≤ maxPrecision) :
    requestValue text p.digits =
      if text.toList.head? = some '+' then .error (.eval .malformedExpression)
      else ((d.round p).checked).mapError Failure.eval := by
  obtain ⟨rest, hlit, hcases⟩ := ofChars?_cases (show ofChars? text.toList = some d from hd)
  have hscanRest : ∀ done, Token.scanFrom rest .empty done =
      .ok (.number (String.ofList rest) :: done).reverse := Token.scanFrom_unsignedLiteral hlit
  have hread : ofString? (String.ofList rest) = ofChars? rest := by
    rw [ofString?, String.toList_ofList]
  -- the unsigned part starts with a digit or a point and holds a digit
  obtain ⟨body, tail, hrest, hchars, hdigit, -⟩ := hlit
  obtain ⟨c, hc, hcdigit⟩ := List.any_eq_true.mp hdigit
  obtain ⟨first, more, hbody⟩ := List.exists_cons_of_ne_nil (List.ne_nil_of_mem hc)
  have hfirst : first.isDigit = true ∨ first = '.' := hchars first (by rw [hbody]; exact List.mem_cons_self)
  have hhead : rest = first :: (more ++ tail) := by rw [hrest, hbody, List.cons_append]
  have hmem : c ∈ rest := by
    rw [hrest]
    exact List.mem_append_left _ hc
  rcases hcases with ⟨hplain, hx⟩ | ⟨hminus, hx⟩ | ⟨hplus, hx⟩
  · have htext : String.ofList rest = text := by rw [← hplain, String.ofList_toList]
    have hscan : Token.scan text = .ok [.number text] := by
      rw [Token.scan, hplain, hscanRest, htext]
      rfl
    -- a digit or a point is neither the leading equals sign nor a plus
    have hnotSymbol : ∀ s : Char, s.isDigit = false → s ≠ '.' → first ≠ s := fun s hs hdot => by
      rcases hfirst with h | rfl
      · exact ne_of_isDigit h hs
      · exact hdot.symm
    rw [requestValue_of_scan (isBlank_of_digit (hplain ▸ hmem) hcdigit)
      (dropEquals_of_head (hplain.trans hhead) (hnotSymbol '=' (by decide) (by decide))) hp hscan,
      evaluate_of_run (run_literal (htext ▸ hread.trans hx)), hplain, hhead]
    simp [hnotSymbol '+' (by decide) (by decide)]
  · have hscan : Token.scan text = .ok [.operator .minus, .number (String.ofList rest)] := by
      rw [Token.scan, hminus, Token.scanFrom_minus, hscanRest]
      rfl
    rw [requestValue_of_scan (isBlank_of_digit (by rw [hminus]; exact List.mem_cons_of_mem _ hmem)
      hcdigit) (dropEquals_of_head hminus (by decide)) hp hscan,
      evaluate_of_run (run_negLiteral (hread.trans hx)), neg_neg, hminus]
    simp
  · have hscan : Token.scan text = .ok [.operator .plus, .number (String.ofList rest)] := by
      rw [Token.scan, hplus, Token.scanFrom_plus, hscanRest]
      rfl
    rw [requestValue_of_scan (isBlank_of_digit (by rw [hplus]; exact List.mem_cons_of_mem _ hmem)
      hcdigit) (dropEquals_of_head hplus (by decide)) hp hscan, hplus]
    unfold evaluate
    rw [run_plusLiteral (hread.trans hx)]
    rfl

theorem evaluateExpression_literal {text : String} {d : Decimal} (hd : ofString? text = some d)
    {p : Precision} (hp : p.digits ≤ maxPrecision) :
    (evaluateExpression text p.digits).serve.1 =
      if text.toList.head? = some '+' then .error (.eval .malformedExpression)
      else (((d.round p).checked).mapError Failure.eval).map Decimal.toText := by
  rw [evaluateExpression_serve, requestValue_literal hd hp]
  split <;> rfl

theorem exponent_ofInt {n : Int} (h : digitCount n.natAbs ≤ maxPrecision) :
    (ofInt n).exponent = digitCount n.natAbs - 1 := by
  have hpos := digitCount_pos n.natAbs
  unfold maxPrecision at h
  show wrap64 ((digitCount n.natAbs : Int) - 1 - 0) = _
  rw [wrap64_of_mem (by unfold int64Min; omega) (by unfold int64Max; omega)]
  omega

theorem printsPlain_ofInt {n : Int} (h : digitCount n.natAbs ≤ maxPrecision) :
    (ofInt n).PrintsPlain := by
  have hd : (ofInt n).digits < 2 ^ 32 := by
    show digitCount n.natAbs < 2 ^ 32
    unfold maxPrecision at h
    omega
  exact ⟨le_refl 0, by rw [printedExponent_eq hd, exponent_ofInt h]; omega⟩

theorem toText_ofInt {n : Int} (h : digitCount n.natAbs ≤ maxPrecision) :
    (ofInt n).toText = intText n := by
  have hcoeff : plainChars (digitChars n.natAbs) 0 = digitChars n.natAbs := by
    unfold plainChars
    rw [if_pos rfl]
  rw [toText, toChars_eq, if_pos (printsPlain_ofInt h), intText]
  show String.ofList ((if n < 0 then ['-'] else []) ++
    plainChars (digitChars n.natAbs) (0 : Int).toNat) = _
  rw [Int.toNat_zero, hcoeff]

theorem ofString?_intText {n : Int} (h : digitCount n.natAbs ≤ maxPrecision) :
    ofString? (intText n) = some (ofInt n) := by
  rw [← toText_ofInt h]
  exact (ofString?_toText_eq_some_iff (wordScale_ofInt n)).mpr (.inl (printsPlain_ofInt h))

theorem intText_head (n : Int) : (intText n).toList.head? ≠ some '+' := by
  unfold intText
  rw [String.toList_ofList]
  split
  · simp
  · obtain ⟨c, more, hcons⟩ := List.exists_cons_of_ne_nil (digitChars_ne_nil n.natAbs)
    have hc : c.isDigit = true := isDigit_of_mem_digitChars (by rw [hcons]; exact List.mem_cons_self)
    rw [List.nil_append, hcons, List.head?_cons, ne_eq, Option.some.injEq]
    exact ne_of_isDigit hc (by decide)

theorem evaluateExpression_intText {n : Int} {p : Precision} (hn : digitCount n.natAbs ≤ p.digits)
    (hp : p.digits ≤ maxPrecision) :
    (evaluateExpression (intText n) p.digits).serve.1 = .ok (intText n) := by
  have hdigits : digitCount n.natAbs ≤ maxPrecision := hn.trans hp
  have hchecked : (ofInt n).checked = .ok (ofInt n) := by
    apply checked_of_le
    rw [exponent_ofInt hdigits]
    unfold wrappingAbs exponentLimit
    unfold maxPrecision at hdigits
    rw [wrap64_of_mem (by unfold int64Min; omega) (by unfold int64Max; omega)]
    omega
  rw [evaluateExpression_literal (ofString?_intText hdigits) hp, if_neg (intText_head n),
    round_of_digits_le (show (ofInt n).digits ≤ p.digits from hn), hchecked]
  simp only [Except.mapError, Except.map, toText_ofInt hdigits]

/-- Every literal evaluated alone answers its value rounded to the precision and checked, except
that a literal written with a plus fails; in particular an integer written in its digits, after a
minus when it is negative, evaluates back to itself at every precision of at least its number of
digits. -/
theorem evaluateExpression_literal_rounded :
    (∀ (text : String) (d : Decimal) (p : Precision), ofString? text = some d →
        p.digits ≤ maxPrecision →
        (evaluateExpression text p.digits).serve.1 =
          if text.toList.head? = some '+' then .error (.eval .malformedExpression)
          else (((d.round p).checked).mapError Failure.eval).map Decimal.toText) ∧
      ∀ (n : Int) (p : Precision), digitCount n.natAbs ≤ p.digits → p.digits ≤ maxPrecision →
        (evaluateExpression (intText n) p.digits).serve.1 = .ok (intText n) :=
  ⟨fun _ _ _ hd hp => evaluateExpression_literal hd hp,
    fun _ _ hn hp => evaluateExpression_intText hn hp⟩

/-- `-1.25e1` at two digits rounds away from zero to `-13`, and `-40` at two digits is itself. -/
theorem evaluateExpression_literal_rounded_samples :
    ofString? "-1.25e1" = some ⟨-125, 1⟩ ∧ (evaluateExpression "-1.25e1" 2).serve.1 = .ok "-13" ∧
      (evaluateExpression (intText (-40)) 2).serve.1 = .ok (intText (-40)) := by
  have hd : ofString? "-1.25e1" = some ⟨-125, 1⟩ := by with_unfolding_all decide
  refine ⟨hd, (evaluateExpression_literal_rounded.1 "-1.25e1" ⟨-125, 1⟩ ⟨2, by decide, by decide⟩ hd
    (by decide)).trans ?_, evaluateExpression_literal_rounded.2 (-40) ⟨2, by decide, by decide⟩
    (by with_unfolding_all decide) (by decide)⟩
  with_unfolding_all decide

/-- A literal written with a plus is read as a decimal, but evaluated alone it fails. -/
theorem evaluateExpression_plus_literal :
    ofString? "+5" = some 5 ∧
      (evaluateExpression "+5" 10).serve.1 = .error (.eval .malformedExpression) := by
  have hd : ofString? "+5" = some 5 := by with_unfolding_all decide
  exact ⟨hd, (evaluateExpression_literal hd (p := ⟨10, by decide, by decide⟩) (by decide)).trans
    (by decide)⟩

end Gateway

end Calculator
