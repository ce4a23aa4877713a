import Calculator.Proofs.WordScale

/-!
Reading a printed decimal back. A printed decimal is a sign, then either its digits with a
point placed by the scale (the plain form) or one digit, the others after a point and an
exponent (the scientific form). Its digits and point read back as the mantissa and the number
of places; an exponent reads back when it is within the bound of literals. So the printed form
is a literal, which reads as the decimal itself, exactly when it is plain or its exponent is
within that bound (`ofChars?_toChars`); past the bound it reads as nothing.
-/

namespace Calculator.Decimal

theorem ne_of_isDigit {c d : Char} (hc : c.isDigit = true) (hd : d.isDigit = false) : c ≠ d := by
  rintro rfl
  rw [hc] at hd
  cases hd

theorem takeSign_of_isDigit {c : Char} (hc : c.isDigit = true) (rest : List Char) :
    takeSign (c :: rest) = (false, c :: rest) := by
  have hminus := ne_of_isDigit hc (d := '-') (by decide)
  have hplus := ne_of_isDigit hc (d := '+') (by decide)
  unfold takeSign
  split
  · rename_i heq
    exact absurd (List.cons.inj heq).1 hminus
  · rename_i heq
    exact absurd (List.cons.inj heq).1 hplus
  · rfl

theorem readBody?_digits {whole : List Char} (hne : whole ≠ [])
    (hd : ∀ c ∈ whole, c.isDigit = true) : readBody? whole = some (digitsValue whole, 0) := by
  have hpoint : ∀ c ∈ whole, (c != '.') = true := fun c hc => by
    simpa using ne_of_isDigit (hd c hc) (by decide)
  have htake : whole.takeWhile (· != '.') = whole := List.takeWhile_eq_self_iff.mpr hpoint
  have hdrop : whole.dropWhile (· != '.') = [] := List.dropWhile_eq_nil_iff.mpr hpoint
  simp only [readBody?, htake, hdrop]
  simp [hne, List.all_eq_true.mpr hd]

theorem readBody?_point {whole fraction : List Char} (hne : whole ≠ [])
    (hw : ∀ c ∈ whole, c.isDigit = true) (hf : ∀ c ∈ fraction, c.isDigit = true) :
    readBody? (whole ++ '.' :: fraction) =
      some (digitsValue (whole ++ fraction), fraction.length) := by
  have hpoint : ∀ c ∈ whole, (c != '.') = true := fun c hc => by
    simpa using ne_of_isDigit (hw c hc) (by decide)
  have htake : (whole ++ '.' :: fraction).takeWhile (· != '.') = whole := by
    rw [List.takeWhile_append_of_pos hpoint]
    simp
  have hdrop : (whole ++ '.' :: fraction).dropWhile (· != '.') = '.' :: fraction := by
    rw [List.dropWhile_append, if_pos (by simpa using List.dropWhile_eq_nil_iff.mpr hpoint)]
    simp
  simp only [readBody?, htake, hdrop]
  simp [hne, List.all_eq_true.mpr hw, List.all_eq_true.mpr hf]

theorem isExponentMark_of_isDigit {c : Char} (hc : c.isDigit = true) : isExponentMark c = false := by
  simp [isExponentMark, ne_of_isDigit hc (d := 'e') (by decide), ne_of_isDigit hc (d := 'E') (by decide)]

theorem ofChars?_of_noMark {body : List Char} (hsign : takeSign body = (false, body))
    (hmark : ∀ c ∈ body, isExponentMark c = false) :
    ofChars? body = (readBody? body).map fun r => ⟨r.1, wrap64 r.2⟩ := by
  have hkeep : ∀ c ∈ body, (!isExponentMark c) = true := fun c hc => by simp [hmark c hc]
  simp only [ofChars?, hsign, List.takeWhile_eq_self_iff.mpr hkeep,
    List.dropWhile_eq_nil_iff.mpr hkeep]
  cases readBody? body <;> simp

theorem ofChars?_of_mark {mant expChars : List Char} (hsign : takeSign (mant ++ 'E' :: expChars) = (false, mant ++ 'E' :: expChars))
    (hmark : ∀ c ∈ mant, isExponentMark c = false) :
    ofChars? (mant ++ 'E' :: expChars) =
      (readExponent? expChars).bind fun e => (readBody? mant).map fun r => ⟨r.1, wrap64 (r.2 - e)⟩ := by
  have hkeep : ∀ c ∈ mant, (!isExponentMark c) = true := fun c hc => by simp [hmark c hc]
  have htake : (mant ++ 'E' :: expChars).takeWhile (fun c => !isExponentMark c) = mant := by
    rw [List.takeWhile_append_of_pos hkeep]
    simp [isExponentMark]
  have hdrop : (mant ++ 'E' :: expChars).dropWhile (fun c => !isExponentMark c) = 'E' :: expChars := by
    rw [List.dropWhile_append, if_pos (by simpa using List.dropWhile_eq_nil_iff.mpr hkeep)]
    simp [isExponentMark]
  simp only [ofChars?, hsign, htake, hdrop]
  cases readExponent? expChars <;> cases readBody? mant <;> simp

theorem ofChars?_minus {body : List Char} (hsign : takeSign body = (false, body)) :
    ofChars? ('-' :: body) = (ofChars? body).map Neg.neg := by
  have hminus : takeSign ('-' :: body) = (true, body) := rfl
  simp only [ofChars?, hminus, hsign]
  split <;> rfl

theorem takeSign_of_head {c : Char} (hc : c.isDigit = true ∨ c = '.') (rest : List Char) :
    takeSign (c :: rest) = (false, c :: rest) := by
  rcases hc with hc | rfl
  · exact takeSign_of_isDigit hc rest
  · rfl

theorem isExponentMark_of_mantissa {c : Char} (hc : c.isDigit = true ∨ c = '.') :
    isExponentMark c = false := by
  rcases hc with hc | rfl
  · exact isExponentMark_of_isDigit hc
  · rfl

theorem digitChars_ne_nil (n : Nat) : digitChars n ≠ [] :=
  List.ne_nil_of_length_pos (by rw [digitChars_length]; exact digitLength_pos n)

theorem readExponent?_digits {negative : Bool} {ds : List Char} (hne : ds ≠ [])
    (hd : ∀ c ∈ ds, c.isDigit = true) (v : Int)
    (hv : v = if negative then -(digitsValue ds : Int) else digitsValue ds) (h1 : int64Min ≤ v)
    (h2 : v ≤ int64Max) (hsign : takeSign cs = (negative, ds)) :
    readExponent? cs = if wrappingAbs v ≤ literalExponentLimit then some v else none := by
  have hempty : ds.isEmpty = false := List.isEmpty_eq_false_iff.mpr hne
  simp only [readExponent?, hsign, List.all_eq_true.mpr hd, hempty, Bool.not_true, Bool.or_false,
    Bool.false_eq_true, if_false]
  rw [← hv, if_neg (by omega)]
  by_cases hlimit : wrappingAbs v ≤ literalExponentLimit
  · rw [if_neg (by omega), if_pos hlimit]
  · rw [if_pos (by omega), if_neg hlimit]

theorem readExponent?_exponentChars {e : Int} (h1 : int64Min ≤ e) (h2 : e ≤ int64Max) :
    readExponent? (exponentChars e) =
      if wrappingAbs e ≤ literalExponentLimit then some e else none := by
  unfold exponentChars
  by_cases he : 0 ≤ e
  · rw [if_pos he]
    refine readExponent?_digits (digitChars_ne_nil _)
      (fun c hc => isDigit_of_mem_digitChars hc) e ?_ h1 h2 rfl
    simp [digitsValue_digitChars, Int.toNat_of_nonneg he]
  · rw [if_neg he]
    refine readExponent?_digits (digitChars_ne_nil _)
      (fun c hc => isDigit_of_mem_digitChars hc) e ?_ h1 h2 rfl
    simp only [digitsValue_digitChars, if_true]
    omega

theorem readBody?_plainChars {coeff : List Char} (hne : coeff ≠ [])
    (hd : ∀ c ∈ coeff, c.isDigit = true) (places : Nat) :
    readBody? (plainChars coeff places) = some (digitsValue coeff, places) := by
  unfold plainChars
  split_ifs with hzero hshort
  · rw [readBody?_digits hne hd, hzero]
  · have hlen : 0 < coeff.length := List.length_pos_of_ne_nil hne
    rw [readBody?_point (List.ne_nil_of_length_pos (by rw [List.length_take]; omega))
      (fun c hc => hd c (List.mem_of_mem_take hc)) (fun c hc => hd c (List.mem_of_mem_drop hc)),
      List.take_append_drop, List.length_drop]
    congr 2
    omega
  · have hzeros : ['0'] ++ (List.replicate (places - coeff.length) '0' ++ coeff) =
        List.replicate (places - coeff.length + 1) '0' ++ coeff := by
      rw [List.replicate_succ]
      rfl
    rw [show '0' :: '.' :: (List.replicate (places - coeff.length) '0' ++ coeff) =
        ['0'] ++ '.' :: (List.replicate (places - coeff.length) '0' ++ coeff) from rfl,
      readBody?_point (List.cons_ne_nil _ _) (by simp) (fun c hc => ?_), hzeros,
      digitsValue_replicate_zero, List.length_append, List.length_replicate]
    · congr 2
      omega
    · rcases List.mem_append.mp hc with hzero | hdigit
      · rw [List.eq_of_mem_replicate hzero]
        rfl
      · exact hd c hdigit

theorem mantissa_of_mem_plainChars {coeff : List Char} (hd : ∀ c ∈ coeff, c.isDigit = true)
    {places : Nat} {c : Char} (hc : c ∈ plainChars coeff places) : c.isDigit = true ∨ c = '.' := by
  unfold plainChars at hc
  split_ifs at hc
  · exact .inl (hd c hc)
  · simp only [List.mem_append, List.mem_cons] at hc
    rcases hc with hc | hc | hc
    · exact .inl (hd c (List.mem_of_mem_take hc))
    · exact .inr hc
    · exact .inl (hd c (List.mem_of_mem_drop hc))
  · simp only [List.mem_cons, List.mem_append] at hc
    rcases hc with rfl | rfl | hc | hc
    · exact .inl rfl
    · exact .inr rfl
    · rw [List.eq_of_mem_replicate hc]
      exact .inl rfl
    · exact .inl (hd c hc)

theorem takeSign_plainChars {coeff : List Char} (hd : ∀ c ∈ coeff, c.isDigit = true)
    (places : Nat) : takeSign (plainChars coeff places) = (false, plainChars coeff places) := by
  cases hplain : plainChars coeff places with
  | nil => rfl
  | cons c rest =>
    exact takeSign_of_head (mantissa_of_mem_plainChars hd (hplain ▸ List.mem_cons_self)) rest

theorem ofChars?_plainChars {coeff : List Char} (hne : coeff ≠ [])
    (hd : ∀ c ∈ coeff, c.isDigit = true) (places : Nat) :
    ofChars? (plainChars coeff places) = some ⟨digitsValue coeff, wrap64 places⟩ := by
  rw [ofChars?_of_noMark (takeSign_plainChars hd places)
    (fun c hc => isExponentMark_of_mantissa (mantissa_of_mem_plainChars hd hc)),
    readBody?_plainChars hne hd]
  rfl

theorem scientificChars_eq (coeff : List Char) (e : Int) :
    scientificChars coeff e =
      (coeff.take 1 ++ if 1 < coeff.length then '.' :: coeff.drop 1 else []) ++
        'E' :: exponentChars e := by
  simp only [scientificChars, List.append_assoc]

theorem readBody?_leading {coeff : List Char} (hne : coeff ≠ [])
    (hd : ∀ c ∈ coeff, c.isDigit = true) :
    readBody? (coeff.take 1 ++ if 1 < coeff.length then '.' :: coeff.drop 1 else []) =
      some (digitsValue coeff, coeff.length - 1) := by
  split_ifs with hlong
  · rw [readBody?_point (List.ne_nil_of_length_pos (by rw [List.length_take]; omega))
      (fun c hc => hd c (List.mem_of_mem_take hc)) (fun c hc => hd c (List.mem_of_mem_drop hc)),
      List.take_append_drop, List.length_drop]
  · have hlen : 0 < coeff.length := List.length_pos_of_ne_nil hne
    rw [List.append_nil, List.take_of_length_le (by omega), readBody?_digits hne hd]
    congr 2
    omega

theorem ofChars?_scientificChars {coeff : List Char} (hne : coeff ≠ [])
    (hd : ∀ c ∈ coeff, c.isDigit = true) {e : Int} (h1 : int64Min ≤ e) (h2 : e ≤ int64Max) :
    ofChars? (scientificChars coeff e) =
      if wrappingAbs e ≤ literalExponentLimit then
        some ⟨digitsValue coeff, wrap64 ((coeff.length : Int) - 1 - e)⟩
      else none := by
  obtain ⟨first, rest, rfl⟩ := List.exists_cons_of_ne_nil hne
  have hfirst := hd first List.mem_cons_self
  have hmant : ∀ c ∈ ((first :: rest).take 1 ++
      if 1 < (first :: rest).length then '.' :: (first :: rest).drop 1 else []),
      isExponentMark c = false := by
    intro c hc
    apply isExponentMark_of_mantissa
    split_ifs at hc
    · simp only [List.mem_append, List.mem_cons] at hc
      rcases hc with hc | rfl | hc
      · exact .inl (hd c (List.mem_of_mem_take hc))
      · exact .inr rfl
      · exact .inl (hd c (List.mem_of_mem_drop hc))
    · rw [List.append_nil] at hc
      exact .inl (hd c (List.mem_of_mem_take hc))
  rw [scientificChars_eq, ofChars?_of_mark (takeSign_of_head (.inl hfirst) _) hmant,
    readExponent?_exponentChars h1 h2, readBody?_leading hne hd]
  split_ifs
  · simp only [Option.bind_some, Option.map_some, Nat.cast_sub (List.length_pos_of_ne_nil hne),
      Nat.cast_one]
  · rfl

theorem takeSign_scientificChars {coeff : List Char} (hne : coeff ≠ [])
    (hd : ∀ c ∈ coeff, c.isDigit = true) (e : Int) :
    takeSign (scientificChars coeff e) = (false, scientificChars coeff e) := by
  obtain ⟨first, rest, rfl⟩ := List.exists_cons_of_ne_nil hne
  exact takeSign_of_head (.inl (hd first List.mem_cons_self)) _

def printedExponent (x : Decimal) : Int := wrap64 ((digitLength x.mantissa.natAbs : Int) - 1 - x.scale)

theorem printedExponent_eq {x : Decimal} (hd : x.digits < 2 ^ 32) : x.printedExponent = x.exponent := by
  unfold printedExponent exponent digits
  rw [digitCount_eq_digitLength_of_lt hd]

def PrintsPlain (x : Decimal) : Prop := 0 ≤ x.scale ∧ -6 ≤ x.printedExponent

instance (x : Decimal) : Decidable x.PrintsPlain := inferInstanceAs (Decidable (_ ∧ _))

def Readable (x : Decimal) : Prop :=
  x.PrintsPlain ∨ wrappingAbs x.printedExponent ≤ literalExponentLimit

instance (x : Decimal) : Decidable x.Readable := inferInstanceAs (Decidable (_ ∨ _))

theorem toChars_eq (x : Decimal) :
    x.toChars = (if x.mantissa < 0 then ['-'] else []) ++
      if x.PrintsPlain then plainChars (digitChars x.mantissa.natAbs) x.scale.toNat
      else scientificChars (digitChars x.mantissa.natAbs) x.printedExponent := by
  have hexp : wrap64 (((digitChars x.mantissa.natAbs).length : Int) - 1 - x.scale) =
      x.printedExponent := by
    rw [digitChars_length]
    rfl
  unfold toChars
  simp only [hexp]
  by_cases hplain : x.PrintsPlain
  · rw [if_pos hplain, if_pos (show 0 ≤ x.scale ∧ -6 ≤ x.printedExponent from hplain)]
  · rw [if_neg hplain, if_neg (show ¬(0 ≤ x.scale ∧ -6 ≤ x.printedExponent) from hplain)]

@[simp] theorem abs_mantissa (x : Decimal) : x.abs.mantissa = x.mantissa.natAbs := rfl

@[simp] theorem abs_scale (x : Decimal) : x.abs.scale = x.scale := rfl

@[simp] theorem abs_printedExponent (x : Decimal) : x.abs.printedExponent = x.printedExponent := by
  simp only [printedExponent, abs_mantissa, Int.natAbs_natCast, abs_scale]

theorem printsPlain_abs (x : Decimal) : x.abs.PrintsPlain ↔ x.PrintsPlain := by
  simp only [PrintsPlain, abs_scale, abs_printedExponent]

theorem readable_abs (x : Decimal) : x.abs.Readable ↔ x.Readable := by
  simp only [Readable, printsPlain_abs, abs_printedExponent]

theorem toChars_eq_sign_append (x : Decimal) :
    x.toChars = (if x.mantissa < 0 then ['-'] else []) ++ x.abs.toChars := by
  rw [toChars_eq, toChars_eq x.abs]
  simp only [abs_mantissa, Int.natAbs_natCast, abs_scale, abs_printedExponent, printsPlain_abs]
  simp

theorem wrap64_sub_wrap64 (a s : Int) : wrap64 (a - wrap64 (a - s)) = wrap64 s := by
  unfold wrap64
  rw [Int.sub_bmod_bmod, sub_sub_cancel]

theorem ofChars?_toChars_of_nonneg {x : Decimal} (hx : 0 ≤ x.mantissa) :
    ofChars? x.toChars = if x.Readable then some ⟨x.mantissa, wrap64 x.scale⟩ else none := by
  have hne := digitChars_ne_nil x.mantissa.natAbs
  have hd : ∀ c ∈ digitChars x.mantissa.natAbs, c.isDigit = true :=
    fun c hc => isDigit_of_mem_digitChars hc
  have hvalue : (digitsValue (digitChars x.mantissa.natAbs) : Int) = x.mantissa := by
    rw [digitsValue_digitChars]
    exact Int.natAbs_of_nonneg hx
  rw [toChars_eq, if_neg (by omega), List.nil_append]
  by_cases hplain : x.PrintsPlain
  · rw [if_pos hplain, if_pos (show x.Readable from .inl hplain), ofChars?_plainChars hne hd, hvalue,
      Int.toNat_of_nonneg hplain.1]
  · have hrange : int64Min ≤ x.printedExponent ∧ x.printedExponent ≤ int64Max := wrap64_mem _
    rw [if_neg hplain, ofChars?_scientificChars hne hd hrange.1 hrange.2]
    simp only [Readable, hplain, false_or]
    split_ifs
    · rw [hvalue, digitChars_length]
      exact congrArg (fun s => some (⟨x.mantissa, s⟩ : Decimal)) (wrap64_sub_wrap64 _ _)
    · rfl

theorem takeSign_toChars {x : Decimal} (hx : 0 ≤ x.mantissa) :
    takeSign x.toChars = (false, x.toChars) := by
  have hd : ∀ c ∈ digitChars x.mantissa.natAbs, c.isDigit = true :=
    fun c hc => isDigit_of_mem_digitChars hc
  rw [toChars_eq, if_neg (by omega), List.nil_append]
  split_ifs
  · exact takeSign_plainChars hd _
  · exact takeSign_scientificChars (digitChars_ne_nil _) hd _

theorem ofChars?_toChars (x : Decimal) :
    ofChars? x.toChars = if x.Readable then some ⟨x.mantissa, wrap64 x.scale⟩ else none := by
  by_cases hneg : x.mantissa < 0
  · have hsign := takeSign_toChars (x := x.abs) (Int.natCast_nonneg _)
    rw [toChars_eq_sign_append, if_pos hneg, List.singleton_append, ofChars?_minus hsign,
      ofChars?_toChars_of_nonneg (Int.natCast_nonneg _)]
    simp only [readable_abs, abs_mantissa, abs_scale]
    split_ifs
    · show some (⟨-(x.mantissa.natAbs : Int), wrap64 x.scale⟩ : Decimal) = _
      congr 2
      omega
    · rfl
  · exact ofChars?_toChars_of_nonneg (by omega)

theorem ofString?_toText (x : Decimal) : ofString? x.toText = ofChars? x.toChars := by
  rw [ofString?, toText, String.toList_ofList]

theorem ofString?_toText_eq_some_iff {x : Decimal} (hx : x.WordScale) :
    ofString? x.toText = some x ↔ x.Readable := by
  rw [ofString?_toText, ofChars?_toChars, wrap64_of_mem hx.1 hx.2]
  split_ifs with hreadable
  · exact ⟨fun _ => hreadable, fun _ => rfl⟩
  · exact ⟨fun h => absurd h (by simp), fun h => absurd h hreadable⟩

/-- Printing then reading gives back every decimal whose scale lies well inside the words, the
same mantissa and the same scale, exactly when it prints plainly or its exponent is within the
bound of literals; any other printed decimal is no literal at all.

The size of the exponent is taken as a word, as reading takes it: that differs from its size as
an integer only at `int64Min`, which the exponent of such a decimal reaches only with a mantissa
of more than `2 ^ 62` digits. -/
theorem ofString?_toText_of_scale_lt (x : Decimal) (hx : x.scale.natAbs < 2 ^ 62) :
    ofString? x.toText = if x.Readable then some x else none := by
  have hw : x.WordScale := ⟨by unfold int64Min; omega, by unfold int64Max; omega⟩
  rw [ofString?_toText, ofChars?_toChars, wrap64_of_mem hw.1 hw.2]

/-- A decimal whose exponent is past the bound of literals prints as no literal. -/
theorem ofString?_toText_beyond_literals :
    (⟨1, -1000000000⟩ : Decimal).scale.natAbs < 2 ^ 62 ∧
      ofString? (⟨1, -1000000000⟩ : Decimal).toText = none := by
  have hscale : (⟨1, -1000000000⟩ : Decimal).scale.natAbs < 2 ^ 62 := by decide
  refine ⟨hscale, ?_⟩
  rw [ofString?_toText_of_scale_lt _ hscale, if_neg (by with_unfolding_all decide)]

end Calculator.Decimal
