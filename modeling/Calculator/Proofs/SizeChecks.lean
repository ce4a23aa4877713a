import Calculator.Proofs.Literals
/-!
The bound on the exponent of a literal. Reading a literal refuses an exponent whose size is past
`literalExponentLimit`, but it takes the size with the word's own absolute value, which wraps at
`int64Min`: so the check lets through the exponents within the bound and `int64Min` as well,
whose size `2 ^ 63` is itself past the words (`readExponent?_eq_some_iff`). A literal with that
exponent is read with the scale `places - int64Min`, which leaves the words too and wraps, and it
is evaluated as that wrapped decimal.
-/

namespace Calculator

namespace Decimal

theorem readExponent?_eq_some_iff {cs : List Char} {e : Int} :
    readExponent? cs = some e ↔
      (∃ negative ds, takeSign cs = (negative, ds) ∧ ds ≠ [] ∧ (∀ c ∈ ds, c.isDigit = true) ∧
        e = if negative then -(digitsValue ds : Int) else digitsValue ds) ∧
      (e.natAbs ≤ literalExponentLimit ∨ e = int64Min) := by
  constructor
  · intro h
    rcases hsign : takeSign cs with ⟨negative, ds⟩
    unfold readExponent? at h
    rw [hsign] at h
    simp only at h
    have hds : ¬(ds.isEmpty || !ds.all Char.isDigit) = true := fun hds => by
      rw [if_pos hds] at h
      cases h
    rw [if_neg hds] at h
    generalize hv : (if negative = true then -(digitsValue ds : Int) else digitsValue ds) = v at h
    have hrange : ¬(v < int64Min ∨ int64Max < v) := fun hr => by
      rw [if_pos hr] at h
      cases h
    have hsize : ¬(literalExponentLimit : Int) < wrappingAbs v := fun hs => by
      rw [if_neg hrange, if_pos hs] at h
      cases h
    rw [if_neg hrange, if_neg hsize, Option.some.injEq] at h
    subst h
    simp only [Bool.not_eq_true, Bool.or_eq_false_iff, List.isEmpty_eq_false_iff,
      Bool.not_eq_false', List.all_eq_true] at hds
    refine ⟨⟨negative, ds, rfl, hds.1, hds.2, hv.symm⟩, ?_⟩
    exact (wrappingAbs_le_iff (by omega) (by omega)).mp (by omega)
  · rintro ⟨⟨negative, ds, hsign, hne, hdigits, he⟩, hsize⟩
    have hrange : int64Min ≤ e ∧ e ≤ int64Max := by
      unfold int64Min int64Max literalExponentLimit at *
      omega
    rw [readExponent?_digits hne hdigits e he hrange.1 hrange.2 hsign,
      if_pos ((wrappingAbs_le_iff hrange.1 hrange.2).mpr hsize)]

-- the least word passes the bound, and the scale `0 - int64Min` of its literal wraps to itself
example : readExponent? "-9223372036854775808".toList = some int64Min ∧
    ofString? "1E-9223372036854775808" = some ⟨1, int64Min⟩ := by
  with_unfolding_all decide

end Decimal

end Calculator
