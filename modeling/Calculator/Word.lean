/-!
Machine words. The scales and exponents of decimals, and the integers the calculator reads out
of decimals, are 64-bit two's complement integers: their sums and differences wrap around
modulo `2 ^ 64`, and the absolute value of the least of them is itself. A count of digits given
to a power of ten is a 32-bit word, so a larger count keeps only its low 32 bits.
-/

namespace Calculator

/-- The least 64-bit integer, `-2 ^ 63`. -/
def int64Min : Int := -9223372036854775808

/-- The greatest 64-bit integer, `2 ^ 63 - 1`. -/
def int64Max : Int := 9223372036854775807

/-- The number of 64-bit words, `2 ^ 64`. -/
def wordCount : Nat := 18446744073709551616

/-- The 64-bit integer congruent to `n` modulo `2 ^ 64`: the one in `[int64Min, int64Max]`. -/
def wrap64 (n : Int) : Int := Int.bmod n wordCount

/-- The absolute value among 64-bit integers: `|n|`, except that `int64Min` has no opposite
and stays as it is. -/
def wrappingAbs (n : Int) : Int := wrap64 n.natAbs

/-- The low 32 bits of `n`, as a count below `2 ^ 32`. -/
def low32 (n : Int) : Nat := (n % 4294967296).toNat

theorem wrap64_of_mem {n : Int} (h1 : int64Min ≤ n) (h2 : n ≤ int64Max) : wrap64 n = n := by
  unfold int64Min at h1
  unfold int64Max at h2
  unfold wrap64 wordCount
  rw [Int.bmod_def]
  split <;> omega

end Calculator
