import Chronos.Types
import Mathlib.Algebra.Order.Field.Basic
import Mathlib.Algebra.Order.Group.Unbundled.Abs

namespace Chronos

section Units
variable {low n high bound : Int} {d : Rat}

theorem units_between (positive : 0 < d) : ((low : Rat)/d < n/d ∧ (n : Rat)/d < high/d) ↔ low < n ∧ n < high := by
  rw [div_lt_div_iff_of_pos_right positive,div_lt_div_iff_of_pos_right positive,Int.cast_lt,Int.cast_lt]

theorem units_abs (positive : 0 < d) : |(n : Rat)/d| ≤ bound/d ↔ -bound ≤ n ∧ n ≤ bound := by
  rw [abs_le,← neg_div,div_le_div_iff_of_pos_right positive,div_le_div_iff_of_pos_right positive,← Int.cast_neg,
    Int.cast_le,Int.cast_le]

end Units

theorem bmod_range (n : Int) : -2^63 ≤ n.bmod (2^64) ∧ n.bmod (2^64) < 2^63 := by
  have low := @Int.le_bmod n (2^64) (by decide)
  have high := @Int.bmod_lt n (2^64) (by decide)
  omega

-- The low 64 bits, read as an int64_t.
def wrap (n : Int) : Decimal := ⟨n.bmod (2^64),(bmod_range n).1,(bmod_range n).2⟩

-- A product of two raw values, brought back from 2^-64 to 2^-32, halves away from zero.
def roundProduct (product : Int) : Int :=
  if 0 ≤ product then (product+2^31)/2^32 else -((-product+2^31)/2^32)

instance : Add Decimal := ⟨fun a b => wrap (a.raw+b.raw)⟩
instance : Sub Decimal := ⟨fun a b => wrap (a.raw-b.raw)⟩
instance : Neg Decimal := ⟨fun a => wrap (-a.raw)⟩
instance : Mul Decimal := ⟨fun a b => wrap (roundProduct (a.raw*b.raw))⟩

theorem wrap_fits {n : Int} (low : -2^63 ≤ n) (high : n < 2^63) : (wrap n).raw = n :=
  Int.bmod_eq_of_le (by omega) (by omega)

theorem neg_raw {d : Decimal} (more : -2^63 < d.raw) : (-d).raw = -d.raw := by
  have high := d.high
  exact wrap_fits (by omega) (by omega)

theorem wrap_turns (n : Int) : ∃ turns, (wrap n).raw = n-2^64*turns :=
  ⟨n.bdiv (2^64),Int.bmod_eq_self_sub_mul_bdiv n (2^64)⟩

theorem wrap_add (a : Int) (b : Int) : wrap (a+(wrap b).raw) = wrap (a+b) := by
  ext
  exact Int.add_bmod_bmod

theorem roundProduct_near (product : Int) :
    -2^31 ≤ roundProduct product*2^32-product ∧ roundProduct product*2^32-product ≤ 2^31 := by
  unfold roundProduct
  split <;> omega

theorem roundProduct_lt {bound : Int} (positive : 0 < bound) (product : Int) :
    roundProduct product < bound ↔ product < bound*2^32-2^31 := by
  unfold roundProduct
  split <;> omega

theorem le_roundProduct {bound : Int} (negative : bound ≤ 0) (product : Int) :
    bound ≤ roundProduct product ↔ bound*2^32-2^31 < product := by
  unfold roundProduct
  split <;> omega

-- A sum that wraps is off by at least 2^64 units.
theorem wrap_near_iff {r product : Int} (low : -2^63 ≤ r) (high : r < 2^63) :
    (-2^31 ≤ (wrap (r+roundProduct product)).raw*2^32-(r*2^32+product) ∧
        (wrap (r+roundProduct product)).raw*2^32-(r*2^32+product) ≤ 2^31) ↔
      -2^95-2^31 < r*2^32+product ∧ r*2^32+product < 2^95-2^31 := by
  have near := roundProduct_near product
  have above := roundProduct_lt (show 0 < 2^63-r by omega) product
  have below := le_roundProduct (show -2^63-r ≤ 0 by omega) product
  constructor
  · intro close
    have lower := (wrap (r+roundProduct product)).low
    have upper := (wrap (r+roundProduct product)).high
    obtain ⟨turns,same⟩ := wrap_turns (r+roundProduct product)
    omega
  · intro inside
    have fits : (wrap (r+roundProduct product)).raw = r+roundProduct product := wrap_fits (by omega) (by omega)
    rw [fits]
    omega

end Chronos
