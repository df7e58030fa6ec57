import Mathlib.Algebra.Ring.Int.Defs
import Mathlib.Algebra.Ring.Nat
import Mathlib.Data.Nat.Log

namespace Chronos.SignificantBits

-- The multiple of `unit` nearest to a number, the even one of two as near.
def nearest (unit n : Int) : Int :=
  if 2*(n%unit) < unit ∨ 2*(n%unit) = unit ∧ n/unit%2 = 0 then n/unit*unit else (n/unit+1)*unit

def length (n : Int) : Nat := if n = 0 then 0 else n.natAbs.log2+1

-- The distance between numbers of so many significant bits, where `n` lies.
def spacing (bits : Nat) (n : Int) : Int := 2^(length n-bits)

def significant (bits : Nat) (n : Int) : Int := nearest (spacing bits n) n

example : significant 3 17 = 16 ∧ significant 3 18 = 16 ∧ significant 3 22 = 24 ∧ significant 3 (-18) = -16 := by decide

theorem nearest_dvd (unit n : Int) : unit ∣ nearest unit n := by
  unfold nearest
  split
  · exact Int.dvd_mul_left _ _
  · exact Int.dvd_mul_left _ _

theorem nearest_eq_iff {unit n : Int} (positive : 0 < unit) : nearest unit n = n ↔ unit ∣ n := by
  constructor
  · intro kept
    rw [← kept]
    exact nearest_dvd unit n
  · intro multiple
    have rest : n%unit = 0 := Int.emod_eq_zero_of_dvd multiple
    rw [nearest,if_pos (by omega),Int.ediv_mul_cancel multiple]

theorem spacing_pos (bits : Nat) (n : Int) : 0 < spacing bits n := Int.pow_pos (by decide)

theorem significant_eq_iff {bits : Nat} {n : Int} : significant bits n = n ↔ spacing bits n ∣ n :=
  nearest_eq_iff (spacing_pos bits n)

end Chronos.SignificantBits
