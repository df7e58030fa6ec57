import Chronos.Types
import Mathlib.Tactic.Linarith
import Mathlib.Tactic.NormNum

namespace Chronos

-- Cut off, towards zero, to a multiple of 2^-32.
def truncated (x : Rat) : Rat := ((if 0 ≤ x then ⌊x*2^32⌋ else ⌈x*2^32⌉ : Int) : Rat)/2^32

theorem scaled (x : Rat) : x*scale = x*2^32 := rfl

theorem castable_iff (x : Rat) : Castable x ↔ -(2^31)-1/2^32 < x ∧ x < 2^31 := by
  have below : -2^63 ≤ ⌈x*2^32⌉ ↔ (-2^63 : Rat)-1 < x*2^32 := by
    rw [Int.le_ceil_iff]
    norm_num
  have above : ⌊x*2^32⌋ < 2^63 ↔ x*2^32 < (2^63 : Rat) := by
    rw [Int.floor_lt]
    norm_num
  simp only [Castable,scaled]
  by_cases positive : 0 ≤ x*2^32
  · have floor : (Double.truncate (x*2^32) : Int) = ⌊x*2^32⌋ := if_pos positive
    have low : 0 ≤ ⌊x*2^32⌋ := Int.floor_nonneg.mpr positive
    rw [floor,above]
    constructor
    · rintro ⟨_,high⟩
      constructor <;> linarith
    · rintro ⟨_,high⟩
      exact ⟨by omega,by linarith⟩
  · have ceil : (Double.truncate (x*2^32) : Int) = ⌈x*2^32⌉ := if_neg positive
    have high : ⌈x*2^32⌉ ≤ 0 := Int.ceil_nonpos.mpr (by linarith)
    rw [ceil,below]
    constructor
    · rintro ⟨low,_⟩
      constructor <;> linarith
    · rintro ⟨low,_⟩
      exact ⟨by linarith,by omega⟩

theorem toDouble_toDecimal (x : Rat) (fits : Castable x) : toDouble (toDecimal x) = truncated x := by
  have sign : 0 ≤ x*2^32 ↔ 0 ≤ x := by constructor <;> intro <;> linarith
  have raw : (toDecimal x).raw = if 0 ≤ x then ⌊x*2^32⌋ else ⌈x*2^32⌉ := by
    rw [toDecimal_raw fits,scaled]
    simp only [← sign]
    rfl
  simp only [toDouble,truncated,← raw]
  rfl

theorem toDouble_range (d : Decimal) : -2^31 ≤ (toDouble d : Rat) ∧ (toDouble d : Rat) < 2^31 := by
  have low : ((-2^63 : Int) : Rat) ≤ d.raw := Int.cast_le.mpr d.low
  have high : (d.raw : Rat) < ((2^63 : Int) : Rat) := Int.cast_lt.mpr d.high
  have value : (toDouble d : Rat) = d.raw/2^32 := rfl
  push_cast at low high
  rw [value]
  constructor
  · rw [le_div_iff₀ (by norm_num)]; linarith
  · rw [div_lt_iff₀ (by norm_num)]; linarith

def Near (slack x y : Rat) : Prop := x-slack ≤ y ∧ y ≤ x+slack

theorem Near.trans (first : Near slack x y) (second : Near slack' y z) : Near (slack+slack') x z := by
  obtain ⟨low,high⟩ := first
  obtain ⟨low',high'⟩ := second
  constructor <;> linarith

theorem Near.widen (near : Near slack x y) (wider : slack ≤ slack') : Near slack' x y := by
  obtain ⟨low,high⟩ := near
  constructor <;> linarith

theorem truncated_near (x : Rat) : Near (1/2^32) x (truncated x) := by
  by_cases positive : 0 ≤ x
  · have below := Int.floor_le (x*2^32)
    have next := (Int.lt_floor_add_one (x*2^32)).le
    have cut : (x-1/2^32)*2^32 = x*2^32-1 := by ring
    have grown : (x+1/2^32)*2^32 = x*2^32+1 := by ring
    rw [truncated,if_pos positive,Near,le_div_iff₀ (by norm_num),div_le_iff₀ (by norm_num),cut,grown]
    exact ⟨sub_le_iff_le_add.mpr next,below.trans (le_add_of_nonneg_right zero_le_one)⟩
  · have above := Int.le_ceil (x*2^32)
    have next := (Int.ceil_lt_add_one (x*2^32)).le
    have cut : (x-1/2^32)*2^32 = x*2^32-1 := by ring
    have grown : (x+1/2^32)*2^32 = x*2^32+1 := by ring
    rw [truncated,if_neg positive,Near,le_div_iff₀ (by norm_num),div_le_iff₀ (by norm_num),cut,grown]
    exact ⟨(sub_le_self _ zero_le_one).trans above,next⟩

theorem truncated_below {x bound : Rat} (positive : 0 ≤ bound) (below : x ≤ bound) : truncated x ≤ bound := by
  unfold truncated
  split
  · rw [div_le_iff₀ (by norm_num)]
    exact (Int.floor_le _).trans (by linarith)
  · rename_i negative
    have least : ⌈x*2^32⌉ ≤ 0 := Int.ceil_nonpos.mpr (by linarith)
    rw [div_le_iff₀ (by norm_num)]
    exact (Int.cast_nonpos.mpr least).trans (by linarith)

theorem toDouble_outOfRange {x : Rat} (outside : ¬ Castable x) : (toDouble (toDecimal x) : Rat) = -2^31 := by
  rw [toDecimal,dif_neg outside]
  simp only [toDouble,scale,Double.ofInt,Double.ofRat,Double.outOfRange]
  norm_num

theorem toDecimal_cases (x : Rat) :
    (toDouble (toDecimal x) : Rat) = -2^31 ∨ Near (1/2^32) x (toDouble (toDecimal x)) := by
  by_cases fits : Castable x
  · rw [toDouble_toDecimal x fits]
    exact .inr (truncated_near x)
  · exact .inl (toDouble_outOfRange fits)

theorem toDecimal_near {x : Rat} (low : -2^31 ≤ x) (high : x < 2^31) : Near (1/2^32) x (toDouble (toDecimal x)) := by
  rw [toDouble_toDecimal x ((castable_iff x).mpr ⟨by linarith,high⟩)]
  exact truncated_near x

theorem toDecimal_below {x bound : Rat} (positive : 0 ≤ bound) (below : x ≤ bound) :
    (toDouble (toDecimal x) : Rat) ≤ bound := by
  by_cases fits : Castable x
  · rw [toDouble_toDecimal x fits]
    exact truncated_below positive below
  · rw [toDouble_outOfRange fits]
    linarith

end Chronos
