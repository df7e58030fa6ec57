import Chronos.DecimalArithmetic
import Chronos.ExactPrices

namespace Chronos.GridStrategy

def upTick (n : Int) : Int := (10*n+2^31)/2^32*2^32/10

def tickRaw (n : Int) : Int := if 0 ≤ n then upTick n else -upTick (-n)

section Raw
variable {m n : Int}

theorem upTick_nonneg (up : 0 ≤ n) : 0 ≤ upTick n := by
  unfold upTick
  omega

theorem upTick_near : -2^32 ≤ 20*(upTick n-n)+20 ∧ 20*(upTick n-n) ≤ 2^32 := by
  unfold upTick
  omega

theorem upTick_mono (order : m ≤ n) : upTick m ≤ upTick n := by
  unfold upTick
  omega

-- The cut loses less than a unit, far less than it takes to reach another tenth.
theorem upTick_again : upTick (upTick n) = upTick n := by
  have same : (10*upTick n+2^31)/2^32 = (10*n+2^31)/2^32 := by
    unfold upTick
    omega
  exact congrArg (fun tenths => tenths*2^32/10) same

theorem tickRaw_odd (n : Int) : tickRaw (-n) = -tickRaw n := by
  unfold tickRaw
  rcases lt_trichotomy n 0 with down | rfl | up
  · rw [if_pos (by omega),if_neg (by omega),neg_neg]
  · rfl
  · rw [if_neg (by omega),if_pos up.le,neg_neg]

theorem tickRaw_near : -2^32 ≤ 20*(tickRaw n-n)+20 ∧ 20*(tickRaw n-n) ≤ 2^32+20 := by
  have above := @upTick_near n
  have below := @upTick_near (-n)
  unfold tickRaw
  split <;> omega

theorem tickRaw_mono (order : m ≤ n) : tickRaw m ≤ tickRaw n := by
  unfold tickRaw
  split
  · rw [if_pos (by omega)]
    exact upTick_mono order
  · rename_i below
    have left := upTick_nonneg (show 0 ≤ -m by omega)
    split
    · have right := @upTick_nonneg n (by omega)
      omega
    · have swapped := upTick_mono (show -n ≤ -m by omega)
      omega

theorem tickRaw_again : tickRaw (tickRaw n) = tickRaw n := by
  by_cases up : 0 ≤ n
  · have value : tickRaw n = upTick n := if_pos up
    rw [value,tickRaw,if_pos (upTick_nonneg up),upTick_again]
  · have value : tickRaw n = -upTick (-n) := if_neg up
    have mirrored : tickRaw (upTick (-n)) = upTick (-n) := by
      rw [tickRaw,if_pos (upTick_nonneg (by omega)),upTick_again]
    rw [value,tickRaw_odd,mirrored]

end Raw

section Doubles

theorem scaled_nonneg {n : Int} {c : Rat} (positive : 0 < c) : 0 ≤ (n : Rat)*c ↔ 0 ≤ n := by
  rw [mul_nonneg_iff_of_pos_right positive,Int.cast_nonneg_iff]

theorem round_tenths (n : Int) : (Double.round ((n : Rat)/2^32*10) : Rat) =
    ((if 0 ≤ n then (10*n+2^31)/2^32 else -((10*(-n)+2^31)/2^32) : Int) : Rat) := by
  have sign : 0 ≤ (n : Rat)/2^32*10 ↔ 0 ≤ n := by
    rw [div_mul_eq_mul_div,mul_div_assoc]
    exact scaled_nonneg (by norm_num)
  have up : (n : Rat)/2^32*10+1/2 = ((10*n+2^31 : Int) : Rat)/((2^32 : Nat) : Rat) := by
    push_cast
    ring
  have down : (n : Rat)/2^32*10-1/2 = ((-(10*(-n)+2^31) : Int) : Rat)/((2^32 : Nat) : Rat) := by
    push_cast
    ring
  rw [round_cases]
  simp only [sign]
  split
  · rw [up,Rat.floor_intCast_div_natCast]
    rfl
  · rw [down,Rat.ceil_intCast_div_natCast,neg_neg]
    rfl

theorem truncate_tenths (t : Int) : Double.truncate ((t : Rat)/10*2^32) = if 0 ≤ t then t*2^32/10 else -(-t*2^32/10) := by
  have whole : (t : Rat)/10*2^32 = ((t*2^32 : Int) : Rat)/((10 : Nat) : Rat) := by
    push_cast
    ring
  have sign : 0 ≤ (t : Rat)/10*2^32 ↔ 0 ≤ t := by
    rw [div_mul_eq_mul_div,mul_div_assoc]
    exact scaled_nonneg (by norm_num)
  show (if 0 ≤ (t : Rat)/10*2^32 then ⌊(t : Rat)/10*2^32⌋ else ⌈(t : Rat)/10*2^32⌉) = _
  simp only [sign]
  rw [whole,Rat.floor_intCast_div_natCast,Rat.ceil_intCast_div_natCast,← Int.neg_mul]
  rfl

theorem truncate_tick (n : Int) : Double.truncate (tick (n/2^32)*2^32) = tickRaw n := by
  unfold tick
  rw [round_tenths,truncate_tenths]
  unfold tickRaw upTick
  by_cases up : 0 ≤ n
  · rw [if_pos up,if_pos up,if_pos (by omega)]
  · rw [if_neg up,if_neg up]
    split <;> omega

end Doubles

def Inside (x : Decimal) : Prop := |(toDouble x : Rat)| < 2^31-1

-- Neither rounding overflows, what comes out is the nearest tenth, cut to a Decimal, half
-- a tick and the cut away at most, and it is rounded as its negative is, once for all.
structure SoundTick (x : Decimal) : Prop where
  fits : Castable (tick (toDouble x))
  tenth : ∃ t : Int, (t : Rat)/10 = tick (toDouble x) ∧ (toDouble (roundPrice Rat x 1) : Rat) = truncated (t/10)
  near : |(toDouble (roundPrice Rat x 1) : Rat)-toDouble x| ≤ 1/20+1/2^32
  odd : roundPrice Rat (-x) 1 = -roundPrice Rat x 1
  fitsAgain : Castable (tick (toDouble (roundPrice Rat x 1)))
  again : roundPrice Rat (roundPrice Rat x 1) 1 = roundPrice Rat x 1

section Sound
variable {x y : Decimal}

theorem inside_iff : Inside x ↔ -(2^63-2^32) < x.raw ∧ x.raw < 2^63-2^32 := by
  have value : (toDouble x : Rat) = x.raw/2^32 := rfl
  have low : -(2^31-1 : Rat) = ((-(2^63-2^32) : Int) : Rat)/2^32 := by norm_num
  have high : (2^31-1 : Rat) = ((2^63-2^32 : Int) : Rat)/2^32 := by norm_num
  rw [Inside,abs_lt,value,low,high]
  exact units_between (by norm_num)

theorem tick_castable : Castable (tick (toDouble x)) ↔ -2^63 ≤ tickRaw x.raw ∧ tickRaw x.raw < 2^63 := by
  rw [← truncate_tick]
  rfl

theorem roundPrice_raw (fits : Castable (tick (toDouble x))) : (roundPrice Rat x 1).raw = tickRaw x.raw := by
  rw [roundPrice_tick,toDecimal_raw fits,← truncate_tick]
  rfl

theorem roundPrice_tenth (fits : Castable (tick (toDouble x))) :
    ∃ t : Int, (t : Rat)/10 = tick (toDouble x) ∧ (toDouble (roundPrice Rat x 1) : Rat) = truncated (t/10) := by
  have whole : ∃ t : Int, (t : Rat) = Double.round ((toDouble x : Rat)*10) := by
    rw [round_cases]
    split
    · exact ⟨_,rfl⟩
    · exact ⟨_,rfl⟩
  obtain ⟨t,same⟩ := whole
  have tenth : (t : Rat)/10 = tick (toDouble x) := by rw [tick,same]
  exact ⟨t,tenth,by rw [tenth,roundPrice_tick,toDouble_toDecimal _ fits]⟩

theorem inside_castable (inside : Inside x) : Castable (tick (toDouble x)) := by
  have near := @tickRaw_near x.raw
  rw [inside_iff] at inside
  rw [tick_castable]
  omega

theorem inside_neg (inside : Inside x) : (-x).raw = -x.raw ∧ Inside (-x) := by
  rw [inside_iff] at inside
  have raw := neg_raw (show -2^63 < x.raw by omega)
  rw [inside_iff,raw]
  exact ⟨rfl,by omega⟩

theorem roundPrice_near (inside : Inside x) : |(toDouble (roundPrice Rat x 1) : Rat)-toDouble x| ≤ 1/20+1/2^32 := by
  obtain ⟨low,high⟩ := @tickRaw_near x.raw
  have gap : (toDouble (roundPrice Rat x 1) : Rat)-toDouble x = ((20*(tickRaw x.raw-x.raw) : Int) : Rat)/(20*2^32) := by
    rw [← roundPrice_raw (inside_castable inside)]
    simp only [toDouble,scale,Double.ofInt,Double.ofRat]
    push_cast
    ring
  have slack : (1/20+1/2^32 : Rat) = ((2^32+20 : Int) : Rat)/(20*2^32) := by norm_num
  rw [gap,slack]
  exact (units_abs (by norm_num)).mpr (by omega)

theorem roundPrice_odd (inside : Inside x) : roundPrice Rat (-x) 1 = -roundPrice Rat x 1 := by
  have rounded := roundPrice_raw (inside_castable inside)
  obtain ⟨raw,mirrored⟩ := inside_neg inside
  have more : -2^63 < (roundPrice Rat x 1).raw := by
    have near := @tickRaw_near x.raw
    rw [inside_iff] at inside
    omega
  ext
  rw [roundPrice_raw (inside_castable mirrored),raw,tickRaw_odd,neg_raw more,rounded]

theorem roundPrice_again (inside : Inside x) : Castable (tick (toDouble (roundPrice Rat x 1))) ∧
    roundPrice Rat (roundPrice Rat x 1) 1 = roundPrice Rat x 1 := by
  have fits := inside_castable inside
  have raw := roundPrice_raw fits
  have again : Castable (tick (toDouble (roundPrice Rat x 1))) := by
    rw [tick_castable,raw,tickRaw_again]
    exact tick_castable.mp fits
  refine ⟨again,?_⟩
  ext
  rw [roundPrice_raw again,raw,tickRaw_again]

theorem roundPrice_mono (left : Inside x) (right : Inside y) (order : x.raw ≤ y.raw) :
    (roundPrice Rat x 1).raw ≤ (roundPrice Rat y 1).raw := by
  rw [roundPrice_raw (inside_castable left),roundPrice_raw (inside_castable right)]
  exact tickRaw_mono order

theorem roundPrice_sound (left : Inside x) (right : Inside y) :
    SoundTick x ∧ (x.raw ≤ y.raw → (roundPrice Rat x 1).raw ≤ (roundPrice Rat y 1).raw) := by
  obtain ⟨fitsAgain,again⟩ := roundPrice_again left
  have fits := inside_castable left
  exact ⟨⟨fits,roundPrice_tenth fits,roundPrice_near left,roundPrice_odd left,fitsAgain,again⟩,roundPrice_mono left right⟩

end Sound

theorem roundPrice_sound_sample : SoundTick (toDecimal (-9996/100 : Rat)) ∧
    ((toDecimal (-9996/100 : Rat)).raw ≤ (toDecimal (10004/100 : Rat)).raw →
      (roundPrice Rat (toDecimal (-9996/100 : Rat)) 1).raw ≤ (roundPrice Rat (toDecimal (10004/100 : Rat)) 1).raw) :=
  roundPrice_sound (inside_iff.mpr (by decide +kernel)) (inside_iff.mpr (by decide +kernel))

end Chronos.GridStrategy
