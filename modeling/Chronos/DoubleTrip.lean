import Chronos.SignificantBits
import Chronos.ExactDecimal

namespace Chronos
open SignificantBits (significant spacing significant_eq_iff)

-- Doubles of which the conversion from an integer is rounded to 53 bits. The
-- products and quotients by 2^32 are exact in a double too.
structure Binary64 where
  value : Rat
  deriving DecidableEq

instance : Add Binary64 := ⟨fun a b => ⟨a.value+b.value⟩⟩
instance : Sub Binary64 := ⟨fun a b => ⟨a.value-b.value⟩⟩
instance : Mul Binary64 := ⟨fun a b => ⟨a.value*b.value⟩⟩
instance : Div Binary64 := ⟨fun a b => ⟨a.value/b.value⟩⟩

instance rounded : Double Binary64 where
  ofRat q := ⟨q⟩
  ofInt i := ⟨significant 53 i⟩
  less a b := Double.less a.value b.value
  round a := ⟨Double.round a.value⟩
  pow a n := ⟨Double.pow a.value n⟩
  truncate a := Double.truncate a.value
  outOfRange a := Double.outOfRange a.value

def Survives (d : Decimal) : Prop := Castable (toDouble d : Binary64) ∧ toDecimal (toDouble d : Binary64) = d

instance (d : Decimal) : Decidable (Survives d) := inferInstanceAs (Decidable (_ ∧ _))

def Short (d : Decimal) : Prop := spacing 53 d.raw ∣ d.raw

theorem truncate_int (n : Int) : Double.truncate (n : Rat) = n := by
  show (if 0 ≤ (n : Rat) then ⌊(n : Rat)⌋ else ⌈(n : Rat)⌉) = n
  rw [Int.floor_intCast,Int.ceil_intCast,ite_self]

theorem toDouble_value (d : Decimal) : (toDouble d : Binary64).value = significant 53 d.raw/2^32 := rfl

theorem cast_back (d : Decimal) : Double.truncate ((toDouble d : Binary64)*scale) = significant 53 d.raw := by
  have product : ((toDouble d : Binary64)*scale).value = significant 53 d.raw := by
    show (significant 53 d.raw : Rat)/2^32*2^32 = significant 53 d.raw
    exact div_mul_cancel₀ _ (by norm_num)
  show Double.truncate ((toDouble d : Binary64)*scale).value = significant 53 d.raw
  rw [product,truncate_int]

theorem survives_iff (d : Decimal) : Survives d ↔ Short d := by
  rw [Short,← significant_eq_iff]
  constructor
  · intro ⟨fits,back⟩
    rw [← cast_back,← toDecimal_raw fits,back]
  · intro kept
    have fits : Castable (toDouble d : Binary64) := by
      rw [Castable,cast_back,kept]
      exact ⟨d.low,d.high⟩
    refine ⟨fits,?_⟩
    ext
    rw [toDecimal_raw fits,cast_back,kept]

structure ComparedAlike (d e : Decimal) : Prop where
  less : Double.less (toDouble d : Binary64) (toDouble e) = decide (d.raw < e.raw)
  equal : (toDouble d : Binary64) = toDouble e ↔ d = e
  min : stdMin (toDouble d : Binary64) (toDouble e) = toDouble (if e.raw < d.raw then e else d)
  max : stdMax (toDouble d : Binary64) (toDouble e) = toDouble (if d.raw < e.raw then e else d)

theorem short_value {d : Decimal} (short : Short d) : (toDouble d : Binary64).value = d.raw/2^32 := by
  rw [toDouble_value,significant_eq_iff.mpr short]

theorem short_less {d e : Decimal} (left : Short d) (right : Short e) :
    Double.less (toDouble d : Binary64) (toDouble e) = decide (d.raw < e.raw) := by
  show decide ((toDouble d : Binary64).value < (toDouble e : Binary64).value) = decide (d.raw < e.raw)
  rw [short_value left,short_value right,decide_eq_decide,div_lt_div_iff_of_pos_right (by norm_num),Int.cast_lt]

theorem short_alike {d e : Decimal} (left : Short d) (right : Short e) : ComparedAlike d e := by
  refine ⟨short_less left right,?_,?_,?_⟩
  · constructor
    · intro same
      rw [← ((survives_iff d).mpr left).2,← ((survives_iff e).mpr right).2,same]
    · rintro rfl
      rfl
  · simp only [stdMin,short_less right left,decide_eq_true_eq,apply_ite toDouble]
  · simp only [stdMax,short_less left right,decide_eq_true_eq,apply_ite toDouble]

theorem decimal_trip (d : Decimal) : (Survives d ↔ Short d) ∧ ∀ e, Short d → Short e → ComparedAlike d e :=
  ⟨survives_iff d,fun _ => short_alike⟩

-- The first price above 2^21 comes back as 2^21, and the greatest Decimal not at all.
def above : Decimal := ⟨2^53+1,by decide,by decide⟩
def greatest : Decimal := ⟨2^63-1,by decide,by decide⟩

theorem above_lost : toDecimal (toDouble above : Binary64) = ⟨2^53,by decide,by decide⟩ ∧
    (toDouble above : Binary64) = toDouble ⟨2^53,by decide,by decide⟩ ∧ ¬ Castable (toDouble greatest : Binary64) ∧
    ¬ ∀ d, Survives d := by
  refine ⟨by decide +kernel,by decide +kernel,by decide +kernel,?_⟩
  intro every
  exact absurd (every above) (by decide +kernel)

end Chronos
