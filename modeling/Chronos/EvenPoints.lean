import Mathlib.Algebra.Order.Field.Basic
import Mathlib.Algebra.Order.Floor.Ring
import Mathlib.Tactic.Linarith
import Mathlib.Tactic.Ring

namespace Chronos.EvenPoints

variable {K : Type} [Field K] [LinearOrder K] [IsStrictOrderedRing K] [FloorRing K]

def cut (x : K) : Int := if 0 ≤ x then ⌊x⌋ else ⌈x⌉

omit [IsStrictOrderedRing K] in
theorem cut_of_nonneg {x : K} (positive : 0 ≤ x) : cut x = ⌊x⌋ := if_pos positive

theorem cut_of_nonpos {x : K} (negative : x ≤ 0) : cut x = ⌈x⌉ := by
  by_cases positive : 0 ≤ x
  · obtain rfl := le_antisymm negative positive
    simp [cut]
  · exact if_neg positive

theorem cut_nonneg {x : K} : 0 ≤ cut x ↔ -1 < x := by
  by_cases positive : 0 ≤ x
  · rw [cut_of_nonneg positive]
    exact ⟨fun _ => by linarith,fun _ => Int.floor_nonneg.mpr positive⟩
  · rw [cut_of_nonpos (not_le.mp positive).le,Int.le_ceil_iff]
    simp

theorem cut_nonpos {x : K} : cut x ≤ 0 ↔ x < 1 := by
  by_cases positive : 0 ≤ x
  · rw [cut_of_nonneg positive,← Int.lt_add_one_iff,Int.floor_lt]
    simp
  · have negative := (not_le.mp positive).le
    rw [cut_of_nonpos negative]
    exact ⟨fun _ => by linarith,fun _ => Int.ceil_nonpos.mpr negative⟩

theorem cut_mono {x x' : K} (order : x ≤ x') : cut x ≤ cut x' := by
  by_cases positive : 0 ≤ x
  · rw [cut_of_nonneg positive,cut_of_nonneg (positive.trans order)]
    exact Int.floor_mono order
  · by_cases negative : x' ≤ 0
    · rw [cut_of_nonpos (order.trans negative),cut_of_nonpos negative]
      exact Int.ceil_mono order
    · exact (cut_nonpos.mpr (by linarith)).trans (cut_nonneg.mpr (by linarith))

-- A step of at most one moves the integer by at most one on either side of zero,
-- a step of at least one moves it.
theorem cut_step {x step : K} (side : 0 ≤ x ∧ 0 ≤ x+step ∨ x ≤ 0 ∧ x+step ≤ 0) (short : step ≤ 1) :
    cut (x+step) ≤ cut x+1 := by
  rcases side with ⟨here,there⟩ | ⟨here,there⟩
  · rw [cut_of_nonneg here,cut_of_nonneg there,← Int.floor_add_one]
    exact Int.floor_mono (by linarith)
  · rw [cut_of_nonpos here,cut_of_nonpos there,← Int.ceil_add_one]
    exact Int.ceil_mono (by linarith)

theorem cut_stride {x step : K} (side : 0 ≤ x ∧ 0 ≤ x+step ∨ x ≤ 0 ∧ x+step ≤ 0) (long : 1 ≤ step) :
    cut x < cut (x+step) := by
  rw [← Int.add_one_le_iff]
  rcases side with ⟨here,there⟩ | ⟨here,there⟩
  · rw [cut_of_nonneg here,cut_of_nonneg there,← Int.floor_add_one]
    exact Int.floor_mono (by linarith)
  · rw [cut_of_nonpos here,cut_of_nonpos there,← Int.ceil_add_one]
    exact Int.ceil_mono (by linarith)

section Climb
variable {f : Nat → Int} {n : Nat}

theorem climb (rising : ∀ i < n, f i < f (i+1)) (i : Nat) (within : i+k ≤ n) : f i+k ≤ f (i+k) := by
  induction k with
  | zero => simp
  | succ k ih =>
    have before := ih (by omega)
    have next := rising (i+k) (by omega)
    rw [← Nat.add_assoc]
    push_cast
    omega

theorem climb_most (slow : ∀ i < n, f (i+1) ≤ f i+1) (i : Nat) (within : i+k ≤ n) : f (i+k) ≤ f i+k := by
  induction k with
  | zero => simp
  | succ k ih =>
    have before := ih (by omega)
    have next := slow (i+k) (by omega)
    rw [← Nat.add_assoc]
    push_cast
    omega

theorem rising_of_slow (slow : ∀ i < n, f (i+1) ≤ f i+1) (reach : f 0+n ≤ f n) (i : Nat) (inside : i < n) :
    f i < f (i+1) := by
  have front := climb_most slow (k:=i) 0 (by omega)
  obtain ⟨k,rfl⟩ : ∃ k, n = i+1+k := ⟨n-(i+1),by omega⟩
  have back := climb_most slow (k:=k) (i+1) (by omega)
  rw [Nat.zero_add] at front
  push_cast at reach
  omega

end Climb

def point (start step : K) (i : Nat) : K := start+step*i

omit [LinearOrder K] [IsStrictOrderedRing K] [FloorRing K] in
theorem point_next (start step : K) (i : Nat) : point start step (i+1) = point start step i+step := by
  unfold point
  push_cast
  ring

theorem point_mono {start step : K} (forward : 0 ≤ step) (order : i ≤ j) : point start step i ≤ point start step j := by
  have more : (i : K) ≤ j := Nat.cast_le.mpr order
  unfold point
  linarith [mul_le_mul_of_nonneg_left more forward]

variable {start step : K} {n i : Nat}

theorem rising_of_sided (forward : 0 < step) (sided : 0 ≤ point start step 0 ∨ point start step n ≤ 0)
    (reach : cut (point start step 0)+n ≤ cut (point start step n)) (i : Nat) (inside : i < n) :
    cut (point start step i) < cut (point start step (i+1)) := by
  have side : ∀ j < n, 0 ≤ point start step j ∧ 0 ≤ point start step j+step ∨
      point start step j ≤ 0 ∧ point start step j+step ≤ 0 := by
    intro j within
    rcases sided with first | last
    · have here : 0 ≤ point start step j := first.trans (point_mono forward.le (Nat.zero_le j))
      exact .inl ⟨here,by linarith⟩
    · have there : point start step (j+1) ≤ 0 := (point_mono forward.le (Nat.succ_le_of_lt within)).trans last
      rw [point_next] at there
      exact .inr ⟨by linarith,there⟩
  by_cases short : step ≤ 1
  · refine rising_of_slow (f:=fun i => cut (point start step i)) (fun j within => ?_) reach i inside
    simp only [point_next]
    exact cut_step (side j within) short
  · rw [point_next]
    exact cut_stride (side i inside) (not_le.mp short).le

def phase (start step : K) : K := Int.fract (-start/step)

omit [IsStrictOrderedRing K] in
theorem point_phase (forward : 0 < step) (at_ : ⌊-start/step⌋ = i) :
    point start step i = -(step*phase start step) ∧ point start step (i+1) = step*(1-phase start step) := by
  have here : point start step i = -(step*phase start step) := by
    have count : (i : K) = -start/step-phase start step := by
      rw [phase,Int.fract,at_]
      push_cast
      ring
    rw [point,count,mul_sub,mul_div_cancel₀ _ forward.ne']
    ring
  refine ⟨here,?_⟩
  rw [point_next,here]
  ring

theorem floor_of_crossing (forward : 0 < step) (left : point start step i ≤ 0) (right : 0 < point start step (i+1)) :
    ⌊-start/step⌋ = i := by
  rw [Int.floor_eq_iff,le_div_iff₀ forward,div_lt_iff₀ forward]
  unfold point at left right
  push_cast at right ⊢
  constructor <;> linarith only [left,right]

-- Points that rise across zero leave one of the two next to it a unit away,
theorem far_of_rising (forward : 0 < step) (below : start < 0) (above : 0 < point start step n)
    (rising : ∀ i < n, cut (point start step i) < cut (point start step (i+1))) :
    1 ≤ step*phase start step ∨ 1 ≤ step*(1-phase start step) := by
  have positive : 0 < -start/step := div_pos (neg_pos.mpr below) forward
  have reached : -start/step < n := by
    rw [div_lt_iff₀ forward]
    unfold point at above
    linarith only [above]
  obtain ⟨i,at_⟩ := Int.eq_ofNat_of_zero_le (Int.floor_nonneg.mpr positive.le)
  have inside : i < n := by
    have bound := Int.floor_lt.mpr (show -start/step < ((n : Int) : K) by simpa using reached)
    omega
  obtain ⟨here,there⟩ := point_phase forward at_
  have next := rising i inside
  rw [here,there] at next
  by_contra close
  rw [not_or,not_le,not_le] at close
  have first : 0 ≤ cut (-(step*phase start step)) := cut_nonneg.mpr (neg_lt_neg close.1)
  have second := cut_nonpos.mpr close.2
  omega

-- and then every other step is at least one.
theorem rising_of_far (forward : 0 < step) (far : 1 ≤ step*phase start step ∨ 1 ≤ step*(1-phase start step)) (i : Nat) :
    cut (point start step i) < cut (point start step (i+1)) := by
  have long : 1 ≤ step := by
    have low : 0 ≤ phase start step := Int.fract_nonneg _
    have high : phase start step ≤ 1 := (Int.fract_lt_one _).le
    rcases far with far | far
    · exact far.trans (mul_le_of_le_one_right forward.le high)
    · exact far.trans (mul_le_of_le_one_right forward.le (sub_le_self 1 low))
  by_cases right : 0 ≤ point start step i
  · rw [point_next]
    exact cut_stride (.inl ⟨right,add_nonneg right forward.le⟩) long
  by_cases left : point start step (i+1) ≤ 0
  · rw [point_next] at left ⊢
    exact cut_stride (.inr ⟨(not_le.mp right).le,left⟩) long
  have behind := (not_le.mp right).le
  have ahead := not_le.mp left
  obtain ⟨here,there⟩ := point_phase forward (floor_of_crossing forward behind ahead)
  have low : cut (point start step i) ≤ 0 := cut_nonpos.mpr (behind.trans_lt one_pos)
  have high : 0 ≤ cut (point start step (i+1)) := cut_nonneg.mpr (neg_one_lt_zero.trans ahead)
  rcases far with far | far
  · have less : ¬ 0 ≤ cut (point start step i) := by
      rw [cut_nonneg,here,neg_lt_neg_iff]
      exact not_lt.mpr far
    omega
  · have more : ¬ cut (point start step (i+1)) ≤ 0 := by
      rw [cut_nonpos,there]
      exact not_lt.mpr far
    omega

theorem rising_iff : (∀ i < n, cut (point start step i) < cut (point start step (i+1))) ↔
    cut (point start step 0)+n ≤ cut (point start step n) ∧
      (point start step 0 < 0 → 0 < point start step n → 1 ≤ step*phase start step ∨ 1 ≤ step*(1-phase start step)) := by
  have first : point start step 0 = start := by simp [point]
  by_cases nothing : n = 0
  · subst nothing
    exact ⟨fun _ => ⟨by simp,fun below above => absurd above below.not_gt⟩,fun _ i inside => absurd inside (Nat.not_lt_zero i)⟩
  have start_ : cut (point start step 0)+n ≤ cut (point start step n) → 0 < step := by
    intro reach
    by_contra back
    have last : point start step n ≤ point start step 0 := by
      have many : (0 : K) ≤ n := Nat.cast_nonneg n
      rw [first,point]
      nlinarith [not_lt.mp back]
    have order := cut_mono last
    omega
  constructor
  · intro rising
    have reach : cut (point start step 0)+n ≤ cut (point start step n) := by
      simpa using climb (f:=fun i => cut (point start step i)) rising (k:=n) 0 (by omega)
    exact ⟨reach,fun below above => far_of_rising (start_ reach) (first ▸ below) above rising⟩
  · rintro ⟨reach,clear⟩
    by_cases sided : 0 ≤ point start step 0 ∨ point start step n ≤ 0
    · exact rising_of_sided (start_ reach) sided reach
    · rw [not_or,not_le,not_le] at sided
      exact fun i _ => rising_of_far (start_ reach) (clear sided.1 sided.2) i

end Chronos.EvenPoints
