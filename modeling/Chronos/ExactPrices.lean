import Chronos.GridPrices
import Chronos.ExactDecimal

namespace Chronos.GridStrategy

-- The nearest multiple of 1/10, away from zero on a tie.
def tick (v : Rat) : Rat := Double.round (v*10)/10

def quote (x : Rat) : Rat := toDouble (roundPrice Rat (toDecimal x) 1)

theorem roundPrice_tick (x : Decimal) : roundPrice Rat x 1 = toDecimal (tick (toDouble x)) := by
  have ten : (Double.pow (Double.ofRat 10 : Rat) 1 : Rat) = 10 := pow_one 10
  unfold roundPrice
  rw [ten]
  rfl

theorem quote_tick (x : Rat) : quote x = toDouble (toDecimal (tick (toDouble (toDecimal x)))) := by
  rw [quote,roundPrice_tick]

theorem orderFor_price (g : Strategy Rat n) (side : OrderSide) (x : Rat) :
    (toDouble (orderFor g side (toDecimal x)).price : Rat) = quote x := rfl

theorem round_cases (v : Rat) : (Double.round v : Rat) = if 0 ≤ v then (⌊v+1/2⌋ : Rat) else (⌈v-1/2⌉ : Rat) := rfl

theorem round_near (v : Rat) : Near (1/2) v (Double.round v) := by
  rw [round_cases]
  split
  · have below := Int.floor_le (v+1/2)
    have next := Int.lt_floor_add_one (v+1/2)
    constructor <;> linarith
  · have above := Int.le_ceil (v-1/2)
    have next := Int.ceil_lt_add_one (v-1/2)
    constructor <;> linarith

theorem le_round {m : Int} {v : Rat} (low : (m : Rat) ≤ v) : (m : Rat) ≤ Double.round v := by
  rw [round_cases]
  split
  · apply Int.cast_le.mpr
    apply Int.le_floor.mpr
    linarith
  · apply Int.cast_le.mpr
    apply Int.le_ceil_iff.mpr
    linarith

theorem tick_near (v : Rat) : Near (1/20) v (tick v) := by
  obtain ⟨low,high⟩ := round_near (v*10)
  unfold tick
  constructor
  · rw [le_div_iff₀ (by norm_num)]
    linarith
  · rw [div_le_iff₀ (by norm_num)]
    linarith

theorem le_tick {v : Rat} (low : -2^31 ≤ v) : -2^31 ≤ tick v := by
  have least : ((-2^31*10 : Int) : Rat) ≤ v*10 := by push_cast; linarith
  unfold tick
  rw [le_div_iff₀ (by norm_num)]
  exact le_trans (by norm_num) (le_round least)

theorem quote_cases (x : Rat) : quote x = -2^31 ∨ Near (1/20+1/2^31) x (quote x) := by
  have least : toDouble (toDecimal (tick (-2^31))) = (-2^31 : Rat) := by decide +kernel
  rw [quote_tick]
  rcases toDecimal_cases x with lost | cut
  · rw [lost,least]
    exact .inl rfl
  · rcases toDecimal_cases (tick (toDouble (toDecimal x))) with lost | cut'
    · exact .inl lost
    · exact .inr (((cut.trans (tick_near _)).trans cut').widen (by norm_num))

theorem quote_near {x : Rat} (low : -2^31 ≤ x) (high : x+1/20 < 2^31) : Near (1/20+1/2^31) x (quote x) := by
  have cut := toDecimal_near low (by linarith)
  have fits : tick (toDouble (toDecimal x)) < 2^31 := by
    have rounded := (tick_near (toDouble (toDecimal x))).2
    by_cases positive : 0 ≤ x
    · linarith [toDecimal_below positive (le_refl x)]
    · linarith [toDecimal_below (le_refl 0) (not_le.mp positive).le]
  have cut' := toDecimal_near (le_tick (toDouble_range (toDecimal x)).1) fits
  rw [quote_tick]
  exact ((cut.trans (tick_near _)).trans cut').widen (by norm_num)

theorem le_quote {x : Rat} (high : x+1/20 < 2^31) : x-(1/20+1/2^31) ≤ quote x := by
  by_cases low : -2^31 ≤ x
  · linarith [(quote_near low high).1]
  · have range : -2^31 ≤ quote x := (toDouble_range _).1
    linarith

theorem quote_le {x : Rat} (low : -2^31 ≤ x) : quote x ≤ x+(1/20+1/2^31) := by
  rcases quote_cases x with lost | near
  · linarith
  · linarith [near.2]

@[simp] theorem aggressive_buy (mid : Rat) (k : Nat) : aggressive mid k .buy = mid+1/2+k/10 := by
  simp [aggressive,Double.ofRat,Double.ofInt,div_eq_mul_inv]

@[simp] theorem aggressive_sell (mid : Rat) (k : Nat) : aggressive mid k .sell = mid-1/2-k/10 := by
  simp [aggressive,Double.ofRat,Double.ofInt,div_eq_mul_inv]

theorem stdMax_le {a b bound : Rat} : stdMax a b ≤ bound ↔ a ≤ bound ∧ b ≤ bound := by
  unfold stdMax
  split
  · have less : a < b := of_decide_eq_true ‹_›
    exact ⟨fun below => ⟨less.le.trans below,below⟩,And.right⟩
  · have more : b ≤ a := not_lt.mp fun less => ‹¬ _› (decide_eq_true less)
    exact ⟨fun below => ⟨below,more.trans below⟩,And.left⟩

theorem le_stdMin {a b bound : Rat} : bound ≤ stdMin a b ↔ bound ≤ a ∧ bound ≤ b := by
  unfold stdMin
  split
  · have less : b < a := of_decide_eq_true ‹_›
    exact ⟨fun above => ⟨above.trans less.le,above⟩,And.right⟩
  · have more : a ≤ b := not_lt.mp fun less => ‹¬ _› (decide_eq_true less)
    exact ⟨fun above => ⟨above,above.trans more⟩,And.left⟩

theorem le_stdMax {a b bound : Rat} : bound ≤ stdMax a b ↔ bound ≤ a ∨ bound ≤ b := by
  unfold stdMax
  split
  · have less : a < b := of_decide_eq_true ‹_›
    exact ⟨.inr,fun some => some.elim (fun below => below.trans less.le) id⟩
  · have more : b ≤ a := not_lt.mp fun less => ‹¬ _› (decide_eq_true less)
    exact ⟨.inl,fun some => some.elim id fun below => below.trans more⟩

theorem stdMax_either (a b : Rat) : stdMax a b = a ∨ stdMax a b = b := by
  unfold stdMax
  split
  · exact .inr rfl
  · exact .inl rfl

theorem stdMin_either (a b : Rat) : stdMin a b = a ∨ stdMin a b = b := by
  unfold stdMin
  split
  · exact .inr rfl
  · exact .inl rfl

theorem counterPrice_unclamped (side : OrderSide) {level : Rat} {mid : Option Decimal}
    (none : ¬ 0 < (midVal mid : Rat)) : counterPrice side level (midVal mid) = level :=
  if_neg fun positive => none (of_decide_eq_true positive)

theorem counterPrice_clamped (side : OrderSide) {level : Rat} {mid : Option Decimal} (positive : 0 < (midVal mid : Rat)) :
    counterPrice side level (midVal mid) = match side with
      | .sell => stdMin level (midVal mid)
      | .buy => stdMax level (midVal mid) := if_pos (decide_eq_true positive)

-- A mid that is absent counts as 0.
theorem midVal_known {good : Rat → Prop} {mid : Option Decimal} :
    (0 < (midVal mid : Rat) → good (midVal mid)) ↔ ∀ m ∈ mid, 0 < (toDouble m : Rat) → good (toDouble m) := by
  cases mid with
  | none => simp [midVal,Double.ofRat]
  | some m => simp [midVal]

theorem counterPrice_le {level bound : Rat} {mid : Option Decimal} : counterPrice .buy level (midVal mid) ≤ bound ↔
    level ≤ bound ∧ ∀ m ∈ mid, 0 < (toDouble m : Rat) → (toDouble m : Rat) ≤ bound := by
  rw [← @midVal_known (· ≤ bound)]
  by_cases positive : 0 < (midVal mid : Rat)
  · rw [counterPrice_clamped .buy positive]
    simp only [stdMax_le,positive,forall_true_left]
  · rw [counterPrice_unclamped .buy positive]
    simp only [positive,false_imp_iff,and_true]

theorem le_counterPrice {level bound : Rat} {mid : Option Decimal} : bound ≤ counterPrice .sell level (midVal mid) ↔
    bound ≤ level ∧ ∀ m ∈ mid, 0 < (toDouble m : Rat) → bound ≤ (toDouble m : Rat) := by
  rw [← @midVal_known (bound ≤ ·)]
  by_cases positive : 0 < (midVal mid : Rat)
  · rw [counterPrice_clamped .sell positive]
    simp only [le_stdMin,positive,forall_true_left]
  · rw [counterPrice_unclamped .sell positive]
    simp only [positive,false_imp_iff,and_true]

theorem counterPrice_either (side : OrderSide) (level : Rat) (mid : Option Decimal) :
    counterPrice side level (midVal mid) = level ∨ ∃ m ∈ mid, counterPrice side level (midVal mid) = toDouble m := by
  by_cases positive : 0 < (midVal mid : Rat)
  · rw [counterPrice_clamped side positive]
    cases mid with
    | none => exact absurd positive (by simp [midVal,Double.ofRat])
    | some m =>
      cases side with
      | buy => exact (stdMax_either level (toDouble m)).imp_right fun same => ⟨m,rfl,same⟩
      | sell => exact (stdMin_either level (toDouble m)).imp_right fun same => ⟨m,rfl,same⟩
  · exact .inl (counterPrice_unclamped side positive)

theorem counterPrice_low (side : OrderSide) (level : Decimal) (mid : Option Decimal) :
    -2^31 ≤ counterPrice side (toDouble level : Rat) (midVal mid) := by
  rcases counterPrice_either side (toDouble level) mid with same | ⟨m,_,same⟩
  · rw [same]; exact (toDouble_range level).1
  · rw [same]; exact (toDouble_range m).1

def place (cfg : Config Rat) (i : Fin (cfg.gridLevels+1).toNat) : Rat :=
  cfg.gridLow+(cfg.gridHigh-cfg.gridLow)/cfg.gridLevels*(i.val : Int)

def levelPrice (cfg : Config Rat) (i : Fin (cfg.gridLevels+1).toNat) : Rat := toDouble ((initial cfg).levels i).price

theorem initial_price {cfg : Config Rat} (levels : 1 ≤ cfg.gridLevels) (i : Fin (cfg.gridLevels+1).toNat) :
    ((initial cfg).levels i).price = toDecimal (place cfg i) := if_neg (show cfg.gridLevels ≠ 0 by omega)

theorem place_inside {cfg : Config Rat} (ordered : cfg.gridLow < cfg.gridHigh) (levels : 1 ≤ cfg.gridLevels)
    (i : Fin (cfg.gridLevels+1).toNat) : cfg.gridLow ≤ place cfg i ∧ place cfg i ≤ cfg.gridHigh := by
  have bound : (i.val : Int) ≤ cfg.gridLevels := by
    have := i.isLt
    omega
  have last : ((i.val : Int) : Rat) ≤ cfg.gridLevels := Int.cast_le.mpr bound
  have first : (0 : Rat) ≤ ((i.val : Int) : Rat) := Int.cast_nonneg (Int.natCast_nonneg _)
  have many : (0 : Rat) < cfg.gridLevels := Int.cast_pos.mpr (by omega)
  have spread : 0 < cfg.gridHigh-cfg.gridLow := by linarith
  have share : (cfg.gridHigh-cfg.gridLow)/cfg.gridLevels*(i.val : Int) ≤ cfg.gridHigh-cfg.gridLow := by
    rw [div_mul_eq_mul_div,div_le_iff₀ many]
    exact mul_le_mul_of_nonneg_left last spread.le
  have start : 0 ≤ (cfg.gridHigh-cfg.gridLow)/cfg.gridLevels*(i.val : Int) :=
    mul_nonneg (div_nonneg spread.le many.le) first
  unfold place
  constructor <;> linarith

theorem levelPrice_fits {cfg : Config Rat} (ordered : cfg.gridLow < cfg.gridHigh) (levels : 1 ≤ cfg.gridLevels)
    (fits : cfg.gridHigh+1/20 < 2^31) (i : Fin (cfg.gridLevels+1).toNat) : levelPrice cfg i+1/20 < 2^31 := by
  have high := (place_inside ordered levels i).2
  rw [levelPrice,initial_price levels]
  by_cases positive : 0 ≤ cfg.gridHigh
  · linarith [toDecimal_below positive high]
  · linarith [toDecimal_below (le_refl 0) (high.trans (not_le.mp positive).le)]

theorem levelPrice_near {cfg : Config Rat} (positive : 0 < cfg.gridLow) (ordered : cfg.gridLow < cfg.gridHigh)
    (levels : 1 ≤ cfg.gridLevels) (fits : cfg.gridHigh < 2^31) (i : Fin (cfg.gridLevels+1).toNat) :
    cfg.gridLow-1/2^32 ≤ levelPrice cfg i ∧ levelPrice cfg i ≤ cfg.gridHigh := by
  obtain ⟨low,high⟩ := place_inside ordered levels i
  rw [levelPrice,initial_price levels]
  exact ⟨by linarith [(toDecimal_near (x:=place cfg i) (by linarith) (by linarith)).1],
    toDecimal_below (by linarith) high⟩

def Bounded (lowest highest x : Rat) : OrderSide → Prop
  | .buy => x ≤ highest
  | .sell => lowest ≤ x

instance (lowest highest x : Rat) : (side : OrderSide) → Decidable (Bounded lowest highest x side)
  | .buy => inferInstanceAs (Decidable (x ≤ highest))
  | .sell => inferInstanceAs (Decidable (lowest ≤ x))

section Orders
variable {cfg : Config Rat} {earlier : List (Event (cfg.gridLevels+1).toNat)} {before : Strategy Rat (cfg.gridLevels+1).toNat}

theorem front_price (front : Runs Step (initial cfg) earlier before) (i : Fin (cfg.gridLevels+1).toNat) :
    (toDouble (before.levels i).price : Rat) = levelPrice cfg i := by
  rw [runs_prices front]
  rfl

theorem priced_low (priced : Priced before callback .buy x) : -2^31 ≤ x := by
  cases priced with
  | tick on known k room =>
    rename_i mid answers
    have positive : (0 : Rat) ≤ k := Nat.cast_nonneg k
    rw [aggressive_buy]
    linarith [(toDouble_range mid).1]
  | counter next =>
    rename_i fill i answers
    exact counterPrice_low .buy (before.levels i).price answers.mid

theorem priced_high (ordered : cfg.gridLow < cfg.gridHigh) (levels : 1 ≤ cfg.gridLevels) (fits : cfg.gridHigh+1/20 < 2^31)
    (front : Runs Step (initial cfg) earlier before) (priced : Priced before callback .sell x) : x+1/20 < 2^31 := by
  cases priced with
  | tick on known k room =>
    rename_i mid answers
    have positive : (0 : Rat) ≤ k := Nat.cast_nonneg k
    rw [aggressive_sell]
    linarith [(toDouble_range mid).2]
  | counter next =>
    rename_i fill i answers
    have most := (le_counterPrice.mp (le_refl (counterPrice .sell (toDouble (before.levels i).price) (midVal answers.mid)))).1
    rw [front_price front] at most ⊢
    linarith [levelPrice_fits ordered levels fits i]

theorem priced_quote (ordered : cfg.gridLow < cfg.gridHigh) (levels : 1 ≤ cfg.gridLevels) (fits : cfg.gridHigh+1/20 < 2^31)
    (front : Runs Step (initial cfg) earlier before) (priced : Priced before callback side x) :
    Bounded (x-(1/20+1/2^31)) (x+(1/20+1/2^31)) (quote x) side := by
  cases side with
  | buy => exact quote_le (priced_low priced)
  | sell => exact le_quote (priced_high ordered levels fits front priced)

theorem Bounded.trans (near : Bounded (x-slack) (x+slack) y side) (bounded : Bounded lowest highest x side) :
    Bounded (lowest-slack) (highest+slack) y side := by
  cases side <;> simp only [Bounded] at * <;> linarith

end Orders

end Chronos.GridStrategy
