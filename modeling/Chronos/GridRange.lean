import Chronos.ExactPrices

namespace Chronos.GridStrategy

def OnGrid (slack : Rat) (cfg : Config Rat) (es : List (Event (cfg.gridLevels+1).toNat)) : Prop :=
  ∀ i order answer, .submit i order answer ∈ history es →
    cfg.gridLow-slack ≤ (toDouble order.price : Rat) ∧ (toDouble order.price : Rat) ≤ cfg.gridHigh+slack

def reach (count : Nat) : Rat := 1/2+((count : Rat)-1)/10

-- The market leaves room on the grid for what a callback is going to place: a
-- tick its offsets from mid, a fill a counter-order at mid.
def MarketInside (slack : Rat) (cfg : Config Rat) (g : Strategy Rat n) : Callback → Prop
  | .onTick answers => g.initialized = true → ∀ mid ∈ answers.mid,
      (0 < openings g (toDouble mid) .buy →
        (toDouble mid : Rat)+reach (openings g (toDouble mid) .buy) ≤ cfg.gridHigh+slack) ∧
      (0 < openings g (toDouble mid) .sell →
        cfg.gridLow-slack ≤ (toDouble mid : Rat)-reach (openings g (toDouble mid) .sell))
  | .onFill fill answers => ∀ k ∈ counterSlot g fill, ∀ mid ∈ answers.mid, 0 < (toDouble mid : Rat) →
      Bounded (cfg.gridLow-slack) (cfg.gridHigh+slack) (toDouble mid) k.1
  | _ => True

def MarketOnGrid (slack : Rat) (cfg : Config Rat) : List (Event (cfg.gridLevels+1).toNat) → Prop :=
  Each fun earlier e => ∀ g, Runs Step (initial cfg) earlier g → MarketInside slack cfg g e.callback

section Steps
variable {cfg : Config Rat} {earlier : List (Event (cfg.gridLevels+1).toNat)} {before : Strategy Rat (cfg.gridLevels+1).toNat}

theorem buys_reach {count : Nat} {mid bound : Rat} :
    (0 < count → mid+reach count ≤ bound) ↔ ∀ k < count, aggressive mid k .buy ≤ bound := by
  simp only [aggressive_buy,reach]
  constructor
  · intro most k room
    have last : (k : Rat)+1 ≤ count := by exact_mod_cast room
    linarith [most (by omega)]
  · intro all some
    have last : ((count-1 : Nat) : Rat) = count-1 := by push_cast [some]; rfl
    linarith [all (count-1) (by omega)]

theorem sells_reach {count : Nat} {mid bound : Rat} :
    (0 < count → bound ≤ mid-reach count) ↔ ∀ k < count, bound ≤ aggressive mid k .sell := by
  simp only [aggressive_sell,reach]
  constructor
  · intro least k room
    have last : (k : Rat)+1 ≤ count := by exact_mod_cast room
    linarith [least (by omega)]
  · intro all some
    have last : ((count-1 : Nat) : Rat) = count-1 := by push_cast [some]; rfl
    linarith [all (count-1) (by omega)]

theorem market_inside_iff (positive : 0 < cfg.gridLow) (ordered : cfg.gridLow < cfg.gridHigh) (levels : 1 ≤ cfg.gridLevels)
    (fits : cfg.gridHigh < 2^31) (front : Runs Step (initial cfg) earlier before) (wide : 1/2^32 ≤ slack) :
    MarketInside slack cfg before callback ↔
      ∀ side x, Priced before callback side x → Bounded (cfg.gridLow-slack) (cfg.gridHigh+slack) x side := by
  constructor
  · intro inside side x priced
    cases priced with
    | tick on known k room =>
      obtain ⟨buys,sells⟩ := inside on _ known
      cases side with
      | buy => exact buys_reach.mp buys k room
      | sell => exact sells_reach.mp sells k room
    | counter next =>
      rename_i fill i answers
      have mids := inside _ next
      obtain ⟨low,high⟩ := levelPrice_near positive ordered levels fits i
      rw [front_price front]
      cases side with
      | buy => exact counterPrice_le.mpr ⟨by linarith,mids⟩
      | sell => exact le_counterPrice.mpr ⟨by linarith,mids⟩
  · intro all
    cases callback with
    | onLoad | onUnload | onTimer => trivial
    | onTick answers =>
      intro on mid known
      constructor
      · exact buys_reach.mpr fun k room => all .buy _ (.tick on known k room)
      · exact sells_reach.mpr fun k room => all .sell _ (.tick on known k room)
    | onFill fill answers =>
      rintro ⟨side,i⟩ next mid known up
      have asked := all side _ (show Priced before (.onFill fill answers) side _ from .counter next)
      cases side with
      | buy => exact (counterPrice_le.mp asked).2 mid known up
      | sell => exact (le_counterPrice.mp asked).2 mid known up

-- On its other side a price is held by the level or the mid it was taken from.
theorem priced_inside (positive : 0 < cfg.gridLow) (ordered : cfg.gridLow < cfg.gridHigh) (levels : 1 ≤ cfg.gridLevels)
    (fits : cfg.gridHigh < 2^31) (front : Runs Step (initial cfg) earlier before)
    (priced : Priced before callback side x) :
    (side = .buy → cfg.gridLow-1/2^32 ≤ x) ∧ (side = .sell → x ≤ cfg.gridHigh) := by
  cases priced with
  | tick on known k room =>
    rename_i mid answers
    have reached : (0 : Rat) ≤ k := Nat.cast_nonneg k
    obtain ⟨i,_,opened⟩ := List.countP_pos_iff.mp (Nat.zero_lt_of_lt room)
    have away := (opens_iff.mp opened).1
    obtain ⟨low,high⟩ := levelPrice_near positive ordered levels fits i
    rw [front_price front] at away
    constructor
    · rintro rfl
      have lower : levelPrice cfg i < toDouble mid := of_decide_eq_true away
      rw [aggressive_buy]
      linarith
    · rintro rfl
      have higher : (toDouble mid : Rat) < levelPrice cfg i := of_decide_eq_true away
      rw [aggressive_sell]
      linarith
  | counter next =>
    rename_i fill i answers
    obtain ⟨low,high⟩ := levelPrice_near positive ordered levels fits i
    rw [front_price front]
    constructor
    · rintro rfl
      exact low.trans (counterPrice_le.mp (le_refl _)).1
    · rintro rfl
      exact (le_counterPrice.mp (le_refl _)).1.trans high

theorem orders_inside (positive : 0 < cfg.gridLow) (ordered : cfg.gridLow < cfg.gridHigh) (levels : 1 ≤ cfg.gridLevels)
    (fits : cfg.gridHigh < 2^31) (front : Runs Step (initial cfg) earlier before) (wide : 1/2^32 ≤ slack)
    (inside : MarketInside slack cfg before callback) (priced : Priced before callback side x) :
    cfg.gridLow-slack ≤ x ∧ x ≤ cfg.gridHigh+slack := by
  have here := (market_inside_iff positive ordered levels fits front wide).mp inside side x priced
  have other := priced_inside positive ordered levels fits front priced
  cases side with
  | buy => exact ⟨by linarith [other.1 rfl],here⟩
  | sell => exact ⟨here,by linarith [other.2 rfl]⟩

end Steps

theorem on_grid_market {cfg : Config Rat} {es : List (Event (cfg.gridLevels+1).toNat)} {g : Strategy Rat (cfg.gridLevels+1).toNat}
    (positive : 0 < cfg.gridLow) (ordered : cfg.gridLow < cfg.gridHigh) (levels : 1 ≤ cfg.gridLevels)
    (fits : cfg.gridHigh+1/10 < 2^31) (path : Runs Step (initial cfg) es g) :
    (MarketOnGrid (1/25) cfg es → OnGrid (1/10) cfg es) ∧ (OnGrid (1/10) cfg es → MarketOnGrid (4/25) cfg es) := by
  constructor
  · intro market i order answer placed
    obtain ⟨earlier,e,later,before,x,shape,front,priced,asked⟩ := runs_priced path placed
    obtain ⟨low,high⟩ := orders_inside positive ordered levels (by linarith) front (by norm_num)
      (market earlier e later shape before front) priced
    obtain ⟨least,most⟩ := quote_near (x:=x) (by linarith) (by linarith)
    rw [asked,orderFor_price]
    constructor <;> linarith
  · intro inside earlier e later shape before front
    subst shape
    rw [market_inside_iff positive ordered levels (by linarith) front (by norm_num)]
    intro side x priced
    obtain ⟨i,answer,sent⟩ := runs_requests path front priced
    have placed := inside i (orderFor before side (toDecimal x)) answer (List.mem_flatMap.mpr ⟨e,by simp,sent⟩)
    rw [orderFor_price] at placed
    rcases quote_cases x with lost | ⟨least,most⟩
    · linarith
    · cases side with
      | buy => simp only [Bounded]; linarith
      | sell => simp only [Bounded]; linarith

instance (cfg : Config Rat) (slack : Rat) (g : Strategy Rat n) : (callback : Callback) → Decidable (MarketInside slack cfg g callback)
  | .onTick _ => inferInstanceAs (Decidable (_ → ∀ _ ∈ _, _))
  | .onFill _ _ => inferInstanceAs (Decidable (∀ _ ∈ _, ∀ _ ∈ _, _))
  | .onLoad | .onUnload | .onTimer _ => inferInstanceAs (Decidable True)

def betweenLevels : List Callback := [.onLoad,.onTick {mid := hundred, ids := [1,2]}]

theorem on_grid_market_betweenLevels :
    ∃ follows : (play follow (initial pair) betweenLevels).isSome,
      let run := (play follow (initial pair) betweenLevels).get follows
      OnGrid (1/10) pair run.1 ∧ MarketOnGrid (4/25) pair run.1 := by
  have market : MarketOnGrid (1/25) pair ((play follow (initial pair) betweenLevels).get (by decide +kernel)).1 :=
    Meets.played (show Meets (MarketInside (1/25) pair) (initial pair) betweenLevels by decide +kernel) (by decide +kernel)
  obtain ⟨inside,market'⟩ := on_grid_market (show 0 < pair.gridLow by decide +kernel) (by decide +kernel) (by decide) (by decide +kernel)
    (play_get follow_sound (show (play follow (initial pair) betweenLevels).isSome by decide +kernel))
  exact ⟨by decide +kernel,inside market,market' (inside market)⟩

def leftGrid : List Callback := [.onLoad,.onTick {mid := above, ids := [1,2]}]

theorem leftGrid_outside :
    ∃ follows : (play follow (initial pair) leftGrid).isSome,
      let run := (play follow (initial pair) leftGrid).get follows
      Runs Step (initial pair) run.1 run.2 ∧ 0 < pair.gridLow ∧ pair.gridLow < pair.gridHigh ∧ 1 ≤ pair.gridLevels ∧
        (∀ e ∈ run.1, ∀ mid ∈ e.mid, 0 < (toDouble mid : Rat)) ∧ ¬ OnGrid (1/10) pair run.1 := by
  refine ⟨by decide +kernel,play_get follow_sound _,by decide +kernel,by decide +kernel,by decide,by decide +kernel,?_⟩
  intro inside
  have bought := inside ⟨0,by decide⟩ (tickOrder (initial pair) 120 .buy 0) 1 (by decide +kernel)
  exact absurd bought.2 (by decide +kernel)

end Chronos.GridStrategy
