import Chronos.ExactPrices

namespace Chronos.GridStrategy

def LiveOrder (es : List (Event n)) (side : OrderSide) (order : OrderRequest) : Prop :=
  order.side = side ∧ ∃ i oid, .submit i order oid ∈ history es ∧ oid ≠ 0 ∧ oid ∉ filled es ∧ oid ∉ cancelled es

def Uncrossed (slack : Rat) (es : List (Event n)) : Prop :=
  ∀ buy sell, LiveOrder es .buy buy → LiveOrder es .sell sell → (toDouble buy.price : Rat) < toDouble sell.price+slack

structure Spanned (cfg : Config Rat) (es : List (Event (cfg.gridLevels+1).toNat)) (lowest highest : Rat) : Prop where
  levels : ∀ i, lowest ≤ levelPrice cfg i ∧ levelPrice cfg i ≤ highest
  mids : ∀ e ∈ es, ∀ mid ∈ e.mid, lowest ≤ (toDouble mid : Rat) ∧ (toDouble mid : Rat) ≤ highest

section Bounds
variable {cfg : Config Rat} {earlier es : List (Event (cfg.gridLevels+1).toNat)} {before g : Strategy Rat (cfg.gridLevels+1).toNat}

theorem openings_last (levels : 1 ≤ cfg.gridLevels) (g : Strategy Rat (cfg.gridLevels+1).toNat) (mid : Rat) {side : OrderSide}
    (room : k < openings g mid side) : (k : Rat) ≤ cfg.gridLevels := by
  have few := openings_le g mid side
  have bound : (k : Int) ≤ cfg.gridLevels := by omega
  exact_mod_cast bound

-- A buy is asked for at most so far above what has been seen, a sell at most so
-- far below it.
theorem priced_bounds (levels : 1 ≤ cfg.gridLevels) (span : Spanned cfg es lowest highest)
    (front : Runs Step (initial cfg) earlier before) (member : e ∈ es) (priced : Priced before e.callback side x) :
    Bounded (lowest-1/2-cfg.gridLevels/10) (highest+1/2+cfg.gridLevels/10) x side := by
  have many : (0 : Rat) ≤ cfg.gridLevels := Int.cast_nonneg (by omega)
  obtain ⟨callback,moves⟩ := e
  cases priced with
  | tick on known k room =>
    rename_i mid answers
    obtain ⟨low,high⟩ := span.mids _ member mid (by simp [Event.mid,known])
    have last := openings_last levels before _ room
    cases side with
    | buy => simp only [Bounded,aggressive_buy]; linarith
    | sell => simp only [Bounded,aggressive_sell]; linarith
  | counter next =>
    rename_i fill i answers
    obtain ⟨low,high⟩ := span.levels i
    have mids : ∀ mid ∈ answers.mid, lowest ≤ (toDouble mid : Rat) ∧ (toDouble mid : Rat) ≤ highest :=
      fun mid known => span.mids _ member mid (by simpa [Event.mid] using known)
    rw [front_price front]
    cases side with
    | buy =>
      have most : counterPrice .buy (levelPrice cfg i) (midVal answers.mid) ≤ highest :=
        counterPrice_le.mpr ⟨high,fun mid known _ => (mids mid known).2⟩
      simp only [Bounded]
      linarith
    | sell =>
      have least : lowest ≤ counterPrice .sell (levelPrice cfg i) (midVal answers.mid) :=
        le_counterPrice.mpr ⟨low,fun mid known _ => (mids mid known).1⟩
      simp only [Bounded]
      linarith

theorem runs_quoted (ordered : cfg.gridLow < cfg.gridHigh) (levels : 1 ≤ cfg.gridLevels) (fits : cfg.gridHigh+1/20 < 2^31)
    (path : Runs Step (initial cfg) es g) (span : Spanned cfg es lowest highest)
    (placed : .submit i order answer ∈ history es) :
    Bounded (lowest-1/2-cfg.gridLevels/10-(1/20+1/2^31)) (highest+1/2+cfg.gridLevels/10+(1/20+1/2^31))
      (toDouble order.price) order.side := by
  obtain ⟨earlier,e,later,before,x,rfl,front,priced,shape⟩ := runs_priced path placed
  have asked := priced_bounds levels span front (by simp) priced
  have rounded := priced_quote ordered levels fits front priced
  rw [shape,orderFor_price]
  exact rounded.trans asked

end Bounds

theorem orders_cross_little {cfg : Config Rat} {es : List (Event (cfg.gridLevels+1).toNat)}
    {g : Strategy Rat (cfg.gridLevels+1).toNat} (ordered : cfg.gridLow < cfg.gridHigh) (levels : 1 ≤ cfg.gridLevels)
    (fits : cfg.gridHigh+1/20 < 2^31) (path : Runs Step (initial cfg) es g) {lowest highest : Rat}
    (span : Spanned cfg es lowest highest) : Uncrossed (highest-lowest+6/5+cfg.gridLevels/5) es := by
  rintro buy sell ⟨buys,_,_,bought,_⟩ ⟨sells,_,_,sold,_⟩
  have above := runs_quoted ordered levels fits path span bought
  have below := runs_quoted ordered levels fits path span sold
  rw [buys] at above
  rw [sells] at below
  simp only [Bounded] at above below
  linarith

def bothSides : List Callback := [.onLoad,.onTick {mid := hundred, ids := [1,2]}]

instance (cfg : Config Rat) (es : List (Event (cfg.gridLevels+1).toNat)) (lowest highest : Rat) :
    Decidable (Spanned cfg es lowest highest) :=
  decidable_of_iff ((∀ i, lowest ≤ levelPrice cfg i ∧ levelPrice cfg i ≤ highest) ∧
      ∀ e ∈ es, ∀ mid ∈ e.mid, lowest ≤ (toDouble mid : Rat) ∧ (toDouble mid : Rat) ≤ highest)
    ⟨fun both => ⟨both.1,both.2⟩,fun span => ⟨span.levels,span.mids⟩⟩

theorem orders_cross_little_bothSides :
    ∃ follows : (play follow (initial pair) bothSides).isSome,
      Uncrossed (110-90+6/5+pair.gridLevels/5) ((play follow (initial pair) bothSides).get follows).1 :=
  ⟨by decide +kernel,orders_cross_little (by decide +kernel) (by decide) (by decide +kernel)
    (play_get follow_sound (by decide +kernel)) (by decide +kernel)⟩

theorem bothSides_crossed :
    ∃ follows : (play follow (initial pair) bothSides).isSome,
      let run := (play follow (initial pair) bothSides).get follows
      Runs Step (initial pair) run.1 run.2 ∧ pair.gridLow < pair.gridHigh ∧ 1 ≤ pair.gridLevels ∧
        (∀ e ∈ run.1, ∀ mid ∈ e.mid, 0 < (toDouble mid : Rat)) ∧ (accepted run.1).Nodup ∧ ¬ Uncrossed 0 run.1 := by
  refine ⟨by decide +kernel,play_get follow_sound _,by decide +kernel,by decide,by decide +kernel,by decide +kernel,?_⟩
  intro apart
  have bought : LiveOrder ((play follow (initial pair) bothSides).get (by decide +kernel)).1 .buy
      (tickOrder (initial pair) 100 .buy 0) :=
    ⟨rfl,⟨0,by decide⟩,1,by decide +kernel⟩
  have sold : LiveOrder ((play follow (initial pair) bothSides).get (by decide +kernel)).1 .sell
      (tickOrder (initial pair) 100 .sell 0) :=
    ⟨rfl,⟨1,by decide⟩,2,by decide +kernel⟩
  exact absurd (apart _ _ bought sold) (by decide +kernel)

end Chronos.GridStrategy
