import Chronos.GridRange

namespace Chronos.GridStrategy

-- The prices that rounding leaves positive: below the first they are rounded to
-- zero, from the second on to 2^31, where the cast to a Decimal fails.
def leastPrice : Rat := 214748365/2^32
def pastPrice : Rat := 2^31-214748364/2^32

def Positive (es : List (Event n)) : Prop := ∀ i order answer, .submit i order answer ∈ history es → 0 < order.price.raw

def Quoted (mid : Option Decimal) : Prop := ∀ m ∈ mid, 0 < (toDouble m : Rat) ∧ (toDouble m : Rat) < 2^30

def CounterRoom (level : Rat) : OrderSide → Option Decimal → Prop
  | .sell,some mid => leastPrice ≤ level ∧ leastPrice ≤ (toDouble mid : Rat)
  | .buy,some mid => (leastPrice ≤ level ∨ leastPrice ≤ (toDouble mid : Rat)) ∧ level < pastPrice
  | _,none => leastPrice ≤ level ∧ level < pastPrice

def MarketAboveZero (g : Strategy Rat n) : Callback → Prop
  | .onTick answers => g.initialized = true → ∀ mid ∈ answers.mid, 0 < openings g (toDouble mid) .sell →
      leastPrice ≤ (toDouble mid : Rat)-reach (openings g (toDouble mid) .sell)
  | .onFill fill answers => ∀ k ∈ counterSlot g fill, CounterRoom (toDouble (g.levels k.2).price) k.1 answers.mid
  | _ => True

def MarketPositive (cfg : Config Rat) : List (Event (cfg.gridLevels+1).toNat) → Prop :=
  Each fun earlier e => ∀ g, Runs Step (initial cfg) earlier g → MarketAboveZero g e.callback

theorem tick_raw {raw : Int} : 0 < tick (raw/2^32) ↔ 214748365 ≤ raw := by
  have tenth : ((raw : Rat)/2^32*10) = 10*raw/2^32 := by ring
  unfold tick
  rw [div_pos_iff_of_pos_right (by norm_num),tenth,round_cases]
  split
  · rename_i up
    rw [Int.cast_pos,Int.floor_pos]
    have half : (1 : Rat) ≤ 10*raw/2^32+1/2 ↔ (2^31 : Rat) ≤ 10*raw := by
      rw [← sub_le_iff_le_add,le_div_iff₀ (by norm_num)]
      norm_num
    rw [half]
    have whole : (2^31 : Rat) ≤ 10*raw ↔ (2^31 : Int) ≤ 10*raw := by exact_mod_cast Iff.rfl
    rw [whole]
    omega
  · rename_i down
    have negative : (raw : Rat) < 0 := by
      by_contra up
      exact down (div_nonneg (by linarith) (by norm_num))
    have least : ⌈(10*raw/2^32-1/2 : Rat)⌉ ≤ 0 := Int.ceil_nonpos.mpr (by linarith)
    have under : raw < 0 := by exact_mod_cast negative
    constructor
    · intro up
      exact absurd (Int.cast_pos.mp up) (by omega)
    · intro up
      omega

theorem tick_high {raw : Int} (up : 0 ≤ raw) : tick (raw/2^32) < 2^31 ↔ raw < 2^63-214748364 := by
  have tenth : ((raw : Rat)/2^32*10) = 10*raw/2^32 := by ring
  have nonneg : (0 : Rat) ≤ 10*raw/2^32 := by positivity
  have bound : (2^31*10 : Rat) = ((2^31*10 : Int) : Rat) := by norm_num
  have half : 10*raw/2^32+1/2 < ((2^31*10 : Int) : Rat) ↔ (20*raw : Rat) < ((20*2^63-2^32 : Int) : Rat) := by
    rw [← lt_sub_iff_add_lt,div_lt_iff₀ (by norm_num)]
    push_cast
    constructor <;> intro <;> linarith
  have whole : (20*raw : Rat) < ((20*2^63-2^32 : Int) : Rat) ↔ 20*raw < 20*2^63-2^32 := by exact_mod_cast Iff.rfl
  unfold tick
  rw [div_lt_iff₀ (by norm_num),tenth,round_cases,if_pos nonneg,bound,Int.cast_lt,Int.floor_lt,half,whole]
  omega

theorem tick_least {v : Rat} (up : 0 < tick v) : 1 ≤ tick v*2^32 := by
  have whole : ∃ k : Int, tick v = k/10 := by
    unfold tick
    rw [round_cases]
    split
    · exact ⟨_,rfl⟩
    · exact ⟨_,rfl⟩
  obtain ⟨k,same⟩ := whole
  rw [same] at up ⊢
  have some : 0 < k := by
    rw [div_pos_iff_of_pos_right (by norm_num)] at up
    exact_mod_cast up
  have one : (1 : Rat) ≤ k := by exact_mod_cast some
  linarith

theorem le_raw {m : Int} {x : Rat} (up : 0 < m) : m ≤ (toDecimal x).raw ↔ (m : Rat) ≤ x*2^32 ∧ x < 2^31 := by
  have least : (0 : Rat) < m := by exact_mod_cast up
  by_cases fits : Castable x
  · have below := ((castable_iff x).mp fits).2
    rw [toDecimal_raw fits,scaled]
    show m ≤ (if 0 ≤ x*2^32 then ⌊x*2^32⌋ else ⌈x*2^32⌉) ↔ _
    split
    · rw [Int.le_floor]
      exact ⟨fun le => ⟨le,below⟩,And.left⟩
    · rename_i down
      have cut : ⌈x*2^32⌉ ≤ 0 := Int.ceil_nonpos.mpr (by linarith)
      constructor
      · intro le
        omega
      · intro le
        linarith [le.1]
  · have lost : (toDecimal x).raw = -2^63 := by rw [toDecimal,dif_neg fits]; rfl
    rw [lost]
    constructor
    · intro le
      omega
    · rintro ⟨le,below⟩
      exact absurd ((castable_iff x).mpr ⟨by linarith,below⟩) fits

theorem toDouble_pos {d : Decimal} : 0 < (toDouble d : Rat) ↔ 0 < d.raw := by
  have value : (toDouble d : Rat) = d.raw/2^32 := rfl
  rw [value,div_pos_iff_of_pos_right (by norm_num),Int.cast_pos]

theorem quote_pos {x : Rat} : 0 < quote x ↔ leastPrice ≤ x ∧ x < pastPrice := by
  have value : (toDouble (toDecimal x) : Rat) = (toDecimal x).raw/2^32 := rfl
  have least := @le_raw 214748365 x (by decide)
  have past := @le_raw (2^63-214748364) x (by decide)
  have one := @le_raw 1 (tick ((toDecimal x).raw/2^32)) (by decide)
  push_cast at least past one
  rw [quote_tick,toDouble_pos,value,Int.lt_iff_add_one_le,zero_add,one,leastPrice,pastPrice]
  constructor
  · rintro ⟨some,fits⟩
    have up := tick_raw.mp (show 0 < tick ((toDecimal x).raw/2^32) by linarith)
    have room := (tick_high (by omega)).mp fits
    obtain ⟨low,below⟩ := least.mp up
    refine ⟨by linarith,?_⟩
    by_contra high
    have reached := past.mpr ⟨by linarith,below⟩
    omega
  · rintro ⟨low,high⟩
    have up := least.mpr ⟨by linarith,by linarith⟩
    refine ⟨tick_least (tick_raw.mpr up),(tick_high (by omega)).mpr ?_⟩
    by_contra beyond
    have reached := past.mp (by omega)
    linarith

section Steps
variable {cfg : Config Rat} {earlier : List (Event (cfg.gridLevels+1).toNat)} {before : Strategy Rat (cfg.gridLevels+1).toNat}

theorem counter_room {level : Rat} {side : OrderSide} {mid : Option Decimal} (quoted : Quoted mid) :
    CounterRoom level side mid ↔ leastPrice ≤ counterPrice side level (midVal mid) ∧
      counterPrice side level (midVal mid) < pastPrice := by
  cases mid with
  | none =>
    rw [counterPrice_unclamped side (by simp [midVal,Double.ofRat])]
    cases side <;> exact Iff.rfl
  | some m =>
    obtain ⟨up,low⟩ := quoted m rfl
    have past : (toDouble m : Rat) < pastPrice := low.trans (by norm_num [pastPrice])
    rw [counterPrice_clamped side (show 0 < (midVal (some m) : Rat) from up)]
    cases side with
    | buy =>
      have under : stdMax level (toDouble m) < pastPrice ↔ level < pastPrice := by
        rw [← not_le,le_stdMax,not_or,not_le,not_le]
        exact and_iff_left past
      exact (and_congr le_stdMax under).symm
    | sell =>
      have under : stdMin level (toDouble m) < pastPrice := (le_stdMin.mp (le_refl _)).2.trans_lt past
      exact (le_stdMin.symm.trans (and_iff_left under).symm)

theorem openings_room (int : cfg.gridLevels < 2^31) (before : Strategy Rat (cfg.gridLevels+1).toNat) (mid : Rat)
    (side : OrderSide) : (openings before mid side : Rat) ≤ 2^31 := by
  have most := openings_le before mid side
  have few : openings before mid side ≤ 2^31 := by omega
  exact_mod_cast few

theorem above_zero_iff (int : cfg.gridLevels < 2^31) {e : Event (cfg.gridLevels+1).toNat} (quoted : Quoted e.mid) :
    MarketAboveZero before e.callback ↔ ∀ side x, Priced before e.callback side x → 0 < quote x := by
  obtain ⟨callback,moves⟩ := e
  simp only [quote_pos]
  constructor
  · intro room side x priced
    cases priced with
    | tick on known k few =>
      rename_i mid answers
      obtain ⟨up,low⟩ := quoted mid known
      have many := openings_room int before (toDouble mid) side
      have order : (k : Rat)+1 ≤ openings before (toDouble mid) side := by exact_mod_cast few
      have first : (0 : Rat) ≤ k := Nat.cast_nonneg k
      cases side with
      | buy =>
        rw [aggressive_buy]
        constructor
        · norm_num [leastPrice]; linarith
        · norm_num [pastPrice]; linarith
      | sell =>
        refine ⟨sells_reach.mp (room on mid known) k few,?_⟩
        rw [aggressive_sell]
        norm_num [pastPrice]
        linarith
    | counter next =>
      rename_i fill i answers
      exact (counter_room quoted).mp (room (side,i) next)
  · intro all
    cases callback with
    | onLoad | onUnload | onTimer => trivial
    | onTick answers =>
      intro on mid known
      exact sells_reach.mpr fun k few => (all .sell _ (.tick on known k few)).1
    | onFill fill answers =>
      rintro ⟨side,i⟩ next
      exact (counter_room quoted).mpr (all side _ (.counter next))

end Steps

theorem prices_positive {cfg : Config Rat} {es : List (Event (cfg.gridLevels+1).toNat)} {g : Strategy Rat (cfg.gridLevels+1).toNat}
    (int : cfg.gridLevels < 2^31) (quoted : ∀ e ∈ es, Quoted e.mid) (path : Runs Step (initial cfg) es g) :
    Positive es ↔ MarketPositive cfg es := by
  constructor
  · intro positive earlier e later shape before front
    subst shape
    apply (above_zero_iff int (quoted e (by simp))).mpr
    intro side x priced
    obtain ⟨i,answer,sent⟩ := runs_requests path front priced
    have placed := positive i (orderFor before side (toDecimal x)) answer (List.mem_flatMap.mpr ⟨e,by simp,sent⟩)
    rw [← orderFor_price before side x]
    exact toDouble_pos.mpr placed
  · intro market i order answer placed
    obtain ⟨earlier,e,later,before,x,rfl,front,priced,asked⟩ := runs_priced path placed
    have stays := (above_zero_iff int (quoted e (by simp))).mp (market earlier e later rfl before front) order.side x priced
    rw [← orderFor_price before order.side x,← asked] at stays
    exact toDouble_pos.mp stays

def cheap : Config Rat := {gridLow := 1/8, gridHigh := 1, gridLevels := 1}

def soldBelowZero : List Callback := [.onLoad,.onTick {mid := some ⟨2^30,by decide,by decide⟩, ids := [1,2]}]

instance (mid : Option Decimal) : Decidable (Quoted mid) := inferInstanceAs (Decidable (∀ m ∈ mid, _))

theorem prices_positive_soldBelowZero :
    ∃ follows : (play follow (initial cheap) soldBelowZero).isSome,
      let run := (play follow (initial cheap) soldBelowZero).get follows
      Positive run.1 ↔ MarketPositive cheap run.1 :=
  ⟨by decide +kernel,prices_positive (by decide) (by decide +kernel) (play_get follow_sound (by decide +kernel))⟩

theorem soldBelowZero_negative :
    ∃ follows : (play follow (initial cheap) soldBelowZero).isSome,
      let run := (play follow (initial cheap) soldBelowZero).get follows
      Runs Step (initial cheap) run.1 run.2 ∧ 0 < cheap.gridLow ∧ cheap.gridLow < cheap.gridHigh ∧ 1 ≤ cheap.gridLevels ∧
        (∀ e ∈ run.1, Quoted e.mid) ∧ ¬ Positive run.1 := by
  refine ⟨by decide +kernel,play_get follow_sound _,by decide +kernel,by decide +kernel,by decide,by decide +kernel,?_⟩
  intro positive
  have sold := positive ⟨1,by decide⟩ (tickOrder (initial cheap) (1/4) .sell 0) 2 (by decide +kernel)
  exact absurd sold (by decide +kernel)

end Chronos.GridStrategy
