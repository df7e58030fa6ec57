import Chronos.ConfiguredLimits
import Chronos.EvenPoints
import Chronos.ExactPrices
import Mathlib.Algebra.Order.Group.Unbundled.Abs
import Mathlib.Data.List.Forall2
import Mathlib.Data.List.ReduceOption

namespace Chronos
open Yaml (Node Scalars Thrown bind_ok mapM_ok)
open EvenPoints (climb cut phase point)

def gridConfig {F : Type} [Double F] (sc : StrategyCfg F) : GridStrategy.Config F where
  symbolId := sc.symbolId.toNat
  gridLow := sc.gridLow
  gridHigh := sc.gridHigh
  gridLevels := sc.gridLevels.toInt
  quantity := sc.quantity

def GridType (type : String) : Prop := type = "grid" ∨ type = "GridStrategy"

instance (type : String) : Decidable (GridType type) := inferInstanceAs (Decidable (_ ∨ _))

def make {F : Type} [Double F] (cfg : GridStrategy.Config F) :
    Except GridStrategy.LengthError ((n : Nat) × GridStrategy.Strategy F n) := do
  return ⟨_,← GridStrategy.construct cfg⟩

-- An entry of another type is skipped with a warning.
def registerStrategy {F : Type} [Double F] (sc : StrategyCfg F) :
    Except GridStrategy.LengthError (Option ((n : Nat) × GridStrategy.Strategy F n)) := do
  if GridType sc.type then return some (← make (gridConfig sc)) else return none

-- The strategies handed to the engine. What a constructor throws ends the loop.
def registerStrategies {F : Type} [Double F] (cfg : AppConfig F) :
    Except GridStrategy.LengthError (List ((n : Nat) × GridStrategy.Strategy F n)) := do
  return (← cfg.strategies.mapM registerStrategy).reduceOption

section Entries
variable {F : Type} [Double F] (y : Scalars F)

def configuredType (s : Node) : String := Yaml.asText y (entryAt s "name") "GridStrategy"
def configuredLow (s : Node) : F := Yaml.asDouble y (entryAt (entryAt s "parameters") "grid_low") (Double.ofRat 95)
def configuredHigh (s : Node) : F := Yaml.asDouble y (entryAt (entryAt s "parameters") "grid_high") (Double.ofRat 105)
def configuredLevels (s : Node) : Int32 := Yaml.asInt y (entryAt (entryAt s "parameters") "grid_levels") 5

def isGrid (s : Node) : Bool :=
  Yaml.asBool y (entryAt s "enabled") true && (configuredType y s = "grid" || configuredType y s = "GridStrategy")

def gridEntries (root : Node) : List Node := ((entryAt root "strategies").items?.getD []).filter (isGrid y)

end Entries

section Load
variable {F : Type} [Double F] {y : Scalars F} {root s : Node} {cfg cfg' : AppConfig F} {sc : StrategyCfg F}

structure Loaded (y : Scalars F) (s : Node) (sc : StrategyCfg F) : Prop where
  type : sc.type = configuredType y s
  low : sc.gridLow = configuredLow y s
  high : sc.gridHigh = configuredHigh y s
  levels : sc.gridLevels = configuredLevels y s

theorem loadStrategy_some (loaded : loadStrategy y s = .ok (some sc)) :
    Yaml.asBool y (entryAt s "enabled") true = true ∧ Loaded y s sc := by
  unfold loadStrategy at loaded
  obtain ⟨enabled,foundEnabled,loaded⟩ := bind_ok.mp loaded
  rw [entryAt_eq foundEnabled]
  split at loaded
  · cases loaded
  · rename_i on
    refine ⟨by simpa using on,?_⟩
    obtain ⟨name,foundName,loaded⟩ := bind_ok.mp loaded
    obtain ⟨p,foundP,loaded⟩ := bind_ok.mp loaded
    have type : configuredType y s = Yaml.asText y name "GridStrategy" := by rw [configuredType,entryAt_eq foundName]
    split at loaded
    · simp only [bind_ok] at loaded
      obtain ⟨low,foundLow,high,foundHigh,levels,foundLevels,_,_,_,_,_,_,loaded⟩ := loaded
      cases loaded
      refine ⟨type.symm,?_,?_,?_⟩
      · rw [configuredLow,entryAt_eq foundP,entryAt_eq foundLow]
      · rw [configuredHigh,entryAt_eq foundP,entryAt_eq foundHigh]
      · rw [configuredLevels,entryAt_eq foundP,entryAt_eq foundLevels]
    · rename_i absent
      cases loaded
      have none : entryAt s "parameters" = .undefined := by
        rw [entryAt_eq foundP]
        cases p with
        | undefined => rfl
        | null | scalar | sequence | map => exact absurd rfl absent
      refine ⟨type.symm,?_,?_,?_⟩
      · rw [configuredLow,none]; rfl
      · rw [configuredHigh,none]; rfl
      · rw [configuredLevels,none]; rfl

theorem loadStrategy_none (loaded : loadStrategy y s = .ok none) : Yaml.asBool y (entryAt s "enabled") true = false := by
  unfold loadStrategy at loaded
  obtain ⟨enabled,foundEnabled,loaded⟩ := bind_ok.mp loaded
  rw [entryAt_eq foundEnabled]
  split at loaded
  · rename_i off
    simpa using off
  · obtain ⟨name,foundName,loaded⟩ := bind_ok.mp loaded
    obtain ⟨p,foundP,loaded⟩ := bind_ok.mp loaded
    split at loaded
    · simp only [bind_ok] at loaded
      obtain ⟨_,_,_,_,_,_,_,_,_,_,_,_,loaded⟩ := loaded
      cases loaded
    · cases loaded

def gridConfigs (strategies : List (StrategyCfg F)) : List (GridStrategy.Config F) :=
  (strategies.filter (GridType ·.type)).map gridConfig

structure Configured (y : Scalars F) (s : Node) (c : GridStrategy.Config F) : Prop where
  low : c.gridLow = configuredLow y s
  high : c.gridHigh = configuredHigh y s
  levels : c.gridLevels = (configuredLevels y s).toInt

theorem gridConfigs_cons (sc : StrategyCfg F) (scs : List (StrategyCfg F)) :
    gridConfigs (sc::scs) = if GridType sc.type then gridConfig sc::gridConfigs scs else gridConfigs scs := by
  by_cases grid : GridType sc.type <;> simp [gridConfigs,grid]

theorem entries_configured {items : List Node} {loaded : List (Option (StrategyCfg F))}
    (each : List.Forall₂ (fun s sc? => loadStrategy y s = .ok sc?) items loaded) :
    List.Forall₂ (Configured y) (items.filter (isGrid y)) (gridConfigs loaded.reduceOption) := by
  induction each with
  | nil => exact .nil
  | @cons s sc? items loaded first rest ih =>
    cases sc? with
    | none =>
      have off : isGrid y s = false := by rw [isGrid,loadStrategy_none first,Bool.false_and]
      rwa [List.filter_cons_of_neg (by simp [off])]
    | some sc =>
      obtain ⟨on,held⟩ := loadStrategy_some first
      rw [List.reduceOption_cons_of_some,gridConfigs_cons]
      by_cases grid : GridType sc.type
      · have known : isGrid y s = true := by simpa [isGrid,on,← held.type,GridType] using grid
        rw [List.filter_cons_of_pos known,if_pos grid]
        exact .cons ⟨held.low,held.high,congrArg Int32.toInt held.levels⟩ ih
      · have other : isGrid y s = false := by simpa [isGrid,on,← held.type,GridType] using grid
        rwa [List.filter_cons_of_neg (by simp [other]),if_neg grid]

theorem loadConfig_grids {getenv : String → Option String} (loaded : loadConfig y getenv (some root) cfg = .ok (true,cfg'))
    (fresh : cfg.strategies = []) : List.Forall₂ (Configured y) (gridEntries y root) (gridConfigs cfg'.strategies) := by
  simp only [loadConfig,bind_ok] at loaded
  obtain ⟨one,engine,two,strategies,three,exchanges,four,risk,five,log,six,zmq,last⟩ := loaded
  cases last
  have kept : cfg'.strategies = two.strategies := by
    obtain ⟨_,rfl⟩ := loadZmq_writes zmq
    obtain ⟨_,rfl⟩ := loadLog_writes log
    obtain ⟨_,rfl⟩ := loadRisk_writes risk
    exact (loadExchanges_keeps exchanges).1
  have start : one.strategies = [] := by
    obtain ⟨_,rfl⟩ := loadEngine_writes engine
    exact fresh
  unfold loadStrategies at strategies
  obtain ⟨node,found,strategies⟩ := bind_ok.mp strategies
  unfold gridEntries
  rw [kept,entryAt_eq found]
  split at strategies
  · rename_i items sequence
    obtain ⟨loaded,each,same⟩ := bind_ok.mp strategies
    cases same
    rw [sequence,start]
    exact entries_configured (mapM_ok each)
  · rename_i other
    cases strategies
    rw [other,start]
    exact .nil

theorem registerStrategies_make (cfg : AppConfig F) : registerStrategies cfg = (gridConfigs cfg.strategies).mapM make := by
  unfold registerStrategies
  induction cfg.strategies with
  | nil => rfl
  | cons sc scs ih =>
    rw [gridConfigs_cons]
    by_cases grid : GridType sc.type
    · rw [if_pos grid,List.mapM_cons,List.mapM_cons,← ih,registerStrategy,if_pos grid]
      cases make (gridConfig sc) with
      | error => rfl
      | ok g => cases scs.mapM registerStrategy <;> rfl
    · rw [if_neg grid,List.mapM_cons,← ih,registerStrategy,if_neg grid]
      cases scs.mapM registerStrategy <;> rfl

end Load

structure WellFormed (g : GridStrategy.Strategy Rat n) : Prop where
  divisor : (Double.ofInt g.cfg.gridLevels : Rat) ≠ 0
  room : (GridStrategy.reserved g.cfg.gridLevels : Int) = g.cfg.gridLevels+1
  levels : (n : Int) = g.cfg.gridLevels+1 ∧ 2 ≤ n
  rising : ∀ i j, i < j → (g.levels i).price.raw < (g.levels j).price.raw
  first : ∀ i : Fin n, i.val = 0 → (toDouble (g.levels i).price : Rat) = truncated g.cfg.gridLow
  last : ∀ i : Fin n, i.val+1 = n → (toDouble (g.levels i).price : Rat) = truncated g.cfg.gridHigh

def WellBuilt (cfg : GridStrategy.Config Rat) : Prop := ∃ g, GridStrategy.construct cfg = .ok g ∧ WellFormed g

-- How far 0 lies past the level before it, as a part of the spacing.
def zeroPhase (low high : Rat) (levels : Int) : Rat := Int.fract (-low/((high-low)/levels))

-- The grid spans a unit of 2^-32 for each level. Prices within a unit of 0 are cut
-- to 0 from both sides, so that where the grid crosses 0 one of the two levels
-- next to it has to be a unit away.
structure Gridable (low high : Rat) (levels : Int) : Prop where
  some : 1 ≤ levels
  int : levels+1 < 2^31
  apart : truncated low+levels/2^32 ≤ truncated high
  clear : low < 0 → 0 < high → 1/2^32 ≤ (high-low)/levels*zeroPhase low high levels ∨
    1/2^32 ≤ (high-low)/levels*(1-zeroPhase low high levels)

theorem reserved_exact {levels : Int} (low : -2^31 ≤ levels) (high : levels < 2^31) :
    (GridStrategy.reserved levels : Int) = levels+1 ↔ -1 ≤ levels ∧ levels+1 < 2^31 := by
  have extended : ((BitVec.ofInt 32 (levels+1)).signExtend 64).toInt = (BitVec.ofInt 32 (levels+1)).toInt :=
    BitVec.toInt_signExtend_of_le (by decide)
  rw [BitVec.toInt_ofInt,BitVec.toInt_eq_toNat_cond,Int.bmod_def] at extended
  have bound := ((BitVec.ofInt 32 (levels+1)).signExtend 64).isLt
  unfold GridStrategy.reserved
  split at extended <;> split at extended <;> omega

theorem toDecimal_cut {x : Rat} (fits : Castable x) : (toDecimal x).raw = cut (x*2^32) := by
  rw [toDecimal_raw fits,scaled]
  rfl

theorem truncated_cut {x : Rat} (fits : Castable x) : truncated x = cut (x*2^32)/2^32 := by
  rw [← toDouble_toDecimal x fits,← toDecimal_cut fits]
  rfl

theorem castable_of_abs {x : Rat} (small : |x| < 2^31) : Castable x := by
  obtain ⟨low,high⟩ := abs_lt.mp small
  rw [castable_iff]
  constructor <;> linarith

section Levels
variable {cfg : GridStrategy.Config Rat}

theorem place_small (low : |cfg.gridLow| < 2^31) (high : |cfg.gridHigh| < 2^31) (some : 1 ≤ cfg.gridLevels)
    (i : Fin (cfg.gridLevels+1).toNat) : |GridStrategy.place cfg i| < 2^31 := by
  have bound : (i.val : Int) ≤ cfg.gridLevels := by
    have := i.isLt
    omega
  have many : (0 : Rat) < cfg.gridLevels := Int.cast_pos.mpr (by omega)
  have share : GridStrategy.place cfg i = cfg.gridLow+(cfg.gridHigh-cfg.gridLow)*((i.val : Int)/cfg.gridLevels) := by
    unfold GridStrategy.place
    ring
  have most : ((i.val : Int) : Rat)/cfg.gridLevels ≤ 1 := by
    rw [div_le_one many]
    exact Int.cast_le.mpr bound
  have least : 0 ≤ ((i.val : Int) : Rat)/cfg.gridLevels := div_nonneg (Int.cast_nonneg (Int.natCast_nonneg _)) many.le
  rw [abs_lt] at low high ⊢
  rw [share]
  rcases le_total cfg.gridLow cfg.gridHigh with up | down
  · have forward := mul_nonneg (sub_nonneg.mpr up) least
    have inside := mul_le_mul_of_nonneg_left most (sub_nonneg.mpr up)
    constructor <;> linarith
  · have back := mul_nonpos_of_nonpos_of_nonneg (sub_nonpos.mpr down) least
    have inside := mul_le_mul_of_nonpos_left most (sub_nonpos.mpr down)
    constructor <;> linarith

theorem place_point (i : Fin (cfg.gridLevels+1).toNat) : GridStrategy.place cfg i*2^32 =
    point (cfg.gridLow*2^32) ((cfg.gridHigh-cfg.gridLow)/cfg.gridLevels*2^32) i := by
  unfold GridStrategy.place point
  push_cast
  ring

theorem price_cut (low : |cfg.gridLow| < 2^31) (high : |cfg.gridHigh| < 2^31) (some : 1 ≤ cfg.gridLevels)
    (i : Fin (cfg.gridLevels+1).toNat) : ((GridStrategy.initial cfg).levels i).price.raw =
      cut (point (cfg.gridLow*2^32) ((cfg.gridHigh-cfg.gridLow)/cfg.gridLevels*2^32) i) := by
  rw [← place_point,← toDecimal_cut (castable_of_abs (place_small low high some i)),GridStrategy.initial_price some]

theorem rising_steps (low : |cfg.gridLow| < 2^31) (high : |cfg.gridHigh| < 2^31) {n : Nat} (some : 1 ≤ n) (count : cfg.gridLevels = n) :
    (∀ i j, i < j → ((GridStrategy.initial cfg).levels i).price.raw < ((GridStrategy.initial cfg).levels j).price.raw) ↔
      ∀ i < n, cut (point (cfg.gridLow*2^32) ((cfg.gridHigh-cfg.gridLow)/cfg.gridLevels*2^32) i) <
        cut (point (cfg.gridLow*2^32) ((cfg.gridHigh-cfg.gridLow)/cfg.gridLevels*2^32) (i+1)) := by
  have price := price_cut low high (show 1 ≤ cfg.gridLevels by omega)
  have size : (cfg.gridLevels+1).toNat = n+1 := by omega
  constructor
  · intro rising i inside
    have next := rising ⟨i,by omega⟩ ⟨i+1,by omega⟩ (Nat.lt_succ_self i)
    rwa [price,price] at next
  · intro steps i j order
    have least : i.val < j.val := order
    have reach := climb (f:=fun i => cut (point (cfg.gridLow*2^32) ((cfg.gridHigh-cfg.gridLow)/cfg.gridLevels*2^32) i)) steps
      (k:=j.val-i.val) i.val (by have := j.isLt; omega)
    rw [Nat.add_sub_cancel' least.le,← price i,← price j] at reach
    omega

theorem truncated_apart {low high : Rat} (below : |low| < 2^31) (above : |high| < 2^31) (n : Nat) :
    cut (low*2^32)+n ≤ cut (high*2^32) ↔ truncated low+n/2^32 ≤ truncated high := by
  rw [truncated_cut (castable_of_abs below),truncated_cut (castable_of_abs above),← add_div,
    div_le_div_iff_of_pos_right (by norm_num)]
  norm_cast

theorem scaled_phase (low high : Rat) (levels : Int) :
    phase (low*2^32) ((high-low)/levels*2^32) = zeroPhase low high levels := by
  rw [phase,zeroPhase,← neg_mul,mul_div_mul_right _ _ (by norm_num)]

theorem scaled_unit (spacing part : Rat) : 1 ≤ spacing*2^32*part ↔ 1/2^32 ≤ spacing*part := by
  rw [div_le_iff₀ (by norm_num),mul_right_comm]

theorem wellFormed_iff (low : |cfg.gridLow| < 2^31) (high : |cfg.gridHigh| < 2^31)
    (least : -2^31 ≤ cfg.gridLevels) (most : cfg.gridLevels < 2^31) :
    WellFormed (GridStrategy.initial cfg) ↔ Gridable cfg.gridLow cfg.gridHigh cfg.gridLevels := by
  by_cases some : 1 ≤ cfg.gridLevels
  · obtain ⟨n,count⟩ := Int.eq_ofNat_of_zero_le (show 0 ≤ cfg.gridLevels by omega)
    have price := price_cut low high some
    have many : (0 : Rat) < cfg.gridLevels := Int.cast_pos.mpr (by omega)
    have cast : (cfg.gridLevels : Rat) = n := by rw [count]; rfl
    have start : point (cfg.gridLow*2^32) ((cfg.gridHigh-cfg.gridLow)/cfg.gridLevels*2^32) 0 = cfg.gridLow*2^32 := by simp [point]
    have finish : point (cfg.gridLow*2^32) ((cfg.gridHigh-cfg.gridLow)/cfg.gridLevels*2^32) n = cfg.gridHigh*2^32 := by
      rw [point,← cast]
      field_simp
      ring
    have negative : cfg.gridLow*2^32 < 0 ↔ cfg.gridLow < 0 := by constructor <;> intro <;> linarith
    have rising := (rising_steps low high (show 1 ≤ n by omega) count).trans EvenPoints.rising_iff
    rw [start,finish,truncated_apart low high,scaled_phase,scaled_unit,scaled_unit,← cast,
      negative,mul_pos_iff_of_pos_right (by norm_num)] at rising
    constructor
    · intro formed
      obtain ⟨apart,clear⟩ := rising.mp formed.rising
      exact ⟨some,((reserved_exact least most).mp formed.room).2,apart,clear⟩
    · intro grid
      refine ⟨many.ne',(reserved_exact least most).mpr ⟨by omega,grid.int⟩,⟨?_,?_⟩,rising.mpr ⟨grid.apart,grid.clear⟩,?_,?_⟩
      · show ((cfg.gridLevels+1).toNat : Int) = cfg.gridLevels+1
        omega
      · omega
      · intro i bottom
        rw [show (GridStrategy.initial cfg).cfg = cfg from rfl,truncated_cut (castable_of_abs low),← start,← bottom,← price i]
        rfl
      · intro i top
        have index : i.val = n := by omega
        rw [show (GridStrategy.initial cfg).cfg = cfg from rfl,truncated_cut (castable_of_abs high),← finish,← index,← price i]
        rfl
  · constructor
    · intro formed
      have size : ((cfg.gridLevels+1).toNat : Int) = cfg.gridLevels+1 := formed.levels.1
      have two := formed.levels.2
      omega
    · intro grid
      exact absurd grid.some some

theorem wellBuilt_iff (low : |cfg.gridLow| < 2^31) (high : |cfg.gridHigh| < 2^31)
    (least : -2^31 ≤ cfg.gridLevels) (most : cfg.gridLevels < 2^31) :
    WellBuilt cfg ↔ Gridable cfg.gridLow cfg.gridHigh cfg.gridLevels := by
  rw [← wellFormed_iff low high least most]
  constructor
  · rintro ⟨g,built,formed⟩
    obtain ⟨_,rfl⟩ := GridStrategy.construct_ok.mp built
    exact formed
  · intro formed
    have room : (GridStrategy.reserved cfg.gridLevels : Int) = cfg.gridLevels+1 := formed.room
    exact ⟨_,GridStrategy.construct_ok.mpr ⟨by unfold GridStrategy.maxSize; omega,rfl⟩,formed⟩

end Levels

theorem make_wellFormed {c : GridStrategy.Config Rat} : (∃ g, make c = .ok g ∧ WellFormed g.2) ↔ WellBuilt c := by
  unfold make
  constructor
  · rintro ⟨g,made,formed⟩
    obtain ⟨strategy,built,last⟩ := bind_ok.mp made
    cases last
    exact ⟨strategy,built,formed⟩
  · rintro ⟨strategy,built,formed⟩
    exact ⟨⟨_,strategy⟩,bind_ok.mpr ⟨strategy,built,rfl⟩,formed⟩

theorem forall_paired {P : β → Prop} {Q : α → Prop} (paired : List.Forall₂ (fun a b => P b ↔ Q a) as bs) :
    (∀ b ∈ bs, P b) ↔ ∀ a ∈ as, Q a := by
  induction paired with
  | nil => simp
  | cons same _ ih => rw [List.forall_mem_cons,List.forall_mem_cons,same,ih]

theorem grids_wellFormed {y : Scalars Rat} {getenv : String → Option String} {flags : Flags}
    {arguments : List String} {root : Node} {start cfg : AppConfig Rat}
    (parsed : parseArgs flags arguments {} = (true,start))
    (loaded : loadConfig y getenv (some root) start = .ok (true,cfg))
    (small : ∀ s ∈ gridEntries y root, |configuredLow y s| < 2^31 ∧ |configuredHigh y s| < 2^31) :
    List.Forall₂ (fun s c =>
        WellBuilt c ↔ Gridable (configuredLow y s) (configuredHigh y s) (configuredLevels y s).toInt)
      (gridEntries y root) (gridConfigs cfg.strategies) ∧
    ((∃ gs, registerStrategies cfg = .ok gs ∧ ∀ g ∈ gs, WellFormed g.2) ↔
      ∀ s ∈ gridEntries y root, Gridable (configuredLow y s) (configuredHigh y s) (configuredLevels y s).toInt) := by
  have fresh : start.strategies = [] := by
    obtain rfl := (Prod.mk.inj parsed).2
    rfl
  have each : List.Forall₂ (fun s c =>
      WellBuilt c ↔ Gridable (configuredLow y s) (configuredHigh y s) (configuredLevels y s).toInt)
      (gridEntries y root) (gridConfigs cfg.strategies) := by
    refine List.Forall₂.imp ?_ ((List.forall₂_and_left _ _).mpr ⟨small,loadConfig_grids loaded fresh⟩)
    rintro s c ⟨⟨low,high⟩,configured⟩
    rw [← configured.low] at low ⊢
    rw [← configured.high] at high ⊢
    rw [← configured.levels]
    exact wellBuilt_iff low high (configured.levels ▸ Int32.le_toInt _) (configured.levels ▸ Int32.toInt_lt _)
  refine ⟨each,?_⟩
  rw [registerStrategies_make,Yaml.mapM_all]
  simp only [make_wellFormed]
  exact forall_paired each

def written : Scalars Rat where
  double text := [("95.0",95),("105.0",105),("0.1",1/10)].lookup text
  int text := [("5",5),("0",0),("-5",-5)].lookup text
  uint32 text := [("1",1)].lookup text
  bool text := [("true",true),("false",false)].lookup text
  null := some "null"

def gridItem (low high levels : String) : Node :=
  .map [("name",.scalar "GridStrategy"),("enabled",.scalar "true"),("parameters",.map [("grid_low",.scalar low),
    ("grid_high",.scalar high),("grid_levels",.scalar levels),("quantity",.scalar "0.1"),("symbol_ids",.sequence [.scalar "1"])])]

def gridDocument (items : List Node) : Node := .map [("strategies",.sequence items)]

def loadedGrids (root : Node) : AppConfig Rat :=
  match loadConfig written (fun _ => none) (some root) started with
  | .ok (_,cfg) => cfg
  | .error _ => started

def fiveLevels : Node := gridDocument [gridItem "95.0" "105.0" "5"]

theorem grids_wellFormed_sample :
    ∃ gs, registerStrategies (loadedGrids fiveLevels) = .ok gs ∧ ∀ g ∈ gs, WellFormed g.2 := by
  have good : Gridable 95 105 5 := ⟨by decide,by decide,by decide +kernel,fun below => absurd below (by decide +kernel)⟩
  refine (grids_wellFormed (show parseArgs {config := "config.yaml"} [] {} = (true,started) from rfl)
    (show loadConfig written (fun _ => none) (some fiveLevels) started = .ok (true,loadedGrids fiveLevels) from rfl)
    (by decide +kernel)).2.mpr fun s member => ?_
  rw [show gridEntries written fiveLevels = [gridItem "95.0" "105.0" "5"] from rfl,List.mem_singleton] at member
  subst member
  exact good

def noLevels : Node := gridDocument [gridItem "95.0" "105.0" "0"]
def negativeLevels : Node := gridDocument [gridItem "95.0" "105.0" "-5",gridItem "95.0" "105.0" "5"]
def falling : Node := gridDocument [gridItem "105.0" "95.0" "5"]

def between (low high : Rat) (levels : Int) : GridStrategy.Config Rat := ⟨low,high,levels,1/10,1⟩

structure IllFormed (root : Node) : Prop where
  loads : loadConfig written (fun _ => none) (some root) started = .ok (true,loadedGrids root)
  small : ∀ s ∈ gridEntries written root, |configuredLow written s| < 2^31 ∧ |configuredHigh written s| < 2^31
  bad : ¬ ∃ gs, registerStrategies (loadedGrids root) = .ok gs ∧ ∀ g ∈ gs, WellFormed g.2

theorem badGrids_registered : IllFormed noLevels ∧ IllFormed negativeLevels ∧ IllFormed falling ∧
    registerStrategies (loadedGrids noLevels) = .ok [⟨_,GridStrategy.initial (between 95 105 0)⟩] ∧
    registerStrategies (loadedGrids negativeLevels) = .error ⟨⟩ ∧
    registerStrategies (loadedGrids falling) = .ok [⟨_,GridStrategy.initial (between 105 95 5)⟩] := by
  have none : registerStrategies (loadedGrids noLevels) = .ok [⟨_,GridStrategy.initial (between 95 105 0)⟩] := rfl
  have negative : registerStrategies (loadedGrids negativeLevels) = .error ⟨⟩ := rfl
  have down : registerStrategies (loadedGrids falling) = .ok [⟨_,GridStrategy.initial (between 105 95 5)⟩] := rfl
  refine ⟨⟨rfl,by decide +kernel,?_⟩,⟨rfl,by decide +kernel,?_⟩,⟨rfl,by decide +kernel,?_⟩,none,negative,down⟩
  · rintro ⟨gs,made,formed⟩
    cases none.symm.trans made
    exact (formed _ List.mem_cons_self).divisor rfl
  · rintro ⟨gs,made,_⟩
    cases negative.symm.trans made
  · rintro ⟨gs,made,formed⟩
    cases down.symm.trans made
    exact absurd ((formed _ List.mem_cons_self).rising ⟨0,by decide⟩ ⟨1,by decide⟩ (by decide)) (by decide +kernel)

end Chronos
