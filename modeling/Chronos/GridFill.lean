import Chronos.GridPrices

namespace Chronos.GridStrategy

variable {F : Type} [Double F] {n : Nat}

-- onFill once more with the indices of the source: any natural number, and an
-- access past the end of levels_ fails.
def Strategy.at? (g : Strategy F n) (i : Nat) : Option GridLevel := if inside : i < n then some (g.levels ⟨i,inside⟩) else none

def Strategy.store? (g : Strategy F n) (side : OrderSide) (i : Nat) (oid : OrderId) : Option (Strategy F n) :=
  if inside : i < n then some (g.setSlot side ⟨i,inside⟩ oid) else none

def scan? (g : Strategy F n) (oid : OrderId) : List Nat → Option (Option (OrderSide × Nat))
  | [] => some none
  | i::rest => do
    let level ← g.at? i
    if oid ≠ 0 ∧ oid = level.buyOrderId then return some (.buy,i)
    else if oid ≠ 0 ∧ oid = level.sellOrderId then return some (.sell,i)
    else scan? g oid rest

def placeAt? (side : OrderSide) (g : Strategy F n) (ctx : Context n) (i : Nat) (price : Decimal) :
    Option (Strategy F n × Context n) :=
  if inside : i < n then do
    let (oid,ctx) := ctx.submitOrder ⟨i,inside⟩ (orderFor g side price)
    if oid ≠ 0 then return (← g.store? side i oid,ctx) else return (g,ctx)
  else none

def onFill? (g : Strategy F n) (fill : Fill) (ctx : Context n) : Option (Strategy F n × Context n) := do
  let midVal : F := midVal ctx.mid
  match ← scan? g fill.orderId (List.range n) with
  | some (.buy,i) =>
    let cleared ← g.store? .buy i 0
    let g' := {cleared with fillsProcessed := cleared.fillsProcessed+1}
    if i+1 < n then
      let next ← g'.at? (i+1)
      let price : F := toDouble next.price
      let price := if Double.less (Double.ofRat 0) midVal then stdMin price midVal else price
      placeAt? .sell g' (delivered g fill ctx) (i+1) (toDecimal price)
    else return (g',delivered g fill ctx)
  | some (.sell,i) =>
    let cleared ← g.store? .sell i 0
    let g' := {cleared with fillsProcessed := cleared.fillsProcessed+1}
    if 0 < i then
      let below ← g'.at? (i-1)
      let price : F := toDouble below.price
      let price := if Double.less (Double.ofRat 0) midVal then stdMax price midVal else price
      placeAt? .buy g' (delivered g fill ctx) (i-1) (toDecimal price)
    else return (g',delivered g fill ctx)
  | none => return (g,delivered g fill ctx)

theorem at?_inside (g : Strategy F n) (i : Fin n) : g.at? i = some (g.levels i) := dif_pos i.isLt

theorem store?_inside (g : Strategy F n) (side : OrderSide) (i : Fin n) (oid : OrderId) :
    g.store? side i oid = some (g.setSlot side i oid) := dif_pos i.isLt

theorem placeAt?_inside (side : OrderSide) (g : Strategy F n) (ctx : Context n) (i : Fin n) (price : Decimal) :
    placeAt? side g ctx i price = some (placeAt side g ctx i price).2 := by
  unfold placeAt? placeAt
  rw [dif_pos i.isLt]
  simp only [store?_inside]
  split <;> simp [*]

-- The loop stays inside levels_ and stops where slotOf says.
theorem scan?_inside (g : Strategy F n) (oid : OrderId) (levels : List (Fin n)) :
    scan? g oid (levels.map Fin.val) = some ((levels.findSome? fun i =>
      if oid ≠ 0 ∧ oid = (g.levels i).buyOrderId then some (OrderSide.buy,i)
      else if oid ≠ 0 ∧ oid = (g.levels i).sellOrderId then some (.sell,i)
      else none).map fun k => (k.1,k.2.val)) := by
  induction levels with
  | nil => rfl
  | cons i rest ih =>
    simp only [List.map_cons,scan?,at?_inside,List.findSome?_cons,Option.bind_eq_bind,Option.bind_some]
    split
    · rfl
    · split
      · rfl
      · exact ih

theorem scan?_slotOf (g : Strategy F n) (oid : OrderId) :
    scan? g oid (List.range n) = some ((slotOf oid g.levels).map fun k => (k.1,k.2.val)) := by
  have indices : List.range n = (List.finRange n).map Fin.val := by simp
  rw [indices,scan?_inside]
  rfl

theorem onFill?_inside (g : Strategy F n) (fill : Fill) (ctx : Context n) : onFill? g fill ctx = some (onFill g fill ctx) := by
  unfold onFill?
  rw [scan?_slotOf]
  cases found : slotOf fill.orderId g.levels with
  | none => simp [onFill,found,delivered]
  | some k =>
    obtain ⟨side,i⟩ := k
    cases side with
    | buy =>
      simp only [Option.map_some,Option.bind_eq_bind,Option.bind_some,store?_inside]
      by_cases up : i.val+1 < n
      · rw [if_pos up]
        refine (congrArg (Option.bind · _) (at?_inside (cleared g (.buy,i)) ⟨i+1,up⟩)).trans ?_
        refine (placeAt?_inside .sell (cleared g (.buy,i)) _ ⟨i+1,up⟩ _).trans ?_
        simp only [onFill,found,up,dif_pos,delivered]
        rfl
      · simp only [onFill,found,up,dif_neg,if_false,not_false_eq_true,delivered]
        rfl
    | sell =>
      simp only [Option.map_some,Option.bind_eq_bind,Option.bind_some,store?_inside]
      by_cases down : 0 < i.val
      · rw [if_pos down]
        refine (congrArg (Option.bind · _) (at?_inside (cleared g (.sell,i)) ⟨i-1,pred_lt i⟩)).trans ?_
        refine (placeAt?_inside .buy (cleared g (.sell,i)) _ ⟨i-1,pred_lt i⟩ _).trans ?_
        simp only [onFill,found,down,if_true,delivered]
        rfl
      · simp only [onFill,found,down,if_false,delivered]
        rfl

structure FillApplied (g : Strategy F n) (fill : Fill) (answer : OrderId) (k : Key n) (g' : Strategy F n)
    (moves : List (Move n)) : Prop where
  only : ∀ k', (g.levels k'.2).slot k'.1 = fill.orderId → k' = k
  cleared : (g'.levels k.2).slot k.1 = 0
  fills : g'.fillsProcessed = g.fillsProcessed+1
  ticks : g'.ticksProcessed = g.ticksProcessed
  steady : Steady g g'
  unanswered : neighbour k = none → moves = [.filled fill (some k)]
  countered : ∀ k', neighbour k = some k' → ∃ order, moves = [.filled fill (some k),.submit k'.2 order answer] ∧
    order.side = k'.1 ∧ order.quantity = toDecimal g.cfg.quantity
  slots : ∀ k', k' ≠ k → (g'.levels k'.2).slot k'.1 =
    if neighbour k = some k' ∧ answer ≠ 0 then answer else (g.levels k'.2).slot k'.1

def Distinct (g : Strategy F n) : Prop :=
  ∀ k k' : Key n, (g.levels k.2).slot k.1 ≠ 0 → (g.levels k.2).slot k.1 = (g.levels k'.2).slot k'.1 → k = k'

theorem slotOf_held {g : Strategy F n} (distinct : Distinct g) {k : Key n} (real : oid ≠ 0)
    (held : (g.levels k.2).slot k.1 = oid) : slotOf oid g.levels = some k := by
  cases found : slotOf oid g.levels with
  | none => exact absurd (table_eq_some.mpr ⟨real,held⟩) (slotOf_none found k)
  | some k' =>
    have there := (table_eq_some.mp (slotOf_some found)).2
    rw [distinct k k' (held ▸ real) (held.trans there.symm)]

theorem slotOf_absent {g : Strategy F n} (absent : oid = 0 ∨ ∀ side i, (g.levels i).slot side ≠ oid) :
    slotOf oid g.levels = none := by
  cases found : slotOf oid g.levels with
  | none => rfl
  | some k =>
    obtain ⟨real,held⟩ := table_eq_some.mp (slotOf_some found)
    rcases absent with rfl | nowhere
    · exact absurd rfl real
    · exact absurd held (nowhere k.1 k.2)

theorem cleared_slot (g : Strategy F n) (k k' : Key n) :
    ((cleared g k).levels k'.2).slot k'.1 = if k' = k then 0 else (g.levels k'.2).slot k'.1 := by
  unfold cleared
  exact (setSlot_slot g k.1 k'.1 k.2 k'.2 0).trans (if_congr Prod.ext_iff.symm rfl rfl)

theorem applied {g : Strategy F n} {fill : Fill} {answers : Answers} {k : Key n} (distinct : Distinct g)
    (real : fill.orderId ≠ 0) (held : (g.levels k.2).slot k.1 = fill.orderId) :
    FillApplied g fill (answers.ids.headD 0) k (onFill g fill ⟨answers,[]⟩).1 (onFill g fill ⟨answers,[]⟩).2.moves := by
  have slot := slotOf_held distinct real held
  have only : ∀ k' : Key n, (g.levels k'.2).slot k'.1 = fill.orderId → k' = k :=
    fun k' same => distinct k' k (same ▸ real) (same.trans held.symm)
  rcases onFill_cases g fill ⟨answers,[]⟩ with ⟨absent,_⟩ | ⟨k₀,found,top,same⟩ | ⟨k₀,next,found,beside,same⟩
  · rw [slot] at absent
    cases absent
  · cases slot.symm.trans found
    rw [same]
    refine ⟨only,?_,rfl,rfl,cleared_steady g k,fun _ => ?_,fun k' beside => ?_,fun k' other => ?_⟩
    · rw [cleared_slot,if_pos rfl]
    · simp only [delivered,slot,List.nil_append]
    · rw [top] at beside
      cases beside
    · rw [cleared_slot,if_neg other,top]
      rfl
  · cases slot.symm.trans found
    rw [same]
    have apart : next ≠ k := fun here => neighbour_side beside (by rw [here])
    refine ⟨only,?_,?_,?_,?_,fun top => ?_,fun k' there => ?_,fun k' other => ?_⟩
    · rw [placeAt_slots _ _ _ _ _ _ _ fun here => apart (Prod.ext here.1 here.2).symm,cleared_slot,if_pos rfl]
    · exact (placeAt_counters _ _ _ _ _).2
    · exact (placeAt_counters _ _ _ _ _).1
    · exact (cleared_steady g k).trans (placeAt_steady _ _ _ _ _)
    · rw [beside] at top
      cases top
    · cases beside.symm.trans there
      refine ⟨orderFor (cleared g k) next.1 (counterAt (cleared g k) next answers.mid),?_,rfl,rfl⟩
      simp only [placeAt,Context.submitOrder,delivered,slot]
      rfl
    · rw [placeAt_slot,cleared_slot,if_neg other]
      refine if_congr (and_congr ?_ Iff.rfl) rfl rfl
      rw [beside,Option.some.injEq,Prod.ext_iff,@eq_comm _ k'.1,@eq_comm _ k'.2]

theorem onFill_exact {F : Type} [Double F] {n : Nat} {g : Strategy F n} (distinct : Distinct g) (fill : Fill) (answers : Answers) :
    onFill? g fill ⟨answers,[]⟩ = some (onFill g fill ⟨answers,[]⟩) ∧
    ((fill.orderId = 0 ∨ ∀ side i, (g.levels i).slot side ≠ fill.orderId) →
      onFill g fill ⟨answers,[]⟩ = (g,⟨answers,[.filled fill none]⟩)) ∧
    ∀ k : Key n, fill.orderId ≠ 0 → (g.levels k.2).slot k.1 = fill.orderId →
      FillApplied g fill (answers.ids.headD 0) k (onFill g fill ⟨answers,[]⟩).1 (onFill g fill ⟨answers,[]⟩).2.moves := by
  refine ⟨onFill?_inside g fill _,fun absent => ?_,fun k real held => applied distinct real held⟩
  have nowhere := slotOf_absent absent
  simp only [onFill,nowhere,List.nil_append]

def pairLive : Strategy Rat (pair.gridLevels+1).toNat := (onTick (onLoad (initial pair)) ⟨{mid := hundred, ids := [1,2]},[]⟩).1

theorem onFill_exact_refused : FillApplied pairLive (whole 1) 0 (.buy,⟨0,by decide⟩)
    (onFill pairLive (whole 1) ⟨{mid := hundred},[]⟩).1 (onFill pairLive (whole 1) ⟨{mid := hundred},[]⟩).2.moves := by
  have distinct : Distinct pairLive := by
    intro ⟨side,i⟩ ⟨side',i'⟩
    revert i i'
    cases side <;> cases side' <;> decide +kernel
  exact (onFill_exact distinct (whole 1) {mid := hundred}).2.2 (.buy,⟨0,by decide⟩) (by decide) (by decide +kernel)

end Chronos.GridStrategy
