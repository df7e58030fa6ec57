import Chronos.GridLedger

namespace Chronos.GridStrategy
open SlotTable

variable {F : Type} [Double F] {n : Nat}

def ordersOf (side : OrderSide) (moves : List (Move n)) : List OrderId :=
  (submits side moves).filterMap fun (_,answer) => if answer = 0 then none else some answer

def fillsOn (side : OrderSide) (es : List (Event n)) : Nat :=
  (filled es).countP (· ∈ ordersOf side (history es))

def Event.isTick : Event n → Bool
  | ⟨.onTick _,_⟩ => true
  | _ => false

def ticks (es : List (Event n)) : Nat := es.countP Event.isTick

def opposite : OrderSide → OrderSide
  | .buy => .sell
  | .sell => .buy

theorem opposite_of_ne {side other : OrderSide} (different : side ≠ other) : other = opposite side := by
  cases side <;> cases other <;> first | rfl | exact absurd rfl different

theorem ordersOf_append (side : OrderSide) (moves more : List (Move n)) :
    ordersOf side (moves++more) = ordersOf side moves++ordersOf side more := by
  simp [ordersOf,submits_append]

theorem ordersOf_length (side : OrderSide) (moves : List (Move n)) :
    (ordersOf side moves).length ≤ (submits side moves).length := List.length_filterMap_le _ _

theorem mem_ordersOf {side : OrderSide} {moves : List (Move n)} :
    oid ∈ ordersOf side moves ↔ oid ≠ 0 ∧ ∃ i order, order.side = side ∧ .submit i order oid ∈ moves := by
  simp only [ordersOf,List.mem_filterMap]
  constructor
  · rintro ⟨⟨order,answer⟩,member,answered⟩
    obtain ⟨same,i,placed⟩ := mem_submits.mp member
    split at answered
    · cases answered
    · cases answered
      exact ⟨‹_›,i,order,same,placed⟩
  · rintro ⟨real,i,order,same,placed⟩
    exact ⟨(order,oid),mem_submits.mpr ⟨same,i,placed⟩,by simp [real]⟩

theorem ordersOf_accepted {side : OrderSide} {es : List (Event n)} (member : oid ∈ ordersOf side (history es)) :
    oid ∈ accepted es := by
  obtain ⟨real,i,order,_,placed⟩ := mem_ordersOf.mp member
  exact List.mem_filterMap.mpr ⟨_,placed,by simp [Move.accepted,real]⟩

theorem entered_ordersOf {moves : List (Move n)} {k : Key n} (member : (k,oid) ∈ entered (moves.map Move.change)) :
    oid ∈ ordersOf k.1 moves := by
  simp only [entered,List.filterMap_map,List.mem_filterMap,Function.comp_apply] at member
  obtain ⟨m,present,put⟩ := member
  cases m with
  | submit i order answer =>
    simp only [Move.change] at put
    split at put
    · cases put
    · cases put
      exact mem_ordersOf.mpr ⟨‹_›,i,order,rfl,present⟩
  | cancel => cases put
  | filled fill slot => cases slot <;> cases put

theorem fillsOn_snoc (side : OrderSide) (es : List (Event n)) (e : Event n) :
    fillsOn side es+(filled [e]).countP (· ∈ ordersOf side (history es)) ≤ fillsOn side (es++[e]) := by
  have more : ∀ oid : OrderId, decide (oid ∈ ordersOf side (history es)) = true →
      decide (oid ∈ ordersOf side (history (es++[e]))) = true := by
    intro oid old
    rw [history_snoc,ordersOf_append]
    simp only [decide_eq_true_eq,List.mem_append] at old ⊢
    exact .inl old
  simp only [fillsOn,filled,List.filterMap_append,List.countP_append]
  exact Nat.add_le_add (List.countP_mono_left fun oid _ => more oid) (List.countP_mono_left fun oid _ => more oid)

-- A callback places at most one order a level on a tick, and on a fill at most
-- one, against a filled order of the opposite side.
theorem step_orders {g₀ g g' : Strategy F n} {es : List (Event n)} {e : Event n} (start : table g₀ = fun _ => none)
    (path : Runs Step g₀ es g) (step : Step g e g') (side : OrderSide) :
    (ordersOf side e.moves).length ≤
      n*ticks [e]+(filled [e]).countP (· ∈ ordersOf (opposite side) (history es)) := by
  cases step_explained step with
  | load | unload => simp [ordersOf,submits]
  | tick ticked =>
    rename_i answers ctx moves
    have few := ticked.few side
    have most := ordersOf_length side moves
    simp only [ticks,List.countP_singleton,Event.isTick,if_true,Nat.mul_one]
    omega
  | timer expired =>
    rename_i answers ctx moves
    have none : ordersOf side moves = [] := List.eq_nil_iff_forall_not_mem.mpr fun oid placed => by
      obtain ⟨_,i,order,_,member⟩ := mem_ordersOf.mp placed
      obtain ⟨_,_,_,_,cancel⟩ := expired.cancels _ member
      cases cancel
    simp [none]
  | fill counter =>
    rename_i fill moves answers _ _ _ _
    have shorter : (ordersOf side (.filled fill (slotOf fill.orderId g.levels)::moves)).length ≤ (submits side moves).length :=
      ordersOf_length side _
    refine Nat.le_trans shorter (Nat.le_trans ?_ (Nat.le_add_left _ _))
    unfold counterMoves at counter
    split at counter
    · subst counter
      simp [submits]
    · rename_i k next
      obtain ⟨price,rfl⟩ := counter
      by_cases same : k.1 = side
      · obtain ⟨held,found,near⟩ := Option.bind_eq_some_iff.mp next
        have slots := start ▸ runs_table path
        have mine := entered_ordersOf (known slots (slotOf_some found))
        rw [opposite_of_ne (neighbour_side near),same] at mine
        simp [submits,Move.submits,orderFor,same,filled,Event.filled,mine]
      · simp [submits,Move.submits,orderFor,same]

theorem runs_orders {g₀ g : Strategy F n} {es : List (Event n)} (start : table g₀ = fun _ => none)
    (path : Runs Step g₀ es g) (side : OrderSide) :
    (ordersOf side (history es)).length ≤ n*ticks es+fillsOn (opposite side) es := by
  induction path with
  | nil => simp [history,ordersOf,submits]
  | step prior taken ih =>
    have more := step_orders start prior taken side
    rename_i earlier _ event _
    have grown := fillsOn_snoc (opposite side) earlier event
    rw [history_snoc,ordersOf_append,List.length_append]
    have split : ticks (earlier++[event]) = ticks earlier+ticks [event] := List.countP_append ..
    rw [split,Nat.mul_add]
    omega

theorem fillsOn_le {es : List (Event n)} (once : ∀ oid ∈ accepted es, (filled es).count oid ≤ 1) (side : OrderSide) :
    fillsOn side es ≤ (ordersOf side (history es)).length := by
  have distinct : ((filled es).filter (· ∈ ordersOf side (history es))).Nodup := by
    rw [List.nodup_iff_count_le_one]
    intro oid
    by_cases member : oid ∈ ordersOf side (history es)
    · exact Nat.le_trans (List.filter_sublist.count_le oid) (once oid (ordersOf_accepted member))
    · rw [List.count_eq_zero_of_not_mem (by simp [member])]
      exact Nat.zero_le _
  rw [fillsOn,List.countP_eq_length_filter]
  refine (List.subperm_of_subset distinct fun oid member => ?_).length_le
  simpa using (List.mem_filter.mp member).2

theorem inventory_bounded {F : Type} [Double F] {cfg : Config F} {es : List (Event (cfg.gridLevels+1).toNat)}
    {g : Strategy F (cfg.gridLevels+1).toNat} (path : Runs Step (initial cfg) es g)
    (once : ∀ oid ∈ accepted es, (filled es).count oid ≤ 1) :
    -(((cfg.gridLevels+1).toNat*ticks es : Nat) : Int) ≤ (fillsOn .buy es : Int)-fillsOn .sell es ∧
      (fillsOn .buy es : Int)-fillsOn .sell es ≤ ((cfg.gridLevels+1).toNat*ticks es : Nat) := by
  have buys := runs_orders (table_initial cfg) path .buy
  have sells := runs_orders (table_initial cfg) path .sell
  have filledBuys := fillsOn_le once .buy
  have filledSells := fillsOn_le once .sell
  simp only [opposite] at buys sells
  omega

def rebought : List Callback :=
  [.onLoad,.onTick {mid := above, ids := [1,2]},.onFill (whole 1) {mid := above, ids := [3]},
   .onFill (whole 2) {mid := above},.onTick {mid := above, ids := [4,5]},.onFill (whole 5) {mid := above}]

theorem inventory_bounded_rebought :
    ∃ follows : (play follow (initial pair) rebought).isSome,
      let run := (play follow (initial pair) rebought).get follows
      (-((2*ticks run.1 : Nat) : Int) ≤ (fillsOn .buy run.1 : Int)-fillsOn .sell run.1) ∧
        (fillsOn .buy run.1 : Int)-fillsOn .sell run.1 ≤ (2*ticks run.1 : Nat) :=
  ⟨by decide +kernel,inventory_bounded (play_get follow_sound (by decide +kernel)) (by decide +kernel)⟩

theorem rebought_exceeds :
    ∃ follows : (play follow (initial pair) rebought).isSome,
      let run := (play follow (initial pair) rebought).get follows
      Runs Step (initial pair) run.1 run.2 ∧ (accepted run.1).Nodup ∧ (filled run.1).Nodup ∧
        (∀ oid ∈ filled run.1, oid ∈ accepted run.1) ∧
        ((pair.gridLevels+1).toNat : Int) < (fillsOn .buy run.1 : Int)-fillsOn .sell run.1 := by
  exact ⟨by decide +kernel,play_get follow_sound _,by decide +kernel,by decide +kernel,by decide +kernel,by decide +kernel⟩

end Chronos.GridStrategy
