import Chronos.GridTrace

namespace Chronos.GridStrategy
open SlotTable

variable {F : Type} [Double F] {n : Nat}

def Move.accepted : Move n → Option OrderId
  | .submit _ _ answer => if answer = 0 then none else some answer
  | _ => none

def Move.cancelled : Move n → Option OrderId
  | .cancel _ _ oid _ => some oid
  | _ => none

def Move.processed : Move n → Option OrderId
  | .filled fill (some _) => some fill.orderId
  | _ => none

def Event.fill : Event n → Option Fill
  | ⟨.onFill fill _,_⟩ => some fill
  | _ => none

def Event.filled : Event n → Option OrderId
  | ⟨.onFill fill _,_⟩ => some fill.orderId
  | _ => none

def accepted (es : List (Event n)) : List OrderId := (history es).filterMap Move.accepted
def cancelled (es : List (Event n)) : List OrderId := (history es).filterMap Move.cancelled
def filled (es : List (Event n)) : List OrderId := es.filterMap Event.filled
def processed (es : List (Event n)) : List OrderId := (history es).filterMap Move.processed

theorem processed_nil {moves : List (Move n)} (none : ∀ m ∈ moves, ∀ fill k, m ≠ .filled fill (some k)) :
    moves.filterMap Move.processed = [] := by
  refine List.filterMap_eq_nil_iff.mpr fun m member => ?_
  cases m with
  | submit | cancel => rfl
  | filled fill slot =>
    cases slot with
    | none => rfl
    | some k => exact absurd rfl (none _ member fill k)

theorem processed_one (e : Event n) : processed [e] = e.moves.filterMap Move.processed := by
  simp [processed,history]

theorem filled_one (e : Event n) : filled [e] = (e.fill.map Fill.orderId).toList := by
  obtain ⟨callback,moves⟩ := e
  cases callback <;> rfl

theorem step_processed {g g' : Strategy F n} {e : Event n} (step : Step g e g') : processed [e] =
    ((e.fill.filter fun fill => (slotOf fill.orderId g.levels).isSome).map Fill.orderId).toList := by
  rw [processed_one]
  cases step_explained step with
  | load | unload => rfl
  | tick ticked =>
    refine processed_nil fun m member fill k equal => ?_
    obtain ⟨_,_,_,_,order⟩ := ticked.orders m member
    cases order.symm.trans equal
  | timer expired =>
    refine processed_nil fun m member fill k equal => ?_
    obtain ⟨_,_,_,_,cancel⟩ := expired.cancels m member
    cases cancel.symm.trans equal
  | fill counter =>
    rename_i fill moves _ _ _ _ _
    have none : moves.filterMap Move.processed = [] := processed_nil fun m member fill' k equal => by
      obtain ⟨_,_,_,order⟩ := counterMoves_mem counter member
      cases order.symm.trans equal
    rw [List.filterMap_cons,none]
    cases found : slotOf fill.orderId g.levels <;> simp [Move.processed,Event.fill,Option.filter,found]

theorem accepted_change (m : Move n) : m.change.entered.map (·.2) = m.accepted := by
  cases m with
  | submit i order answer =>
    by_cases refused : answer = 0 <;> simp [Move.change,Move.accepted,refused,Change.entered]
  | cancel => rfl
  | filled fill k => cases k <;> rfl

theorem accepted_entered (moves : List (Move n)) :
    (entered (moves.map Move.change)).map (·.2) = moves.filterMap Move.accepted := by
  simp only [entered,List.filterMap_map,List.map_filterMap]
  exact List.filterMap_congr fun m _ => accepted_change m

theorem entered_accepted {moves : List (Move n)} (member : oid ∈ moves.filterMap Move.accepted) :
    ∃ k, (k,oid) ∈ entered (moves.map Move.change) := by
  rw [← accepted_entered] at member
  obtain ⟨⟨k,_⟩,present,rfl⟩ := List.mem_map.mp member
  exact ⟨k,present⟩

-- Entries leave the table for a fill or a cancellation, and for nothing else.
theorem step_shut {g g' : Strategy F n} {e : Event n} (step : Step g e g')
    (closed : oid ∈ shut (e.moves.map Move.change)) : oid ∈ filled [e] ∨ oid ∈ e.moves.filterMap Move.cancelled := by
  simp only [shut,List.filterMap_map,List.mem_filterMap,Function.comp_apply] at closed ⊢
  obtain ⟨m,member,shuts⟩ := closed
  cases step_explained step with
  | load | unload => cases member
  | tick ticked =>
    obtain ⟨i,side,price,answer,rfl⟩ := ticked.orders m member
    simp only [Move.change] at shuts
    split at shuts <;> cases shuts
  | timer expired =>
    obtain ⟨side,i,oid',queued,rfl⟩ := expired.cancels m member
    exact .inr ⟨_,member,shuts⟩
  | fill counter =>
    rename_i fill moves _ _ _ _ _
    rcases List.mem_cons.mp member with rfl | later
    · left
      cases found : slotOf fill.orderId g.levels <;> simp only [found,Move.change,Change.shut,Option.some.injEq] at shuts <;>
        simp [filled,Event.filled,shuts]
    · obtain ⟨_,_,_,rfl⟩ := counterMoves_mem counter later
      simp only [Move.change] at shuts
      split at shuts <;> cases shuts

theorem runs_shut {g g' : Strategy F n} {es : List (Event n)} (path : Runs Step g es g')
    (closed : oid ∈ shut ((history es).map Move.change)) : oid ∈ filled es ∨ oid ∈ cancelled es := by
  induction path with
  | nil => simp [history,shut] at closed
  | step _ taken ih =>
    simp only [history_snoc,List.map_append,shut,List.filterMap_append,List.mem_append] at closed
    simp only [filled,cancelled,history_snoc,List.filterMap_append,List.mem_append] at ih ⊢
    rcases closed with old | new
    · exact (ih old).imp .inl .inl
    · exact (step_shut taken new).imp .inr .inr

theorem fresh_entered {es : List (Event n)} (fresh : (accepted es).Nodup) :
    Fresh ((history es).map Move.change) := by rwa [Fresh,accepted_entered]

theorem fresh_front {es more : List (Event n)} (fresh : (accepted (es++more)).Nodup) : (accepted es).Nodup := by
  simp only [accepted,history,List.flatMap_append,List.filterMap_append] at fresh ⊢
  exact (List.nodup_append.mp fresh).1

theorem taken_change (m : Move n) : m.change.taken = (m.cancelled.or m.processed) := by
  cases m with
  | submit i order answer => by_cases refused : answer = 0 <;> simp [Move.change,refused,Change.taken,Move.cancelled,Move.processed]
  | cancel => rfl
  | filled fill k => cases k <;> rfl

theorem left_slots {cfg : Config F} {es : List (Event (cfg.gridLevels+1).toNat)} {g : Strategy F (cfg.gridLevels+1).toNat}
    (path : Runs Step (initial cfg) es g) (fresh : (accepted es).Nodup) (left : oid ∈ cancelled es ∨ oid ∈ processed es) :
    slotOf oid g.levels = none := by
  have slots := runs_table path
  rw [table_initial] at slots
  have gone : oid ∈ taken ((history es).map Move.change) := by
    simp only [taken,List.filterMap_map,List.mem_filterMap,Function.comp_apply,taken_change]
    rcases left with asked | done
    · obtain ⟨m,member,cancels⟩ := List.mem_filterMap.mp asked
      exact ⟨m,member,by rw [cancels]; rfl⟩
    · obtain ⟨m,member,processes⟩ := List.mem_filterMap.mp done
      refine ⟨m,member,?_⟩
      cases m with
      | submit | cancel => cases processes
      | filled => exact processes
  cases found : slotOf oid g.levels with
  | none => rfl
  | some k => exact absurd (slotOf_some found) (taken_absent slots (fresh_entered fresh) gone k)

theorem deliver_unknown {g : Strategy F n} {fill : Fill} (unknown : slotOf fill.orderId g.levels = none) (answers : Answers) :
    deliver g (.onFill fill answers) = (g,[.filled fill none]) := by
  simp only [deliver,onFill,unknown]
  rfl

structure OrdersTracked (es : List (Event n)) (g : Strategy F n) : Prop where
  once : ∀ oid ∈ accepted es, oid ∉ filled es → oid ∉ cancelled es →
    ∃! k : Key n, (g.levels k.2).slot k.1 = oid
  kept : ∀ e g', CarefulStep g e g' → ∀ k : Key n, (g.levels k.2).slot k.1 ≠ 0 →
    (g.levels k.2).slot k.1 ∉ filled [e] → (g.levels k.2).slot k.1 ∉ cancelled [e] →
    (g'.levels k.2).slot k.1 = (g.levels k.2).slot k.1

theorem accepted_real {es : List (Event n)} (member : oid ∈ accepted es) : oid ≠ 0 := by
  obtain ⟨m,_,answered⟩ := List.mem_filterMap.mp member
  cases m <;> simp only [Move.accepted,reduceCtorEq] at answered
  split at answered
  · cases answered
  · rename_i real
    rwa [← Option.some.inj answered]

theorem careful_steps {g g' : Strategy F n} {es : List (Event n)} (path : Runs CarefulStep g es g') :
    Runs Step g es g' := by
  induction path with
  | nil => exact .nil
  | step _ taken ih => exact ih.step taken.1

theorem orders_tracked {F : Type} [Double F] {cfg : Config F} {es : List (Event (cfg.gridLevels+1).toNat)}
    {g : Strategy F (cfg.gridLevels+1).toNat} (path : Runs CarefulStep (initial cfg) es g)
    (fresh : (accepted es).Nodup) : OrdersTracked es g := by
  have slots := runs_careful path
  rw [table_initial] at slots
  refine ⟨fun oid member unfilled uncancelled => ?_,fun e g' step k held unfilled uncancelled => ?_⟩
  · have live : Live ((history es).map Move.change) oid :=
      ⟨entered_accepted member,fun closed => (runs_shut (careful_steps path) closed).elim unfilled uncancelled⟩
    obtain ⟨k,here,only⟩ := live_once slots (by rwa [Fresh,accepted_entered]) live
    exact ⟨k,(table_eq_some.mp here).2,fun l other => only l (table_eq_some.mpr ⟨accepted_real member,other⟩)⟩
  · have moved := step_careful step.1 step.2
    rcases held_until moved (table_eq_some.mpr ⟨held,rfl⟩) with same | closed
    · exact (table_eq_some.mp same).2
    · rcases step_shut step.1 closed with gone | gone
      · exact absurd gone unfilled
      · exact absurd gone (by simpa [cancelled,history] using uncancelled)

def pair : Config Rat := {gridLevels := 1}
def hundred : Option Decimal := some ⟨100*2^32,by decide,by decide⟩
def above : Option Decimal := some ⟨120*2^32,by decide,by decide⟩
def fillOf (oid : OrderId) (quantity : Decimal) : Fill :=
  {orderId := oid, fillPrice := ⟨100*2^32,by decide,by decide⟩, fillQuantity := quantity}
def whole (oid : OrderId) : Fill := fillOf oid (toDecimal pair.quantity)

-- The sell at 110 is refused, so the counter-order of the buy finds its slot empty.
def roomAbove : List Callback :=
  [.onLoad,.onTick {mid := hundred, ids := [1]},.onFill (whole 1) {mid := hundred, ids := [2]}]

theorem orders_tracked_roomAbove :
    ∃ follows : (play followCarefully (initial pair) roomAbove).isSome,
      OrdersTracked ((play followCarefully (initial pair) roomAbove).get follows).1
        ((play followCarefully (initial pair) roomAbove).get follows).2 :=
  ⟨by decide +kernel,orders_tracked (play_get followCarefully_sound (by decide +kernel)) (by decide +kernel)⟩

-- The sell at 110 is accepted as order 2, and is forgotten when order 1 fills.
def crowdedAbove : List Callback :=
  [.onLoad,.onTick {mid := hundred, ids := [1,2]},.onFill (whole 1) {mid := hundred, ids := [3]}]

theorem crowdedAbove_forgets :
    ∃ follows : (play follow (initial pair) crowdedAbove).isSome,
      let run := (play follow (initial pair) crowdedAbove).get follows
      Runs Step (initial pair) run.1 run.2 ∧ (accepted run.1).Nodup ∧ (∀ oid ∈ filled run.1, oid ∈ accepted run.1) ∧
        2 ∈ accepted run.1 ∧ 2 ∉ filled run.1 ∧ 2 ∉ cancelled run.1 ∧
        ¬ ∃! k : Key (pair.gridLevels+1).toNat, (run.2.levels k.2).slot k.1 = 2 := by
  refine ⟨by decide +kernel,play_get follow_sound _,by decide +kernel,by decide +kernel,by decide +kernel,
    by decide +kernel,by decide +kernel,?_⟩
  rintro ⟨⟨side,i⟩,here,-⟩
  revert i
  cases side <;> decide +kernel

end Chronos.GridStrategy
