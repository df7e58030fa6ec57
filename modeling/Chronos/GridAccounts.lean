import Chronos.GridInventory
import Chronos.SlotLedger

namespace Chronos.GridStrategy
open SlotTable

variable {F : Type} [Double F] {n : Nat}

def keys (n : Nat) : List (Key n) := (List.finRange n).flatMap fun i => [(.buy,i),(.sell,i)]

def live (g : Strategy F n) : List OrderId := (keys n).filterMap (table g)

def overwritten (es : List (Event n)) : List OrderId := lost (fun _ => none) ((history es).map Move.change)

def acceptedOnTicks (es : List (Event n)) : List OrderId := accepted (es.filter Event.isTick)

theorem keys_nodup (n : Nat) : (keys n).Nodup := by
  refine List.nodup_flatMap.mpr ⟨fun i _ => by simp,?_⟩
  refine (List.nodup_finRange n).imp fun different => ?_
  simp [Function.onFun,Ne.symm different]

theorem mem_keys (k : Key n) : k ∈ keys n := by
  obtain ⟨side,i⟩ := k
  refine List.mem_flatMap.mpr ⟨i,List.mem_finRange i,?_⟩
  cases side <;> simp

structure Tallied (w w' : Strategy F n × Context n) (moves : List (Move n)) : Prop where
  logged : w'.2.moves = w.2.moves++moves
  ticks : w'.1.ticksProcessed = w.1.ticksProcessed+UInt64.ofNat (moves.filterMap Move.accepted).length
  fills : w'.1.fillsProcessed = w.1.fillsProcessed

section Tally
variable {w w' w'' : Strategy F n × Context n} {moves more : List (Move n)}

theorem Tallied.refl (w : Strategy F n × Context n) : Tallied w w [] := ⟨by simp,by simp,rfl⟩

theorem Tallied.trans (front : Tallied w w' moves) (back : Tallied w' w'' more) : Tallied w w'' (moves++more) := by
  refine ⟨by rw [back.logged,front.logged,List.append_assoc],?_,back.fills.trans front.fills⟩
  rw [back.ticks,front.ticks,List.filterMap_append,List.length_append,UInt64.ofNat_add,UInt64.add_assoc]

theorem tickPlaced_tallied (side : OrderSide) (w : Strategy F n × Context n) (i : Fin n) (price : Decimal) :
    Tallied w (tickPlaced side w i price) [.submit i (orderFor w.1 side price) (w.2.ids.headD 0)] := by
  obtain ⟨ticks,fills⟩ := placeAt_counters side w.1 w.2 i price
  obtain ⟨more,same⟩ := counted_counters (w.2.ids.headD 0) (placeAt side w.1 w.2 i price).2.1
  refine ⟨rfl,?_,same.trans fills⟩
  rw [List.filterMap_cons,Move.accepted,← ticks]
  refine more.trans ?_
  by_cases refused : w.2.ids.headD 0 = 0 <;> simp only [refused,if_true,if_false] <;> rfl

theorem TickSide.tallied {mid : F} {side : OrderSide} {i : Fin n} {st st' : Ticking F n} (taken : TickSide mid side i st st') :
    ∃ moves, Tallied st.world st'.world moves := by
  cases taken with
  | idle => exact ⟨[],.refl _⟩
  | placed opened world =>
    rw [world]
    exact ⟨_,tickPlaced_tallied _ _ _ _⟩

theorem tickLoop_tallied (mid : F) (levels : List (Fin n)) (st : Ticking F n) :
    ∃ moves, Tallied st.world (levels.foldl (fun st i => tickSell mid (tickBuy mid st i) i) st).world moves := by
  induction levels generalizing st with
  | nil => exact ⟨[],.refl _⟩
  | cons i rest ih =>
    obtain ⟨buys,bought⟩ := (tickBuy_side mid st i).tallied
    obtain ⟨sells,sold⟩ := (tickSell_side mid (tickBuy mid st i) i).tallied
    obtain ⟨more,last⟩ := ih (tickSell mid (tickBuy mid st i) i)
    exact ⟨_,(bought.trans sold).trans last⟩

theorem onTick_tallied (g : Strategy F n) (ctx : Context n) : ∃ moves, Tallied (g,ctx) (onTick g ctx) moves := by
  unfold onTick
  split
  · split
    · exact ⟨[],.refl _⟩
    · exact tickLoop_tallied _ _ (⟨g,ctx,0,0⟩ : Ticking F n)
  · exact ⟨[],.refl _⟩

theorem timerSlot_counters (side : OrderSide) (stale : Bool) (w : Strategy F n × Context n) (i : Fin n) :
    (timerSlot side stale w i).1.ticksProcessed = w.1.ticksProcessed ∧
      (timerSlot side stale w i).1.fillsProcessed = w.1.fillsProcessed := by
  simp only [timerSlot]
  split <;> exact ⟨rfl,rfl⟩

theorem timerLoop_counters (mid : F) (levels : List (Fin n)) (w : Strategy F n × Context n) :
    (levels.foldl (timerLevel mid) w).1.ticksProcessed = w.1.ticksProcessed ∧
      (levels.foldl (timerLevel mid) w).1.fillsProcessed = w.1.fillsProcessed := by
  induction levels generalizing w with
  | nil => exact ⟨rfl,rfl⟩
  | cons i rest ih =>
    obtain ⟨ticks,fills⟩ := ih (timerLevel mid w i)
    have buy := timerSlot_counters .buy (Double.less mid (toDouble (w.1.levels i).price)) w i
    have sell := timerSlot_counters .sell (Double.less (toDouble (w.1.levels i).price) mid)
      (timerSlot .buy (Double.less mid (toDouble (w.1.levels i).price)) w i) i
    exact ⟨ticks.trans (sell.1.trans buy.1),fills.trans (sell.2.trans buy.2)⟩

theorem onTimer_counters (g : Strategy F n) (ctx : Context n) :
    (onTimer g ctx).1.ticksProcessed = g.ticksProcessed ∧ (onTimer g ctx).1.fillsProcessed = g.fillsProcessed := by
  unfold onTimer
  split
  · split
    · exact ⟨rfl,rfl⟩
    · exact timerLoop_counters _ _ _
  · exact ⟨rfl,rfl⟩

theorem onFill_counters (g : Strategy F n) (fill : Fill) (ctx : Context n) :
    (onFill g fill ctx).1.ticksProcessed = g.ticksProcessed ∧
      (onFill g fill ctx).1.fillsProcessed =
        g.fillsProcessed+UInt64.ofNat (slotOf fill.orderId g.levels).toList.length := by
  rcases onFill_cases g fill ctx with ⟨absent,same⟩ | ⟨k,found,_,same⟩ | ⟨k,k',found,_,same⟩
  · rw [same,absent]
    exact ⟨rfl,by simp⟩
  · rw [same,found]
    exact ⟨rfl,rfl⟩
  · obtain ⟨ticks,fills⟩ := placeAt_counters k'.1 (cleared g k) (delivered g fill ctx) k'.2 (counterAt (cleared g k) k' ctx.mid)
    rw [same,ticks,fills,found]
    exact ⟨rfl,rfl⟩

end Tally

theorem acceptedOnTicks_tick (answers : Answers) (moves : List (Move n)) :
    acceptedOnTicks [⟨.onTick answers,moves⟩] = moves.filterMap Move.accepted := by
  simp [acceptedOnTicks,accepted,history,List.filter_cons,Event.isTick]

theorem acceptedOnTicks_other {e : Event n} (other : e.isTick = false) : acceptedOnTicks [e] = [] := by
  simp [acceptedOnTicks,accepted,history,other]

theorem step_counters {g g' : Strategy F n} {e : Event n} (step : Step g e g') :
    g'.ticksProcessed = g.ticksProcessed+UInt64.ofNat (acceptedOnTicks [e]).length ∧
      g'.fillsProcessed = g.fillsProcessed+UInt64.ofNat (processed [e]).length := by
  rw [step_processed step]
  obtain ⟨callback,moves⟩ := e
  cases callback with
  | onLoad | onUnload =>
    cases step
    rw [acceptedOnTicks_other rfl]
    exact ⟨by simp [onLoad,onUnload],by simp [onLoad,onUnload,Event.fill]⟩
  | onTick answers =>
    obtain ⟨moves',tallied⟩ := onTick_tallied g ⟨answers,[]⟩
    have logged : (onTick g ⟨answers,[]⟩).2.moves = moves' := tallied.logged
    simp only [Step,deliver,logged,Prod.mk.injEq] at step
    obtain ⟨rfl,rfl⟩ := step
    rw [acceptedOnTicks_tick]
    exact ⟨tallied.ticks,by simpa [Event.fill] using tallied.fills⟩
  | onFill fill answers =>
    obtain ⟨ticks,fills⟩ := onFill_counters g fill ⟨answers,[]⟩
    simp only [Step,deliver,Prod.mk.injEq] at step
    obtain ⟨rfl,rfl⟩ := step
    rw [acceptedOnTicks_other rfl]
    refine ⟨by simpa using ticks,fills.trans ?_⟩
    cases found : slotOf fill.orderId g.levels <;> simp [Event.fill,Option.filter,found]
  | onTimer answers =>
    obtain ⟨ticks,fills⟩ := onTimer_counters g ⟨answers,[]⟩
    simp only [Step,deliver,Prod.mk.injEq] at step
    obtain ⟨rfl,rfl⟩ := step
    rw [acceptedOnTicks_other rfl]
    exact ⟨by simpa using ticks,by simpa [Event.fill] using fills⟩

theorem runs_counters {g g' : Strategy F n} {es : List (Event n)} (path : Runs Step g es g') :
    g'.ticksProcessed = g.ticksProcessed+UInt64.ofNat (acceptedOnTicks es).length ∧
      g'.fillsProcessed = g.fillsProcessed+UInt64.ofNat (processed es).length := by
  induction path with
  | nil => simp [acceptedOnTicks,accepted,processed,history]
  | @step es g' e g'' prior taken ih =>
    obtain ⟨ticks,fills⟩ := step_counters taken
    have onTicks : acceptedOnTicks (es++[e]) = acceptedOnTicks es++acceptedOnTicks [e] := by
      simp [acceptedOnTicks,accepted,history]
    have matched : processed (es++[e]) = processed es++processed [e] := by simp [processed,history]
    rw [ticks,fills,ih.1,ih.2,onTicks,matched,List.length_append,List.length_append,UInt64.ofNat_add,UInt64.ofNat_add,
      UInt64.add_assoc,UInt64.add_assoc]
    exact ⟨rfl,rfl⟩

theorem taken_perm (moves : List (Move n)) :
    (taken (moves.map Move.change)).Perm (moves.filterMap Move.processed++moves.filterMap Move.cancelled) := by
  induction moves with
  | nil => rfl
  | cons m moves ih =>
    simp only [taken,List.map_cons,List.filterMap_cons] at ih ⊢
    cases m with
    | submit i order answer =>
      by_cases refused : answer = 0 <;> simp only [Move.change,refused,if_true,if_false,Change.taken] <;> exact ih
    | cancel side i oid queued => exact (ih.cons oid).trans List.perm_middle.symm
    | filled fill slot =>
      cases slot with
      | none => exact ih
      | some k => exact ih.cons fill.orderId

-- A callback writes over nothing exactly when it meets the condition.
theorem step_lost {g g' : Strategy F n} {e : Event n} (step : Step g e g') :
    lost (table g) (e.moves.map Move.change) = [] ↔ SlotFree g e := by
  refine ⟨fun nothing => ?_,fun free => lost_careful (step_careful step free)⟩
  cases step_explained step with
  | load | unload | tick | timer => exact trivial
  | fill counter =>
    rename_i fill moves answers _ _ _ _
    intro k next answered
    unfold counterMoves at counter
    rw [next] at counter
    obtain ⟨price,rfl⟩ := counter
    obtain ⟨held,found,near⟩ := Option.bind_eq_some_iff.mp next
    have other : k ≠ held := fun same => neighbour_side near (by rw [same])
    simp only [List.map_cons,List.map_nil,found,Move.change,if_neg answered,lost,Change.lost,Change.apply,orderFor,
      Option.toList_none,List.nil_append,List.append_nil,Option.toList_eq_nil_iff] at nothing
    rw [Function.update_of_ne other] at nothing
    exact table_eq_none.mp nothing

theorem runs_lost {g g' : Strategy F n} {es : List (Event n)} (path : Runs Step g es g') :
    lost (table g) ((history es).map Move.change) = [] ↔ Runs CarefulStep g es g' := by
  induction path with
  | nil => exact ⟨fun _ => .nil,fun _ => rfl⟩
  | step prior taken ih =>
    rw [history_snoc,List.map_append,lost_append,apply_runs (runs_table prior),List.append_eq_nil_iff,ih,step_lost taken]
    constructor
    · rintro ⟨careful,free⟩
      exact careful.step ⟨taken,free⟩
    · intro path
      obtain ⟨middle,careful,last⟩ := path.snoc_inv
      obtain rfl := prior.deterministic step_functional (careful_steps careful)
      exact ⟨careful,last.2⟩

theorem accepted_perm {g₀ g : Strategy F n} {es : List (Event n)} (start : table g₀ = fun _ => none) (path : Runs Step g₀ es g) :
    (accepted es).Perm (live g++processed es++cancelled es++overwritten es) := by
  have balanced := balance (keys_nodup _) mem_keys (start ▸ runs_table path)
  rw [accepted_entered] at balanced
  have left := (taken_perm (history es)).append_right (overwritten es)
  calc List.Perm (accepted es) (live g++(taken ((history es).map Move.change)++overwritten es)) := balanced
    List.Perm _ (live g++((processed es++cancelled es)++overwritten es)) := left.append_left _
    _ = live g++processed es++cancelled es++overwritten es := by simp only [List.append_assoc]

structure OrdersAccounted (g₀ : Strategy F n) (es : List (Event n)) (g : Strategy F n) : Prop where
  orders : (accepted es).Perm (live g++processed es++cancelled es++overwritten es)
  lossless : overwritten es = [] ↔ Runs CarefulStep g₀ es g
  ticks : g.ticksProcessed = UInt64.ofNat (acceptedOnTicks es).length
  fills : g.fillsProcessed = UInt64.ofNat (processed es).length

-- Every accepted order is in a slot, was matched by a fill, was cancelled, or lost
-- its slot to a counter-order, and the counters count what they say.
theorem orders_accounted {F : Type} [Double F] {cfg : Config F} {es : List (Event (cfg.gridLevels+1).toNat)}
    {g : Strategy F (cfg.gridLevels+1).toNat} (path : Runs Step (initial cfg) es g) :
    OrdersAccounted (initial cfg) es g := by
  have careful := runs_lost path
  rw [table_initial] at careful
  obtain ⟨ticks,fills⟩ := runs_counters path
  exact ⟨accepted_perm (table_initial cfg) path,careful,by simpa [initial] using ticks,by simpa [initial] using fills⟩

theorem orders_accounted_crowdedAbove :
    ∃ follows : (play follow (initial pair) crowdedAbove).isSome,
      let run := (play follow (initial pair) crowdedAbove).get follows
      OrdersAccounted (initial pair) run.1 run.2 ∧ live run.2 = [3] ∧ processed run.1 = [1] ∧ overwritten run.1 = [2] :=
  ⟨by decide +kernel,orders_accounted (play_get follow_sound _),by decide +kernel,by decide +kernel,by decide +kernel⟩

end Chronos.GridStrategy
