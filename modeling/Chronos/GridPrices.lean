import Chronos.GridLedger

namespace Chronos.GridStrategy

variable {F : Type} [Double F] {n : Nat}

def Event.mid (e : Event n) : Option Decimal :=
  match e.callback with
  | .onTick answers | .onFill _ answers | .onTimer answers => answers.mid
  | _ => none

def requests (side : OrderSide) (moves : List (Move n)) : List OrderRequest := (submits side moves).map (·.1)

def openings (g : Strategy F n) (mid : F) (side : OrderSide) : Nat := (List.finRange n).countP (opens g mid side)

def tickOrder (g : Strategy F n) (mid : F) (side : OrderSide) (offset : Int) : OrderRequest :=
  orderFor g side (toDecimal (aggressive mid offset side))

theorem mem_requests {side : OrderSide} {moves : List (Move n)} :
    order ∈ requests side moves ↔ order.side = side ∧ ∃ i answer, .submit i order answer ∈ moves := by
  simp only [requests,List.mem_map]
  constructor
  · rintro ⟨⟨_,answer⟩,member,rfl⟩
    obtain ⟨same,i,placed⟩ := mem_submits.mp member
    exact ⟨same,i,answer,placed⟩
  · rintro ⟨same,i,answer,placed⟩
    exact ⟨(order,answer),mem_submits.mpr ⟨same,i,placed⟩,rfl⟩

theorem requests_placeAt (side s : OrderSide) (g : Strategy F n) (ctx : Context n) (i : Fin n) (price : Decimal) :
    requests s (placeAt side g ctx i price).2.2.moves =
      requests s ctx.moves++if s = side then [orderFor g side price] else [] := by
  by_cases same : s = side
  · subst s
    simp [placeAt,Context.submitOrder,requests,submits,Move.submits,orderFor]
  · simp [placeAt,Context.submitOrder,requests,submits,Move.submits,orderFor,same,Ne.symm same]

structure Opened (mid : F) (side : OrderSide) (i : Fin n) (st st' : Ticking F n) : Prop where
  steady : Steady st.strategy st'.strategy
  slots : ∀ s j, ¬ (s = side ∧ j = i) → (st'.strategy.levels j).slot s = (st.strategy.levels j).slot s
  offsets : ∀ s, st'.offset s = st.offset s+if s = side ∧ opens st.strategy mid side i then 1 else 0
  orders : ∀ s, requests s st'.ctx.moves = requests s st.ctx.moves++
    if s = side ∧ opens st.strategy mid side i then [tickOrder st.strategy mid side (st.offset side)] else []

theorem placeAt_slot (side s : OrderSide) (g : Strategy F n) (ctx : Context n) (i j : Fin n) (price : Decimal) :
    ((placeAt side g ctx i price).2.1.levels j).slot s =
      if (s = side ∧ j = i) ∧ ctx.ids.headD 0 ≠ 0 then ctx.ids.headD 0 else (g.levels j).slot s := by
  simp only [placeAt,Context.submitOrder]
  by_cases refused : ctx.ids.headD 0 = 0
  · simp only [refused,ne_eq,not_true_eq_false,if_false,and_false]
  · simp only [refused,ne_eq,not_false_eq_true,if_true,and_true,setSlot_slot]

theorem placeAt_slots (side s : OrderSide) (g : Strategy F n) (ctx : Context n) (i j : Fin n) (price : Decimal)
    (other : ¬ (s = side ∧ j = i)) : ((placeAt side g ctx i price).2.1.levels j).slot s = (g.levels j).slot s := by
  rw [placeAt_slot,if_neg fun both => other both.1]

theorem counted_levels (oid : OrderId) (g : Strategy F n) : (counted oid g).levels = g.levels := by
  unfold counted
  split <;> rfl

theorem TickSide.opened {mid : F} {side : OrderSide} {i : Fin n} {st st' : Ticking F n} (taken : TickSide mid side i st st') :
    Opened mid side i st st' := by
  cases taken with
  | idle closed => exact ⟨.refl _,fun _ _ _ => rfl,by simp [closed],by simp [closed]⟩
  | placed opened world offsets =>
    obtain ⟨strategy,ctx⟩ := Prod.mk.inj world
    refine ⟨?_,fun s j other => ?_,by simpa [opened] using offsets,fun s => ?_⟩
    · rw [strategy]
      exact (placeAt_steady side st.strategy st.ctx i _).trans (counted_steady _ _)
    · rw [strategy,counted_levels]
      exact placeAt_slots side s st.strategy st.ctx i j _ other
    · rw [ctx]
      simp only [opened,and_true]
      exact requests_placeAt side s st.strategy st.ctx i _

theorem opens_congr {g g' : Strategy F n} (steady : Steady g g') (mid : F) {side : OrderSide} {i : Fin n}
    (slot : (g'.levels i).slot side = (g.levels i).slot side) : opens g' mid side i = opens g mid side i := by
  simp only [opens,steady.2.2 i,slot]

theorem tickOrder_congr {g g' : Strategy F n} (steady : Steady g g') (mid : F) (side : OrderSide) (offset : Int) :
    tickOrder g' mid side offset = tickOrder g mid side offset := orderFor_steady steady side _

structure Turned (mid : F) (i : Fin n) (st st' : Ticking F n) : Prop where
  steady : Steady st.strategy st'.strategy
  slots : ∀ s j, j ≠ i → (st'.strategy.levels j).slot s = (st.strategy.levels j).slot s
  offsets : ∀ s, st'.offset s = st.offset s+if opens st.strategy mid s i then 1 else 0
  orders : ∀ s, requests s st'.ctx.moves = requests s st.ctx.moves++
    if opens st.strategy mid s i then [tickOrder st.strategy mid s (st.offset s)] else []

theorem tickLevel_turned (mid : F) (st : Ticking F n) (i : Fin n) :
    Turned mid i st (tickSell mid (tickBuy mid st i) i) := by
  have bought := (tickBuy_side mid st i).opened
  have sold := (tickSell_side mid (tickBuy mid st i) i).opened
  have same : opens (tickBuy mid st i).strategy mid .sell i = opens st.strategy mid .sell i :=
    opens_congr bought.steady mid (bought.slots .sell i (by simp))
  refine ⟨bought.steady.trans sold.steady,fun s j other => ?_,fun s => ?_,fun s => ?_⟩
  · rw [sold.slots s j (fun both => other both.2),bought.slots s j (fun both => other both.2)]
  · rw [sold.offsets,bought.offsets,same]
    cases s <;> simp
  · rw [sold.orders,bought.orders,same,tickOrder_congr bought.steady,bought.offsets]
    cases s <;> simp

theorem tickLoop_orders (mid : F) (side : OrderSide) (levels : List (Fin n)) (distinct : levels.Nodup) (st : Ticking F n) :
    requests side (levels.foldl (fun st i => tickSell mid (tickBuy mid st i) i) st).ctx.moves =
      requests side st.ctx.moves++(List.range (levels.countP (opens st.strategy mid side))).map
        fun k : Nat => tickOrder st.strategy mid side (st.offset side+k) := by
  induction levels generalizing st with
  | nil => simp
  | cons i rest ih =>
    obtain ⟨absent,distinct⟩ := List.nodup_cons.mp distinct
    have turned := tickLevel_turned mid st i
    have same : rest.countP (opens (tickSell mid (tickBuy mid st i) i).strategy mid side) =
        rest.countP (opens st.strategy mid side) := by
      refine List.countP_congr fun j later => ?_
      rw [opens_congr turned.steady mid (turned.slots side j (fun here => absent (here ▸ later)))]
    rw [List.foldl_cons,ih distinct,turned.orders,turned.offsets,same,List.append_assoc]
    congr 1
    simp only [tickOrder_congr turned.steady]
    by_cases opened : opens st.strategy mid side i = true
    · rw [List.countP_cons_of_pos opened,List.range_succ_eq_map]
      simp [opened,Function.comp_def,Int.add_assoc,Int.add_comm 1]
    · rw [List.countP_cons_of_neg opened]
      simp [opened]

theorem onTick_requests {g : Strategy F n} (on : g.initialized = true) {answers : Answers} (known : answers.mid = some mid)
    (side : OrderSide) : requests side (onTick g ⟨answers,[]⟩).2.moves =
      (List.range (openings g (toDouble mid) side)).map fun k : Nat => tickOrder g (toDouble mid) side k := by
  have loop := tickLoop_orders (toDouble mid) side (List.finRange n) (List.nodup_finRange n) ⟨g,⟨answers,[]⟩,0,0⟩
  simp only [onTick,on,known,if_true]
  cases side <;> simpa [requests,submits,Ticking.offset,openings] using loop

theorem onTick_quiet {g : Strategy F n} {answers : Answers} (idle : g.initialized = false ∨ answers.mid = none) :
    onTick g ⟨answers,[]⟩ = (g,⟨answers,[]⟩) := by
  unfold onTick
  rcases idle with off | unknown
  · simp [off]
  · simp [unknown]

theorem onFill_requests (g : Strategy F n) (fill : Fill) (answers : Answers) (side : OrderSide) :
    requests side (onFill g fill ⟨answers,[]⟩).2.moves = match counterSlot g fill with
      | some k => if side = k.1 then [orderFor g k.1 (counterAt g k answers.mid)] else []
      | none => [] := by
  have nothing : requests side (delivered g fill ⟨answers,[]⟩).moves = [] := by simp [delivered,requests,submits,Move.submits]
  rcases onFill_cases g fill ⟨answers,[]⟩ with ⟨absent,same⟩ | ⟨k,found,top,same⟩ | ⟨k,k',found,next,same⟩
  · rw [same,nothing]
    simp [counterSlot,absent]
  · rw [same,nothing]
    simp [counterSlot,found,top]
  · have price : counterAt (cleared g k) k' answers.mid = counterAt g k' answers.mid := by
      simp only [counterAt,(cleared_steady g k).2.2]
    rw [same,requests_placeAt,nothing,price,orderFor_steady (cleared_steady g k)]
    simp [counterSlot,found,next]

theorem openings_le (g : Strategy F n) (mid : F) (side : OrderSide) : openings g mid side ≤ n :=
  List.countP_le_length.trans_eq (List.length_finRange)

theorem step_prices {g g' : Strategy F n} {e : Event n} (step : Step g e g') (i : Fin n) :
    (g'.levels i).price = (g.levels i).price := by
  cases step_explained step with
  | load | unload => rfl
  | tick ticked => exact ticked.steady.2.2 i
  | fill _ steady => exact steady.2.2 i
  | timer expired => exact expired.steady.2.2 i

theorem runs_prices {g g' : Strategy F n} {es : List (Event n)} (path : Runs Step g es g') (i : Fin n) :
    (g'.levels i).price = (g.levels i).price := by
  induction path with
  | nil => rfl
  | step _ taken ih => exact (step_prices taken i).trans ih

-- The price an order is asked for, before it is rounded to a tick.
inductive Priced (g : Strategy F n) : Callback → OrderSide → F → Prop where
  | tick (on : g.initialized = true) (known : answers.mid = some mid) (k : Nat)
      (room : k < openings g (toDouble mid) side) : Priced g (.onTick answers) side (aggressive (toDouble mid) k side)
  | counter (next : counterSlot g fill = some (side,i)) :
      Priced g (.onFill fill answers) side (counterPrice side (toDouble (g.levels i).price) (midVal answers.mid))

theorem onTick_priced (g : Strategy F n) (answers : Answers) {side : OrderSide} {order : OrderRequest} :
    order ∈ requests side (onTick g ⟨answers,[]⟩).2.moves ↔
      ∃ x, Priced g (.onTick answers) side x ∧ order = orderFor g side (toDecimal x) := by
  by_cases idle : g.initialized = false ∨ answers.mid = none
  · rw [onTick_quiet idle]
    constructor
    · intro member; cases member
    · rintro ⟨_,priced,_⟩
      cases priced with
      | tick on known => simp [on,known] at idle
  · obtain ⟨on,known⟩ := not_or.mp idle
    obtain ⟨mid,known⟩ := Option.ne_none_iff_exists'.mp known
    rw [onTick_requests (by simpa using on) known,List.mem_map]
    constructor
    · rintro ⟨k,room,rfl⟩
      exact ⟨_,.tick (by simpa using on) known k (List.mem_range.mp room),rfl⟩
    · rintro ⟨_,priced,rfl⟩
      cases priced with
      | tick _ known' k room =>
        cases known.symm.trans known'
        exact ⟨k,List.mem_range.mpr room,rfl⟩

theorem onFill_priced (g : Strategy F n) (fill : Fill) (answers : Answers) {side : OrderSide} {order : OrderRequest} :
    order ∈ requests side (onFill g fill ⟨answers,[]⟩).2.moves ↔
      ∃ x, Priced g (.onFill fill answers) side x ∧ order = orderFor g side (toDecimal x) := by
  rw [onFill_requests]
  constructor
  · intro member
    cases next : counterSlot g fill with
    | none => simp [next] at member
    | some k =>
      simp only [next] at member
      split at member
      · rename_i same
        subst same
        exact ⟨_,.counter next,List.mem_singleton.mp member⟩
      · cases member
  · rintro ⟨_,priced,rfl⟩
    cases priced with
    | counter next => simp [next,counterAt]

theorem step_priced {g g' : Strategy F n} {e : Event n} (step : Step g e g') {side : OrderSide} {order : OrderRequest} :
    order ∈ requests side e.moves ↔ ∃ x, Priced g e.callback side x ∧ order = orderFor g side (toDecimal x) := by
  obtain ⟨callback,moves⟩ := e
  cases callback with
  | onLoad | onUnload =>
    cases step
    constructor
    · intro member; cases member
    · rintro ⟨_,⟨⟩,_⟩
  | onTick answers =>
    cases step
    exact onTick_priced g answers
  | onFill fill answers =>
    cases step
    exact onFill_priced g fill answers
  | onTimer answers =>
    cases step_explained step with
    | timer expired =>
      constructor
      · intro member
        obtain ⟨_,i,answer,placed⟩ := mem_requests.mp member
        obtain ⟨_,_,_,_,cancel⟩ := expired.cancels _ placed
        cases cancel
      · rintro ⟨_,⟨⟩,_⟩

theorem step_filled {g g' : Strategy F n} {e : Event n} (step : Step g e g') (found : .filled fill (some k) ∈ e.moves) :
    ∃ answers, e.callback = .onFill fill answers ∧ slotOf fill.orderId g.levels = some k := by
  cases step_explained step with
  | load | unload => cases found
  | tick ticked =>
    obtain ⟨_,_,_,_,placed⟩ := ticked.orders _ found
    cases placed
  | timer expired =>
    obtain ⟨_,_,_,_,cancel⟩ := expired.cancels _ found
    cases cancel
  | fill counter =>
    rcases List.mem_cons.mp found with here | later
    · obtain ⟨rfl,slot⟩ := Move.filled.inj here
      exact ⟨_,rfl,slot.symm⟩
    · obtain ⟨_,_,_,placed⟩ := counterMoves_mem counter later
      cases placed

theorem step_delivers {g g' : Strategy F n} {e : Event n} (step : Step g e g') (fills : e.callback = .onFill fill answers) :
    .filled fill (slotOf fill.orderId g.levels) ∈ e.moves := by
  cases step_explained step with
  | load | unload | tick | timer => cases fills
  | fill => cases fills; exact List.mem_cons_self

theorem runs_priced {g₀ g : Strategy F n} {es : List (Event n)} (path : Runs Step g₀ es g)
    (placed : .submit i order answer ∈ history es) : ∃ earlier e later before x, es = earlier++e::later ∧
      Runs Step g₀ earlier before ∧ Priced before e.callback order.side x ∧ order = orderFor before order.side (toDecimal x) := by
  obtain ⟨e,member,sent⟩ := List.mem_flatMap.mp placed
  obtain ⟨earlier,later,rfl⟩ := List.append_of_mem member
  obtain ⟨before,after,front,step,_⟩ := path.split_at
  obtain ⟨x,priced,shape⟩ := (step_priced step).mp (mem_requests.mpr ⟨rfl,i,answer,sent⟩)
  exact ⟨earlier,e,later,before,x,rfl,front,priced,shape⟩

theorem runs_requests {g₀ g before : Strategy F n} {earlier later : List (Event n)} {e : Event n}
    (path : Runs Step g₀ (earlier++e::later) g) (front : Runs Step g₀ earlier before)
    (priced : Priced before e.callback side x) :
    ∃ i answer, .submit i (orderFor before side (toDecimal x)) answer ∈ e.moves := by
  obtain ⟨after,step⟩ := path.step_at step_functional front
  exact (mem_requests.mp ((step_priced step).mpr ⟨x,priced,rfl⟩)).2

end Chronos.GridStrategy
