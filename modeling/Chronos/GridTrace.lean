import Chronos.GridStrategy

namespace Chronos.GridStrategy
open SlotTable

variable {F : Type} [Double F] {n : Nat}

abbrev Key (n : Nat) := OrderSide × Fin n

-- The slots as a table of ids: 0 is an empty slot.
def table (g : Strategy F n) : Key n → Option OrderId := fun k =>
  if (g.levels k.2).slot k.1 = 0 then none else some ((g.levels k.2).slot k.1)

def Move.change : Move n → Change (Key n) OrderId
  | .submit i order answer => if answer = 0 then .pass else .put (order.side,i) answer
  | .cancel side i oid _ => .take (side,i) oid
  | .filled fill (some k) => .take k fill.orderId
  | .filled fill none => .miss fill.orderId

theorem pred_lt (i : Fin n) : i.val-1 < n := Nat.lt_of_le_of_lt (Nat.sub_le _ _) i.isLt

def neighbour : Key n → Option (Key n)
  | (.buy,i) => if up : i.val+1 < n then some (.sell,⟨i+1,up⟩) else none
  | (.sell,i) => if 0 < i.val then some (.buy,⟨i-1,pred_lt i⟩) else none

@[simp] theorem slot_setSlot_self (l : GridLevel) (oid : OrderId) (side : OrderSide) :
    (l.setSlot oid side).slot side = oid := by cases side <;> rfl

theorem slot_setSlot_other (l : GridLevel) (oid : OrderId) {side other : OrderSide} (different : other ≠ side) :
    (l.setSlot oid side).slot other = l.slot other := by
  cases side <;> cases other <;> first | rfl | exact absurd rfl different

@[simp] theorem setSlot_price (l : GridLevel) (oid : OrderId) (side : OrderSide) :
    (l.setSlot oid side).price = l.price := by cases side <;> rfl

theorem setSlot_slot (g : Strategy F n) (side s : OrderSide) (i j : Fin n) (oid : OrderId) :
    ((g.setSlot side i oid).levels j).slot s = if s = side ∧ j = i then oid else (g.levels j).slot s := by
  by_cases level : j = i
  · subst j
    by_cases same : s = side
    · subst s; simp [Strategy.setSlot]
    · simp [Strategy.setSlot,slot_setSlot_other _ _ same,same]
  · simp [Strategy.setSlot,level]

@[simp] theorem setSlot_cfg (g : Strategy F n) (side : OrderSide) (i : Fin n) (oid : OrderId) :
    (g.setSlot side i oid).cfg = g.cfg := rfl

theorem table_setSlot (g : Strategy F n) (side : OrderSide) (i : Fin n) (oid : OrderId) :
    table (g.setSlot side i oid) = Function.update (table g) (side,i) (if oid = 0 then none else some oid) := by
  funext ⟨s,j⟩
  by_cases same : (s,j) = (side,i)
  · obtain ⟨rfl,rfl⟩ := Prod.mk.inj same
    simp [table,setSlot_slot]
  · have different : ¬ (s = side ∧ j = i) := fun both => same (by rw [both.1,both.2])
    simp [table,setSlot_slot,different]

theorem table_eq_some {g : Strategy F n} {k : Key n} {oid : OrderId} :
    table g k = some oid ↔ oid ≠ 0 ∧ (g.levels k.2).slot k.1 = oid := by
  simp only [table]
  split
  · simp_all [eq_comm]
  · rename_i filled
    simp only [Option.some.injEq]
    constructor
    · rintro rfl; exact ⟨filled,rfl⟩
    · exact And.right

theorem table_eq_none {g : Strategy F n} {k : Key n} : table g k = none ↔ (g.levels k.2).slot k.1 = 0 := by
  simp [table]

theorem slotOf_some {g : Strategy F n} {oid : OrderId} {k : Key n} (found : slotOf oid g.levels = some k) :
    table g k = some oid := by
  obtain ⟨i,_,at_⟩ := List.exists_of_findSome?_eq_some found
  rw [table_eq_some]
  split at at_
  · rename_i hit
    obtain rfl := Option.some.inj at_
    exact ⟨hit.1,hit.2.symm⟩
  · split at at_
    · rename_i hit
      obtain rfl := Option.some.inj at_
      exact ⟨hit.1,hit.2.symm⟩
    · cases at_

theorem slotOf_none {g : Strategy F n} {oid : OrderId} (absent : slotOf oid g.levels = none) (k : Key n) :
    table g k ≠ some oid := by
  intro held
  obtain ⟨real,same⟩ := table_eq_some.mp held
  have here := List.findSome?_eq_none_iff.mp absent k.2 (List.mem_finRange _)
  obtain ⟨side,i⟩ := k
  cases side with
  | buy => simp only [GridLevel.slot] at same; simp [real,same] at here
  | sell =>
    simp only [GridLevel.slot] at same
    simp only [ne_eq,real,not_false_eq_true,true_and,same,if_true] at here
    split at here <;> cases here

-- A stretch of a callback: what it appended to the record, and the way the
-- slots went while it did.
structure Follows (rule : (Key n → Option OrderId) → Change (Key n) OrderId → (Key n → Option OrderId) → Prop)
    (w w' : Strategy F n × Context n) (moves : List (Move n)) : Prop where
  logged : w'.2.moves = w.2.moves++moves
  path : Runs rule (table w.1) (moves.map Move.change) (table w'.1)

section Stretches
variable {rule : (Key n → Option OrderId) → Change (Key n) OrderId → (Key n → Option OrderId) → Prop}
variable {w w' w'' : Strategy F n × Context n} {moves more : List (Move n)}

theorem Follows.refl (w : Strategy F n × Context n) : Follows rule w w [] := ⟨by simp,.nil⟩

theorem Follows.trans (front : Follows rule w w' moves) (back : Follows rule w' w'' more) :
    Follows rule w w'' (moves++more) :=
  ⟨by rw [back.logged,front.logged,List.append_assoc],by rw [List.map_append]; exact front.path.append back.path⟩

theorem Follows.weaken (follows : Follows Careful w w' moves) : Follows SlotTable.Step w w' moves :=
  ⟨follows.logged,careful_runs follows.path⟩

theorem placeAt_follows (side : OrderSide) (g : Strategy F n) (ctx : Context n) (i : Fin n) (price : Decimal) :
    Follows SlotTable.Step (g,ctx) (placeAt side g ctx i price).2
      [.submit i (orderFor g side price) (ctx.ids.headD 0)] := by
  refine ⟨rfl,.single ?_⟩
  simp only [placeAt,Context.submitOrder,Move.change,orderFor]
  by_cases refused : ctx.ids.headD 0 = 0
  · simp only [refused,if_true,ne_eq,not_true_eq_false,if_false]
    exact .pass
  · simp only [refused,if_false,ne_eq,not_false_eq_true,if_true,table_setSlot]
    exact .put

theorem placeAt_careful {side : OrderSide} {g : Strategy F n} (ctx : Context n) {i : Fin n} (price : Decimal)
    (free : ctx.ids.headD 0 ≠ 0 → (g.levels i).slot side = 0) :
    Follows Careful (g,ctx) (placeAt side g ctx i price).2
      [.submit i (orderFor g side price) (ctx.ids.headD 0)] := by
  obtain ⟨logged,path⟩ := placeAt_follows side g ctx i price
  obtain ⟨_,start,step⟩ := Runs.snoc_inv (show Runs _ _ ([]++[_]) _ from path)
  obtain rfl := start.nil_inv
  refine ⟨logged,.single ⟨step,?_⟩⟩
  intro k oid put
  simp only [Move.change,orderFor] at put
  split at put
  · cases put
  · cases put
    exact table_eq_none.mpr (free ‹_›)

def Steady (g g' : Strategy F n) : Prop :=
  g'.cfg = g.cfg ∧ g'.initialized = g.initialized ∧ ∀ i, (g'.levels i).price = (g.levels i).price

theorem Steady.refl (g : Strategy F n) : Steady g g := ⟨rfl,rfl,fun _ => rfl⟩

theorem Steady.trans {g g' g'' : Strategy F n} (front : Steady g g') (back : Steady g' g'') : Steady g g'' :=
  ⟨back.1.trans front.1,back.2.1.trans front.2.1,fun i => (back.2.2 i).trans (front.2.2 i)⟩

theorem setSlot_steady (g : Strategy F n) (side : OrderSide) (i : Fin n) (oid : OrderId) :
    Steady g (g.setSlot side i oid) := by
  refine ⟨rfl,rfl,fun j => ?_⟩
  by_cases same : j = i
  · subst j; simp [Strategy.setSlot]
  · simp [Strategy.setSlot,same]

theorem placeAt_steady (side : OrderSide) (g : Strategy F n) (ctx : Context n) (i : Fin n) (price : Decimal) :
    Steady g (placeAt side g ctx i price).2.1 := by
  simp only [placeAt]
  split
  · exact setSlot_steady _ _ _ _
  · exact .refl g

theorem counted_steady (oid : OrderId) (g : Strategy F n) : Steady g (counted oid g) := by
  unfold counted
  split
  · exact ⟨rfl,rfl,fun _ => rfl⟩
  · exact .refl g

theorem placeAt_counters (side : OrderSide) (g : Strategy F n) (ctx : Context n) (i : Fin n) (price : Decimal) :
    (placeAt side g ctx i price).2.1.ticksProcessed = g.ticksProcessed ∧
      (placeAt side g ctx i price).2.1.fillsProcessed = g.fillsProcessed := by
  simp only [placeAt]
  split <;> exact ⟨rfl,rfl⟩

theorem counted_counters (oid : OrderId) (g : Strategy F n) :
    (counted oid g).ticksProcessed = g.ticksProcessed+(if oid = 0 then 0 else 1) ∧
      (counted oid g).fillsProcessed = g.fillsProcessed := by
  by_cases refused : oid = 0 <;> simp [counted,refused]

theorem table_counted (oid : OrderId) (g : Strategy F n) : table (counted oid g) = table g := by
  unfold counted
  split <;> rfl

def Move.submits (side : OrderSide) : Move n → Option (OrderRequest × OrderId)
  | .submit _ order answer => if order.side = side then some (order,answer) else none
  | _ => none

def submits (side : OrderSide) (moves : List (Move n)) : List (OrderRequest × OrderId) :=
  moves.filterMap (Move.submits side)

theorem submits_append (side : OrderSide) (moves more : List (Move n)) :
    submits side (moves++more) = submits side moves++submits side more := List.filterMap_append

theorem mem_submits {side : OrderSide} {moves : List (Move n)} :
    (order,answer) ∈ submits side moves ↔ order.side = side ∧ ∃ i, .submit i order answer ∈ moves := by
  simp only [submits,List.mem_filterMap]
  constructor
  · rintro ⟨m,member,placed⟩
    cases m <;> simp only [Move.submits,reduceCtorEq] at placed
    split at placed
    · cases placed
      exact ⟨‹_›,_,member⟩
    · cases placed
  · rintro ⟨rfl,i,member⟩
    exact ⟨_,member,by simp [Move.submits]⟩

theorem orderFor_steady {g g' : Strategy F n} (steady : Steady g g') (side : OrderSide) (price : Decimal) :
    orderFor g' side price = orderFor g side price := by simp only [orderFor,steady.1]

structure Ticked (bound : Nat) (w w' : Strategy F n × Context n) (moves : List (Move n)) : Prop where
  follows : Follows Careful w w' moves
  steady : Steady w.1 w'.1
  orders : ∀ m ∈ moves, ∃ i side price answer, m = .submit i (orderFor w.1 side price) answer
  few : ∀ side, (submits side moves).length ≤ bound

theorem Ticked.refl (w : Strategy F n × Context n) : Ticked 0 w w [] :=
  ⟨.refl w,.refl w.1,by simp,by simp [submits]⟩

theorem Ticked.trans (front : Ticked b w w' moves) (back : Ticked b' w' w'' more) :
    Ticked (b+b') w w'' (moves++more) := by
  refine ⟨front.follows.trans back.follows,front.steady.trans back.steady,fun m member => ?_,fun side => ?_⟩
  · rcases List.mem_append.mp member with old | new
    · exact front.orders m old
    · obtain ⟨i,side,price,answer,rfl⟩ := back.orders m new
      exact ⟨i,side,price,answer,by rw [orderFor_steady front.steady]⟩
  · rw [submits_append,List.length_append]
    exact Nat.add_le_add (front.few side) (back.few side)

def Ticking.world (st : Ticking F n) : Strategy F n × Context n := (st.strategy,st.ctx)

def beyond (mid level : F) : OrderSide → Bool
  | .buy => Double.less level mid
  | .sell => Double.less mid level

def opens (g : Strategy F n) (mid : F) (side : OrderSide) (i : Fin n) : Bool :=
  beyond mid (toDouble (g.levels i).price) side && (g.levels i).slot side = 0

def aggressive (mid : F) (offset : Int) : OrderSide → F
  | .buy => mid+Double.ofRat (1/2)+Double.ofInt offset*Double.ofRat (1/10)
  | .sell => mid-Double.ofRat (1/2)-Double.ofInt offset*Double.ofRat (1/10)

def Ticking.offset (st : Ticking F n) : OrderSide → Int
  | .buy => st.buyOffset
  | .sell => st.sellOffset

theorem opens_iff {g : Strategy F n} {mid : F} {side : OrderSide} {i : Fin n} :
    opens g mid side i = true ↔ beyond mid (toDouble (g.levels i).price) side = true ∧ (g.levels i).slot side = 0 := by
  simp [opens]

def tickPlaced (side : OrderSide) (w : Strategy F n × Context n) (i : Fin n) (price : Decimal) : Strategy F n × Context n :=
  let placed := placeAt side w.1 w.2 i price
  (counted placed.1 placed.2.1,placed.2.2)

inductive TickSide (mid : F) (side : OrderSide) (i : Fin n) (st : Ticking F n) : Ticking F n → Prop where
  | idle (closed : ¬ opens st.strategy mid side i = true) : TickSide mid side i st st
  | placed (opened : opens st.strategy mid side i = true)
      (world : st'.world = tickPlaced side st.world i (toDecimal (aggressive mid (st.offset side) side)))
      (offsets : ∀ s, st'.offset s = st.offset s+if s = side then 1 else 0) : TickSide mid side i st st'

theorem tickBuy_side (mid : F) (st : Ticking F n) (i : Fin n) : TickSide mid .buy i st (tickBuy mid st i) := by
  by_cases free : Double.less (toDouble (st.strategy.levels i).price) mid ∧ (st.strategy.levels i).buyOrderId = 0
  · refine .placed (by simpa [opens_iff,beyond,GridLevel.slot] using free) ?_ fun s => ?_
    · simp only [tickBuy,free,and_self,if_true,stdMax]
      rfl
    · cases s <;> simp [tickBuy,free,Ticking.offset]
  · have same : tickBuy mid st i = st := by simp only [tickBuy,free,if_false]
    rw [same]
    exact .idle (by simpa [opens_iff,beyond,GridLevel.slot] using free)

theorem tickSell_side (mid : F) (st : Ticking F n) (i : Fin n) : TickSide mid .sell i st (tickSell mid st i) := by
  by_cases free : Double.less mid (toDouble (st.strategy.levels i).price) ∧ (st.strategy.levels i).sellOrderId = 0
  · refine .placed (by simpa [opens_iff,beyond,GridLevel.slot] using free) ?_ fun s => ?_
    · simp only [tickSell,free,and_self,if_true,stdMin]
      rfl
    · cases s <;> simp [tickSell,free,Ticking.offset]
  · have same : tickSell mid st i = st := by simp only [tickSell,free,if_false]
    rw [same]
    exact .idle (by simpa [opens_iff,beyond,GridLevel.slot] using free)

theorem tickPlaced_ticked {side : OrderSide} {w : Strategy F n × Context n} {i : Fin n} (price : Decimal)
    (free : (w.1.levels i).slot side = 0) :
    ∃ moves, Ticked 1 w (tickPlaced side w i price) moves ∧ ∀ other ≠ side, submits other moves = [] := by
  obtain ⟨logged,path⟩ := placeAt_careful w.2 price (fun _ => free)
  refine ⟨[.submit i (orderFor w.1 side price) (w.2.ids.headD 0)],⟨⟨logged,?_⟩,?_,?_,?_⟩,?_⟩
  · rw [tickPlaced,table_counted]; exact path
  · exact (placeAt_steady side w.1 w.2 i price).trans (counted_steady _ _)
  · intro m member
    exact ⟨_,_,_,_,List.mem_singleton.mp member⟩
  · intro s
    by_cases same : side = s <;> simp [submits,Move.submits,orderFor,same]
  · intro other different
    simp [submits,Move.submits,orderFor,Ne.symm different]

theorem TickSide.ticked {mid : F} {side : OrderSide} {i : Fin n} {st st' : Ticking F n} (taken : TickSide mid side i st st') :
    ∃ moves, Ticked 1 st.world st'.world moves ∧ ∀ other ≠ side, submits other moves = [] := by
  cases taken with
  | idle => exact ⟨[],⟨.refl _,.refl _,by simp,by simp [submits]⟩,fun _ _ => rfl⟩
  | placed opened world =>
    rw [world]
    exact tickPlaced_ticked _ (opens_iff.mp opened).2

theorem tickLevel_ticked (mid : F) (st : Ticking F n) (i : Fin n) :
    ∃ moves, Ticked 1 st.world (tickSell mid (tickBuy mid st i) i).world moves := by
  obtain ⟨moves,bought,buys⟩ := (tickBuy_side mid st i).ticked
  obtain ⟨more,sold,sells⟩ := (tickSell_side mid (tickBuy mid st i) i).ticked
  have both := bought.trans sold
  refine ⟨moves++more,both.follows,both.steady,both.orders,fun side => ?_⟩
  cases side with
  | buy => rw [submits_append,sells .buy (by decide),List.append_nil]; exact bought.few .buy
  | sell => rw [submits_append,buys .sell (by decide),List.nil_append]; exact sold.few .sell

theorem tickLoop_ticked (mid : F) (levels : List (Fin n)) (st : Ticking F n) :
    ∃ moves, Ticked levels.length st.world
      (levels.foldl (fun st i => tickSell mid (tickBuy mid st i) i) st).world moves := by
  induction levels generalizing st with
  | nil => exact ⟨[],.refl _⟩
  | cons i rest ih =>
    obtain ⟨moves,first⟩ := tickLevel_ticked mid st i
    obtain ⟨more,last⟩ := ih (tickSell mid (tickBuy mid st i) i)
    refine ⟨moves++more,?_⟩
    rw [List.length_cons,Nat.add_comm]
    exact first.trans last

theorem onTick_ticked (g : Strategy F n) (ctx : Context n) :
    ∃ moves, Ticked n (g,ctx) (onTick g ctx) moves := by
  have nothing : Ticked n (g,ctx) (g,ctx) [] := ⟨.refl _,.refl _,by simp,by simp [submits]⟩
  unfold onTick
  split
  · split
    · exact ⟨[],nothing⟩
    · rename_i mid _
      obtain ⟨moves,ticked⟩ := tickLoop_ticked (toDouble mid) (List.finRange n) (⟨g,ctx,0,0⟩ : Ticking F n)
      rw [List.length_finRange] at ticked
      exact ⟨moves,ticked⟩
  · exact ⟨[],nothing⟩

-- onFill before it looks for a neighbour: the delivery is noted, the slot that
-- held the order is emptied.
def cleared (g : Strategy F n) (k : Key n) : Strategy F n :=
  {g.setSlot k.1 k.2 0 with fillsProcessed := g.fillsProcessed+1}

def delivered (g : Strategy F n) (fill : Fill) (ctx : Context n) : Context n :=
  {ctx with moves := ctx.moves++[.filled fill (slotOf fill.orderId g.levels)]}

def counterPrice (side : OrderSide) (level mid : F) : F :=
  if Double.less (Double.ofRat 0) mid then
    match side with
    | .sell => stdMin level mid
    | .buy => stdMax level mid
  else level

def midVal : Option Decimal → F
  | some mid => toDouble mid
  | none => Double.ofRat 0

def counterAt (g : Strategy F n) (k : Key n) (mid : Option Decimal) : Decimal :=
  toDecimal (counterPrice k.1 (toDouble (g.levels k.2).price : F) (midVal mid))

theorem onFill_cases (g : Strategy F n) (fill : Fill) (ctx : Context n) :
    (slotOf fill.orderId g.levels = none ∧ onFill g fill ctx = (g,delivered g fill ctx)) ∨
    (∃ k, slotOf fill.orderId g.levels = some k ∧ neighbour k = none ∧
      onFill g fill ctx = (cleared g k,delivered g fill ctx)) ∨
    (∃ k k', slotOf fill.orderId g.levels = some k ∧ neighbour k = some k' ∧
      onFill g fill ctx = (placeAt k'.1 (cleared g k) (delivered g fill ctx) k'.2 (counterAt (cleared g k) k' ctx.mid)).2) := by
  cases found : slotOf fill.orderId g.levels with
  | none => exact .inl ⟨rfl,by simp only [onFill,found,delivered]⟩
  | some k =>
    obtain ⟨side,i⟩ := k
    refine .inr ?_
    cases side with
    | buy =>
      by_cases up : i.val+1 < n
      · exact .inr ⟨_,(.sell,⟨i+1,up⟩),rfl,by simp [neighbour,up],by
          simp only [onFill,found,up,dif_pos,delivered]; rfl⟩
      · exact .inl ⟨_,rfl,by simp [neighbour,up],by simp [onFill,found,up,delivered,cleared]⟩
    | sell =>
      by_cases down : 0 < i.val
      · exact .inr ⟨_,(.buy,⟨i-1,pred_lt i⟩),rfl,by simp [neighbour,down],by
          simp only [onFill,found,down,if_true,delivered]; rfl⟩
      · exact .inl ⟨_,rfl,by simp [neighbour,down],by simp [onFill,found,down,delivered,cleared]⟩

theorem cleared_steady (g : Strategy F n) (k : Key n) : Steady g (cleared g k) := setSlot_steady g k.1 k.2 0

theorem onFill_steady (g : Strategy F n) (fill : Fill) (ctx : Context n) : Steady g (onFill g fill ctx).1 := by
  rcases onFill_cases g fill ctx with ⟨_,same⟩ | ⟨k,_,_,same⟩ | ⟨k,k',_,_,same⟩
  · rw [same]; exact .refl g
  · rw [same]; exact cleared_steady g k
  · rw [same]; exact (cleared_steady g k).trans (placeAt_steady _ _ _ _ _)

theorem table_cleared (g : Strategy F n) (k : Key n) : table (cleared g k) = Function.update (table g) k none :=
  table_setSlot g k.1 k.2 0

def counterSlot (g : Strategy F n) (fill : Fill) : Option (Key n) :=
  (slotOf fill.orderId g.levels).bind neighbour

theorem neighbour_side {k k' : Key n} (next : neighbour k = some k') : k'.1 ≠ k.1 := by
  obtain ⟨side,i⟩ := k
  cases side <;> simp only [neighbour] at next <;> split at next <;> cases next <;> exact nofun

def counterMoves (g : Strategy F n) (fill : Fill) (answers : List OrderId) (moves : List (Move n)) : Prop :=
  match counterSlot g fill with
  | none => moves = []
  | some k => ∃ price, moves = [.submit k.2 (orderFor g k.1 price) (answers.headD 0)]

theorem counterMoves_mem {g : Strategy F n} {fill : Fill} {answers : List OrderId} {moves : List (Move n)}
    (counter : counterMoves g fill answers moves) (member : m ∈ moves) :
    ∃ k price, counterSlot g fill = some k ∧ m = .submit k.2 (orderFor g k.1 price) (answers.headD 0) := by
  unfold counterMoves at counter
  split at counter
  · subst counter; cases member
  · obtain ⟨price,rfl⟩ := counter
    exact ⟨_,price,‹_›,List.mem_singleton.mp member⟩

theorem delivered_follows (g : Strategy F n) (fill : Fill) (ctx : Context n) :
    Follows Careful (g,ctx) (match slotOf fill.orderId g.levels with | none => g | some k => cleared g k,delivered g fill ctx)
      [.filled fill (slotOf fill.orderId g.levels)] := by
  refine ⟨rfl,.single ?_⟩
  cases found : slotOf fill.orderId g.levels with
  | none => exact ⟨.miss (slotOf_none found),fun _ _ put => by cases put⟩
  | some k =>
    simp only [table_cleared]
    exact ⟨.take (slotOf_some found),fun _ _ put => by cases put⟩

def NeighbourFree (g : Strategy F n) (fill : Fill) (answers : Answers) : Prop :=
  ∀ k ∈ counterSlot g fill, answers.ids.headD 0 ≠ 0 → (g.levels k.2).slot k.1 = 0

instance (g : Strategy F n) (fill : Fill) (answers : Answers) : Decidable (NeighbourFree g fill answers) :=
  inferInstanceAs (Decidable (∀ k ∈ counterSlot g fill, answers.ids.headD 0 ≠ 0 → (g.levels k.2).slot k.1 = 0))

theorem onFill_follows (g : Strategy F n) (fill : Fill) (ctx : Context n) :
    ∃ moves, counterMoves g fill ctx.ids moves ∧
      Follows SlotTable.Step (g,ctx) (onFill g fill ctx) (.filled fill (slotOf fill.orderId g.levels)::moves) ∧
      (NeighbourFree g fill ctx.toAnswers →
        Follows Careful (g,ctx) (onFill g fill ctx) (.filled fill (slotOf fill.orderId g.levels)::moves)) := by
  have first := delivered_follows g fill ctx
  rcases onFill_cases g fill ctx with ⟨absent,same⟩ | ⟨k,found,top,same⟩ | ⟨k,k',found,next,same⟩
  · simp only [absent] at first
    rw [same,absent]
    exact ⟨[],by simp [counterMoves,counterSlot,absent],first.weaken,fun _ => first⟩
  · simp only [found] at first
    rw [same,found]
    exact ⟨[],by simp [counterMoves,counterSlot,found,top],first.weaken,fun _ => first⟩
  · simp only [found] at first
    have counter : counterSlot g fill = some k' := by simp only [counterSlot,found,Option.bind_some,next]
    rw [same,found]
    refine ⟨[.submit k'.2 (orderFor g k'.1 (counterAt (cleared g k) k' ctx.mid)) (ctx.ids.headD 0)],?_,?_,fun free => ?_⟩
    · simp only [counterMoves,counter]
      exact ⟨_,rfl⟩
    · exact first.weaken.trans (placeAt_follows k'.1 (cleared g k) (delivered g fill ctx) k'.2 _)
    · refine first.trans (placeAt_careful (delivered g fill ctx) _ fun accepted => ?_)
      have vacant := free k' counter accepted
      have other : ¬ (k'.1 = k.1 ∧ k'.2 = k.2) := fun both => neighbour_side next both.1
      exact (setSlot_slot g k.1 k'.1 k.2 k'.2 0).trans (by rw [if_neg other]; exact vacant)

structure Expired (w w' : Strategy F n × Context n) (moves : List (Move n)) : Prop where
  follows : Follows Careful w w' moves
  steady : Steady w.1 w'.1
  cancels : ∀ m ∈ moves, ∃ side i oid queued, m = .cancel side i oid queued

theorem Expired.refl (w : Strategy F n × Context n) : Expired w w [] := ⟨.refl w,.refl w.1,by simp⟩

theorem Expired.trans (front : Expired w w' moves) (back : Expired w' w'' more) : Expired w w'' (moves++more) := by
  refine ⟨front.follows.trans back.follows,front.steady.trans back.steady,fun m member => ?_⟩
  rcases List.mem_append.mp member with old | new
  · exact front.cancels m old
  · exact back.cancels m new

theorem timerSlot_expired (side : OrderSide) (stale : Bool) (w : Strategy F n × Context n) (i : Fin n) :
    ∃ moves, Expired w (timerSlot side stale w i) moves := by
  by_cases due : stale ∧ (w.1.levels i).slot side ≠ 0
  · have moved : timerSlot side stale w i = (w.1.setSlot side i 0,(w.2.cancelOrder side i ((w.1.levels i).slot side)).2) := by
      simp only [timerSlot,due,ne_eq,not_false_eq_true,and_self,if_true]
    rw [moved]
    refine ⟨_,⟨rfl,.single ⟨?_,fun _ _ put => by cases put⟩⟩,setSlot_steady _ _ _ _,?_⟩
    · rw [table_setSlot]
      exact .take (table_eq_some.mpr ⟨due.2,rfl⟩)
    · intro m member
      exact ⟨_,_,_,_,List.mem_singleton.mp member⟩
  · have same : timerSlot side stale w i = w := by simp only [timerSlot,due,if_false]
    rw [same]
    exact ⟨[],.refl w⟩

theorem timerLoop_expired (mid : F) (levels : List (Fin n)) (w : Strategy F n × Context n) :
    ∃ moves, Expired w (levels.foldl (timerLevel mid) w) moves := by
  induction levels generalizing w with
  | nil => exact ⟨[],.refl w⟩
  | cons i rest ih =>
    obtain ⟨buys,first⟩ := timerSlot_expired .buy (Double.less mid (toDouble (w.1.levels i).price)) w i
    obtain ⟨sells,second⟩ := timerSlot_expired .sell (Double.less (toDouble (w.1.levels i).price) mid)
      (timerSlot .buy (Double.less mid (toDouble (w.1.levels i).price)) w i) i
    obtain ⟨more,last⟩ := ih (timerLevel mid w i)
    exact ⟨(buys++sells)++more,(first.trans second).trans last⟩

theorem onTimer_expired (g : Strategy F n) (ctx : Context n) : ∃ moves, Expired (g,ctx) (onTimer g ctx) moves := by
  unfold onTimer
  split
  · split
    · exact ⟨[],.refl _⟩
    · exact timerLoop_expired _ _ _
  · exact ⟨[],.refl _⟩

end Stretches

inductive Explained (g : Strategy F n) : Event n → Strategy F n → Prop where
  | load : Explained g ⟨.onLoad,[]⟩ (onLoad g)
  | unload : Explained g ⟨.onUnload,[]⟩ (onUnload g)
  | tick (ticked : Ticked n (g,⟨answers,[]⟩) (g',ctx) moves) : Explained g ⟨.onTick answers,moves⟩ g'
  | fill (counter : counterMoves g fill answers.ids moves) (steady : Steady g g')
      (follows : Follows SlotTable.Step (g,⟨answers,[]⟩) (g',ctx) (.filled fill (slotOf fill.orderId g.levels)::moves))
      (careful : NeighbourFree g fill answers →
        Follows Careful (g,⟨answers,[]⟩) (g',ctx) (.filled fill (slotOf fill.orderId g.levels)::moves)) :
      Explained g ⟨.onFill fill answers,.filled fill (slotOf fill.orderId g.levels)::moves⟩ g'
  | timer (expired : Expired (g,⟨answers,[]⟩) (g',ctx) moves) : Explained g ⟨.onTimer answers,moves⟩ g'

theorem step_explained {g g' : Strategy F n} {e : Event n} (step : Step g e g') : Explained g e g' := by
  obtain ⟨callback,moves⟩ := e
  cases callback with
  | onLoad => cases step; exact .load
  | onUnload => cases step; exact .unload
  | onTick answers =>
    obtain ⟨moves',ticked⟩ := onTick_ticked g ⟨answers,[]⟩
    have logged : (onTick g ⟨answers,[]⟩).2.moves = moves' := ticked.follows.logged
    simp only [Step,deliver,logged,Prod.mk.injEq] at step
    obtain ⟨rfl,rfl⟩ := step
    exact .tick ticked
  | onFill fill answers =>
    obtain ⟨moves',counter,follows,careful⟩ := onFill_follows g fill ⟨answers,[]⟩
    have logged : (onFill g fill ⟨answers,[]⟩).2.moves = .filled fill (slotOf fill.orderId g.levels)::moves' := follows.logged
    simp only [Step,deliver,logged,Prod.mk.injEq] at step
    obtain ⟨rfl,rfl⟩ := step
    exact .fill counter (onFill_steady g fill _) follows careful
  | onTimer answers =>
    obtain ⟨moves',expired⟩ := onTimer_expired g ⟨answers,[]⟩
    have logged : (onTimer g ⟨answers,[]⟩).2.moves = moves' := expired.follows.logged
    simp only [Step,deliver,logged,Prod.mk.injEq] at step
    obtain ⟨rfl,rfl⟩ := step
    exact .timer expired

-- The condition on a callback: only a counter-order could overwrite a slot.
def SlotFree (g : Strategy F n) (e : Event n) : Prop :=
  match e.callback with
  | .onFill fill answers => NeighbourFree g fill answers
  | _ => True

instance (g : Strategy F n) : (e : Event n) → Decidable (SlotFree g e)
  | ⟨.onFill fill answers,_⟩ => inferInstanceAs (Decidable (NeighbourFree g fill answers))
  | ⟨.onLoad,_⟩ | ⟨.onUnload,_⟩ | ⟨.onTick _,_⟩ | ⟨.onTimer _,_⟩ => isTrue trivial

theorem step_table {g g' : Strategy F n} {e : Event n} (step : Step g e g') :
    Runs SlotTable.Step (table g) (e.moves.map Move.change) (table g') := by
  cases step_explained step with
  | load | unload => exact .nil
  | tick ticked => exact ticked.follows.weaken.path
  | fill _ _ follows _ => exact follows.path
  | timer expired => exact expired.follows.weaken.path

theorem step_careful {g g' : Strategy F n} {e : Event n} (step : Step g e g') (free : SlotFree g e) :
    Runs Careful (table g) (e.moves.map Move.change) (table g') := by
  cases step_explained step with
  | load | unload => exact .nil
  | tick ticked => exact ticked.follows.path
  | fill _ _ _ careful => exact (careful free).path
  | timer expired => exact expired.follows.path

theorem step_cfg {g g' : Strategy F n} {e : Event n} (step : Step g e g') : g'.cfg = g.cfg := by
  cases step_explained step with
  | load | unload => rfl
  | tick ticked => exact ticked.steady.1
  | fill _ steady => exact steady.1
  | timer expired => exact expired.steady.1

theorem runs_cfg {g g' : Strategy F n} {es : List (Event n)} (path : Runs Step g es g') : g'.cfg = g.cfg :=
  path.preserves (fun s => s.cfg = g.cfg) (fun _ _ _ kept step => (step_cfg step).trans kept) rfl

theorem history_snoc (es : List (Event n)) (e : Event n) : history (es++[e]) = history es++e.moves := by
  simp [history]

theorem runs_table {g g' : Strategy F n} {es : List (Event n)} (path : Runs Step g es g') :
    Runs SlotTable.Step (table g) ((history es).map Move.change) (table g') := by
  induction path with
  | nil => exact .nil
  | step _ taken ih =>
    rw [history_snoc,List.map_append]
    exact ih.append (step_table taken)

def CarefulStep (g : Strategy F n) (e : Event n) (g' : Strategy F n) : Prop := Step g e g' ∧ SlotFree g e

def followCarefully (g : Strategy F n) (callback : Callback) : Option (Event n × Strategy F n) :=
  if SlotFree g ⟨callback,(deliver g callback).2⟩ then follow g callback else none

theorem followCarefully_sound (g : Strategy F n) (callback : Callback) (e : Event n) (g' : Strategy F n)
    (followed : followCarefully g callback = some (e,g')) : CarefulStep g e g' := by
  unfold followCarefully at followed
  split at followed
  · have step := follow_sound g callback e g' followed
    cases followed
    exact ⟨step,‹_›⟩
  · cases followed

def Meets (good : Strategy F n → Callback → Prop) : Strategy F n → List Callback → Prop
  | _,[] => True
  | g,callback::rest => good g callback ∧ Meets good (deliver g callback).1 rest

instance Meets.decide {good : Strategy F n → Callback → Prop} [∀ g callback, Decidable (good g callback)] :
    (g : Strategy F n) → (callbacks : List Callback) → Decidable (Meets good g callbacks)
  | _,[] => inferInstanceAs (Decidable True)
  | g,callback::rest => @instDecidableAnd _ _ _ (Meets.decide (deliver g callback).1 rest)

theorem step_functional (g : Strategy F n) (e : Event n) (g' g'' : Strategy F n) (one : Step g e g')
    (other : Step g e g'') : g' = g'' := (Prod.mk.inj (one.symm.trans other)).1

theorem Meets.each {good : Strategy F n → Callback → Prop} {g g' : Strategy F n} {callbacks : List Callback}
    {es : List (Event n)} (meets : Meets good g callbacks) (played : play follow g callbacks = some (es,g')) :
    Each (fun earlier e => ∀ before, Runs Step g earlier before → good before e.callback) es := by
  induction callbacks generalizing g es with
  | nil =>
    cases played
    rintro earlier e later shape
    simp at shape
  | cons callback rest ih =>
    cases tail : play follow (deliver g callback).1 rest with
    | none => simp [play,follow,tail] at played
    | some result =>
      obtain ⟨more,last⟩ := result
      simp only [play,follow,tail,Option.bind_eq_bind,Option.bind_some,Option.pure_def,Option.some.injEq,Prod.mk.injEq] at played
      obtain ⟨rfl,rfl⟩ := played
      rintro (_ | ⟨head,earlier⟩) e later shape before front
      · cases shape
        rw [front.nil_inv]
        exact meets.1
      · cases shape
        obtain ⟨middle,here,back⟩ := front.cons_inv
        obtain rfl := step_functional _ _ _ _ here (follow_sound g callback _ _ rfl)
        exact ih meets.2 tail earlier e later rfl before back

theorem Meets.played {good : Strategy F n → Callback → Prop} {g : Strategy F n} {callbacks : List Callback}
    (meets : Meets good g callbacks) (follows : (play follow g callbacks).isSome) :
    Each (fun earlier e => ∀ before, Runs Step g earlier before → good before e.callback) ((play follow g callbacks).get follows).1 :=
  meets.each (Option.some_get follows).symm

theorem runs_careful {g g' : Strategy F n} {es : List (Event n)} (path : Runs CarefulStep g es g') :
    Runs Careful (table g) ((history es).map Move.change) (table g') := by
  induction path with
  | nil => exact .nil
  | step _ taken ih =>
    rw [history_snoc,List.map_append]
    exact ih.append (step_careful taken.1 taken.2)

@[simp] theorem table_initial (cfg : Config F) : table (initial cfg) = fun _ => none := by
  funext ⟨side,i⟩
  cases side <;> rfl

end Chronos.GridStrategy
