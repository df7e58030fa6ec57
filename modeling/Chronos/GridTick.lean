import Chronos.ExactPrices

namespace Chronos.GridStrategy

variable {F : Type} [Double F] {n : Nat}

def missing (g : Strategy F n) (mid : F) : List (Key n) :=
  (List.finRange n).flatMap fun i => [(.buy,i),(.sell,i)].filter fun k => opens g mid k.1 k.2

def offsetAt (keys : List (Key n)) (j : Nat) (side : OrderSide) : Nat := (keys.take j).countP (·.1 = side)

def tickMove (g : Strategy F n) (mid : F) (ids : List OrderId) (keys : List (Key n)) (j : Nat) (k : Key n) : Move n :=
  .submit k.2 (tickOrder g mid k.1 (offsetAt keys j k.1)) (ids.getD j 0)

-- The loop of onTick when it has placed the orders of these keys.
structure Placing (g : Strategy F n) (mid : F) (ids : List OrderId) (keys : List (Key n)) (st : Ticking F n) : Prop where
  steady : Steady g st.strategy
  length : st.ctx.moves.length = keys.length
  moves : ∀ j k, keys[j]? = some k → st.ctx.moves[j]? = some (tickMove g mid ids keys j k)
  rest : st.ctx.ids = ids.drop keys.length
  offsets : ∀ s, st.offset s = offsetAt keys keys.length s
  placed : ∀ j k, keys[j]? = some k →
    (st.strategy.levels k.2).slot k.1 = if ids.getD j 0 = 0 then (g.levels k.2).slot k.1 else ids.getD j 0
  kept : ∀ k, k ∉ keys → (st.strategy.levels k.2).slot k.1 = (g.levels k.2).slot k.1
  ticks : st.strategy.ticksProcessed = g.ticksProcessed+UInt64.ofNat (st.ctx.moves.filterMap Move.accepted).length
  fills : st.strategy.fillsProcessed = g.fillsProcessed

theorem offsetAt_snoc (keys : List (Key n)) (k : Key n) (short : j ≤ keys.length) (side : OrderSide) :
    offsetAt (keys++[k]) j side = offsetAt keys j side := by
  unfold offsetAt
  rw [List.take_append_of_le_length short]

theorem offsetAt_next (keys : List (Key n)) (k : Key n) (side : OrderSide) :
    offsetAt (keys++[k]) (keys++[k]).length side = offsetAt keys keys.length side+if k.1 = side then 1 else 0 := by
  unfold offsetAt
  rw [List.take_length,List.take_length,List.countP_append]
  by_cases same : k.1 = side <;> simp [same]

theorem key_snoc {keys : List (Key n)} {key k : Key n} :
    (keys++[key])[j]? = some k ↔ (j < keys.length ∧ keys[j]? = some k) ∨ (j = keys.length ∧ k = key) := by
  rcases Nat.lt_trichotomy j keys.length with old | last | beyond
  · rw [List.getElem?_append_left old]
    simp [old,Nat.ne_of_lt old]
  · subst last
    simp [eq_comm]
  · rw [List.getElem?_eq_none (by rw [List.length_append,List.length_singleton]; exact beyond)]
    simp [Nat.lt_asymm beyond,Nat.ne_of_gt beyond]

theorem tickMoves_snoc {g : Strategy F n} {mid : F} {ids : List OrderId} {keys : List (Key n)} {moves : List (Move n)}
    (key : Key n) (length : moves.length = keys.length)
    (each : ∀ j k, keys[j]? = some k → moves[j]? = some (tickMove g mid ids keys j k)) (j : Nat) (k : Key n)
    (at_ : (keys++[key])[j]? = some k) :
    (moves++[tickMove g mid ids keys keys.length key])[j]? = some (tickMove g mid ids (keys++[key]) j k) := by
  rcases key_snoc.mp at_ with ⟨old,at_⟩ | ⟨rfl,rfl⟩
  · rw [List.getElem?_append_left (length ▸ old),each j k at_]
    simp only [tickMove,offsetAt_snoc keys key old.le]
  · rw [List.getElem?_append_right (Nat.le_of_eq length),length,Nat.sub_self]
    simp only [tickMove,offsetAt_snoc keys k (Nat.le_refl _)]
    rfl

section Loop
variable {g : Strategy F n} {mid : F} {ids : List OrderId} {keys : List (Key n)} {st st' : Ticking F n}

theorem Placing.unreached (placing : Placing g mid ids keys st) (fresh : (side,i) ∉ keys) :
    opens st.strategy mid side i = opens g mid side i :=
  opens_congr placing.steady mid (placing.kept (side,i) fresh)

theorem Placing.order (placing : Placing g mid ids keys st) (side : OrderSide) :
    orderFor st.strategy side (toDecimal (aggressive mid (st.offset side) side)) =
      tickOrder g mid side (offsetAt keys keys.length side) := by
  rw [placing.offsets]
  exact orderFor_steady placing.steady side _

theorem Placing.place (placing : Placing g mid ids keys st) (fresh : (side,i) ∉ keys)
    (world : st'.world = tickPlaced side st.world i (toDecimal (aggressive mid (st.offset side) side)))
    (offsets : ∀ s, st'.offset s = st.offset s+if s = side then 1 else 0) :
    Placing g mid ids (keys++[(side,i)]) st' := by
  obtain ⟨strategy,ctx⟩ := Prod.mk.inj world
  have answer : st.ctx.ids.headD 0 = ids.getD keys.length 0 := by
    rw [placing.rest,List.headD_eq_head?_getD,List.head?_drop,List.getD_eq_getElem?_getD]
  have moves : st'.ctx.moves = st.ctx.moves++[tickMove g mid ids keys keys.length (side,i)] := by
    rw [ctx,tickMove,← placing.order side,← answer]
    rfl
  have levels : st'.strategy.levels = (placeAt side st.strategy st.ctx i
      (toDecimal (aggressive mid (st.offset side) side))).2.1.levels := by
    rw [strategy]
    exact counted_levels _ _
  refine ⟨?_,?_,?_,?_,?_,?_,?_,?_,?_⟩
  · rw [strategy]
    exact placing.steady.trans ((placeAt_steady side st.strategy st.ctx i _).trans (counted_steady _ _))
  · simp [moves,placing.length]
  · rw [moves]
    exact tickMoves_snoc (side,i) placing.length placing.moves
  · rw [ctx]
    show st.ctx.ids.tail = _
    rw [placing.rest,List.tail_drop,List.length_append,List.length_singleton]
  · intro s
    rw [offsets,placing.offsets,offsetAt_next]
    by_cases same : s = side
    · simp [same]
    · simp [same,Ne.symm same]
  · intro j k at_
    rw [levels]
    rcases key_snoc.mp at_ with ⟨old,at_⟩ | ⟨rfl,rfl⟩
    · have other : ¬ (k.1 = side ∧ k.2 = i) := fun both => fresh (both.1 ▸ both.2 ▸ List.mem_of_getElem? at_)
      rw [placeAt_slots side k.1 st.strategy st.ctx i k.2 _ other]
      exact placing.placed j k at_
    · rw [placeAt_slot,answer,placing.kept (side,i) fresh]
      by_cases refused : ids.getD keys.length 0 = 0 <;> simp
  · intro k absent
    rw [List.mem_append,List.mem_singleton,not_or] at absent
    rw [levels,placeAt_slots side k.1 st.strategy st.ctx i k.2 _ (fun both => absent.2 (Prod.ext both.1 both.2))]
    exact placing.kept k absent.1
  · rw [strategy]
    have same := (placeAt_counters side st.strategy st.ctx i (toDecimal (aggressive mid (st.offset side) side))).1
    refine (counted_counters _ _).1.trans ((congrArg (·+_) (same.trans placing.ticks)).trans ?_)
    show g.ticksProcessed+_+(if st.ctx.ids.headD 0 = 0 then 0 else 1) = _
    rw [answer,moves,List.filterMap_append,List.length_append,UInt64.ofNat_add,UInt64.add_assoc]
    by_cases refused : ids.getD keys.length 0 = 0 <;> simp only [tickMove,Move.accepted,refused,List.filterMap_cons] <;> rfl
  · rw [strategy]
    exact (counted_counters _ _).2.trans ((placeAt_counters side st.strategy st.ctx i _).2.trans placing.fills)

theorem TickSide.placing (taken : TickSide mid side i st st') (placing : Placing g mid ids keys st) (fresh : (side,i) ∉ keys) :
    Placing g mid ids (keys++[(side,i)].filter fun k => opens g mid k.1 k.2) st' := by
  cases taken with
  | idle closed =>
    rw [placing.unreached fresh] at closed
    simpa [closed] using placing
  | placed opened world offsets =>
    rw [placing.unreached fresh] at opened
    simpa [opened] using placing.place fresh world offsets

theorem Placing.level (placing : Placing g mid ids keys st) (fresh : ∀ s, (s,i) ∉ keys) :
    Placing g mid ids (keys++[(.buy,i),(.sell,i)].filter fun k => opens g mid k.1 k.2)
      (tickSell mid (tickBuy mid st i) i) := by
  have bought := (tickBuy_side mid st i).placing placing (fresh .buy)
  have apart : (.sell,i) ∉ keys++[(.buy,i)].filter fun k => opens g mid k.1 k.2 := by
    rw [List.mem_append,not_or]
    exact ⟨fresh .sell,by simp⟩
  have sold := (tickSell_side mid (tickBuy mid st i) i).placing bought apart
  rwa [List.append_assoc,← List.filter_append] at sold

theorem Placing.loop (levels : List (Fin n)) (distinct : levels.Nodup) (placing : Placing g mid ids keys st)
    (fresh : ∀ i ∈ levels, ∀ s, (s,i) ∉ keys) :
    Placing g mid ids (keys++levels.flatMap fun i => [(.buy,i),(.sell,i)].filter fun k => opens g mid k.1 k.2)
      (levels.foldl (fun st i => tickSell mid (tickBuy mid st i) i) st) := by
  induction levels generalizing keys st with
  | nil => simpa using placing
  | cons i rest ih =>
    obtain ⟨absent,distinct⟩ := List.nodup_cons.mp distinct
    rw [List.flatMap_cons,← List.append_assoc]
    apply ih distinct (placing.level (fresh i List.mem_cons_self))
    intro j later s member
    rcases List.mem_append.mp member with old | new
    · exact fresh j (List.mem_cons_of_mem _ later) s old
    · have same : j = i := by
        have either := List.mem_of_mem_filter new
        simp only [List.mem_cons,Prod.mk.injEq,List.not_mem_nil,or_false] at either
        exact either.elim And.right And.right
      exact absent (same ▸ later)

end Loop

theorem onTick_placing {g : Strategy F n} (on : g.initialized = true) {answers : Answers} (known : answers.mid = some mid) :
    ∃ st, onTick g ⟨answers,[]⟩ = st.world ∧ Placing g (toDouble mid) answers.ids (missing g (toDouble mid)) st := by
  have start : Placing g (toDouble mid) answers.ids [] (⟨g,⟨answers,[]⟩,0,0⟩ : Ticking F n) := by
    refine ⟨.refl g,rfl,?_,rfl,?_,?_,fun _ _ => rfl,?_,rfl⟩
    · exact fun j k at_ => by cases at_
    · intro s
      cases s <;> rfl
    · exact fun j k at_ => by cases at_
    · exact (UInt64.add_zero _).symm
  refine ⟨(List.finRange n).foldl (fun st i => tickSell (toDouble mid) (tickBuy (toDouble mid) st i) i) ⟨g,⟨answers,[]⟩,0,0⟩,?_,
    start.loop (List.finRange n) (List.nodup_finRange n) (by simp)⟩
  simp only [onTick,on,known,if_true]
  rfl

theorem mem_missing {g : Strategy F n} {mid : F} {k : Key n} : k ∈ missing g mid ↔ opens g mid k.1 k.2 = true := by
  obtain ⟨side,i⟩ := k
  simp only [missing,List.mem_flatMap,List.mem_finRange,true_and,List.mem_filter,List.mem_cons,List.not_mem_nil,or_false]
  constructor
  · rintro ⟨_,_,opened⟩
    exact opened
  · intro opened
    cases side with
    | buy => exact ⟨i,.inl rfl,opened⟩
    | sell => exact ⟨i,.inr rfl,opened⟩

theorem missing_count (g : Strategy F n) (mid : F) (side : OrderSide) :
    (missing g mid).countP (·.1 = side) = openings g mid side := by
  unfold missing openings
  induction List.finRange n with
  | nil => rfl
  | cons i rest ih =>
    rw [List.flatMap_cons,List.countP_append,ih,List.countP_cons,Nat.add_comm]
    congr 1
    cases side <;> cases buys : opens g mid .buy i <;> cases sells : opens g mid .sell i <;> simp [buys,sells]

theorem offsetAt_lt {keys : List (Key n)} {k : Key n} (at_ : keys[j]? = some k) :
    offsetAt keys j k.1 < keys.countP (·.1 = k.1) := by
  obtain ⟨short,same⟩ := List.getElem?_eq_some_iff.mp at_
  have parts : keys.take j++k::keys.drop (j+1) = keys := by rw [← same,List.getElem_cons_drop,List.take_append_drop]
  have whole := congrArg (List.countP (·.1 = k.1)) parts
  rw [List.countP_append,List.countP_cons_of_pos (by simp)] at whole
  unfold offsetAt
  omega

theorem opens_rat {g : Strategy Rat n} {mid : Rat} {side : OrderSide} {i : Fin n} : opens g mid side i = true ↔
    (g.levels i).slot side = 0 ∧ match side with
      | .buy => (toDouble (g.levels i).price : Rat) < mid
      | .sell => mid < (toDouble (g.levels i).price : Rat) := by
  rw [opens_iff,and_comm]
  cases side <;> simp [beyond,Double.less]

-- No price is on both sides of mid, so that every level gets one order at most.
theorem missing_ascending (g : Strategy Rat n) (mid : Rat) : (missing g mid).Pairwise fun k k' => k.2 < k'.2 := by
  unfold missing
  rw [List.pairwise_flatMap]
  constructor
  · intro i _
    cases buys : opens g mid .buy i with
    | false => cases sells : opens g mid .sell i <;> simp [buys,sells]
    | true =>
      have none : opens g mid .sell i = false := by
        apply Bool.eq_false_iff.mpr
        intro sells
        exact absurd (opens_rat.mp buys).2 (not_lt.mpr (opens_rat.mp sells).2.le)
      simp [buys,none]
  · refine (List.pairwise_lt_finRange n).imp fun below k member k' member' => ?_
    have either := List.mem_of_mem_filter member
    have either' := List.mem_of_mem_filter member'
    simp only [List.mem_cons,List.not_mem_nil,or_false] at either either'
    rcases either with rfl | rfl <;> rcases either' with rfl | rfl <;> exact below

def asked (mid : Rat) (k : Nat) : OrderSide → Rat
  | .buy => mid+1/2+k/10
  | .sell => mid-1/2-k/10

structure Replenished (g : Strategy Rat n) (mid : Rat) (ids : List OrderId) (keys : List (Key n)) (g' : Strategy Rat n)
    (moves : List (Move n)) : Prop where
  ascending : keys.Pairwise fun k k' => k.2 < k'.2
  exact : ∀ side i, (side,i) ∈ keys ↔ (g.levels i).slot side = 0 ∧ match side with
    | .buy => (toDouble (g.levels i).price : Rat) < mid
    | .sell => mid < (toDouble (g.levels i).price : Rat)
  length : moves.length = keys.length
  orders : ∀ j k, keys[j]? = some k → ∃ order, moves[j]? = some (.submit k.2 order (ids.getD j 0)) ∧
    order.side = k.1 ∧ order.quantity = toDecimal g.cfg.quantity ∧
    order.price = roundPrice Rat (toDecimal (asked mid (offsetAt keys j k.1) k.1)) 1 ∧
    toDouble order.price = truncated (tick (truncated (asked mid (offsetAt keys j k.1) k.1)))
  changed : ∀ side i, (g'.levels i).slot side ≠ (g.levels i).slot side ↔
    ∃ j, keys[j]? = some (side,i) ∧ ids.getD j 0 ≠ 0
  filled : ∀ j k, keys[j]? = some k → (g.levels k.2).slot k.1 = 0 ∧ (g'.levels k.2).slot k.1 = ids.getD j 0
  kept : ∀ side i, (g.levels i).slot side ≠ 0 → (g'.levels i).slot side = (g.levels i).slot side
  ticks : g'.ticksProcessed = g.ticksProcessed+UInt64.ofNat (moves.filterMap Move.accepted).length
  fills : g'.fillsProcessed = g.fillsProcessed
  steady : Steady g g'

theorem quote_exact {x : Rat} (fits : Castable x) (rounds : Castable (tick (truncated x))) :
    (toDouble (roundPrice Rat (toDecimal x) 1) : Rat) = truncated (tick (truncated x)) := by
  show quote x = _
  rw [quote_tick,toDouble_toDecimal x fits,toDouble_toDecimal _ rounds]

theorem asked_aggressive (mid : Rat) (k : Nat) (side : OrderSide) : aggressive mid k side = asked mid k side := by
  cases side
  · exact aggressive_buy mid k
  · exact aggressive_sell mid k

theorem onTick_exact {n : Nat} {g : Strategy Rat n} {answers : Answers} {mid : Decimal} (on : g.initialized = true)
    (known : answers.mid = some mid)
    (fits : ∀ side, ∀ k < openings g (toDouble mid) side,
      Castable (asked (toDouble mid) k side) ∧ Castable (tick (truncated (asked (toDouble mid) k side)))) :
    ∃ keys, Replenished g (toDouble mid) answers.ids keys (onTick g ⟨answers,[]⟩).1 (onTick g ⟨answers,[]⟩).2.moves := by
  obtain ⟨st,same,placing⟩ := onTick_placing on known
  have exact : ∀ side i, (side,i) ∈ missing g (toDouble mid) ↔ (g.levels i).slot side = 0 ∧ match side with
      | .buy => (toDouble (g.levels i).price : Rat) < toDouble mid
      | .sell => (toDouble mid : Rat) < toDouble (g.levels i).price := fun _ _ => mem_missing.trans opens_rat
  have free : ∀ {j} {k : Key n}, (missing g (toDouble mid))[j]? = some k → (g.levels k.2).slot k.1 = 0 :=
    fun at_ => ((exact _ _).mp (List.mem_of_getElem? at_)).1
  have filled : ∀ {j} {k : Key n}, (missing g (toDouble mid))[j]? = some k →
      (st.strategy.levels k.2).slot k.1 = answers.ids.getD j 0 := by
    intro j k at_
    rw [placing.placed j k at_,free at_]
    split
    · exact ‹_ = 0›.symm
    · rfl
  rw [same]
  refine ⟨missing g (toDouble mid),?_⟩
  refine ⟨missing_ascending g _,exact,placing.length,?_,?_,fun j k at_ => ⟨free at_,filled at_⟩,?_,placing.ticks,placing.fills,
    placing.steady⟩
  · intro j k at_
    have room := offsetAt_lt at_
    rw [missing_count] at room
    obtain ⟨small,rounds⟩ := fits k.1 _ room
    refine ⟨_,placing.moves j k at_,rfl,rfl,?_,?_⟩
    · rw [← asked_aggressive]
      rfl
    · rw [← quote_exact small rounds,← asked_aggressive]
      rfl
  · intro side i
    constructor
    · intro moved
      by_cases member : (side,i) ∈ missing g (toDouble mid)
      · obtain ⟨j,at_⟩ := List.mem_iff_getElem?.mp member
        refine ⟨j,at_,fun refused => moved ?_⟩
        exact (filled at_).trans (refused.trans (free at_).symm)
      · exact absurd (placing.kept (side,i) member) moved
    · rintro ⟨j,at_,accepted⟩ unmoved
      exact accepted ((filled at_).symm.trans (unmoved.trans (free at_)))
  · intro side i held
    apply placing.kept (side,i)
    intro member
    exact held ((exact side i).mp member).1

def sellRefused : Answers := {mid := hundred, ids := [1]}

theorem onTick_exact_sellRefused : ∃ keys, Replenished (onLoad (initial pair)) 100 sellRefused.ids keys
    (onTick (onLoad (initial pair)) ⟨sellRefused,[]⟩).1 (onTick (onLoad (initial pair)) ⟨sellRefused,[]⟩).2.moves := by
  have hundreds : (100 : Rat) = toDouble ⟨100*2^32,by decide,by decide⟩ := by decide +kernel
  rw [hundreds]
  have known : sellRefused.mid = some ⟨100*2^32,by decide,by decide⟩ := rfl
  have fits : ∀ side, ∀ k < openings (onLoad (initial pair)) (toDouble ⟨100*2^32,by decide,by decide⟩) side,
      Castable (asked (toDouble ⟨100*2^32,by decide,by decide⟩) k side) ∧
        Castable (tick (truncated (asked (toDouble ⟨100*2^32,by decide,by decide⟩) k side))) := by
    intro side
    cases side <;> decide +kernel
  exact onTick_exact rfl known fits

end Chronos.GridStrategy
