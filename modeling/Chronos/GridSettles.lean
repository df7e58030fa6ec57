import Chronos.GridTick

namespace Chronos.GridStrategy

section Sweeps
variable {n : Nat} {g : Strategy Rat n} {answers : Answers} {mid : Decimal}

-- Below mid a level is to be bought at, above it sold at; an order the other
-- way is stale.
def stale (g : Strategy Rat n) (mid : Rat) : OrderSide → Fin n → Bool
  | .buy,i => Double.less mid (toDouble (g.levels i).price)
  | .sell,i => Double.less (toDouble (g.levels i).price) mid

theorem stale_congr {g' : Strategy Rat n} (steady : Steady g g') (mid : Rat) (side : OrderSide) (i : Fin n) :
    stale g' mid side i = stale g mid side i := by
  cases side <;> simp only [stale,steady.2.2 i]

theorem timerSlot_slot (side s : OrderSide) (late : Bool) (w : Strategy Rat n × Context n) (i j : Fin n) :
    ((timerSlot side late w i).1.levels j).slot s = if late = true ∧ s = side ∧ j = i then 0 else (w.1.levels j).slot s := by
  unfold timerSlot
  by_cases due : late = true ∧ (w.1.levels i).slot side ≠ 0
  · rw [if_pos due,setSlot_slot]
    simp only [due.1,true_and]
  · rw [if_neg due]
    split
    · rename_i here
      obtain ⟨late,rfl,rfl⟩ := here
      by_contra held
      exact due ⟨late,held⟩
    · rfl

theorem timerSlot_steady (side : OrderSide) (late : Bool) (w : Strategy Rat n × Context n) (i : Fin n) :
    Steady w.1 (timerSlot side late w i).1 := (timerSlot_expired side late w i).choose_spec.steady

theorem timerLevel_slot (mid : Rat) (w : Strategy Rat n × Context n) (i j : Fin n) (s : OrderSide) :
    ((timerLevel mid w i).1.levels j).slot s = if stale w.1 mid s i ∧ j = i then 0 else (w.1.levels j).slot s := by
  unfold timerLevel
  rw [timerSlot_slot,timerSlot_slot]
  cases s with
  | buy => rw [if_neg (by simp)]; exact if_congr (by simp [stale]) rfl rfl
  | sell => rw [if_neg (c:=_ ∧ OrderSide.sell = .buy ∧ _) (by simp)]; exact if_congr (by simp [stale]) rfl rfl

theorem timerLevel_steady (mid : Rat) (w : Strategy Rat n × Context n) (i : Fin n) : Steady w.1 (timerLevel mid w i).1 := by
  unfold timerLevel
  exact (timerSlot_steady .buy _ w i).trans (timerSlot_steady .sell _ _ i)

theorem timerLoop_slots (mid : Rat) (levels : List (Fin n)) (w : Strategy Rat n × Context n) (j : Fin n) (s : OrderSide) :
    ((levels.foldl (timerLevel mid) w).1.levels j).slot s =
      if stale w.1 mid s j ∧ j ∈ levels then 0 else (w.1.levels j).slot s := by
  induction levels generalizing w with
  | nil => simp
  | cons i rest ih =>
    rw [List.foldl_cons,ih,timerLevel_slot]
    simp only [stale_congr (timerLevel_steady mid w i),List.mem_cons]
    by_cases here : j = i
    · subst here
      by_cases late : stale w.1 mid s j <;> simp [late]
    · simp [here]

theorem timer_clears (on : g.initialized = true) (known : answers.mid = some mid) (side : OrderSide) (i : Fin n) :
    ((onTimer g ⟨answers,[]⟩).1.levels i).slot side =
      if stale g (toDouble mid) side i then 0 else (g.levels i).slot side := by
  unfold onTimer
  simp only [on,known,if_true]
  rw [timerLoop_slots]
  simp

theorem tick_fills (on : g.initialized = true) (known : answers.mid = some mid)
    (accepted : ∀ i order answer, .submit i order answer ∈ (onTick g ⟨answers,[]⟩).2.moves → answer ≠ 0)
    (side : OrderSide) (i : Fin n) :
    if beyond (toDouble mid : Rat) (toDouble (g.levels i).price) side = true
    then ((onTick g ⟨answers,[]⟩).1.levels i).slot side ≠ 0
    else ((onTick g ⟨answers,[]⟩).1.levels i).slot side = (g.levels i).slot side := by
  obtain ⟨st,same,placing⟩ := onTick_placing on known
  rw [same] at accepted ⊢
  by_cases opened : (side,i) ∈ missing g (toDouble mid)
  · obtain ⟨away,_⟩ := opens_iff.mp (mem_missing.mp opened)
    obtain ⟨j,at_⟩ := List.mem_iff_getElem?.mp opened
    have real := accepted _ _ _ (List.mem_of_getElem? (placing.moves j _ at_))
    have placed := placing.placed j _ at_
    rw [if_neg real] at placed
    rw [if_pos away]
    exact placed.trans_ne real
  · have kept := placing.kept _ opened
    split
    · rename_i away
      intro empty
      exact opened (mem_missing.mpr (opens_iff.mpr ⟨away,kept.symm.trans empty⟩))
    · exact kept

structure Settled (g : Strategy Rat n) (mid : Rat) : Prop where
  below : ∀ i, (toDouble (g.levels i).price : Rat) < mid → (g.levels i).buyOrderId ≠ 0 ∧ (g.levels i).sellOrderId = 0
  above : ∀ i, mid < (toDouble (g.levels i).price : Rat) → (g.levels i).sellOrderId ≠ 0 ∧ (g.levels i).buyOrderId = 0

theorem Settled.nothing_missing {mid : Rat} (settled : Settled g mid) : missing g mid = [] := by
  apply List.eq_nil_iff_forall_not_mem.mpr
  rintro ⟨side,i⟩ member
  obtain ⟨empty,away⟩ := opens_rat.mp (mem_missing.mp member)
  cases side with
  | buy => exact (settled.below i away).1 empty
  | sell => exact (settled.above i away).1 empty

theorem Settled.nothing_stale {mid : Rat} (settled : Settled g mid) (late : stale g mid side i = true) : (g.levels i).slot side = 0 := by
  cases side with
  | buy => exact (settled.above i (of_decide_eq_true late)).2
  | sell => exact (settled.below i (of_decide_eq_true late)).2

theorem level_same {l l' : GridLevel} (price : l'.price = l.price) (slots : ∀ side, l'.slot side = l.slot side) : l' = l := by
  obtain ⟨p,buy,sell⟩ := l
  obtain ⟨p',buy',sell'⟩ := l'
  have bought : buy' = buy := slots .buy
  have sold : sell' = sell := slots .sell
  rw [show p' = p from price,bought,sold]

theorem tick_quiet (settled : Settled g (toDouble mid)) (known : answers.mid = some mid) :
    (onTick g ⟨answers,[]⟩).2.moves = [] ∧ (onTick g ⟨answers,[]⟩).1.levels = g.levels := by
  by_cases on : g.initialized = true
  · obtain ⟨st,same,placing⟩ := onTick_placing on known
    rw [settled.nothing_missing] at placing
    rw [same]
    constructor
    · exact List.length_eq_zero_iff.mp placing.length
    · funext i
      exact level_same (placing.steady.2.2 i) fun side => placing.kept (side,i) (by simp)
  · rw [onTick_quiet (.inl (by simpa using on))]
    exact ⟨rfl,rfl⟩

theorem timerLoop_quiet (mid : Rat) (levels : List (Fin n)) (w : Strategy Rat n × Context n)
    (idle : ∀ side i, stale w.1 mid side i = true → (w.1.levels i).slot side = 0) : levels.foldl (timerLevel mid) w = w := by
  have still : ∀ side i late, (late = true → stale w.1 mid side i = true) → timerSlot side late w i = w := by
    intro side i late due
    unfold timerSlot
    exact if_neg fun both => both.2 (idle side i (due both.1))
  induction levels with
  | nil => rfl
  | cons i rest ih =>
    have bought := still .buy i (Double.less mid (toDouble (w.1.levels i).price)) id
    have sold := still .sell i (Double.less (toDouble (w.1.levels i).price) mid) id
    have level : timerLevel mid w i = w := (congrArg (timerSlot .sell _ · i) bought).trans sold
    rw [List.foldl_cons,level,ih]

theorem timer_quiet (settled : Settled g (toDouble mid)) (known : answers.mid = some mid) :
    onTimer g ⟨answers,[]⟩ = (g,⟨answers,[]⟩) := by
  unfold onTimer
  simp only [known]
  split
  · exact timerLoop_quiet _ _ _ fun side i => settled.nothing_stale
  · rfl

theorem timer_steady (g : Strategy Rat n) (answers : Answers) : Steady g (onTimer g ⟨answers,[]⟩).1 :=
  (onTimer_expired g ⟨answers,[]⟩).choose_spec.steady

theorem tick_steady (g : Strategy Rat n) (answers : Answers) : Steady g (onTick g ⟨answers,[]⟩).1 :=
  (onTick_ticked g ⟨answers,[]⟩).choose_spec.steady

end Sweeps

section Settling
variable {n : Nat} {g g' g'' : Strategy Rat n} {mid : Decimal}

def Event.ticksAt (mid : Decimal) (e : Event n) : Prop := ∃ answers, e.callback = .onTick answers ∧ answers.mid = some mid
def Event.timesAt (mid : Decimal) (e : Event n) : Prop := ∃ answers, e.callback = .onTimer answers ∧ answers.mid = some mid

def AllAccepted (e : Event n) : Prop := ∀ side, ∀ placed ∈ submits side e.moves, placed.2 ≠ 0

def Filling (mid : Rat) (g g' : Strategy Rat n) : Prop :=
  ∀ side i, if beyond mid (toDouble (g.levels i).price) side = true then (g'.levels i).slot side ≠ 0
    else (g'.levels i).slot side = (g.levels i).slot side

def Clearing (mid : Rat) (g g' : Strategy Rat n) : Prop :=
  ∀ side i, (g'.levels i).slot side = if stale g mid side i then 0 else (g.levels i).slot side

theorem step_fills {e : Event n} (step : Step g e g') (on : g.initialized = true) (ticks : e.ticksAt mid)
    (accepted : AllAccepted e) : Filling (toDouble mid) g g' ∧ Steady g g' := by
  obtain ⟨callback,moves⟩ := e
  obtain ⟨answers,rfl,known⟩ := ticks
  cases step
  have real : ∀ i order answer, .submit i order answer ∈ (onTick g ⟨answers,[]⟩).2.moves → answer ≠ 0 :=
    fun i order answer sent => accepted order.side _ (mem_submits.mpr ⟨rfl,i,sent⟩)
  exact ⟨tick_fills on known real,tick_steady g answers⟩

theorem step_clears {e : Event n} (step : Step g e g') (on : g.initialized = true) (times : e.timesAt mid) :
    Clearing (toDouble mid) g g' ∧ Steady g g' := by
  obtain ⟨callback,moves⟩ := e
  obtain ⟨answers,rfl,known⟩ := times
  cases step
  exact ⟨timer_clears on known,timer_steady g answers⟩

theorem step_quiet {e : Event n} (step : Step g e g') (settled : Settled g (toDouble mid))
    (sweeps : e.ticksAt mid ∨ e.timesAt mid) : e.moves = [] ∧ g'.levels = g.levels := by
  obtain ⟨callback,moves⟩ := e
  rcases sweeps with ⟨answers,rfl,known⟩ | ⟨answers,rfl,known⟩
  · cases step
    exact tick_quiet settled known
  · simp only [Step,deliver,timer_quiet settled known] at step
    cases step
    exact ⟨rfl,rfl⟩

theorem beyond_fresh {mid : Rat} {side : OrderSide} {i : Fin n} (away : beyond mid (toDouble (g.levels i).price) side = true) :
    stale g mid side i = false := by
  apply Bool.eq_false_iff.mpr
  intro late
  cases side <;> exact absurd (of_decide_eq_true away) (not_lt.mpr (of_decide_eq_true late).le)

structure Swept (mid : Rat) (g g' : Strategy Rat n) : Prop where
  steady : Steady g g'
  full : ∀ side i, beyond mid (toDouble (g.levels i).price) side = true → (g'.levels i).slot side ≠ 0
  empty : ∀ side i, stale g mid side i = true → (g'.levels i).slot side = 0
  kept : ∀ side i, beyond mid (toDouble (g.levels i).price) side = false → stale g mid side i = false →
    (g'.levels i).slot side = (g.levels i).slot side

theorem tick_then_timer {mid : Rat} (ticked : Filling mid g g' ∧ Steady g g') (timed : Clearing mid g' g'' ∧ Steady g' g'') :
    Swept mid g g'' := by
  obtain ⟨filling,front⟩ := ticked
  obtain ⟨clearing,back⟩ := timed
  have late : ∀ side i, stale g' mid side i = stale g mid side i := stale_congr front mid
  refine ⟨front.trans back,fun side i away => ?_,fun side i old => ?_,fun side i here young => ?_⟩
  · have full := filling side i
    rw [if_pos away] at full
    rwa [clearing,late,beyond_fresh away]
  · rw [clearing,late,old]
    rfl
  · have same := filling side i
    rw [here] at same
    rw [clearing,late,young]
    exact same

theorem timer_then_tick {mid : Rat} (timed : Clearing mid g g' ∧ Steady g g') (ticked : Filling mid g' g'' ∧ Steady g' g'') :
    Swept mid g g'' := by
  obtain ⟨clearing,front⟩ := timed
  obtain ⟨filling,back⟩ := ticked
  refine ⟨front.trans back,fun side i away => ?_,fun side i old => ?_,fun side i here young => ?_⟩
  · have full := filling side i
    rwa [front.2.2 i,if_pos away] at full
  · have same := filling side i
    have here : beyond mid (toDouble (g.levels i).price) side = false := by
      apply Bool.eq_false_iff.mpr
      intro away
      rw [beyond_fresh away] at old
      cases old
    rw [front.2.2 i,here] at same
    exact same.trans (by rw [clearing,old]; rfl)
  · have same := filling side i
    rw [front.2.2 i,here] at same
    exact same.trans (by rw [clearing,young]; rfl)

theorem Swept.settled {mid : Rat} (swept : Swept mid g g') : Settled g' mid := by
  constructor
  · intro i below
    rw [swept.steady.2.2 i] at below
    exact ⟨swept.full .buy i (decide_eq_true below),swept.empty .sell i (decide_eq_true below)⟩
  · intro i above
    rw [swept.steady.2.2 i] at above
    exact ⟨swept.full .sell i (decide_eq_true above),swept.empty .buy i (decide_eq_true above)⟩

theorem Swept.untouched {mid : Rat} (swept : Swept mid g g') (level : (toDouble (g.levels i).price : Rat) = mid) :
    g'.levels i = g.levels i := by
  refine level_same (swept.steady.2.2 i) fun side => swept.kept side i ?_ ?_
  · cases side <;> exact decide_eq_false (by rw [level]; exact lt_irrefl _)
  · cases side <;> exact decide_eq_false (by rw [level]; exact lt_irrefl _)

theorem runs_quiet {es : List (Event n)} (path : Runs Step g es g') (settled : Settled g (toDouble mid))
    (sweeps : ∀ e ∈ es, e.ticksAt mid ∨ e.timesAt mid) : history es = [] ∧ g'.levels = g.levels := by
  induction path with
  | nil => exact ⟨rfl,rfl⟩
  | step prior taken ih =>
    obtain ⟨silent,same⟩ := ih fun e member => sweeps e (List.mem_append_left _ member)
    have here := step_quiet taken (by constructor <;> rw [same]; exact settled.below; exact settled.above)
      (sweeps _ (by simp))
    rw [history_snoc,silent,here.1]
    exact ⟨rfl,here.2.trans same⟩

theorem settles {n : Nat} {g g' g'' : Strategy Rat n} {mid : Decimal} {one two : Event n} (on : g.initialized = true)
    (first : Step g one g') (second : Step g' two g'')
    (sweeps : (one.ticksAt mid ∧ two.timesAt mid) ∨ (one.timesAt mid ∧ two.ticksAt mid))
    (accepted : AllAccepted one ∧ AllAccepted two) :
    Settled g'' (toDouble mid) ∧ (∀ i, (toDouble (g.levels i).price : Rat) = toDouble mid → g''.levels i = g.levels i) ∧
      ∀ es last, Runs Step g'' es last → (∀ e ∈ es, e.ticksAt mid ∨ e.timesAt mid) →
        history es = [] ∧ last.levels = g''.levels := by
  have swept : Swept (toDouble mid) g g'' := by
    rcases sweeps with ⟨ticks,times⟩ | ⟨times,ticks⟩
    · have ticked := step_fills first on ticks accepted.1
      exact tick_then_timer ticked (step_clears second (ticked.2.2.1.trans on) times)
    · have timed := step_clears first on times
      exact timer_then_tick timed (step_fills second (timed.2.2.1.trans on) ticks accepted.2)
  exact ⟨swept.settled,fun i => swept.untouched,fun es last path => runs_quiet path swept.settled⟩

end Settling

-- Both levels hold an order when the price moves above the grid: the timer
-- cancels the sell at 110, the tick buys there.
def bothLive : Strategy Rat (pair.gridLevels+1).toNat :=
  (deliver (onLoad (initial pair)) (.onTick {mid := hundred, ids := [1,2]})).1

def timedAbove : Event (pair.gridLevels+1).toNat := ⟨.onTimer {mid := above},(deliver bothLive (.onTimer {mid := above})).2⟩

def afterTimer : Strategy Rat (pair.gridLevels+1).toNat := (deliver bothLive (.onTimer {mid := above})).1

def tickedAbove : Event (pair.gridLevels+1).toNat :=
  ⟨.onTick {mid := above, ids := [3]},(deliver afterTimer (.onTick {mid := above, ids := [3]})).2⟩

theorem settles_priceAbove :
    let g := (deliver afterTimer (.onTick {mid := above, ids := [3]})).1
    timedAbove.moves.length = 1 ∧ tickedAbove.moves.length = 1 ∧ Settled g 120 ∧
      (∀ i, (toDouble (bothLive.levels i).price : Rat) = 120 → g.levels i = bothLive.levels i) ∧
      ∀ es last, Runs Step g es last →
        (∀ e ∈ es, e.ticksAt ⟨120*2^32,by decide,by decide⟩ ∨ e.timesAt ⟨120*2^32,by decide,by decide⟩) →
        history es = [] ∧ last.levels = g.levels := by
  have price : (120 : Rat) = toDouble ⟨120*2^32,by decide,by decide⟩ := by decide +kernel
  have accepted : AllAccepted timedAbove ∧ AllAccepted tickedAbove := by
    constructor <;> intro side <;> cases side <;> decide +kernel
  rw [price]
  exact ⟨by decide +kernel,by decide +kernel,
    settles (show bothLive.initialized = true by decide +kernel) (show Step bothLive timedAbove afterTimer from rfl)
      (show Step afterTimer tickedAbove _ from rfl) (.inr ⟨⟨_,rfl,rfl⟩,⟨_,rfl,rfl⟩⟩) accepted⟩

end Chronos.GridStrategy
