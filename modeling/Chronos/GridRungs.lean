import Chronos.GridInventory

namespace Chronos.GridStrategy
open SlotTable

variable {F : Type} [Double F] {n : Nat}

def entries (moves : List (Move n)) : List (Key n × OrderId) := entered (moves.map Move.change)

def placedAt (k : Key n) (es : List (Event n)) : Nat := (entries (history es)).countP (·.1 = k)

def openedAt (k : Key n) (es : List (Event n)) : Nat := placedAt k (es.filter Event.isTick)

def fillsAt (k : Key n) (es : List (Event n)) : Nat := (filled es).countP fun oid => (k,oid) ∈ entries (history es)

def Move.matched : Move n → Option (Key n)
  | .filled _ slot => slot
  | _ => none

def Event.answered (k : Key n) (e : Event n) : Bool :=
  k ∈ e.moves.filterMap Move.matched ∧ e.moves.filterMap Move.accepted ≠ []

def answeredAt (k : Key n) (es : List (Event n)) : Nat := es.countP (Event.answered k)

theorem neighbour_symm {k k' : Key n} (next : neighbour k = some k') : neighbour k' = some k := by
  obtain ⟨side,i,inside⟩ := k
  cases side with
  | buy =>
    simp only [neighbour] at next
    split at next
    · cases next
      simp [neighbour]
    · cases next
  | sell =>
    simp only [neighbour] at next
    split at next
    · rename_i above
      cases next
      have back : i-1+1 = i := Nat.sub_add_cancel above
      simp [neighbour,back,inside]
    · cases next

theorem entries_append (moves more : List (Move n)) : entries (moves++more) = entries moves++entries more := by
  simp [entries,entered]

theorem placedAt_append (k : Key n) (es more : List (Event n)) :
    placedAt k (es++more) = placedAt k es+placedAt k more := by
  simp [placedAt,history,entries_append]

theorem openedAt_append (k : Key n) (es more : List (Event n)) :
    openedAt k (es++more) = openedAt k es+openedAt k more := by
  simp [openedAt,List.filter_append,placedAt_append]

theorem answeredAt_append (k : Key n) (es more : List (Event n)) :
    answeredAt k (es++more) = answeredAt k es+answeredAt k more := List.countP_append ..

theorem placedAt_one (k : Key n) (e : Event n) : placedAt k [e] = (entries e.moves).countP (·.1 = k) := by
  simp [placedAt,history]

theorem openedAt_tick {e : Event n} (tick : e.isTick = true) (k : Key n) : openedAt k [e] = placedAt k [e] := by
  simp [openedAt,tick]

theorem openedAt_other {e : Event n} (other : e.isTick = false) (k : Key n) : openedAt k [e] = 0 := by
  simp [openedAt,other,placedAt,history,entries,entered]

theorem answered_fill {e : Event n} (answered : e.answered k = true) : ∃ fill, .filled fill (some k) ∈ e.moves := by
  simp only [Event.answered,decide_eq_true_eq] at answered
  obtain ⟨m,member,here⟩ := List.mem_filterMap.mp answered.1
  cases m with
  | submit | cancel => cases here
  | filled fill slot =>
    cases here
    exact ⟨fill,member⟩

theorem answeredAt_undelivered {e : Event n} {k : Key n} (undelivered : ∀ fill, .filled fill (some k) ∉ e.moves) :
    answeredAt k [e] = 0 := by
  refine List.countP_eq_zero.mpr fun e' member answered => ?_
  obtain rfl := List.mem_singleton.mp member
  obtain ⟨fill,here⟩ := answered_fill answered
  exact undelivered fill here

theorem counter_placed {held other : Key n} (next : neighbour held = some other) (k : Key n) (fill : Fill)
    {order : OrderRequest} (aimed : order.side = other.1) (callback : Callback) (answer : OrderId) :
    placedAt k [⟨callback,[.filled fill (some held),.submit other.2 order answer]⟩] =
      (neighbour k).elim 0 fun k' =>
        answeredAt k' [⟨callback,[.filled fill (some held),.submit other.2 order answer]⟩] := by
  have shape : (order.side,other.2) = other := by rw [aimed]
  by_cases refused : answer = 0
  · cases near : neighbour k <;>
      simp [placedAt_one,entries,entered,Move.change,Change.entered,answeredAt,Event.answered,Move.accepted,refused]
  · by_cases mine : k = other
    · subst k
      simp [placedAt_one,entries,entered,Move.change,Change.entered,answeredAt,Event.answered,Move.accepted,Move.matched,
        List.filterMap_cons,refused,shape,neighbour_symm next]
    · have elsewhere : neighbour k ≠ some held := fun near =>
        mine (Option.some.inj ((neighbour_symm near).symm.trans next))
      have nothing : placedAt k [⟨callback,[.filled fill (some held),.submit other.2 order answer]⟩] = 0 := by
        simp [placedAt_one,entries,entered,Move.change,Change.entered,refused,shape,Ne.symm mine]
      rw [nothing]
      cases near : neighbour k with
      | none => rfl
      | some k' =>
        have missed : k' ≠ held := fun same => elsewhere (by rw [near,same])
        symm
        refine answeredAt_undelivered fun fill' here => ?_
        simp [missed] at here

theorem step_placed {g g' : Strategy F n} {e : Event n} (step : Step g e g') (k : Key n) :
    placedAt k [e] = openedAt k [e]+(neighbour k).elim 0 (answeredAt · [e]) := by
  have idle : ∀ e : Event n, (∀ fill slot, .filled fill slot ∉ e.moves) → (neighbour k).elim 0 (answeredAt · [e]) = 0 := by
    intro e undelivered
    cases near : neighbour k with
    | none => rfl
    | some k' => exact answeredAt_undelivered fun fill => undelivered fill _
  cases step_explained step with
  | load | unload =>
    rw [openedAt_other rfl,idle _ (by simp)]
    simp [placedAt,history,entries,entered]
  | tick ticked =>
    rw [openedAt_tick rfl,idle _ fun fill slot member => ?_,Nat.add_zero]
    obtain ⟨_,_,_,_,order⟩ := ticked.orders _ member
    cases order
  | timer expired =>
    rename_i answers ctx moves
    have none : entries moves = [] := List.filterMap_eq_nil_iff.mpr fun c member => by
      obtain ⟨m,present,rfl⟩ := List.mem_map.mp member
      obtain ⟨_,_,_,_,rfl⟩ := expired.cancels m present
      rfl
    rw [openedAt_other rfl,idle _ fun fill slot member => ?_,placedAt_one,none]
    · rfl
    · obtain ⟨_,_,_,_,cancel⟩ := expired.cancels _ member
      cases cancel
  | fill counter =>
    rename_i fill moves answers _ _ _ _
    rw [openedAt_other rfl,Nat.zero_add]
    unfold counterMoves at counter
    split at counter
    · subst counter
      cases near : neighbour k with
      | none => cases found : slotOf fill.orderId g.levels <;> simp [placedAt,history,entries,entered,Move.change,Change.entered]
      | some k' =>
        cases found : slotOf fill.orderId g.levels <;>
          simp [placedAt,history,entries,entered,Move.change,Change.entered,answeredAt,Event.answered,Move.accepted]
    · rename_i other next
      obtain ⟨price,rfl⟩ := counter
      obtain ⟨held,found,near⟩ := Option.bind_eq_some_iff.mp next
      rw [found]
      exact counter_placed near k fill rfl _ _

theorem runs_placed {g g' : Strategy F n} {es : List (Event n)} (path : Runs Step g es g') (k : Key n) :
    placedAt k es = openedAt k es+(neighbour k).elim 0 (answeredAt · es) := by
  induction path with
  | nil => cases near : neighbour k <;> simp [placedAt,openedAt,answeredAt,history,entries,entered]
  | step _ taken ih =>
    have last := step_placed taken k
    rw [placedAt_append,openedAt_append,ih,last]
    cases near : neighbour k with
    | none => simp only [Option.elim_none]; omega
    | some k' => simp only [Option.elim_some,answeredAt_append]; omega

theorem fillsAt_snoc (k : Key n) (es : List (Event n)) (e : Event n) :
    fillsAt k es+(filled [e]).countP (fun oid => (k,oid) ∈ entries (history es)) ≤ fillsAt k (es++[e]) := by
  have more : ∀ oid : OrderId, decide ((k,oid) ∈ entries (history es)) = true →
      decide ((k,oid) ∈ entries (history (es++[e]))) = true := by
    intro oid old
    rw [history_snoc,entries_append]
    simp only [decide_eq_true_eq,List.mem_append] at old ⊢
    exact .inl old
  simp only [fillsAt,filled,List.filterMap_append,List.countP_append]
  exact Nat.add_le_add (List.countP_mono_left fun oid _ => more oid) (List.countP_mono_left fun oid _ => more oid)

theorem step_answered {g₀ g g' : Strategy F n} {es : List (Event n)} {e : Event n} (start : table g₀ = fun _ => none)
    (path : Runs Step g₀ es g) (step : Step g e g') (k : Key n) :
    answeredAt k [e] ≤ (filled [e]).countP fun oid => (k,oid) ∈ entries (history es) := by
  cases step_explained step with
  | load | unload => rw [answeredAt_undelivered (by simp)]; exact Nat.zero_le _
  | tick ticked =>
    rw [answeredAt_undelivered fun fill member => ?_]
    · exact Nat.zero_le _
    · obtain ⟨_,_,_,_,order⟩ := ticked.orders _ member
      cases order
  | timer expired =>
    rw [answeredAt_undelivered fun fill member => ?_]
    · exact Nat.zero_le _
    · obtain ⟨_,_,_,_,cancel⟩ := expired.cancels _ member
      cases cancel
  | fill counter =>
    rename_i fill moves answers _ _ _ _
    by_cases here : slotOf fill.orderId g.levels = some k
    · have slots := start ▸ runs_table path
      have mine : (k,fill.orderId) ∈ entries (history es) := known slots (slotOf_some here)
      have one : (filled [(⟨.onFill fill answers,.filled fill (slotOf fill.orderId g.levels)::moves⟩ : Event n)]).countP
          (fun oid => (k,oid) ∈ entries (history es)) = 1 := by
        simp [filled,Event.filled,mine]
      rw [one]
      exact List.countP_le_length
    · rw [answeredAt_undelivered fun fill' member => ?_]
      · exact Nat.zero_le _
      · rcases List.mem_cons.mp member with first | later
        · exact here (Move.filled.inj first).2.symm
        · obtain ⟨_,_,_,order⟩ := counterMoves_mem counter later
          cases order

theorem runs_answered {g₀ g : Strategy F n} {es : List (Event n)} (start : table g₀ = fun _ => none)
    (path : Runs Step g₀ es g) (k : Key n) : answeredAt k es ≤ fillsAt k es := by
  induction path with
  | nil => exact Nat.zero_le _
  | step prior taken ih =>
    have more := step_answered start prior taken k
    rename_i earlier _ event _
    have grown := fillsAt_snoc k earlier event
    rw [answeredAt_append]
    omega

theorem fillsAt_le {es : List (Event n)} (once : ∀ oid ∈ accepted es, (filled es).count oid ≤ 1) (k : Key n) :
    fillsAt k es ≤ placedAt k es := by
  have distinct : ((filled es).filter fun oid => (k,oid) ∈ entries (history es)).Nodup := by
    rw [List.nodup_iff_count_le_one]
    intro oid
    by_cases member : (k,oid) ∈ entries (history es)
    · have real : oid ∈ accepted es := by
        rw [accepted,← accepted_entered]
        exact List.mem_map_of_mem (f := Prod.snd) member
      exact Nat.le_trans (List.filter_sublist.count_le oid) (once oid real)
    · rw [List.count_eq_zero_of_not_mem (by simp [member])]
      exact Nat.zero_le _
  have inside : ∀ oid ∈ (filled es).filter fun oid => (k,oid) ∈ entries (history es),
      oid ∈ ((entries (history es)).filter (·.1 = k)).map Prod.snd := by
    intro oid member
    have mine : (k,oid) ∈ entries (history es) := by simpa using (List.mem_filter.mp member).2
    exact List.mem_map.mpr ⟨(k,oid),List.mem_filter.mpr ⟨mine,by simp⟩,rfl⟩
  have few := (List.subperm_of_subset distinct inside).length_le
  rwa [List.length_map,← List.countP_eq_length_filter,← List.countP_eq_length_filter] at few

-- What happens in one slot over a run. Its neighbour is the other end of its rung:
-- the sell one level above a buy, the buy one level below a sell.
structure RungKept (k : Key n) (es : List (Event n)) : Prop where
  orders : placedAt k es = openedAt k es+(neighbour k).elim 0 (answeredAt · es)
  position : fillsAt k es ≤ openedAt k es+(neighbour k).elim 0 (fillsAt · es)

-- onFill only closes what has been filled on its rung: no position on a rung is
-- larger than what onTick opened there.
theorem counters_close {F : Type} [Double F] {cfg : Config F} {es : List (Event (cfg.gridLevels+1).toNat)}
    {g : Strategy F (cfg.gridLevels+1).toNat} (path : Runs Step (initial cfg) es g)
    (once : ∀ oid ∈ accepted es, (filled es).count oid ≤ 1) (k : Key (cfg.gridLevels+1).toNat) : RungKept k es := by
  have orders := runs_placed path k
  refine ⟨orders,?_⟩
  have few := fillsAt_le once k
  cases near : neighbour k with
  | none =>
    simp only [near,Option.elim_none] at orders ⊢
    omega
  | some k' =>
    have answers := runs_answered (table_initial cfg) path k'
    simp only [near,Option.elim_some] at orders ⊢
    omega

theorem counters_close_rebought :
    ∃ follows : (play follow (initial pair) rebought).isSome,
      let run := (play follow (initial pair) rebought).get follows
      RungKept (.sell,⟨1,by decide⟩) run.1 ∧ openedAt (.sell,⟨1,by decide⟩) run.1 = 0 ∧
        placedAt (.sell,⟨1,by decide⟩) run.1 = 1 ∧ fillsAt (.buy,⟨0,by decide⟩) run.1 = 1 :=
  ⟨by decide +kernel,counters_close (play_get follow_sound (by decide +kernel)) (by decide +kernel) _,
    by decide +kernel,by decide +kernel,by decide +kernel⟩

end Chronos.GridStrategy
