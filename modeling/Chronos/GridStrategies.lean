import Chronos.ConfiguredGrids
import Chronos.GridAccounts
import Chronos.Interleaved
import Chronos.OrderIds
import Mathlib.Data.List.Pairwise

namespace Chronos.GridStrategies
open GridStrategy
open Interleaved (only)

variable {F : Type} [Double F]

abbrev Registered (F : Type) [Double F] := List ((n : Nat) × Strategy F n)

def size (gs : Registered F) (i : Fin gs.length) : Nat := (gs.get i).1

def State (gs : Registered F) : Type := (i : Fin gs.length) → Strategy F (size gs i)

def start (gs : Registered F) : State gs := fun i => (gs.get i).2

abbrev Callbacks (gs : Registered F) := List ((i : Fin gs.length) × Event (size gs i))

def Step (gs : Registered F) : State gs → (i : Fin gs.length) × Event (size gs i) → State gs → Prop :=
  Interleaved.Step fun _ => GridStrategy.Step

def partOf {gs : Registered F} (es : Callbacks gs) (i : Fin gs.length) : List (Event (size gs i)) := only i es

def allAccepted {gs : Registered F} (es : Callbacks gs) : List OrderId := es.flatMap fun e => e.2.moves.filterMap Move.accepted

def accountOf {gs : Registered F} (es : Callbacks gs) (s : State gs) (i : Fin gs.length) : List OrderId :=
  live (s i)++processed (partOf es i)++cancelled (partOf es i)++overwritten (partOf es i)

def Drawn {gs : Registered F} (start : UInt64) (m : Nat) (es : Callbacks gs) : Prop :=
  (allAccepted es).Sublist (((OrderIDGenerator.mk start).issue m).map UInt64.toNat)

instance {gs : Registered F} (start : UInt64) (m : Nat) (es : Callbacks gs) : Decidable (Drawn start m es) :=
  inferInstanceAs (Decidable (List.Sublist _ _))

structure Apart {gs : Registered F} (es : Callbacks gs) (s : State gs) : Prop where
  alone : ∀ i, Runs GridStrategy.Step (start gs i) (partOf es i) (s i)
  accounts : (allAccepted es).Perm ((List.finRange gs.length).flatMap (accountOf es s))
  distinct : ((List.finRange gs.length).flatMap (accountOf es s)).Nodup
  foreign : ∀ i j fill answers, fill.orderId ∈ accepted (partOf es i) → j ≠ i →
    deliver (s j) (.onFill fill answers) = (s j,[.filled fill none])

variable {gs : Registered F} {es : Callbacks gs} {s : State gs}

theorem allAccepted_perm (es : Callbacks gs) :
    (allAccepted es).Perm ((List.finRange gs.length).flatMap fun i => accepted (partOf es i)) := by
  have shares := Interleaved.shares_perm (List.nodup_finRange _) List.mem_finRange
    (fun i (e : Event (size gs i)) => e.moves.filterMap Move.accepted) es
  simpa [allAccepted,partOf,accepted,history,List.filterMap_flatMap] using shares

theorem runs_apart (empty : ∀ i, table (start gs i) = fun _ => none) (path : Runs (Step gs) (start gs) es s)
    (fresh : (allAccepted es).Nodup) : Apart es s := by
  have alone : ∀ i, Runs GridStrategy.Step (start gs i) (partOf es i) (s i) := Interleaved.project path
  have accounts : (allAccepted es).Perm ((List.finRange gs.length).flatMap (accountOf es s)) :=
    (allAccepted_perm es).trans (List.Perm.flatMap_left _ fun i _ => accepted_perm (empty i) (alone i))
  refine ⟨alone,accounts,accounts.nodup_iff.mp fresh,fun i j fill answers mine other => deliver_unknown ?_ answers⟩
  cases found : slotOf fill.orderId (s j).levels with
  | none => rfl
  | some k =>
    have held := SlotTable.known (empty j ▸ runs_table (alone j)) (slotOf_some found)
    have theirs : fill.orderId ∈ accepted (partOf es j) := ordersOf_accepted (entered_ordersOf held)
    have apart := (List.nodup_flatMap.mp ((allAccepted_perm es).nodup_iff.mp fresh)).2
    have : Std.Symm (Function.onFun List.Disjoint fun i => accepted (partOf es i)) := ⟨fun _ _ disjoint _ left right => disjoint right left⟩
    exact absurd theirs (apart.forall (List.mem_finRange i) (List.mem_finRange j) (Ne.symm other) mine)

theorem registered_empty {cfg : AppConfig F} (registered : registerStrategies cfg = .ok gs) (i : Fin gs.length) :
    table (start gs i) = fun _ => none := by
  have made : ∀ g ∈ gs, table g.2 = fun _ => none := by
    rw [registerStrategies_make] at registered
    refine Yaml.mapM_good registered fun c g made => ?_
    obtain ⟨strategy,built,last⟩ := Yaml.bind_ok.mp made
    cases last
    obtain ⟨_,rfl⟩ := construct_ok.mp built
    exact table_initial c
  exact made _ (List.get_mem gs i)

-- However the engine hands ticks, fills and timers to the registered strategies,
-- no order of one of them is ever in a slot of another, or acted on by it.
theorem strategies_apart {F : Type} [Double F] {cfg : AppConfig F} {gs : Registered F} {es : Callbacks gs} {s : State gs}
    {first : UInt64} {m : Nat} (registered : registerStrategies cfg = .ok gs) (path : Runs (Step gs) (start gs) es s)
    (few : m < 2^64-first.toNat) (drawn : Drawn first m es) : Apart es s :=
  runs_apart (registered_empty registered) path
    (drawn.nodup (OrderIDGenerator.issue_nodup (show first.toNat+m ≤ 2^64 by omega)))

def followOne {gs : Registered F} (s : State gs) (choice : Fin gs.length × Callback) :
    Option (((i : Fin gs.length) × Event (size gs i)) × State gs) :=
  some (⟨choice.1,choice.2,(deliver (s choice.1) choice.2).2⟩,Function.update s choice.1 (deliver (s choice.1) choice.2).1)

theorem followOne_sound {gs : Registered F} (s : State gs) (choice : Fin gs.length × Callback)
    (e : (i : Fin gs.length) × Event (size gs i)) (t : State gs) (followed : followOne s choice = some (e,t)) : Step gs s e t := by
  cases followed
  exact ⟨_,rfl,rfl⟩

def oneGrid : StrategyCfg Rat := {type := "grid", gridLow := 90, gridHigh := 110, gridLevels := 1}

def twoGrids : Registered Rat := [⟨_,initial (gridConfig oneGrid)⟩,⟨_,initial (gridConfig oneGrid)⟩]

def turn (grid : Bool) (callback : Callback) : Fin twoGrids.length × Callback :=
  (if grid then ⟨1,by decide⟩ else ⟨0,by decide⟩,callback)

def inTurns : List (Fin twoGrids.length × Callback) :=
  [turn false .onLoad,turn true .onLoad,turn false (.onTick {mid := hundred, ids := [1,2]}),
   turn true (.onTick {mid := hundred, ids := [3,4]}),turn true (.onFill (whole 1) {mid := hundred, ids := [5]}),
   turn false (.onFill (whole 1) {mid := hundred, ids := [5]})]

theorem strategies_apart_inTurns :
    ∃ follows : (play followOne (start twoGrids) inTurns).isSome,
      let run := (play followOne (start twoGrids) inTurns).get follows
      Apart run.1 run.2 ∧ allAccepted run.1 = [1,2,3,4,5] :=
  have drawn : Drawn 1 5 ((play followOne (start twoGrids) inTurns).get (by decide +kernel)).1 := by
    decide +kernel
  have registered : registerStrategies {strategies := [oneGrid,oneGrid]} = .ok twoGrids := rfl
  ⟨by decide +kernel,strategies_apart registered (play_get followOne_sound _) (by decide) drawn,by decide +kernel⟩

end Chronos.GridStrategies
