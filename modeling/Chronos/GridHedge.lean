import Chronos.GridLedger

namespace Chronos.GridStrategy
open SlotTable

variable {F : Type} [Double F] {n : Nat}

def Move.quantity : Move n → Int
  | .submit _ order _ => order.quantity.raw
  | _ => 0

def Move.refused : Move n → Bool
  | .submit _ _ answer => answer = 0
  | _ => false

def hedgeable (es : List (Event n)) (oid : OrderId) : Bool :=
  (entered ((history es).map Move.change)).any fun (k,id) => id = oid && (neighbour k).isSome

-- The quantity of the orders that onFill submits, and the quantity received on
-- the orders that have a neighbour.
def countered (e : Event n) : Int :=
  match e.fill with
  | some _ => (e.moves.map Move.quantity).sum
  | none => 0

def received (es : List (Event n)) (e : Event n) : Int :=
  match e.fill with
  | some fill => if hedgeable es fill.orderId then fill.fillQuantity.raw else 0
  | none => 0

-- What the counter-orders owe the fills of a run: their quantity, and that no fill
-- is passed over.
structure Hedged (es : List (Event n)) : Prop where
  total : (es.map countered).sum = (es.map (received es)).sum
  processed : processed es = filled es

instance (es : List (Event n)) : Decidable (Hedged es) :=
  decidable_of_iff (_ ∧ _) ⟨fun ⟨total,processed⟩ => ⟨total,processed⟩,fun hedged => ⟨hedged.total,hedged.processed⟩⟩

def InOrder (es : List (Event n)) : Prop :=
  ∀ earlier e later, es = earlier++e::later → ∀ oid ∈ filled [e], oid ∈ accepted earlier

def WholeFill (cfg : Config F) (es : List (Event n)) (g : Strategy F n) (e : Event n) : Prop :=
  ∀ fill, e.fill = some fill → (slotOf fill.orderId g.levels).isSome ∧
    (hedgeable es fill.orderId = true → fill.fillQuantity = toDecimal cfg.quantity)

instance (es : List (Event n)) : Decidable (InOrder es) :=
  inferInstanceAs (Decidable (Each (fun earlier e => ∀ oid ∈ filled [e], oid ∈ accepted earlier) es))

theorem hedgeable_iff {es : List (Event n)} : hedgeable es oid = true ↔
    ∃ k, (k,oid) ∈ entered ((history es).map Move.change) ∧ (neighbour k).isSome := by
  simp only [hedgeable,List.any_eq_true,Bool.and_eq_true,decide_eq_true_eq]
  constructor
  · rintro ⟨⟨k,_⟩,member,rfl,next⟩; exact ⟨k,member,next⟩
  · rintro ⟨k,member,next⟩; exact ⟨(k,oid),member,rfl,next⟩

theorem hedgeable_snoc {es : List (Event n)} {e : Event n} (fresh : (accepted (es++[e])).Nodup)
    (old : oid ∈ accepted es) : hedgeable (es++[e]) oid = hedgeable es oid := by
  obtain ⟨k,placed⟩ := entered_accepted old
  have grown : ∀ {l}, (l,oid) ∈ entered ((history es).map Move.change) →
      (l,oid) ∈ entered ((history (es++[e])).map Move.change) := by
    intro l member
    rw [history_snoc,List.map_append,entered,List.filterMap_append]
    exact List.mem_append_left _ member
  rw [Bool.eq_iff_iff,hedgeable_iff,hedgeable_iff]
  constructor
  · rintro ⟨l,member,next⟩
    obtain rfl := (fresh_entered fresh).one_slot member (grown placed)
    exact ⟨l,placed,next⟩
  · rintro ⟨l,member,next⟩
    exact ⟨l,grown member,next⟩

theorem InOrder.before {es : List (Event n)} {e : Event n} (ordered : InOrder (es++[e])) : InOrder es := Each.front ordered

theorem mem_filled {e : Event n} (fills : e.fill = some fill) : fill.orderId ∈ filled [e] := by simp [filled_one,fills]

theorem InOrder.last {es : List (Event n)} {e : Event n} (ordered : InOrder (es++[e])) (fills : e.fill = some fill) :
    fill.orderId ∈ accepted es :=
  (Each.snoc.mp ordered).2 fill.orderId (mem_filled fills)

theorem InOrder.filled {es : List (Event n)} (ordered : InOrder es) (member : e ∈ es) (fills : e.fill = some fill) :
    fill.orderId ∈ accepted es := by
  obtain ⟨earlier,later,rfl⟩ := List.append_of_mem member
  have old := ordered earlier e later rfl fill.orderId (mem_filled fills)
  simp only [accepted,history,List.flatMap_append,List.filterMap_append] at old ⊢
  exact List.mem_append_left _ old

theorem step_countered {g₀ g g' : Strategy F n} {es : List (Event n)} {e : Event n} (start : table g₀ = fun _ => none)
    (path : Runs Step g₀ es g) (step : Step g e g') (fresh : (accepted es).Nodup) (fills : e.fill = some fill) :
    countered e = if hedgeable es fill.orderId ∧ (slotOf fill.orderId g.levels).isSome
      then (toDecimal g.cfg.quantity).raw else 0 := by
  have slots := start ▸ runs_table path
  simp only [countered,fills]
  cases step_explained step with
  | load | unload | tick | timer => cases fills
  | fill counter =>
    cases fills
    rename_i moves answers _ _ _ _
    simp only [List.map_cons,List.sum_cons,Move.quantity,Int.zero_add]
    unfold counterMoves counterSlot at counter
    cases found : slotOf fill.orderId g.levels with
    | none =>
      simp only [found,Option.bind_none] at counter
      simp [counter]
    | some k =>
      have placed := known slots (slotOf_some found)
      simp only [found,Option.bind_some] at counter
      have same : hedgeable es fill.orderId = (neighbour k).isSome := by
        rw [Bool.eq_iff_iff,hedgeable_iff]
        constructor
        · rintro ⟨l,member,next⟩
          obtain rfl := (fresh_entered fresh).one_slot member placed
          exact next
        · exact fun next => ⟨k,placed,next⟩
      rw [same]
      cases next : neighbour k with
      | none => simp only [next] at counter; simp [counter]
      | some k' =>
        simp only [next] at counter
        obtain ⟨price,rfl⟩ := counter
        simp [Move.quantity,orderFor]

theorem received_snoc {es : List (Event n)} {e e' : Event n} (fresh : (accepted (es++[e])).Nodup)
    (old : ∀ fill, e'.fill = some fill → fill.orderId ∈ accepted es) : received (es++[e]) e' = received es e' := by
  unfold received
  cases fills : e'.fill with
  | none => rfl
  | some fill => simp only [hedgeable_snoc fresh (old fill fills)]

theorem hedged_snoc {es : List (Event n)} {e : Event n} (fresh : (accepted (es++[e])).Nodup)
    (ordered : InOrder (es++[e])) (hedged : Hedged es) :
    Hedged (es++[e]) ↔ countered e = received es e ∧ processed [e] = filled [e] := by
  have earlier : es.map (received (es++[e])) = es.map (received es) :=
    List.map_congr_left fun e' member => received_snoc fresh fun fill fills => ordered.before.filled member fills
  have last : received (es++[e]) e = received es e := received_snoc fresh fun fill fills => ordered.last fills
  have sums : ((es++[e]).map countered).sum = ((es++[e]).map (received (es++[e]))).sum ↔ countered e = received es e := by
    have total := hedged.total
    simp only [List.map_append,List.sum_append,earlier,List.map_cons,List.map_nil,List.sum_cons,List.sum_nil,last]
    omega
  have lists : processed (es++[e]) = filled (es++[e]) ↔ processed [e] = filled [e] := by
    have grown : processed (es++[e]) = processed es++processed [e] := by simp [processed,history]
    have more : filled (es++[e]) = filled es++filled [e] := by simp [filled]
    rw [grown,more,hedged.processed,List.append_cancel_left_eq]
  rw [← sums,← lists]
  exact ⟨fun both => ⟨both.total,both.processed⟩,fun both => ⟨both.1,both.2⟩⟩

theorem step_hedged {cfg : Config F} {g g' : Strategy F (cfg.gridLevels+1).toNat}
    {es : List (Event (cfg.gridLevels+1).toNat)} {e : Event (cfg.gridLevels+1).toNat}
    (path : Runs Step (initial cfg) es g) (step : Step g e g') (fresh : (accepted es).Nodup) :
    countered e = received es e ∧ processed [e] = filled [e] ↔ WholeFill cfg es g e := by
  rw [step_processed step,filled_one]
  cases fills : e.fill with
  | none => simp [countered,received,WholeFill,fills]
  | some fill =>
    have same : g.cfg = cfg := runs_cfg path
    rw [step_countered (table_initial cfg) path step fresh fills,same]
    simp only [received,WholeFill,fills,Option.some.injEq,forall_eq']
    cases found : slotOf fill.orderId g.levels with
    | none => simp [Option.filter,found]
    | some k =>
      cases near : hedgeable es fill.orderId with
      | false => simp [Option.filter,found]
      | true => simp [Option.filter,found,Decimal.ext_iff,eq_comm]

def WholeFills (cfg : Config F) (es : List (Event (cfg.gridLevels+1).toNat)) : Prop :=
  ∀ earlier e later g, es = earlier++e::later → Runs Step (initial cfg) earlier g → WholeFill cfg earlier g e

theorem wholeFills_snoc {cfg : Config F} {g : Strategy F (cfg.gridLevels+1).toNat}
    {es : List (Event (cfg.gridLevels+1).toNat)} {e : Event (cfg.gridLevels+1).toNat}
    (path : Runs Step (initial cfg) es g) : WholeFills cfg (es++[e]) ↔ WholeFills cfg es ∧ WholeFill cfg es g e := by
  constructor
  · intro all
    refine ⟨fun earlier e' later g' shape prior => ?_,all es e [] g rfl path⟩
    exact all earlier e' (later++[e]) g' (by rw [shape,List.append_assoc,List.cons_append]) prior
  · rintro ⟨before,last⟩ earlier e' later g' shape prior
    rcases Runs.split_snoc.mp shape with ⟨rfl,rfl,rfl⟩ | ⟨rest,rfl,rfl⟩
    · rwa [prior.deterministic step_functional path]
    · exact before earlier e' rest g' rfl prior

theorem hedged_iff {F : Type} [Double F] {cfg : Config F} {es : List (Event (cfg.gridLevels+1).toNat)}
    {g : Strategy F (cfg.gridLevels+1).toNat} (path : Runs Step (initial cfg) es g) (fresh : (accepted es).Nodup)
    (ordered : InOrder es) : (∀ earlier later, es = earlier++later → Hedged earlier) ↔ WholeFills cfg es := by
  induction path with
  | nil =>
    constructor
    · rintro _ earlier e later g shape; simp at shape
    · intro _ earlier later shape
      obtain ⟨rfl,_⟩ := List.append_eq_nil_iff.mp shape.symm
      exact ⟨rfl,rfl⟩
  | step prior taken ih =>
    rename_i es g e g'
    have fresh' : (accepted es).Nodup := fresh_front fresh
    have ih := ih fresh' ordered.before
    have last := step_hedged prior taken fresh'
    rw [wholeFills_snoc prior,← ih,← last]
    constructor
    · intro all
      have front : ∀ earlier later, es = earlier++later → Hedged earlier := fun earlier later shape =>
        all earlier (later++[e]) (by rw [shape,List.append_assoc])
      exact ⟨front,(hedged_snoc fresh ordered (front es [] (by simp))).mp (all _ [] (by simp))⟩
    · rintro ⟨front,whole⟩ earlier later shape
      rcases List.eq_nil_or_concat later with rfl | ⟨rest,last',rfl⟩
      · rw [List.append_nil] at shape
        rw [← shape]
        exact (hedged_snoc fresh ordered (front es [] (by simp))).mpr whole
      · rw [List.concat_eq_append,← List.append_assoc] at shape
        exact front earlier rest (List.append_inj' shape rfl).1

def triple : Config Rat := {gridLevels := 2}

def wholeFill : List Callback :=
  [.onLoad,.onTick {mid := hundred, ids := [1,2]},.onFill (whole 1) {mid := hundred, ids := [3]},
   .onFill (whole 3) {mid := hundred, ids := [4]}]

-- A buy filled in two parts: the first part is hedged with a whole order,
-- the second reaches nothing.
def parts : List Callback :=
  [.onLoad,.onTick {mid := hundred, ids := [1,2]},
   .onFill (fillOf 1 ⟨1000,by decide,by decide⟩) {mid := hundred, ids := [3]},
   .onFill (fillOf 1 ⟨2000,by decide,by decide⟩) {mid := hundred, ids := [4]}]

theorem hedged_iff_wholeFill :
    ∃ follows : (play follow (initial triple) wholeFill).isSome,
      let run := (play follow (initial triple) wholeFill).get follows
      (∀ earlier later, run.1 = earlier++later → Hedged earlier) ∧ WholeFills triple run.1 := by
  have fronts : ∀ i ≤ ((play follow (initial triple) wholeFill).get (by decide +kernel)).1.length,
      Hedged (((play follow (initial triple) wholeFill).get (by decide +kernel)).1.take i) := by decide +kernel
  refine ⟨by decide +kernel,?_⟩
  intro run
  have hedged : ∀ earlier later, run.1 = earlier++later → Hedged earlier := by
    intro earlier later shape
    have front := fronts earlier.length (show earlier.length ≤ run.1.length by simp [shape])
    rwa [show ((play follow (initial triple) wholeFill).get _).1 = earlier++later from shape,List.take_left] at front
  exact ⟨hedged,(hedged_iff (play_get follow_sound _) (by decide +kernel) (by decide +kernel)).mp hedged⟩

theorem parts_unhedged :
    ∃ follows : (play follow (initial triple) parts).isSome,
      let run := (play follow (initial triple) parts).get follows
      Runs Step (initial triple) run.1 run.2 ∧ (accepted run.1).Nodup ∧ InOrder run.1 ∧
        (∀ m ∈ history run.1, m.refused = false) ∧
        (∀ e ∈ run.1, ∀ fill, e.fill = some fill → 0 < fill.fillQuantity.raw) ∧
        (run.1.map (received run.1)).sum ≤ (toDecimal triple.quantity).raw ∧ filled run.1 = [1,1] ∧
        processed run.1 = [1] ∧ ¬ Hedged run.1 := by
  exact ⟨by decide +kernel,play_get follow_sound _,by decide +kernel,by decide +kernel,
    by decide +kernel,by decide +kernel,by decide +kernel,by decide +kernel,by decide +kernel,by decide +kernel⟩

end Chronos.GridStrategy
