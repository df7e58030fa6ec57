import Chronos.Budget
import Chronos.RiskHotReads

namespace Chronos.RiskEngine
open Budget (total)

variable {Tid F : Type}

def Writer.left : Writer F → Nat
  | .fill _ _ rest => rest.length+28
  | .build _ _ rest => rest.length+22
  | .darkStore _ _ _ => 21
  | .openLoad _ _ => 20
  | .openStore _ _ _ => 19
  | .copy _ _ rest => rest.length+13
  | .closeStore _ _ => 12
  | .swapLoad _ => 11
  | .swapStore _ _ => 10
  | .flipLoad _ => 9
  | .flipStore _ _ => 8
  | .backLoad _ => 7
  | .back _ _ rest => rest.length+1

-- The attempts that are left after the one with number `retry`, each with two loads
-- of the version, and the read after the loop.
def afterwards (order : List Limit) (retry : Nat) : Nat := (maxRetries-1-retry)*(order.length+2)+order.length+1

def HotReader.left : HotReader → Nat
  | .first order retry => order.length+2+afterwards order retry
  | .copy order retry _ rest _ => rest.length+1+afterwards order retry
  | .anyway _ rest _ => rest.length+1
  | .done _ _ _ => 1

def ColdReader.left : ColdReader F → Nat
  | .load order => order.length+2
  | .copy _ rest _ => rest.length+1

def Local.left : Local F → Nat
  | .idle => 0
  | .writer w => w.left
  | .hot r => r.left
  | .cold r => r.left

def Call.cost : Call F → Nat
  | .update _ => 34
  | .readHot order => maxRetries*(order.length+2)+order.length+1
  | .readCold order => order.length+2

@[simp] theorem left_first (order : List Limit) (retry : Nat) :
    (HotReader.first order retry).left = order.length+2+afterwards order retry := rfl
@[simp] theorem left_copy (order : List Limit) (retry : Nat) (v : BitVec 64) (rest : List Limit) (got : List HotRead) :
    (HotReader.copy order retry v rest got).left = rest.length+1+afterwards order retry := rfl
@[simp] theorem left_anyway (order rest : List Limit) (got : List HotRead) :
    (HotReader.anyway order rest got).left = rest.length+1 := rfl
@[simp] theorem left_done (order : List Limit) (v : BitVec 64) (got : List HotRead) : (HotReader.done order v got).left = 1 := rfl
@[simp] theorem left_hot (r : HotReader) : (Local.hot r : Local F).left = r.left := rfl

theorem entry_left [Double F] (s : Shared F) (op : Call F) : (entry s op).left = op.cost := by
  cases op with
  | update => rfl
  | readHot order =>
    simp only [entry,Local.left,HotReader.left,afterwards,maxRetries,Call.cost]
    omega
  | readCold order => rfl

theorem again_left (order : List Limit) (retry : Nat) : (again order retry).left ≤ afterwards order retry := by
  unfold again
  split
  · have next : maxRetries-1-retry = (maxRetries-1-(retry+1))+1 := by omega
    rw [left_first,afterwards,afterwards,next,Nat.succ_mul]
    omega
  · rw [left_anyway,afterwards]
    omega

theorem writerTurn_left [Double F] (s : Shared F) (w : Writer F) : (writerTurn s w).2.left+1 ≤ w.left := by
  cases w with
  | fill p dark rest | build p dark rest | copy p dark rest | back p next rest =>
    cases rest <;> simp [writerTurn,Local.left,Writer.left,Limit.all]
  | darkStore | openLoad | openStore | closeStore | swapLoad | swapStore | flipLoad | flipStore | backLoad =>
    simp [writerTurn,Local.left,Writer.left,Limit.all]

theorem hotTurn_left (s : Shared F) (r : HotReader) : (hotTurn s r : Local F).left+1 ≤ r.left := by
  cases r with
  | first order retry =>
    have retried := again_left order retry
    rw [hotTurn,left_first]
    split
    · rw [left_hot,left_copy]
      omega
    · rw [left_hot]
      omega
  | copy order retry v rest got =>
    have retried := again_left order retry
    cases rest with
    | nil =>
      have last : 1 ≤ afterwards order retry := Nat.le_add_left _ _
      rw [hotTurn,left_copy]
      split
      · rw [left_hot,left_done]
        omega
      · rw [left_hot]
        omega
    | cons =>
      simp only [hotTurn,left_hot,left_copy,List.length_cons]
      omega
  | anyway order rest got => cases rest <;> simp [hotTurn,Local.left]
  | done => simp [hotTurn,Local.left]

theorem coldTurn_left (s : Shared F) (r : ColdReader F) : (coldTurn s r).left+1 ≤ r.left := by
  cases r with
  | load order => simp [coldTurn,Local.left,ColdReader.left]
  | copy buffer rest got => cases rest <;> simp [coldTurn,Local.left,ColdReader.left]

theorem turn_left [Double F] {s shared : Shared F} {l l' : Local F} (moved : turn s l = some (shared,l')) :
    l'.left+1 ≤ l.left := by
  cases l with
  | idle => cases moved
  | writer w =>
    have same : writerTurn s w = (shared,l') := Option.some.inj moved
    have less := writerTurn_left s w
    rwa [same] at less
  | hot r =>
    cases moved
    exact hotTurn_left s r
  | cold r =>
    cases moved
    exact coldTurn_left s r

section Runs
variable [DecidableEq Tid]

def Event.turns (t : Tid) : Event Tid F → Nat
  | .turn u _ => if u = t then 1 else 0
  | .call _ _ => 0

def Event.cost (t : Tid) : Event Tid F → Nat
  | .call u op => if u = t then op.cost else 0
  | .turn _ _ => 0

theorem step_left [Double F] {s s' : State Tid F} {e : Event Tid F} (step : Step s e s') (t : Tid) :
    (s'.threads t).left+e.turns t ≤ (s.threads t).left+e.cost t := by
  cases step with
  | call free =>
    rename_i u op
    by_cases same : u = t
    · subst same
      simp [entry_left,Event.turns,Event.cost]
    · rw [move_other _ _ _ (Ne.symm same)]
      simp [Event.turns,Event.cost,same]
  | turn at_ moved =>
    rename_i u l shared l'
    by_cases same : u = t
    · subst same
      have less := turn_left moved
      simp only [move_self,Event.turns,Event.cost,if_true,at_]
      omega
    · rw [move_other _ _ _ (Ne.symm same)]
      simp [Event.turns,Event.cost,same]

theorem left_zero {l : Local F} (none : l.left = 0) : l = .idle := by
  cases l with
  | idle => rfl
  | writer w => cases w <;> simp [Local.left,Writer.left] at none
  | hot r => cases r <;> simp [Local.left,HotReader.left] at none
  | cold r => cases r <;> simp [Local.left,ColdReader.left] at none

theorem stretch_left [Double F] {during : List (Event Tid F)} {start : State Tid F} (path : Runs Step start during s)
    (alone : ∀ op, .call t op ∉ during) : (s.threads t).left+total (Event.turns t) during ≤ (start.threads t).left := by
  have spent := Budget.spent (fun _ => True) (fun s => (s.threads t).left) (Event.turns t) (Event.cost t)
    (fun _ _ _ _ _ => trivial) (fun _ _ _ _ step => step_left step t) trivial path
  have free : total (Event.cost t) during = 0 := by
    refine Nat.le_zero.mp (Nat.le_trans (Budget.total_le_length 0 fun e member => ?_) (by simp))
    cases e with
    | turn => exact Nat.le_refl 0
    | call u op =>
      have other : u ≠ t := by
        rintro rfl
        exact alone op member
      simp [Event.cost,other]
  simpa only [free,Nat.add_zero] using spent

-- A call is over after so many turns of its own thread as its cost says, at most,
-- and never has to wait for one.
structure WaitFree [Double F] (es : List (Event Tid F)) (s : State Tid F) : Prop where
  bounded : ∀ earlier t op during, es = earlier++.call t op::during → (∀ op', .call t op' ∉ during) →
    total (Event.turns t) during ≤ op.cost ∧ (total (Event.turns t) during = op.cost → s.threads t = .idle)
  enabled : ∀ t, s.threads t ≠ .idle → ∃ e s', Step s e s' ∧ e = .turn t (s.threads t)

theorem wait_free {Tid F : Type} [DecidableEq Tid] [Double F] {hot : HotParams} {cold : Fin 2 → ColdParams F}
    {es : List (Event Tid F)} {s : State Tid F} (path : Runs Step (initial hot cold) es s) : WaitFree es s := by
  refine ⟨?_,fun t busy => ?_⟩
  · rintro earlier t op during rfl alone
    obtain ⟨here,next,_,begins,rest⟩ := path.split_at
    have begun : (next.threads t).left = op.cost := by
      cases begins with
      | call => rw [move_self,entry_left]
    have spent := stretch_left rest alone
    rw [begun] at spent
    refine ⟨by omega,fun all => left_zero (by omega)⟩
  · cases here : s.threads t with
    | idle => exact absurd here busy
    | writer w => exact ⟨_,_,.turn here rfl,rfl⟩
    | hot r => exact ⟨_,_,.turn here rfl,rfl⟩
    | cold r => exact ⟨_,_,.turn here rfl,rfl⟩

end Runs

def updatedThenRead : List (Bool × Option (Call Rat)) :=
  [(false,some (.readHot Limit.all)),(true,some (.update fives))]++List.replicate 34 (true,none)++List.replicate 8 (false,none)

theorem wait_free_updatedThenRead :
    ∃ follows : (play advance (initial zeros buffers) updatedThenRead).isSome,
      WaitFree ((play advance (initial zeros buffers) updatedThenRead).get follows).1
        ((play advance (initial zeros buffers) updatedThenRead).get follows).2 :=
  ⟨by decide +kernel,wait_free (play_get advance_sound (by decide +kernel))⟩

end Chronos.RiskEngine
