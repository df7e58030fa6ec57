import Chronos.MpmcRetries
import Chronos.Budget

namespace Chronos.MpmcQueue

open Budget (total)

variable {Tid W T : Type} {c : Capacity}

-- What a thread may take before it returns when nobody is in its way; the call
-- event of an idle thread is paid too.
def owes [DecidableEq W] (s : State Tid W T c) : Local W T → Nat
  | .idle => 7
  | l => distance s l

def Local.chances : Local W T → Nat
  | .pushCopy _ _ | .pushStore _ _ | .popCopy _ | .popStore _ _ | .returning _ => 0
  | _ => 1

-- An exchange won sends each of the other threads back by three accesses at most.
def debt [DecidableEq W] (rivals : Nat) (s : State Tid W T c) (l : Local W T) : Nat := owes s l+rivals*(3*l.chances)

def Event.wins : Event Tid W T → Nat
  | .pushWon _ _ _ | .popWon _ _ => 1
  | _ => 0

def returned : Event Tid W T × Bool → Nat
  | (.ret _ _,_) => 1
  | _ => 0

def spuriously : Event Tid W T × Bool → Nat
  | (.casFailed _ _,spurious) => if spurious then 1 else 0
  | _ => 0

section Steps
variable [DecidableEq W] {A : Arithmetic W c} {s s' : State Tid W T c} {t : Tid} {e : Event Tid W T}

theorem owes_busy {l : Local W T} (busy : l ≠ .idle) : owes s l = distance s l := by
  cases l <;> first | rfl | exact absurd rfl busy

theorem owes_le (l : Local W T) : owes s l ≤ 8 := by
  unfold owes distance
  cases l <;> simp [Local.remaining,stale] <;> split <;> omega

theorem debt_le {rivals : Nat} (l : Local W T) : debt rivals s l ≤ 8+rivals*3 := by
  have one : l.chances ≤ 1 := by unfold Local.chances; split <;> omega
  exact Nat.add_le_add (owes_le l) (Nat.mul_le_mul_left _ (Nat.mul_le_mul_left _ one))

theorem debt_idle {rivals : Nat} : debt rivals s .idle = 7+rivals*3 := rfl

theorem debt_returning {rivals : Nat} (r : Result W T) : debt rivals s (.returning r) = 1 := rfl

theorem debt_entry (rivals : Nat) (op : Call T) : debt rivals s (entry op) ≤ 6+rivals*3 := by
  cases op <;> simp [entry,debt,owes,distance,Local.remaining,Local.chances,stale]

variable [DecidableEq Tid]

theorem distance_others (step : Step A s e s') (l : Local W T) : distance s' l ≤ distance s l+3*e.wins := by
  have heads : s'.head = s.head ∨ e.wins = 1 := by cases step <;> first | exact .inl rfl | exact .inr rfl
  have tails : s'.tail = s.tail ∨ e.wins = 1 := by cases step <;> first | exact .inl rfl | exact .inr rfl
  rcases heads with head | won
  · rcases tails with tail | won
    · have same : stale s' l = stale s l := by cases l <;> simp [stale,head,tail]
      rw [distance,distance,same]
      exact Nat.le_add_right _ _
    · unfold distance
      rw [won]
      split <;> omega
  · unfold distance
    rw [won]
    split <;> omega

theorem debt_others {rivals : Nat} (step : Step A s e s') (l : Local W T) : debt rivals s' l ≤ debt rivals s l+3*e.wins := by
  by_cases idle : l = .idle
  · subst idle
    exact Nat.le_add_right _ _
  · have further := distance_others step l
    rw [debt,debt,owes_busy idle,owes_busy idle]
    omega

theorem Step.runs (step : Step A s e s') (inside : ∀ op, e ≠ .call e.thread op) (honest : spuriously (e,unmoved s e.thread) = 0) :
    advance A s e.thread .run = some (e,s') := by
  cases step with
  | call => exact absurd rfl (inside _)
  | pushLost at_ | popLost at_ =>
    simp only [Event.thread,spuriously,unmoved,at_,decide_eq_true_eq,ite_eq_right_iff] at honest ⊢
    simp [advance,at_,mt honest Nat.one_ne_zero]
  | pushFull at_ seen | popNone at_ seen => simp [advance,Event.thread,at_,seen,Int.ne_of_lt seen]
  | pushBehind at_ seen | popBehind at_ seen =>
    simp [advance,Event.thread,at_,Int.ne_of_gt seen,Int.not_lt.mpr (Int.le_of_lt seen)]
  | pushFree at_ seen | popReady at_ seen | pushWon at_ seen | popWon at_ seen => simp [advance,Event.thread,at_,seen]
  | pushLoad at_ | copyIn at_ | publish at_ | popLoad at_ | copyOut at_ | release at_ | sizeHead at_ | sizeTail at_ | ret at_ =>
    simp [advance,Event.thread,at_]

theorem chances_kept (step : Step A s e s') (inside : ∀ r, e ≠ .ret e.thread r) :
    (s'.threads e.thread).chances+e.wins ≤ (s.threads e.thread).chances := by
  cases step with
  | ret => exact absurd rfl (inside _)
  | @call _ t op free => cases op <;> simp [Event.thread,Event.wins,Local.chances,entry,free]
  | _ at_ => simp [Event.thread,Event.wins,Local.chances,at_]

theorem spurious_step (step : Step A s e s') (spurious : spuriously (e,unmoved s e.thread) = 1) :
    owes s' (s'.threads e.thread)+1 ≤ owes s (s.threads e.thread)+2 := by
  cases step with
  | pushLost at_ | popLost at_ =>
    simp [Event.thread,spuriously,unmoved,at_] at spurious
    simp [Event.thread,owes,distance,Local.remaining,stale,at_,spurious]
  | _ => simp [spuriously] at spurious

theorem inside_debt (rivals : Nat) (tame : Tame A s) (step : Step A s e s') (uncalled : ∀ op, e ≠ .call e.thread op)
    (inside : ∀ r, e ≠ .ret e.thread r) :
    debt rivals s' (s'.threads e.thread)+1+rivals*(3*e.wins) ≤
      debt rivals s (s.threads e.thread)+2*spuriously (e,unmoved s e.thread) := by
  have each : (s'.threads e.thread).chances+e.wins ≤ (s.threads e.thread).chances ∧ owes s' (s'.threads e.thread)+1 ≤
      owes s (s.threads e.thread)+2*spuriously (e,unmoved s e.thread) := by
    refine ⟨chances_kept step inside,?_⟩
    have either : spuriously (e,unmoved s e.thread) = 0 ∨ spuriously (e,unmoved s e.thread) = 1 := by
      unfold spuriously
      split <;> try split
      all_goals simp
    rcases either with honest | spurious
    · have moved := step.runs uncalled honest
      have busy : s.threads e.thread ≠ .idle := fun idle => by simp [advance,idle] at moved
      rcases alone_step (.inr tame) moved with ⟨r,last⟩ | nearer
      · exact absurd last (inside r)
      · have closer := nearer.distance
        rw [owes_busy nearer.busy,owes_busy busy]
        omega
    · rw [spurious]
      exact spurious_step step spurious
  obtain ⟨chances,owed⟩ := each
  calc debt rivals s' (s'.threads e.thread)+1+rivals*(3*e.wins)
    _ = owes s' (s'.threads e.thread)+1+rivals*(3*((s'.threads e.thread).chances+e.wins)) := by
      rw [debt,Nat.mul_add,Nat.mul_add]; omega
    _ ≤ owes s (s.threads e.thread)+2*spuriously (e,unmoved s e.thread)+rivals*(3*(s.threads e.thread).chances) :=
      Nat.add_le_add owed (Nat.mul_le_mul_left _ (Nat.mul_le_mul_left _ chances))
    _ = debt rivals s (s.threads e.thread)+2*spuriously (e,unmoved s e.thread) := by rw [debt]; omega

-- A return earns the thread the budget of its next call.
theorem own_debt (rivals : Nat) (tame : Tame A s) (step : Step A s e s') :
    debt rivals s' (s'.threads e.thread)+1+rivals*(3*e.wins) ≤ debt rivals s (s.threads e.thread)+
      ((3*rivals+7)*returned (e,unmoved s e.thread)+2*spuriously (e,unmoved s e.thread)) := by
  cases e with
  | call u op =>
    cases step with
    | call free =>
      have less := debt_entry (s:=s.move u (entry op)) rivals op
      rw [Event.thread,State.move_self,free,debt_idle]
      simp only [Event.wins,returned,spuriously]
      omega
  | ret u r =>
    cases step with
    | ret at_ =>
      rw [Event.thread,State.move_self,at_,debt_idle,debt_returning]
      simp only [Event.wins,returned,spuriously]
      omega
  | _ =>
    have paid := inside_debt rivals tame step (fun _ => by simp) (fun _ => by simp)
    simp only [returned]
    omega

theorem crew_debt {crew : Finset Tid} (tame : Tame A s) (step : Step A s e s') (one : e.thread ∈ crew) :
    (crew.sum fun u => debt (crew.card-1) s' (s'.threads u))+1 ≤ (crew.sum fun u => debt (crew.card-1) s (s.threads u))+
      ((3*(crew.card-1)+7)*returned (e,unmoved s e.thread)+2*spuriously (e,unmoved s e.thread)) := by
  refine Budget.shared (3*e.wins) one (own_debt _ tame step) fun u other => ?_
  rw [step.frame other]
  exact debt_others step _

end Steps

section Runs
variable [DecidableEq Tid] {junk : Fin c.size → T} {ws earlier during : List (Event Tid (BitVec 64) T × Bool)}
variable {start s s' : State Tid (BitVec 64) T c}

theorem runs_tame (power : 1 ≤ c.exponent) (path : Runs (Watched (word c)) (initial (word c) junk) ws s)
    (few : (pushWins (ws.map Prod.fst)).length < 2^63) : Tame (word c) s := by
  have inv := (word_accounted power (watched_steps path) few).inv
  have order := inv.order
  have count := inv.length
  rw [values_length] at count
  exact inv.tame (word_faithful c) c.size_le (by omega)

theorem tame_steps {crew : Finset Tid} (power : 1 ≤ c.exponent) (front : Runs (Watched (word c)) (initial (word c) junk) earlier s)
    (path : Runs (Watched (word c)) s during s') (few : (pushWins ((earlier++during).map Prod.fst)).length < 2^63)
    (members : ∀ w ∈ during, w.1.thread ∈ crew) :
    Runs (fun s w s' => w.1.thread ∈ crew ∧ Tame (word c) s ∧ Watched (word c) s w s') s during s' := by
  induction path with
  | nil => exact .nil
  | step prior taken ih =>
    rw [← List.append_assoc] at few
    have fewer := fewer_wins few
    have before := ih fewer fun w member => members w (List.mem_append_left _ member)
    exact before.step ⟨members _ (by simp),runs_tame power (front.append prior) fewer,taken⟩

theorem stretch_paid {crew : Finset Tid}
    (path : Runs (fun s w s' => w.1.thread ∈ crew ∧ Tame (word c) s ∧ Watched (word c) s w s') s during s') :
    during.length ≤ (3*crew.card+4)*total returned during+2*total spuriously during+crew.card*(3*crew.card+5) := by
  have spent := Budget.spent (fun _ => True) (fun s => crew.sum fun u => debt (crew.card-1) s (s.threads u)) (fun _ => 1)
    (fun w => (3*(crew.card-1)+7)*returned w+2*spuriously w) (fun _ _ _ _ _ => trivial)
    (fun s w s' _ step => by
      obtain ⟨one,tame,taken,mark⟩ := step
      have same : w = (w.1,unmoved s w.1.thread) := Prod.ext rfl mark
      rw [same]
      exact crew_debt tame taken one) trivial path
  rw [Budget.total_one,Budget.total_weighted] at spent
  have owed : (crew.sum fun u => debt (crew.card-1) s (s.threads u)) ≤ crew.card*(8+(crew.card-1)*3) := by
    rw [← Nat.nsmul_eq_mul]
    exact Finset.sum_le_card_nsmul _ _ _ fun u _ => debt_le _
  rcases Nat.eq_zero_or_pos crew.card with nobody | some
  · cases path with
    | nil => simp
    | step _ taken => exact absurd taken.1 (Finset.card_eq_zero.mp nobody ▸ Finset.notMem_empty _)
  · have least : 8+(crew.card-1)*3 = 3*crew.card+5 := by omega
    have each : 3*(crew.card-1)+7 = 3*crew.card+4 := by omega
    rw [least] at owed
    rw [each] at spent
    omega

structure LockFree (ws : List (Event Tid (BitVec 64) T × Bool)) (s : State Tid (BitVec 64) T c) : Prop where
  bounded : ∀ earlier during later (crew : Finset Tid), ws = earlier++during++later → (∀ w ∈ during, w.1.thread ∈ crew) →
    during.length ≤ (3*crew.card+4)*total returned during+2*total spuriously during+crew.card*(3*crew.card+5)
  enabled : ∀ t, s.threads t ≠ .idle → ∃ e s', Watched (word c) s (e,unmoved s t) s' ∧ e.thread = t

theorem lock_free {Tid T : Type} [DecidableEq Tid] {c : Capacity} {junk : Fin c.size → T}
    {ws : List (Event Tid (BitVec 64) T × Bool)} {s : State Tid (BitVec 64) T c} (power : 1 ≤ c.exponent)
    (path : Runs (Watched (word c)) (initial (word c) junk) ws s) (few : (pushWins (ws.map Prod.fst)).length < 2^63) :
    LockFree ws s := by
  refine ⟨?_,fun t busy => ?_⟩
  · rintro earlier during later crew rfl members
    obtain ⟨last,path,_⟩ := path.append_inv
    obtain ⟨start,front,stretch⟩ := path.append_inv
    exact stretch_paid (tame_steps power front stretch (fewer_wins few) members)
  · obtain ⟨e,s',moved,rfl⟩ := advance_run (A:=word c) busy
    exact ⟨e,s',⟨advance_sound moved,rfl⟩,rfl⟩

end Runs

def contended : List (Bool × Choice Nat) := List.flatten [
  [(true,.call (.tryPush 7)),(false,.call (.tryPush 8))],
  List.flatten (List.replicate 3 [(true,.run),(false,.run)]),
  List.replicate 3 (true,.run),List.replicate 5 (false,.run)]

theorem lock_free_contended :
    ∃ follows : (play (scheduleWatched (word two)) (initial (word two) (fun _ => 0)) contended).isSome,
      let run := (play (scheduleWatched (word two)) (initial (word two) (fun _ => 0)) contended).get follows
      total returned run.1 = 2 ∧ LockFree run.1 run.2 :=
  ⟨by decide,by decide,lock_free (by decide) (play_get scheduleWatched_sound (by decide)) (by decide)⟩

end Chronos.MpmcQueue
