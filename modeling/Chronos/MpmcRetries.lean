import Chronos.MpmcBounded
import Chronos.RetryLoop

namespace Chronos.MpmcQueue

open RetryLoop (Stage Label)

variable {Tid W T : Type} {c : Capacity}

inductive Side where
  | push
  | pop
  deriving DecidableEq

def counter (s : State Tid W T c) : Side → W
  | .push => s.head
  | .pop => s.tail

def Local.stage (val : W → Nat) : Side → Local W T → Option Stage
  | .push,.pushLoad _ | .pop,.popLoad => some .load
  | .push,.pushSeq _ pos | .pop,.popSeq pos => some (.look (val pos))
  | .push,.pushCas _ pos | .pop,.popCas pos => some (.swap (val pos))
  | .push,.pushCopy _ _ | .push,.pushStore _ _ | .pop,.popCopy _ | .pop,.popStore _ _ | _,.returning _ => some .past
  | _,_ => none

def Tame (A : Arithmetic W c) (s : State Tid W T c) : Prop := pushDiff A s ≤ 0 ∧ popDiff A s ≤ 0

theorem Tame.head_ne {A : Arithmetic W c} {s : State Tid W T c} {pos : W} (tame : Tame A s)
    (ahead : 0 < A.diff (s.slots (A.slot pos)).seq pos) : s.head ≠ pos := by
  rintro rfl
  exact absurd ahead (Int.not_lt.mpr tame.1)

theorem Tame.tail_ne {A : Arithmetic W c} {s : State Tid W T c} {pos : W} (tame : Tame A s)
    (ahead : 0 < A.diff (s.slots (A.slot pos)).seq (A.next pos)) : s.tail ≠ pos := by
  rintro rfl
  exact absurd ahead (Int.not_lt.mpr tame.2)

theorem Faithful.passed {A : Arithmetic W c} {val : W → Nat} {half : Nat} {pos now : W} (faithful : Faithful A val half)
    (below : val pos ≤ val now) (left : now ≠ pos) : val pos < val now :=
  lt_of_le_of_ne below fun same => left (faithful.injective _ _ same).symm

theorem diff_nonpos {A : Arithmetic W c} {val : W → Nat} {half : Nat} {seq pos : W} (faithful : Faithful A val half)
    (below : val seq ≤ val pos) (near : val pos ≤ val seq+half) (some : 0 < half) : A.diff seq pos ≤ 0 := by
  by_cases same : val seq = val pos
  · exact Int.le_of_eq ((faithful.zero seq pos).mpr (faithful.injective _ _ same))
  · exact Int.le_of_lt ((faithful.sign seq pos (by omega) near).mpr (by omega))

theorem Inv.tame {A : Arithmetic W c} {val : W → Nat} {half : Nat} {s : State Tid W T c} {pushed : List T}
    (inv : Inv val pushed s) (faithful : Faithful A val half) (fits : c.size ≤ half) (roomy : val s.tail+1 < 2*half) : Tame A s := by
  have positive := c.size_pos
  have order := inv.order
  have room := inv.room
  constructor
  · have near : val (s.slots (A.slot s.head)).seq ≤ val s.head ∧ val s.head ≤ val (s.slots (A.slot s.head)).seq+c.size := by
      rw [faithful.slot]
      show seqAt val s (val s.head) ≤ _ ∧ _ ≤ seqAt val s (val s.head)+_
      by_cases free : val s.head < val s.tail+c.size
      · have seq := inv.seq_free (Nat.le_refl _) free
        omega
      · have lap : val s.head = val s.tail+c.size := by omega
        have seq := inv.seq_pushed (Nat.le_refl _) (show val s.tail < val s.head by omega)
        have same : seqAt val s (val s.head) = seqAt val s (val s.tail) := by
          rw [lap]; simp only [seqAt,Capacity.index_lap]
        omega
    exact diff_nonpos faithful near.1 (by omega) (by omega)
  · have next := faithful.next s.tail roomy
    have near : val (s.slots (A.slot s.tail)).seq ≤ val s.tail+1 ∧ val s.tail+1 ≤ val (s.slots (A.slot s.tail)).seq+c.size := by
      rw [faithful.slot]
      show seqAt val s (val s.tail) ≤ _ ∧ _ ≤ seqAt val s (val s.tail)+_
      by_cases some : val s.tail < val s.head
      · have seq := inv.seq_pushed (Nat.le_refl _) some
        omega
      · have seq := inv.seq_free (show val s.head ≤ val s.tail by omega) (show val s.tail < val s.tail+c.size by omega)
        omega
    exact diff_nonpos faithful (by omega) (by omega) (by omega)

section Loops
variable [DecidableEq W]

def unmoved (s : State Tid W T c) (t : Tid) : Bool :=
  match s.threads t with
  | .pushCas _ pos => decide (s.head = pos)
  | .popCas pos => decide (s.tail = pos)
  | _ => false

variable [DecidableEq Tid]

-- Steps marked so: an exchange that then fails has failed spuriously.
def Watched (A : Arithmetic W c) (s : State Tid W T c) (w : Event Tid W T × Bool) (s' : State Tid W T c) : Prop :=
  Step A s w.1 s' ∧ w.2 = unmoved s w.1.thread

def label (side : Side) (t : Tid) : Event Tid W T × Bool → Label
  | (.loadSeq u _ _,_) => if u = t then .iteration else .quiet
  | (.casFailed u _,spurious) => if u = t ∧ spurious then .spurious else .quiet
  | (.pushWon u _ _,_) => if side = .push ∧ u ≠ t then .rival else .quiet
  | (.popWon u _,_) => if side = .pop ∧ u ≠ t then .rival else .quiet
  | _ => .quiet

variable {A : Arithmetic W c} {val : W → Nat} {half : Nat} {s s' : State Tid W T c} {pushed : List T} {side : Side} {t : Tid}
variable {e : Event Tid W T} {b : Bool}

theorem other_loop (faithful : Faithful A val half) (roomy : val (counter s side)+1 < 2*half) (step : Step A s e s')
    (other : e.thread ≠ t) (stage : Stage) :
    RetryLoop.Step ⟨stage,val (counter s side)⟩ (label side t (e,b)) ⟨stage,val (counter s' side)⟩ := by
  cases side with
  | push =>
    rcases step.head with ⟨same,quiet⟩ | ⟨u,v,won,next⟩
    · have none : label .push t (e,b) = .quiet := by
        cases e <;> simp_all [label,Event.pushWin,Event.thread]
      rw [none,counter,counter,same]
      exact .idle
    · have one : label .push t (e,b) = .rival := by
        cases e <;> simp_all [label,Event.pushWin,Event.thread]
      rw [one,counter,counter,next,faithful.next s.head roomy]
      exact .rival
  | pop =>
    rcases step.tail with ⟨same,quiet⟩ | ⟨u,won,next⟩
    · have none : label .pop t (e,b) = .quiet := by
        cases e <;> simp_all [label,Event.popWin,Event.thread]
      rw [none,counter,counter,same]
      exact .idle
    · have one : label .pop t (e,b) = .rival := by
        cases e <;> simp_all [label,Event.popWin,Event.thread]
      rw [one,counter,counter,next,faithful.next s.tail roomy]
      exact .rival

theorem own_loop (faithful : Faithful A val half) (inv : Inv val pushed s) (tame : Tame A s)
    (roomy : val (counter s side)+1 < 2*half) (step : Step A s e s') (own : e.thread = t) (inside : ∀ r, e ≠ .ret t r)
    (stands : (s.threads t).stage val side = some stage) :
    ∃ stage', (s'.threads t).stage val side = some stage' ∧
      RetryLoop.Step ⟨stage,val (counter s side)⟩ (label side t (e,unmoved s t)) ⟨stage',val (counter s' side)⟩ := by
  have knows := inv.known t
  cases step <;> simp only [Event.thread] at own <;> subst own
  case ret => exact absurd rfl (inside _)
  case call at_ | sizeHead at_ | sizeTail at_ =>
    rw [at_] at stands
    cases side <;> cases stands
  case pushLoad at_ | popLoad at_ =>
    rw [at_] at stands
    cases side <;> cases stands
    exact ⟨_,by rw [State.move_self]; rfl,.load⟩
  case pushFree at_ seen | popReady at_ seen =>
    rw [at_] at stands
    cases side <;> cases stands
    exact ⟨_,by rw [State.move_self]; rfl,by simpa [label] using .matched⟩
  case pushFull at_ seen | popNone at_ seen =>
    rw [at_] at stands
    cases side <;> cases stands
    exact ⟨_,by rw [State.move_self]; rfl,by simpa [label] using .decided⟩
  case pushBehind at_ seen =>
    rw [at_] at stands knows
    cases side <;> cases stands
    have moved := faithful.passed (show _ ≤ val s.head from knows) (tame.head_ne seen)
    exact ⟨_,by rw [State.move_self]; rfl,by simpa [label] using .behind moved⟩
  case popBehind at_ seen =>
    rw [at_] at stands knows
    cases side <;> cases stands
    have moved := faithful.passed (show _ ≤ val s.tail from knows) (tame.tail_ne seen)
    exact ⟨_,by rw [State.move_self]; rfl,by simpa [label] using .behind moved⟩
  case pushWon at_ seen =>
    subst seen
    rw [at_] at stands
    cases side <;> cases stands
    refine ⟨_,by rw [State.move_self]; rfl,?_⟩
    show RetryLoop.Step _ _ ⟨_,val (A.next s.head)⟩
    rw [faithful.next s.head roomy]
    simpa [label] using .won
  case popWon at_ seen =>
    subst seen
    rw [at_] at stands
    cases side <;> cases stands
    refine ⟨_,by rw [State.move_self]; rfl,?_⟩
    show RetryLoop.Step _ _ ⟨_,val (A.next s.tail)⟩
    rw [faithful.next s.tail roomy]
    simpa [label] using .won
  case pushLost pos v at_ =>
    rw [at_] at stands knows
    cases side <;> cases stands
    refine ⟨_,by rw [State.move_self]; rfl,?_⟩
    by_cases here : s.head = pos
    · subst here
      simpa [label,unmoved,at_] using .spurious
    · have moved := faithful.passed (show _ ≤ val s.head from knows.1) here
      simpa [label,unmoved,at_,here] using .lost moved
  case popLost pos at_ =>
    rw [at_] at stands knows
    cases side <;> cases stands
    refine ⟨_,by rw [State.move_self]; rfl,?_⟩
    by_cases here : s.tail = pos
    · subst here
      simpa [label,unmoved,at_] using .spurious
    · have moved := faithful.passed (show _ ≤ val s.tail from knows.1) here
      simpa [label,unmoved,at_,here] using .lost moved
  case copyIn at_ | publish at_ | copyOut at_ | release at_ =>
    rw [at_] at stands
    cases side <;> cases stands
    exact ⟨_,by rw [State.move_self]; rfl,.idle⟩

theorem watched_steps (path : Runs (Watched A) s ws s') : Runs (Step A) s (ws.map Prod.fst) s' := by
  induction path with
  | nil => exact .nil
  | step _ taken ih =>
    rw [List.map_append]
    exact ih.step taken.1

end Loops

theorem fewer_wins {n : Nat} {ws later : List (Event Tid W T × Bool)} (few : (pushWins ((ws++later).map Prod.fst)).length < n) :
    (pushWins (ws.map Prod.fst)).length < n := by
  rw [List.map_append,pushWins,List.filterMap_append,List.length_append] at few
  exact Nat.lt_of_le_of_lt (Nat.le_add_right _ _) few

theorem call_loop [DecidableEq Tid] {junk : Fin c.size → T} {s s' : State Tid (BitVec 64) T c} {side : Side}
    {earlier during : List (Event Tid (BitVec 64) T × Bool)} (power : 1 ≤ c.exponent)
    (front : Runs (Watched (word c)) (initial (word c) junk) earlier s) (path : Runs (Watched (word c)) s during s')
    (few : (pushWins ((earlier++during).map Prod.fst)).length < 2^63) (stands : (s.threads t).stage BitVec.toNat side = some .load)
    (inside : ∀ w ∈ during, ∀ r, w.1 ≠ .ret t r) :
    ∃ stage, (s'.threads t).stage BitVec.toNat side = some stage ∧ Runs RetryLoop.Step ⟨.load,(counter s side).toNat⟩
      (during.map (label side t)) ⟨stage,(counter s' side).toNat⟩ := by
  have faithful := word_faithful c
  have most := c.size_le
  induction path with
  | nil => exact ⟨_,stands,.nil⟩
  | step prior taken ih =>
    rename_i during middle w after
    rw [← List.append_assoc] at few
    have fewer := fewer_wins few
    obtain ⟨stage,stands,loop⟩ := ih fewer fun w member => inside w (List.mem_append_left _ member)
    have whole := watched_steps (front.append prior)
    have inv := (runs_accounted faithful (c.two_le power) whole (by simp only [Fits]; omega)).inv
    have order := inv.order
    have count := inv.length
    rw [values_length] at count
    have roomy : (counter middle side).toNat+1 < 2*2^63 := by cases side <;> simp only [counter] <;> omega
    have tame := inv.tame faithful most (by omega)
    obtain ⟨e,mark⟩ := w
    have step : Step (word c) middle e after := taken.1
    have same : mark = unmoved middle e.thread := taken.2
    subst same
    rw [List.map_append]
    by_cases own : e.thread = t
    · obtain ⟨next,stands,taken⟩ := own_loop faithful inv tame roomy step own (inside (e,unmoved middle e.thread) (by simp)) stands
      refine ⟨next,stands,loop.step ?_⟩
      rw [own]
      exact taken
    · refine ⟨stage,?_,loop.step (other_loop faithful roomy step own stage)⟩
      rw [step.frame (Ne.symm own)]
      exact stands

def stale [DecidableEq W] (s : State Tid W T c) : Local W T → Bool
  | .pushSeq _ pos | .pushCas _ pos => s.head ≠ pos
  | .popSeq pos | .popCas pos => s.tail ≠ pos
  | _ => false

def distance [DecidableEq W] (s : State Tid W T c) (l : Local W T) : Nat := l.remaining+if stale s l then 3 else 0

def reads [DecidableEq W] (s : State Tid W T c) (l : Local W T) : Nat :=
  match l with
  | .sizeHead _ => 2
  | .pushLoad _ | .popLoad | .sizeTail _ _ => 1
  | l => if stale s l then 1 else 0

def Event.reread : Event Tid W T → Nat
  | .loadHead _ _ | .loadTail _ _ | .casFailed _ _ => 1
  | _ => 0

def Local.past : Local W T → Bool
  | .pushCopy _ _ | .pushStore _ _ | .popCopy _ | .popStore _ _ | .returning _ => true
  | _ => false

section Alone
variable [DecidableEq Tid] [DecidableEq W] {A : Arithmetic W c} {s s' : State Tid W T c} {t : Tid} {e : Event Tid W T}

structure Nearer (A : Arithmetic W c) (s : State Tid W T c) (t : Tid) (e : Event Tid W T) (s' : State Tid W T c) : Prop where
  busy : s'.threads t ≠ .idle
  distance : distance s' (s'.threads t) < distance s (s.threads t)
  reads : reads s' (s'.threads t)+e.reread ≤ reads s (s.threads t)
  tame : (s'.threads t).past = true ∨ Tame A s'

theorem alone_step (tame : (s.threads t).past = true ∨ Tame A s) (moved : advance A s t .run = some (e,s')) :
    (∃ r, e = .ret t r) ∨ Nearer A s t e s' := by
  cases here : s.threads t with
  | idle => simp [advance,here] at moved
  | returning r =>
    simp only [advance,here,Option.some.injEq,Prod.mk.injEq] at moved
    exact .inl ⟨r,moved.1.symm⟩
  | pushLoad | popLoad | sizeHead | sizeTail =>
    simp only [advance,here,Option.some.injEq,Prod.mk.injEq] at moved
    obtain ⟨rfl,rfl⟩ := moved
    have tame : Tame A s := tame.resolve_left (by simp [here,Local.past])
    exact .inr ⟨by simp,by simp [here,distance,Local.remaining,stale],by simp [here,reads,stale,Event.reread],.inr tame⟩
  | pushSeq v pos =>
    simp only [advance,here,Option.some.injEq,Prod.mk.injEq] at moved
    obtain ⟨rfl,rfl⟩ := moved
    have tame : Tame A s := tame.resolve_left (by simp [here,Local.past])
    refine .inr ?_
    split
    · by_cases fresh : s.head = pos <;>
        exact ⟨by simp,by simp [here,distance,Local.remaining,stale,fresh],by simp [here,reads,stale,fresh,Event.reread],.inr tame⟩
    · split
      · refine ⟨by simp,?_,by simp [here,reads,stale,Event.reread],.inr tame⟩
        simp [here,distance,Local.remaining,stale]
        omega
      · have behind : s.head ≠ pos := tame.head_ne (by omega)
        exact ⟨by simp,by simp [here,distance,Local.remaining,stale,behind],by simp [here,reads,stale,Event.reread,behind],.inr tame⟩
  | popSeq pos =>
    simp only [advance,here,Option.some.injEq,Prod.mk.injEq] at moved
    obtain ⟨rfl,rfl⟩ := moved
    have tame : Tame A s := tame.resolve_left (by simp [here,Local.past])
    refine .inr ?_
    split
    · by_cases fresh : s.tail = pos <;>
        exact ⟨by simp,by simp [here,distance,Local.remaining,stale,fresh],by simp [here,reads,stale,fresh,Event.reread],.inr tame⟩
    · split
      · refine ⟨by simp,?_,by simp [here,reads,stale,Event.reread],.inr tame⟩
        simp [here,distance,Local.remaining,stale]
        omega
      · have behind : s.tail ≠ pos := tame.tail_ne (by omega)
        exact ⟨by simp,by simp [here,distance,Local.remaining,stale,behind],by simp [here,reads,stale,Event.reread,behind],.inr tame⟩
  | pushCas v pos =>
    simp only [advance,here] at moved
    have tame : Tame A s := tame.resolve_left (by simp [here,Local.past])
    split at moved
    · obtain ⟨rfl,rfl⟩ := Prod.mk.inj (Option.some.inj moved)
      refine .inr ⟨by simp,?_,by simp [here,reads,stale,Event.reread],.inl (by simp [Local.past])⟩
      simp [here,distance,Local.remaining,stale]
      omega
    · rename_i behind
      obtain ⟨rfl,rfl⟩ := Prod.mk.inj (Option.some.inj moved)
      exact .inr ⟨by simp,by simp [here,distance,Local.remaining,stale,behind],by simp [here,reads,stale,Event.reread,behind],.inr tame⟩
  | popCas pos =>
    simp only [advance,here] at moved
    have tame : Tame A s := tame.resolve_left (by simp [here,Local.past])
    split at moved
    · obtain ⟨rfl,rfl⟩ := Prod.mk.inj (Option.some.inj moved)
      refine .inr ⟨by simp,?_,by simp [here,reads,stale,Event.reread],.inl (by simp [Local.past])⟩
      simp [here,distance,Local.remaining,stale]
      omega
    · rename_i behind
      obtain ⟨rfl,rfl⟩ := Prod.mk.inj (Option.some.inj moved)
      exact .inr ⟨by simp,by simp [here,distance,Local.remaining,stale,behind],by simp [here,reads,stale,Event.reread,behind],.inr tame⟩
  | pushCopy | pushStore | popCopy | popStore =>
    simp only [advance,here,Option.some.injEq,Prod.mk.injEq] at moved
    obtain ⟨rfl,rfl⟩ := moved
    exact .inr ⟨by simp,by simp [here,distance,Local.remaining,stale],by simp [here,reads,stale,Event.reread],
      .inl (by simp [Local.past])⟩

def rereads (es : List (Event Tid W T)) : Nat := (es.map Event.reread).sum

theorem alone_returns (tame : (s.threads t).past = true ∨ Tame A s) (busy : s.threads t ≠ .idle) :
    ∃ k es r s', play (fun s choice => advance A s t choice) s (List.replicate (k+1) .run) = some (es++[.ret t r],s') ∧
      k+1 ≤ distance s (s.threads t) ∧ rereads es ≤ reads s (s.threads t) := by
  generalize far : distance s (s.threads t) = n
  induction n using Nat.strong_induction_on generalizing s with
  | _ n ih =>
    obtain ⟨e,next,moved,_⟩ := advance_run (A:=A) busy
    rcases alone_step tame moved with ⟨r,rfl⟩ | nearer
    · refine ⟨0,[],r,next,by simp [play,moved],?_,Nat.zero_le _⟩
      have some := remaining_pos busy
      unfold distance at far
      omega
    · obtain ⟨k,es,r,s',played,near,few⟩ := ih _ (far ▸ nearer.distance) nearer.tame nearer.busy rfl
      have closer := nearer.distance
      have counted := nearer.reads
      refine ⟨k+1,e::es,r,s',?_,by omega,?_⟩
      · rw [List.replicate_succ,play,moved]
        simp [played]
      · simp only [rereads,List.map_cons,List.sum_cons] at few ⊢
        omega

end Alone

theorem trying_bounds [DecidableEq W] {s : State Tid W T c} {l : Local W T} {val : W → Nat} {side : Side}
    (stands : l.stage val side = some stage) : distance s l ≤ 8 ∧ reads s l ≤ 1 := by
  unfold distance reads
  cases side <;> cases l <;> simp [Local.stage,Local.remaining,stale] at stands ⊢ <;> split <;> omega

def Call.side : Call T → Option Side
  | .tryPush _ => some .push
  | .tryPop => some .pop
  | _ => none

theorem call_stage {op : Call T} {side : Side} (val : W → Nat) (works : op.side = some side) :
    (entry op : Local W T).stage val side = some .load := by
  cases op <;> cases works <;> rfl

structure RetriesPaid [DecidableEq Tid] (ws : List (Event Tid (BitVec 64) T × Bool)) (s : State Tid (BitVec 64) T c) : Prop where
  paid : ∀ earlier t op b during later side, ws = earlier++(.call t op,b)::during++later → op.side = some side →
    (∀ w ∈ during, ∀ r, w.1 ≠ .ret t r) →
    (during.map (label side t)).count .iteration ≤
      1+(during.map (label side t)).count .rival+(during.map (label side t)).count .spurious
  alone : ∀ t side stage, (s.threads t).stage BitVec.toNat side = some stage → ∃ k es r s',
    play (fun s choice => advance (word c) s t choice) s (List.replicate k .run) = some (es++[.ret t r],s') ∧
      k ≤ 8 ∧ rereads es ≤ 1
  pushAhead : ∀ t v pos, s.threads t = .pushSeq v pos →
    0 < (word c).diff (s.slots ((word c).slot pos)).seq pos → s.head ≠ pos
  popAhead : ∀ t pos, s.threads t = .popSeq pos →
    0 < (word c).diff (s.slots ((word c).slot pos)).seq ((word c).next pos) → s.tail ≠ pos

theorem retries_paid {Tid T : Type} [DecidableEq Tid] {c : Capacity} {junk : Fin c.size → T}
    {ws : List (Event Tid (BitVec 64) T × Bool)} {s : State Tid (BitVec 64) T c} (power : 1 ≤ c.exponent)
    (path : Runs (Watched (word c)) (initial (word c) junk) ws s) (few : (pushWins (ws.map Prod.fst)).length < 2^63) :
    RetriesPaid ws s := by
  have most := c.size_le
  have inv := (runs_accounted (word_faithful c) (c.two_le power) (watched_steps path) (by simp only [Fits]; omega)).inv
  have order := inv.order
  have count := inv.length
  rw [values_length] at count
  have tame := inv.tame (word_faithful c) most (by omega)
  refine ⟨?_,?_,?_,?_⟩
  · intro earlier t op b during later side shape works inside
    subst shape
    rw [List.append_assoc,List.cons_append] at path
    obtain ⟨here,next,front,begins,rest⟩ := path.split_at
    obtain ⟨last,along,_⟩ := rest.append_inv
    have started := front.step begins
    have stands : (next.threads t).stage BitVec.toNat side = some .load := by
      obtain ⟨step,_⟩ := begins
      cases step with
      | call => rw [State.move_self]; exact call_stage _ works
    have whole : earlier++(.call t op,b)::during++later = (earlier++[(.call t op,b)]++during)++later := by simp
    rw [whole] at few
    have enough := fewer_wins few
    obtain ⟨_,_,loop⟩ := call_loop power started along enough stands inside
    exact RetryLoop.iterations_le loop
  · intro t side stage stands
    have busy : s.threads t ≠ .idle := by
      intro idle
      rw [idle] at stands
      cases side <;> cases stands
    obtain ⟨k,es,r,s',played,near,few⟩ := alone_returns (.inr tame) busy
    have bounds := trying_bounds (s:=s) stands
    exact ⟨k+1,es,r,s',played,by omega,by omega⟩
  · exact fun _ _ _ _ ahead => tame.head_ne ahead
  · exact fun _ _ _ ahead => tame.tail_ne ahead

def scheduleWatched [DecidableEq Tid] [DecidableEq W] (A : Arithmetic W c) (s : State Tid W T c) (choice : Tid × Choice T) :
    Option ((Event Tid W T × Bool) × State Tid W T c) :=
  (schedule A s choice).map fun (e,s') => ((e,unmoved s e.thread),s')

theorem scheduleWatched_sound [DecidableEq Tid] [DecidableEq W] {A : Arithmetic W c} (s : State Tid W T c)
    (choice : Tid × Choice T) (w : Event Tid W T × Bool) (s' : State Tid W T c)
    (checked : scheduleWatched A s choice = some (w,s')) : Watched A s w s' := by
  obtain ⟨⟨e,next⟩,moved,same⟩ := Option.map_eq_some_iff.mp checked
  cases same
  exact ⟨schedule_sound s choice e s' moved,rfl⟩

-- Overtaken once, and then refused once for nothing, a push goes round three times.
def overtaken : List (Bool × Choice Nat) := List.flatten [
  [(true,.call (.tryPush 7)),(true,.run)],
  (false,.call (.tryPush 8))::List.replicate 6 (false,.run),
  [(true,.run),(true,.run),(true,.run),(true,.spurious),(true,.run),(true,.run)]]

theorem retries_paid_overtaken :
    ∃ follows : (play (scheduleWatched (word two)) (initial (word two) (fun _ => 0)) overtaken).isSome,
      let run := (play (scheduleWatched (word two)) (initial (word two) (fun _ => 0)) overtaken).get follows
      (run.1.map (label .push true)).count .iteration = 3 ∧ RetriesPaid run.1 run.2 :=
  ⟨by decide,by decide,retries_paid (by decide) (play_get scheduleWatched_sound (by decide)) (by decide)⟩

end Chronos.MpmcQueue
