import Chronos.MpmcLinear
import Chronos.MpmcRetries

namespace Chronos.MpmcQueue

variable {Tid W T : Type} {c : Capacity}

-- A ticket's slot is held from the exchange that wins the ticket to the store that
-- passes the slot on. What the two loops wait for is that nobody holds it.
def State.Free (s : State Tid (BitVec 64) T c) : Prop := s.head.toNat < s.tail.toNat+c.size ∧
  ∀ t pos, (s.threads t).reading = some pos → pos.toNat+c.size ≠ s.head.toNat

def State.Ready (s : State Tid (BitVec 64) T c) : Prop := s.tail.toNat < s.head.toNat ∧
  ∀ t pos, (s.threads t).writing = some pos → pos.toNat ≠ s.tail.toNat

section Diffs
variable {s : State Tid (BitVec 64) T c} {pushed : List T}

theorem Inv.free_iff (inv : Inv BitVec.toNat pushed s) (least : 2 ≤ c.size) : s.Free ↔ pushDiff (word c) s = 0 := by
  have faithful := word_faithful c
  have slot : seqAt BitVec.toNat s s.head.toNat = (s.slots ((word c).slot s.head)).seq.toNat := by rw [faithful.slot]; rfl
  rw [pushDiff,faithful.zero]
  constructor
  · rintro ⟨room,unread⟩
    have seq := inv.vacant s.head.toNat (Nat.le_refl _) room unread
    exact faithful.injective _ _ (slot ▸ seq)
  · intro same
    have seq : seqAt BitVec.toNat s s.head.toNat = s.head.toNat := by rw [slot,same]
    refine ⟨inv.free_room least seq,fun t pos reads => ?_⟩
    have ahead := inv.free_unread least seq reads
    omega

theorem Inv.ready_iff (inv : Inv BitVec.toNat pushed s) (least : 2 ≤ c.size) (roomy : s.tail.toNat+1 < 2^64) :
    s.Ready ↔ popDiff (word c) s = 0 := by
  have faithful := word_faithful c
  have slot : seqAt BitVec.toNat s s.tail.toNat = (s.slots ((word c).slot s.tail)).seq.toNat := by rw [faithful.slot]; rfl
  have next := faithful.next s.tail (by omega)
  rw [popDiff,faithful.zero]
  constructor
  · rintro ⟨some,unwritten⟩
    have seq := (inv.filled s.tail.toNat (Nat.le_refl _) some unwritten).1
    exact faithful.injective _ _ (by rw [← slot,seq,next])
  · intro same
    have seq : seqAt BitVec.toNat s s.tail.toNat = s.tail.toNat+1 := by rw [slot,same,next]
    exact ⟨inv.ready_pushed least seq,fun t pos writes => inv.ready_unwritten seq writes⟩

end Diffs

section Alone
variable [DecidableEq Tid] [DecidableEq W] {A : Arithmetic W c} {s : State Tid W T c} {t : Tid}

-- What a thread returns when the others stand still, wherever they stand, and none of
-- its own exchanges fails for nothing.
def Comes (A : Arithmetic W c) (t : Tid) (s : State Tid W T c) (r : Result W T) : Prop := ∃ k es s',
  play (fun s choice => advance A s t choice) s (List.replicate k .run) = some (es++[.ret t r],s')

theorem Comes.last {r : Result W T} (at_ : s.threads t = .returning r) : Comes A t s r :=
  ⟨1,[],s.move t .idle,by simp [play,advance,at_]⟩

theorem Comes.step {s' : State Tid W T c} {e : Event Tid W T} {r : Result W T} (moved : advance A s t .run = some (e,s'))
    (rest : Comes A t s' r) : Comes A t s r := by
  obtain ⟨k,es,last,played⟩ := rest
  exact ⟨k+1,e::es,last,by rw [List.replicate_succ,play,moved]; simp [played]⟩

theorem comes_stored (at_ : s.threads t = .pushStore v pos) : Comes A t s (.pushed v pos) :=
  .step (by rw [advance,at_]) (.last (State.move_self _ _ _))

theorem comes_won (at_ : s.threads t = .pushCopy v pos) : Comes A t s (.pushed v pos) :=
  .step (by rw [advance,at_]) (comes_stored (State.move_self _ _ _))

theorem comes_read (at_ : s.threads t = .popStore pos v) : Comes A t s (.popped pos v) :=
  .step (by rw [advance,at_]) (.last (State.move_self _ _ _))

theorem comes_taken (at_ : s.threads t = .popCopy pos) : Comes A t s (.popped pos (s.slots (A.slot pos)).data) :=
  .step (by rw [advance,at_]) (comes_read (State.move_self _ _ _))

theorem comes_exchanged (at_ : s.threads t = .pushCas v s.head) : Comes A t s (.pushed v s.head) :=
  .step (by simp only [advance,at_,if_true]; rfl) (comes_won (State.move_self _ _ _))

theorem comes_claimed (at_ : s.threads t = .popCas s.tail) : Comes A t s (.popped s.tail (s.slots (A.slot s.tail)).data) :=
  .step (by simp only [advance,at_,if_true]; rfl)
    (comes_taken (s:=State.move {s with tail := A.next s.tail} t (.popCopy s.tail)) (State.move_self _ _ _))

theorem comes_looked (at_ : s.threads t = .pushSeq v s.head) (tame : pushDiff A s ≤ 0) :
    Comes A t s (if pushDiff A s = 0 then .pushed v s.head else .full v) := by
  refine .step (by rw [advance,at_]) ?_
  unfold pushDiff at *
  split
  · exact comes_exchanged (s:=s.move t (.pushCas v s.head)) (State.move_self _ _ _)
  · rw [if_pos (by omega)]
    exact .last (State.move_self _ _ _)

theorem comes_found (at_ : s.threads t = .popSeq s.tail) (tame : popDiff A s ≤ 0) :
    Comes A t s (if popDiff A s = 0 then .popped s.tail (s.slots (A.slot s.tail)).data else .none) := by
  refine .step (by rw [advance,at_]) ?_
  unfold popDiff at *
  split
  · exact comes_claimed (s:=s.move t (.popCas s.tail)) (State.move_self _ _ _)
  · rw [if_pos (by omega)]
    exact .last (State.move_self _ _ _)

theorem push_comes (at_ : s.threads t = .pushLoad v) (tame : pushDiff A s ≤ 0) :
    Comes A t s (if pushDiff A s = 0 then .pushed v s.head else .full v) :=
  .step (by rw [advance,at_]) (comes_looked (s:=s.move t (.pushSeq v s.head)) (State.move_self _ _ _) tame)

theorem pop_comes (at_ : s.threads t = .popLoad) (tame : popDiff A s ≤ 0) :
    Comes A t s (if popDiff A s = 0 then .popped s.tail (s.slots (A.slot s.tail)).data else .none) :=
  .step (by rw [advance,at_]) (comes_found (s:=s.move t (.popSeq s.tail)) (State.move_self _ _ _) tame)

def Returns (A : Arithmetic W c) (s : State Tid W T c) (t : Tid) (op : Call T) (r : Result W T) : Prop := ∃ k es s',
  play (fun s choice => advance A s t choice) s (.call op::List.replicate k .run) = some (es++[.ret t r],s')

theorem Comes.returns {op : Call T} {r : Result W T} (idle : s.threads t = .idle) (comes : Comes A t (s.move t (entry op)) r) :
    Returns A s t op r := by
  obtain ⟨k,es,last,played⟩ := comes
  refine ⟨k,.call t op::es,last,?_⟩
  have begins : advance A s t (.call op) = some (.call t op,s.move t (entry op)) := by rw [advance,idle]
  rw [play,begins]
  simp [played]

theorem stopped_stays {during : List (Event Tid W T)} {s' : State Tid W T c} (path : Runs (Step A) s during s')
    (stopped : ∀ e ∈ during, e.thread ≠ t) : s'.threads t = s.threads t := by
  induction path with
  | nil => rfl
  | step _ taken ih =>
    rw [taken.frame (Ne.symm (stopped _ (by simp)))]
    exact ih fun e member => stopped e (List.mem_append_left _ member)

end Alone

section Stalls
variable [DecidableEq Tid] {junk : Fin c.size → T} {es during : List (Event Tid (BitVec 64) T)} {s s' : State Tid (BitVec 64) T c}

theorem wins_moved (before : Accounted BitVec.toNat es s) (after : Accounted BitVec.toNat (es++during) s') :
    s'.head.toNat = s.head.toNat+(pushWins during).length ∧ s'.tail.toNat = s.tail.toNat+(popWins during).length := by
  have heads := before.inv.length
  have heads' := after.inv.length
  have tails := before.taken
  have tails' := after.taken
  rw [values_length] at heads heads'
  rw [pushWins,List.filterMap_append,List.length_append] at heads'
  rw [popWins,List.filterMap_append,List.length_append] at tails'
  constructor
  · rw [← heads',← heads]; rfl
  · rw [← tails',← tails]; rfl

theorem stalled_writer (before : Accounted BitVec.toNat es s) (after : Accounted BitVec.toNat (es++during) s')
    (path : Runs (Step (word c)) s during s') (stopped : ∀ e ∈ during, e.thread ≠ t) (writes : (s.threads t).writing = some pos) :
    (popWins during).length ≤ pos.toNat-s.tail.toNat ∧ (pushWins during).length ≤ pos.toNat+c.size-s.head.toNat := by
  obtain ⟨head,tail⟩ := wins_moved before after
  have still : (s'.threads t).writing = some pos := by rw [stopped_stays path stopped]; exact writes
  have low := (after.inv.writer t pos still).1
  have room := after.inv.room
  omega

theorem stalled_reader (before : Accounted BitVec.toNat es s) (after : Accounted BitVec.toNat (es++during) s')
    (path : Runs (Step (word c)) s during s') (stopped : ∀ e ∈ during, e.thread ≠ t) (reads : (s.threads t).reading = some pos) :
    (pushWins during).length ≤ pos.toNat+c.size-s.head.toNat ∧ (popWins during).length ≤ pos.toNat+c.size-s.tail.toNat := by
  obtain ⟨head,tail⟩ := wins_moved before after
  have still : (s'.threads t).reading = some pos := by rw [stopped_stays path stopped]; exact reads
  have near := (after.inv.reader t pos still).2.1
  have order := after.inv.order
  omega

theorem push_alone {pushed : List T} (inv : Inv BitVec.toNat pushed s) (least : 2 ≤ c.size) (tame : pushDiff (word c) s ≤ 0)
    (idle : s.threads t = .idle) (v : T) : (s.Free ∧ Returns (word c) s t (.tryPush v) (.pushed v s.head)) ∨
      ¬ s.Free ∧ Returns (word c) s t (.tryPush v) (.full v) := by
  have comes := push_comes (s:=s.move t (.pushLoad v)) (State.move_self _ _ _) tame
  have same : pushDiff (word c) (s.move t (.pushLoad v)) = pushDiff (word c) s := rfl
  rw [inv.free_iff least,← same]
  split at comes
  · exact .inl ⟨‹_›,comes.returns idle⟩
  · exact .inr ⟨‹_›,comes.returns idle⟩

theorem pop_alone {pushed : List T} (inv : Inv BitVec.toNat pushed s) (least : 2 ≤ c.size) (roomy : s.tail.toNat+1 < 2^64)
    (tame : popDiff (word c) s ≤ 0) (idle : s.threads t = .idle) :
    (s.Ready ∧ ∃ v, pushed[s.tail.toNat]? = some v ∧ Returns (word c) s t .tryPop (.popped s.tail v)) ∨
      ¬ s.Ready ∧ Returns (word c) s t .tryPop .none := by
  have comes := pop_comes (s:=s.move t .popLoad) (State.move_self _ _ _) tame
  have same : popDiff (word c) (s.move t .popLoad) = popDiff (word c) s := rfl
  have ready := inv.ready_iff least roomy
  split at comes
  · rename_i found
    have some := ready.mpr found
    refine .inl ⟨some,_,?_,comes.returns idle⟩
    rw [(inv.filled s.tail.toNat (Nat.le_refl _) some.1 some.2).2,dataAt,← (word_faithful c).slot]
    rfl
  · rename_i missing
    exact .inr ⟨fun some => missing (ready.mp some),comes.returns idle⟩

-- A thread that is stopped for good stops the queue only between its exchange and its
-- store, and only after the values and places in front of its ticket are used up.
structure OnlyHoldersBlock (es : List (Event Tid (BitVec 64) T)) (s : State Tid (BitVec 64) T c) : Prop where
  writer : ∀ t pos during s', (s.threads t).writing = some pos → Runs (Step (word c)) s during s' →
    (∀ e ∈ during, e.thread ≠ t) → (pushWins (es++during)).length < 2^63 →
      (popWins during).length ≤ pos.toNat-s.tail.toNat ∧ (pushWins during).length ≤ pos.toNat+c.size-s.head.toNat
  reader : ∀ t pos during s', (s.threads t).reading = some pos → Runs (Step (word c)) s during s' →
    (∀ e ∈ during, e.thread ≠ t) → (pushWins (es++during)).length < 2^63 →
      (pushWins during).length ≤ pos.toNat+c.size-s.head.toNat ∧ (popWins during).length ≤ pos.toNat+c.size-s.tail.toNat
  pushes : ∀ t v, s.threads t = .idle → (s.Free ∧ Returns (word c) s t (.tryPush v) (.pushed v s.head)) ∨
    ¬ s.Free ∧ Returns (word c) s t (.tryPush v) (.full v)
  pops : ∀ t, s.threads t = .idle →
    (s.Ready ∧ ∃ v, (values es)[s.tail.toNat]? = some v ∧ Returns (word c) s t .tryPop (.popped s.tail v)) ∨
      ¬ s.Ready ∧ Returns (word c) s t .tryPop .none

theorem only_holders_block {Tid T : Type} [DecidableEq Tid] {c : Capacity} {junk : Fin c.size → T}
    {es : List (Event Tid (BitVec 64) T)} {s : State Tid (BitVec 64) T c} (power : 1 ≤ c.exponent)
    (path : Runs (Step (word c)) (initial (word c) junk) es s) (few : (pushWins es).length < 2^63) : OnlyHoldersBlock es s := by
  have least := c.two_le power
  have here := word_accounted power path few
  have order := here.inv.order
  have count := here.inv.length
  rw [values_length] at count
  have roomy : s.tail.toNat+1 < 2^64 := by omega
  obtain ⟨push,pop⟩ := here.inv.tame (word_faithful c) c.size_le (by omega)
  refine ⟨?_,?_,fun t v idle => push_alone here.inv least push idle v,fun t idle => pop_alone here.inv least roomy pop idle⟩
  · intro t pos during s' writes rest stopped few
    exact stalled_writer here (word_accounted power (path.append rest) few) rest stopped writes
  · intro t pos during s' reads rest stopped few
    exact stalled_reader here (word_accounted power (path.append rest) few) rest stopped reads

end Stalls

def wonAndStopped : List (Bool × Choice Nat) := (true,.call (.tryPush 7))::List.replicate 3 (true,.run)

theorem only_holders_block_wonAndStopped :
    ∃ follows : (play (schedule (word two)) (initial (word two) (fun _ => 0)) wonAndStopped).isSome,
      let run := (play (schedule (word two)) (initial (word two) (fun _ => 0)) wonAndStopped).get follows
      (run.2.threads true).writing = some 0 ∧ OnlyHoldersBlock run.1 run.2 :=
  ⟨by decide,by decide,only_holders_block (by decide) (schedule_runs (by decide)) (by decide)⟩

end Chronos.MpmcQueue
