import Chronos.Runs
import Mathlib.Data.Nat.Bitwise

namespace Chronos.MpmcQueue

-- N is a size_t with (N & (N - 1)) == 0; the constructor asserts no more.
structure Capacity where
  exponent : Nat
  fits : exponent < 64
  deriving DecidableEq

def Capacity.size (c : Capacity) : Nat := 2^c.exponent

theorem Capacity.size_pos (c : Capacity) : 0 < c.size := Nat.two_pow_pos _

theorem Capacity.size_lt (c : Capacity) : c.size < 2^64 :=
  Nat.pow_lt_pow_right (by decide) c.fits

theorem Capacity.size_le (c : Capacity) : c.size ≤ 2^63 :=
  Nat.pow_le_pow_right (by decide) (by have := c.fits; omega)

theorem Capacity.two_le (c : Capacity) (least : 1 ≤ c.exponent) : 2 ≤ c.size := by
  simpa [Capacity.size] using Nat.pow_le_pow_right (n:=2) (by decide) least

def Capacity.index (c : Capacity) (t : Nat) : Fin c.size := ⟨t % c.size,Nat.mod_lt _ c.size_pos⟩

theorem Capacity.index_eq {c : Capacity} {t u : Nat} : c.index t = c.index u ↔ t % c.size = u % c.size := by
  simp [Capacity.index]

theorem Capacity.index_window {c : Capacity} {t u : Nat} (same : c.index t = c.index u)
    (order : t ≤ u) (near : u < t+c.size) : t = u := by
  have equal := Capacity.index_eq.mp same
  have gap : (u-t) % c.size = 0 := Nat.sub_mod_eq_zero_of_mod_eq equal.symm
  rw [Nat.mod_eq_of_lt (by omega)] at gap
  omega

@[simp] theorem Capacity.index_lap (c : Capacity) (t : Nat) : c.index (t+c.size) = c.index t := by
  simp [Capacity.index]

-- What try_push and try_pop do with positions and sequence numbers. `word` is
-- the code's own instance; W stays a parameter so that the same loop can also
-- be run on other representations of a ticket.
structure Arithmetic (W : Type) (c : Capacity) where
  ofIndex : Nat → W
  next : W → W
  lap : W → W
  slot : W → Fin c.size
  diff : W → W → Int
  sub : W → W → W

def mask (c : Capacity) (pos : BitVec 64) : BitVec 64 := pos &&& (BitVec.ofNat 64 c.size - 1)

theorem mask_toNat (c : Capacity) (pos : BitVec 64) : (mask c pos).toNat = pos.toNat % c.size := by
  have low : (BitVec.ofNat 64 c.size - 1).toNat = 2^c.exponent - 1 := by
    have positive := c.size_pos
    have bound := c.size_lt
    rw [BitVec.toNat_sub_of_le]
    · rw [BitVec.toNat_ofNat,Nat.mod_eq_of_lt bound]; rfl
    · rw [BitVec.le_def,BitVec.toNat_ofNat,Nat.mod_eq_of_lt bound]; simp; omega
  rw [mask,BitVec.toNat_and,low,Nat.and_two_pow_sub_one_eq_mod,Capacity.size]

-- size_t arithmetic: pos & (N - 1), and int64(seq) - int64(pos) in two's complement.
def word (c : Capacity) : Arithmetic (BitVec 64) c where
  ofIndex i := BitVec.ofNat 64 i
  next pos := pos+1
  lap pos := pos+BitVec.ofNat 64 c.size
  slot pos := ⟨(mask c pos).toNat,by rw [mask_toNat]; exact Nat.mod_lt _ c.size_pos⟩
  diff seq pos := (seq-pos).toInt
  sub h t := h-t

inductive Call (T : Type) where
  | tryPush (val : T)
  | tryPop
  | size
  | empty
  deriving DecidableEq

inductive Result (W T : Type) where
  | pushed (val : T) (pos : W)
  | full (val : T)
  | popped (pos : W) (val : T)
  | none
  | size (n : W)
  | isEmpty (b : Bool)
  deriving DecidableEq

-- Where a thread stands: the name says which shared access comes next.
inductive Local (W T : Type) where
  | idle
  | pushLoad (val : T)
  | pushSeq (val : T) (pos : W)
  | pushCas (val : T) (pos : W)
  | pushCopy (val : T) (pos : W)
  | pushStore (val : T) (pos : W)
  | popLoad
  | popSeq (pos : W)
  | popCas (pos : W)
  | popCopy (pos : W)
  | popStore (pos : W) (val : T)
  | sizeHead (isEmpty : Bool)
  | sizeTail (isEmpty : Bool) (h : W)
  | returning (result : Result W T)
  deriving DecidableEq

structure Slot (W T : Type) where
  data : T
  seq : W

structure State (Tid W T : Type) (c : Capacity) where
  slots : Fin c.size → Slot W T
  head : W
  tail : W
  threads : Tid → Local W T

inductive Event (Tid W T : Type) where
  | call (t : Tid) (op : Call T)
  | loadHead (t : Tid) (pos : W)
  | loadTail (t : Tid) (pos : W)
  | loadSeq (t : Tid) (pos seq : W)
  | pushWon (t : Tid) (pos : W) (val : T)
  | popWon (t : Tid) (pos : W)
  | casFailed (t : Tid) (pos : W)
  | copyIn (t : Tid) (pos : W) (val : T)
  | copyOut (t : Tid) (pos : W) (val : T)
  | published (t : Tid) (pos : W)
  | released (t : Tid) (pos : W)
  | ret (t : Tid) (result : Result W T)
  deriving DecidableEq

variable {Tid W T : Type} {c : Capacity}

def Event.thread : Event Tid W T → Tid
  | .call t _ | .loadHead t _ | .loadTail t _ | .loadSeq t _ _ | .pushWon t _ _ | .popWon t _
  | .casFailed t _ | .copyIn t _ _ | .copyOut t _ _ | .published t _ | .released t _ | .ret t _ => t

namespace State

def writeData (s : State Tid W T c) (i : Fin c.size) (val : T) : State Tid W T c :=
  {s with slots := Function.update s.slots i {s.slots i with data := val}}

def writeSeq (s : State Tid W T c) (i : Fin c.size) (seq : W) : State Tid W T c :=
  {s with slots := Function.update s.slots i {s.slots i with seq := seq}}

@[simp] theorem writeData_head (s : State Tid W T c) (i : Fin c.size) (val : T) : (s.writeData i val).head = s.head := rfl
@[simp] theorem writeData_tail (s : State Tid W T c) (i : Fin c.size) (val : T) : (s.writeData i val).tail = s.tail := rfl
@[simp] theorem writeData_threads (s : State Tid W T c) (i : Fin c.size) (val : T) :
    (s.writeData i val).threads = s.threads := rfl
@[simp] theorem writeData_seq (s : State Tid W T c) (i j : Fin c.size) (val : T) :
    ((s.writeData i val).slots j).seq = (s.slots j).seq := by
  by_cases same : j = i
  · subst j; simp [writeData]
  · simp [writeData,same]
theorem writeData_data (s : State Tid W T c) (i j : Fin c.size) (val : T) :
    ((s.writeData i val).slots j).data = if j = i then val else (s.slots j).data := by
  by_cases same : j = i
  · subst j; simp [writeData]
  · simp [writeData,same]

@[simp] theorem writeSeq_head (s : State Tid W T c) (i : Fin c.size) (seq : W) : (s.writeSeq i seq).head = s.head := rfl
@[simp] theorem writeSeq_tail (s : State Tid W T c) (i : Fin c.size) (seq : W) : (s.writeSeq i seq).tail = s.tail := rfl
@[simp] theorem writeSeq_threads (s : State Tid W T c) (i : Fin c.size) (seq : W) :
    (s.writeSeq i seq).threads = s.threads := rfl
@[simp] theorem writeSeq_data (s : State Tid W T c) (i j : Fin c.size) (seq : W) :
    ((s.writeSeq i seq).slots j).data = (s.slots j).data := by
  by_cases same : j = i
  · subst j; simp [writeSeq]
  · simp [writeSeq,same]
theorem writeSeq_seq (s : State Tid W T c) (i j : Fin c.size) (seq : W) :
    ((s.writeSeq i seq).slots j).seq = if j = i then seq else (s.slots j).seq := by
  by_cases same : j = i
  · subst j; simp [writeSeq]
  · simp [writeSeq,same]

section Move
variable [DecidableEq Tid]

def move (s : State Tid W T c) (t : Tid) (l : Local W T) : State Tid W T c :=
  {s with threads := Function.update s.threads t l}

@[simp] theorem move_slots (s : State Tid W T c) (t : Tid) (l : Local W T) : (s.move t l).slots = s.slots := rfl
@[simp] theorem move_head (s : State Tid W T c) (t : Tid) (l : Local W T) : (s.move t l).head = s.head := rfl
@[simp] theorem move_tail (s : State Tid W T c) (t : Tid) (l : Local W T) : (s.move t l).tail = s.tail := rfl
@[simp] theorem move_self (s : State Tid W T c) (t : Tid) (l : Local W T) : (s.move t l).threads t = l := by
  simp [move]
theorem move_other (s : State Tid W T c) {t u : Tid} (l : Local W T) (other : u ≠ t) :
    (s.move t l).threads u = s.threads u := by simp [move,other]

end Move

end State

-- slots_[i].seq = i, head_ = tail_ = 0; the data of a fresh slot is whatever was there.
def initial (A : Arithmetic W c) (junk : Fin c.size → T) : State Tid W T c where
  slots i := ⟨junk i,A.ofIndex i⟩
  head := A.ofIndex 0
  tail := A.ofIndex 0
  threads _ := .idle

def entry : Call T → Local W T
  | .tryPush val => .pushLoad val
  | .tryPop => .popLoad
  | .size => .sizeHead false
  | .empty => .sizeHead true

-- size() subtracts as size_t; empty() compares the difference with 0.
def sized [DecidableEq W] (A : Arithmetic W c) (isEmpty : Bool) (h t : W) : Result W T :=
  if isEmpty then .isEmpty (decide (A.sub h t = A.ofIndex 0)) else .size (A.sub h t)

-- A caller starts a call, a thread takes its next shared access, or a weak
-- compare-exchange that could have succeeded fails.
inductive Choice (T : Type) where
  | call (op : Call T)
  | run
  | spurious
  deriving DecidableEq

section Steps
variable [DecidableEq Tid] [DecidableEq W]

-- One iteration of either loop is spread over several accesses: the counter,
-- the slot's seq, and then, when diff is 0, the exchange and the two writes.
def advance (A : Arithmetic W c) (s : State Tid W T c) (t : Tid) :
    Choice T → Option (Event Tid W T × State Tid W T c)
  | .call op =>
    match s.threads t with
    | .idle => some (.call t op,s.move t (entry op))
    | _ => none
  | .spurious =>
    match s.threads t with
    | .pushCas val pos => some (.casFailed t pos,s.move t (.pushSeq val s.head))
    | .popCas pos => some (.casFailed t pos,s.move t (.popSeq s.tail))
    | _ => none
  | .run =>
    match s.threads t with
    | .idle => none
    | .pushLoad val => some (.loadHead t s.head,s.move t (.pushSeq val s.head))
    | .pushSeq val pos =>
      let seq := (s.slots (A.slot pos)).seq
      some (.loadSeq t pos seq,s.move t (
        if A.diff seq pos = 0 then .pushCas val pos
        else if A.diff seq pos < 0 then .returning (.full val)
        else .pushLoad val))
    | .pushCas val pos =>
      if s.head = pos then
        some (.pushWon t pos val,State.move {s with head := A.next pos} t (.pushCopy val pos))
      else some (.casFailed t pos,s.move t (.pushSeq val s.head))
    | .pushCopy val pos =>
      some (.copyIn t pos val,(s.writeData (A.slot pos) val).move t (.pushStore val pos))
    | .pushStore val pos =>
      some (.published t pos,(s.writeSeq (A.slot pos) (A.next pos)).move t (.returning (.pushed val pos)))
    | .popLoad => some (.loadTail t s.tail,s.move t (.popSeq s.tail))
    | .popSeq pos =>
      let seq := (s.slots (A.slot pos)).seq
      some (.loadSeq t pos seq,s.move t (
        if A.diff seq (A.next pos) = 0 then .popCas pos
        else if A.diff seq (A.next pos) < 0 then .returning .none
        else .popLoad))
    | .popCas pos =>
      if s.tail = pos then
        some (.popWon t pos,State.move {s with tail := A.next pos} t (.popCopy pos))
      else some (.casFailed t pos,s.move t (.popSeq s.tail))
    | .popCopy pos =>
      let val := (s.slots (A.slot pos)).data
      some (.copyOut t pos val,s.move t (.popStore pos val))
    | .popStore pos val =>
      some (.released t pos,(s.writeSeq (A.slot pos) (A.lap pos)).move t (.returning (.popped pos val)))
    | .sizeHead isEmpty => some (.loadHead t s.head,s.move t (.sizeTail isEmpty s.head))
    | .sizeTail isEmpty h => some (.loadTail t s.tail,s.move t (.returning (sized A isEmpty h s.tail)))
    | .returning result => some (.ret t result,s.move t .idle)

inductive Step (A : Arithmetic W c) : State Tid W T c → Event Tid W T → State Tid W T c → Prop where
  | call (free : s.threads t = .idle) : Step A s (.call t op) (s.move t (entry op))
  | pushLoad (at_ : s.threads t = .pushLoad val) : Step A s (.loadHead t s.head) (s.move t (.pushSeq val s.head))
  | pushFree (at_ : s.threads t = .pushSeq val pos) (seen : A.diff (s.slots (A.slot pos)).seq pos = 0) :
      Step A s (.loadSeq t pos (s.slots (A.slot pos)).seq) (s.move t (.pushCas val pos))
  | pushFull (at_ : s.threads t = .pushSeq val pos) (seen : A.diff (s.slots (A.slot pos)).seq pos < 0) :
      Step A s (.loadSeq t pos (s.slots (A.slot pos)).seq) (s.move t (.returning (.full val)))
  | pushBehind (at_ : s.threads t = .pushSeq val pos) (seen : 0 < A.diff (s.slots (A.slot pos)).seq pos) :
      Step A s (.loadSeq t pos (s.slots (A.slot pos)).seq) (s.move t (.pushLoad val))
  | pushWon (at_ : s.threads t = .pushCas val pos) (seen : s.head = pos) :
      Step A s (.pushWon t pos val) (State.move {s with head := A.next pos} t (.pushCopy val pos))
  | pushLost (at_ : s.threads t = .pushCas val pos) :
      Step A s (.casFailed t pos) (s.move t (.pushSeq val s.head))
  | copyIn (at_ : s.threads t = .pushCopy val pos) :
      Step A s (.copyIn t pos val) ((s.writeData (A.slot pos) val).move t (.pushStore val pos))
  | publish (at_ : s.threads t = .pushStore val pos) :
      Step A s (.published t pos)
        ((s.writeSeq (A.slot pos) (A.next pos)).move t (.returning (.pushed val pos)))
  | popLoad (at_ : s.threads t = .popLoad) : Step A s (.loadTail t s.tail) (s.move t (.popSeq s.tail))
  | popReady (at_ : s.threads t = .popSeq pos) (seen : A.diff (s.slots (A.slot pos)).seq (A.next pos) = 0) :
      Step A s (.loadSeq t pos (s.slots (A.slot pos)).seq) (s.move t (.popCas pos))
  | popNone (at_ : s.threads t = .popSeq pos) (seen : A.diff (s.slots (A.slot pos)).seq (A.next pos) < 0) :
      Step A s (.loadSeq t pos (s.slots (A.slot pos)).seq) (s.move t (.returning .none))
  | popBehind (at_ : s.threads t = .popSeq pos) (seen : 0 < A.diff (s.slots (A.slot pos)).seq (A.next pos)) :
      Step A s (.loadSeq t pos (s.slots (A.slot pos)).seq) (s.move t .popLoad)
  | popWon (at_ : s.threads t = .popCas pos) (seen : s.tail = pos) :
      Step A s (.popWon t pos) (State.move {s with tail := A.next pos} t (.popCopy pos))
  | popLost (at_ : s.threads t = .popCas pos) : Step A s (.casFailed t pos) (s.move t (.popSeq s.tail))
  | copyOut (at_ : s.threads t = .popCopy pos) :
      Step A s (.copyOut t pos (s.slots (A.slot pos)).data)
        (s.move t (.popStore pos (s.slots (A.slot pos)).data))
  | release (at_ : s.threads t = .popStore pos val) :
      Step A s (.released t pos)
        ((s.writeSeq (A.slot pos) (A.lap pos)).move t (.returning (.popped pos val)))
  | sizeHead (at_ : s.threads t = .sizeHead isEmpty) :
      Step A s (.loadHead t s.head) (s.move t (.sizeTail isEmpty s.head))
  | sizeTail (at_ : s.threads t = .sizeTail isEmpty h) :
      Step A s (.loadTail t s.tail) (s.move t (.returning (sized A isEmpty h s.tail)))
  | ret (at_ : s.threads t = .returning result) : Step A s (.ret t result) (s.move t .idle)

theorem advance_sound {A : Arithmetic W c} {s : State Tid W T c}
    (checked : advance A s t choice = some (event,next)) : Step A s event next := by
  cases choice with
  | call op =>
    simp only [advance] at checked
    split at checked
    · cases checked; exact .call ‹_›
    · cases checked
  | spurious =>
    simp only [advance] at checked
    split at checked
    · cases checked; exact .pushLost ‹_›
    · cases checked; exact .popLost ‹_›
    · cases checked
  | run =>
    cases here : s.threads t <;> simp only [advance,here] at checked
    case idle => cases checked
    case pushLoad => cases checked; exact .pushLoad here
    case pushSeq val pos =>
      cases checked
      split
      · exact .pushFree here ‹_›
      · split
        · exact .pushFull here ‹_›
        · exact .pushBehind here (by omega)
    case pushCas val pos =>
      split at checked
      · cases checked; exact .pushWon here ‹_›
      · cases checked; exact .pushLost here
    case pushCopy => cases checked; exact .copyIn here
    case pushStore => cases checked; exact .publish here
    case popLoad => cases checked; exact .popLoad here
    case popSeq pos =>
      cases checked
      split
      · exact .popReady here ‹_›
      · split
        · exact .popNone here ‹_›
        · exact .popBehind here (by omega)
    case popCas pos =>
      split at checked
      · cases checked; exact .popWon here ‹_›
      · cases checked; exact .popLost here
    case popCopy => cases checked; exact .copyOut here
    case popStore => cases checked; exact .release here
    case sizeHead => cases checked; exact .sizeHead here
    case sizeTail => cases checked; exact .sizeTail here
    case returning => cases checked; exact .ret here

theorem advance_complete {A : Arithmetic W c} {s : State Tid W T c}
    (step : Step A s event next) : ∃ choice, advance A s event.thread choice = some (event,next) := by
  cases step with
  | @call _ t op free => exact ⟨.call op,by simp [advance,Event.thread,free]⟩
  | pushLost at_ | popLost at_ => exact ⟨.spurious,by simp [advance,Event.thread,at_]⟩
  | pushFull at_ seen | popNone at_ seen =>
    exact ⟨.run,by simp [advance,Event.thread,at_,seen,Int.ne_of_lt seen]⟩
  | pushBehind at_ seen | popBehind at_ seen =>
    exact ⟨.run,by simp [advance,Event.thread,at_,Int.ne_of_gt seen,Int.not_lt.mpr (Int.le_of_lt seen)]⟩
  | pushFree at_ seen | popReady at_ seen | pushWon at_ seen | popWon at_ seen =>
    exact ⟨.run,by simp [advance,Event.thread,at_,seen]⟩
  | pushLoad at_ | copyIn at_ | publish at_ | popLoad at_ | copyOut at_ | release at_ | sizeHead at_
  | sizeTail at_ | ret at_ => exact ⟨.run,by simp [advance,Event.thread,at_]⟩

theorem advance_exact {A : Arithmetic W c} {s : State Tid W T c} :
    (∃ choice, advance A s event.thread choice = some (event,next)) ↔ Step A s event next :=
  ⟨fun ⟨_,checked⟩ => advance_sound checked,advance_complete⟩

def schedule (A : Arithmetic W c) (s : State Tid W T c) (choice : Tid × Choice T) :
    Option (Event Tid W T × State Tid W T c) := advance A s choice.1 choice.2

theorem schedule_sound {A : Arithmetic W c} (s : State Tid W T c) (choice : Tid × Choice T)
    (event : Event Tid W T) (next : State Tid W T c) (checked : schedule A s choice = some (event,next)) :
    Step A s event next := advance_sound checked

theorem schedule_runs {A : Arithmetic W c} {s : State Tid W T c}
    (follows : (play (schedule A) s choices).isSome) :
    Runs (Step A) s ((play (schedule A) s choices).get follows).1 ((play (schedule A) s choices).get follows).2 :=
  play_get schedule_sound follows

end Steps
end Chronos.MpmcQueue
