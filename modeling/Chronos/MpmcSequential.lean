import Chronos.MpmcUnbounded

namespace Chronos.MpmcQueue

variable {Tid W T : Type} {c : Capacity}

-- What one call does when no other is in flight: the two functions as straight-line code.
def pushDiff (A : Arithmetic W c) (s : State Tid W T c) : Int := A.diff (s.slots (A.slot s.head)).seq s.head
def popDiff (A : Arithmetic W c) (s : State Tid W T c) : Int := A.diff (s.slots (A.slot s.tail)).seq (A.next s.tail)

def State.pushAt (A : Arithmetic W c) (s : State Tid W T c) (val : T) : State Tid W T c :=
  (State.writeData {s with head := A.next s.head} (A.slot s.head) val).writeSeq (A.slot s.head) (A.next s.head)

def State.popAt (A : Arithmetic W c) (s : State Tid W T c) : State Tid W T c :=
  State.writeSeq {s with tail := A.next s.tail} (A.slot s.tail) (A.lap s.tail)

theorem pushAt_slots (A : Arithmetic W c) (s : State Tid W T c) (val : T) {i : Fin c.size} (other : i ≠ A.slot s.head) :
    (s.pushAt A val).slots i = s.slots i := by
  simp only [State.pushAt,State.writeSeq,State.writeData,Function.update_of_ne other]

theorem popAt_slots (A : Arithmetic W c) (s : State Tid W T c) {i : Fin c.size} (other : i ≠ A.slot s.tail) :
    (s.popAt A).slots i = s.slots i := by
  simp only [State.popAt,State.writeSeq,Function.update_of_ne other]

inductive Served [DecidableEq W] (A : Arithmetic W c) (s : State Tid W T c) :
    Call T → Result W T → State Tid W T c → Prop where
  | pushed (free : pushDiff A s = 0) : Served A s (.tryPush val) (.pushed val s.head) (s.pushAt A val)
  | full (behind : pushDiff A s < 0) : Served A s (.tryPush val) (.full val) s
  | popped (ready : popDiff A s = 0) :
      Served A s .tryPop (.popped s.tail (s.slots (A.slot s.tail)).data) (s.popAt A)
  | none (behind : popDiff A s < 0) : Served A s .tryPop .none s
  | sized (asks : entry op = (.sizeHead isEmpty : Local W T)) : Served A s op (sized A isEmpty s.head s.tail) s

def Result.output : Result W T → List T
  | .popped _ val => [val]
  | _ => []

def Event.output : Event Tid W T → List T
  | .copyOut _ _ val => [val]
  | _ => []

def Quiescent (s : State Tid W T c) : Prop := ∀ t, s.threads t = .idle

def Local.remaining : Local W T → Nat
  | .idle => 0
  | .returning _ => 1
  | .pushStore _ _ | .popStore _ _ | .sizeTail _ _ => 2
  | .pushCopy _ _ | .popCopy _ | .sizeHead _ => 3
  | .pushCas _ _ | .popCas _ => 4
  | .pushSeq _ _ | .popSeq _ => 5
  | .pushLoad _ | .popLoad => 6

def Event.failed : Event Tid W T → Nat
  | .casFailed _ _ => 1
  | _ => 0

section Calls
variable [DecidableEq Tid]

theorem move_move (s : State Tid W T c) (t : Tid) (l l' : Local W T) : (s.move t l).move t l' = s.move t l' := by
  simp only [State.move,Function.update_idem]

theorem move_idle {s : State Tid W T c} {t : Tid} (idle : s.threads t = .idle) : s.move t .idle = s := by
  simp only [State.move,← idle,Function.update_eq_self]

theorem move_setHead (s : State Tid W T c) (t : Tid) (l : Local W T) (h : W) :
    (⟨(s.move t l).slots,h,s.tail,(s.move t l).threads⟩ : State Tid W T c) = State.move {s with head := h} t l := rfl

theorem move_setTail (s : State Tid W T c) (t : Tid) (l : Local W T) (h : W) :
    (⟨(s.move t l).slots,s.head,h,(s.move t l).threads⟩ : State Tid W T c) = State.move {s with tail := h} t l := rfl

theorem move_writeData (s : State Tid W T c) (t : Tid) (l : Local W T) (i : Fin c.size) (val : T) :
    (s.move t l).writeData i val = (s.writeData i val).move t l := rfl

theorem move_writeSeq (s : State Tid W T c) (t : Tid) (l : Local W T) (i : Fin c.size) (seq : W) :
    (s.move t l).writeSeq i seq = (s.writeSeq i seq).move t l := rfl

variable [DecidableEq W]

inductive Serving (A : Arithmetic W c) (s : State Tid W T c) (t : Tid) : Call T → List T → State Tid W T c → Prop where
  | pushLoad : Serving A s t (.tryPush val) [] (s.move t (.pushLoad val))
  | pushSeq : Serving A s t (.tryPush val) [] (s.move t (.pushSeq val s.head))
  | pushCas (free : pushDiff A s = 0) : Serving A s t (.tryPush val) [] (s.move t (.pushCas val s.head))
  | pushCopy (free : pushDiff A s = 0) :
      Serving A s t (.tryPush val) [] (State.move {s with head := A.next s.head} t (.pushCopy val s.head))
  | pushStore (free : pushDiff A s = 0) : Serving A s t (.tryPush val) []
      ((State.writeData {s with head := A.next s.head} (A.slot s.head) val).move t (.pushStore val s.head))
  | popLoad : Serving A s t .tryPop [] (s.move t .popLoad)
  | popSeq : Serving A s t .tryPop [] (s.move t (.popSeq s.tail))
  | popCas (ready : popDiff A s = 0) : Serving A s t .tryPop [] (s.move t (.popCas s.tail))
  | popCopy (ready : popDiff A s = 0) :
      Serving A s t .tryPop [] (State.move {s with tail := A.next s.tail} t (.popCopy s.tail))
  | popStore (ready : popDiff A s = 0) : Serving A s t .tryPop [(s.slots (A.slot s.tail)).data]
      (State.move {s with tail := A.next s.tail} t (.popStore s.tail (s.slots (A.slot s.tail)).data))
  | sizeHead (asks : entry op = (.sizeHead isEmpty : Local W T)) : Serving A s t op [] (s.move t (.sizeHead isEmpty))
  | sizeTail (asks : entry op = (.sizeHead isEmpty : Local W T)) :
      Serving A s t op [] (s.move t (.sizeTail isEmpty s.head))
  | returning (served : Served A s op r after) : Serving A s t op r.output (after.move t (.returning r))

variable {A : Arithmetic W c} {s s' s'' : State Tid W T c} {t : Tid} {op : Call T} {e : Event Tid W T} {out : List T}

theorem Serving.begin (A : Arithmetic W c) (s : State Tid W T c) (t : Tid) (op : Call T) :
    Serving A s t op [] (s.move t (entry op)) := by
  cases op with
  | tryPush v => exact .pushLoad
  | tryPop => exact .popLoad
  | size | empty => exact .sizeHead rfl

omit [DecidableEq Tid] in
theorem Served.threads (served : Served A s op r s') : s'.threads = s.threads := by
  cases served <;> rfl

theorem sized_output (isEmpty : Bool) (h t : W) : (sized A isEmpty h t : Result W T).output = [] := by
  unfold sized
  split <;> rfl

def Served.Next (A : Arithmetic W c) (s : State Tid W T c) (t : Tid) (op : Call T) (out : List T)
    (l : Local W T) (e : Event Tid W T) (s' : State Tid W T c) : Prop :=
  (∃ r, e = .ret t r ∧ r.output = out ∧ l.remaining = 1 ∧ Served A s op r s') ∨
    ((∀ r, e ≠ .ret t r) ∧ s'.threads t ≠ .idle ∧ Serving A s t op (out++e.output) s' ∧
      ((s'.threads t).remaining+1 ≤ l.remaining+2*e.failed ∨ 0 < pushDiff A s ∨ 0 < popDiff A s))

theorem Serving.step (serving : Serving A s t op out s') (quiet : Quiescent s) (step : Step A s' e s'') (own : e.thread = t) :
    Served.Next A s t op out (s'.threads t) e s'' := by
  obtain ⟨choice,moved⟩ := advance_complete step
  rw [own] at moved
  cases serving <;> cases choice <;>
    simp only [advance,State.move_self,State.move_head,State.move_tail,move_setHead,move_setTail,move_writeData,move_writeSeq,
      move_move,if_true,Option.some.injEq,Prod.mk.injEq,reduceCtorEq] at moved <;>
    obtain ⟨rfl,rfl⟩ := moved
  case pushLoad.run => exact .inr ⟨by simp,by simp,.pushSeq,.inl (by simp [Local.remaining])⟩
  case pushSeq.run =>
    refine .inr ⟨by simp,?_⟩
    split
    · exact ⟨by simp,.pushCas ‹_›,.inl (by simp [Local.remaining])⟩
    · split
      · exact ⟨by simp,.returning (.full ‹_›),.inl (by simp [Local.remaining,Event.failed])⟩
      · have ahead : 0 < pushDiff A s := Int.lt_iff_le_and_ne.mpr ⟨Int.not_lt.mp ‹_›,Ne.symm ‹_›⟩
        exact ⟨by simp,.pushLoad,.inr (.inl ahead)⟩
  case pushCas.run free => exact .inr ⟨by simp,by simp,.pushCopy free,.inl (by simp [Local.remaining])⟩
  case pushCas.spurious => exact .inr ⟨by simp,by simp,.pushSeq,.inl (by simp [Local.remaining,Event.failed])⟩
  case pushCopy.run free => exact .inr ⟨by simp,by simp,.pushStore free,.inl (by simp [Local.remaining])⟩
  case pushStore.run free => exact .inr ⟨by simp,by simp,.returning (.pushed free),.inl (by simp [Local.remaining])⟩
  case popLoad.run => exact .inr ⟨by simp,by simp,.popSeq,.inl (by simp [Local.remaining])⟩
  case popSeq.run =>
    refine .inr ⟨by simp,?_⟩
    split
    · exact ⟨by simp,.popCas ‹_›,.inl (by simp [Local.remaining])⟩
    · split
      · exact ⟨by simp,.returning (.none ‹_›),.inl (by simp [Local.remaining,Event.failed])⟩
      · have ahead : 0 < popDiff A s := Int.lt_iff_le_and_ne.mpr ⟨Int.not_lt.mp ‹_›,Ne.symm ‹_›⟩
        exact ⟨by simp,.popLoad,.inr (.inr ahead)⟩
  case popCas.run ready => exact .inr ⟨by simp,by simp,.popCopy ready,.inl (by simp [Local.remaining])⟩
  case popCas.spurious => exact .inr ⟨by simp,by simp,.popSeq,.inl (by simp [Local.remaining,Event.failed])⟩
  case popCopy.run ready => exact .inr ⟨by simp,by simp,.popStore ready,.inl (by simp [Local.remaining])⟩
  case popStore.run ready => exact .inr ⟨by simp,by simp,.returning (.popped ready),.inl (by simp [Local.remaining])⟩
  case sizeHead.run asks => exact .inr ⟨by simp,by simp,.sizeTail asks,.inl (by simp [Local.remaining])⟩
  case sizeTail.run asks =>
    have returns := Serving.returning (t:=t) (Served.sized (A:=A) (s:=s) asks)
    rw [sized_output] at returns
    exact .inr ⟨by simp,by simp,returns,.inl (by simp [Local.remaining])⟩
  case returning.run served =>
    refine .inl ⟨_,rfl,rfl,by simp [Local.remaining],?_⟩
    rwa [move_idle (by rw [served.threads]; exact quiet t)]

end Calls

inductive FifoStep (capacity : Nat) : List T → Result (BitVec 64) T → List T → Prop where
  | pushed (room : items.length < capacity) : FifoStep capacity items (.pushed val pos) (items++[val])
  | full (none : items.length = capacity) : FifoStep capacity items (.full val) items
  | popped : FifoStep capacity (val::items) (.popped pos val) items
  | none : FifoStep capacity [] .none []
  | size : FifoStep capacity items (.size (low items.length)) items
  | isEmpty : FifoStep capacity items (.isEmpty items.isEmpty) items

-- The queue between calls: `items` from ticket p on, each in its slot, and the
-- other slots free for the tickets after them.
structure Rest (s : State Tid (BitVec 64) T c) (p : Nat) (items : List T) : Prop where
  tail : s.tail = low p
  head : s.head = low (p+items.length)
  room : items.length ≤ c.size
  filled : ∀ i v, items[i]? = some v → s.slots (c.index (p+i)) = ⟨v,low (p+i+1)⟩
  vacant : ∀ i, items.length ≤ i → i < c.size → (s.slots (c.index (p+i))).seq = low (p+i)

section AtRest
variable {s s' : State Tid (BitVec 64) T c} {p : Nat} {items : List T}

theorem slot_low (c : Capacity) (p : Nat) : (word c).slot (low p) = c.index p := low_slot c p

theorem diff_low (c : Capacity) (seq pos : Nat) (below : seq < pos+2^63) (above : pos ≤ seq+2^63) :
    (word c).diff (low seq) (low pos) = (seq : Int)-pos := low_diff c seq pos below above

theorem index_apart {i j : Nat} (p : Nat) (less : i < j) (near : j < i+c.size) : c.index (p+j) ≠ c.index (p+i) := by
  intro same
  have equal := Capacity.index_window same.symm (by omega) (by omega)
  omega

theorem Rest.pushDiff (rest : Rest s p items) (least : 2 ≤ c.size) :
    pushDiff (word c) s = if items.length < c.size then 0 else 1-(c.size : Int) := by
  have most := c.size_le
  unfold MpmcQueue.pushDiff
  rw [rest.head,slot_low]
  split
  · rw [rest.vacant items.length (le_refl _) ‹_›,diff_low c _ _ (by omega) (by omega)]
    omega
  · have full : items.length = c.size := by have := rest.room; omega
    obtain ⟨v,first⟩ : ∃ v, items[0]? = some v := ⟨items[0],List.getElem?_eq_getElem (by omega)⟩
    have seq := rest.filled 0 v first
    rw [Nat.add_zero] at seq
    rw [full,Capacity.index_lap,seq,diff_low c _ _ (by omega) (by omega)]
    omega

theorem Rest.popDiff (rest : Rest s p items) (least : 2 ≤ c.size) :
    popDiff (word c) s = if items = [] then -1 else 0 := by
  unfold MpmcQueue.popDiff
  rw [rest.tail,slot_low,show (word c).next (low p) = low (p+1) from (low_next c p).symm]
  cases items with
  | nil =>
    have seq := rest.vacant 0 (Nat.le_refl 0) (by omega)
    rw [Nat.add_zero] at seq
    rw [seq,diff_low c _ _ (by omega) (by omega),if_pos rfl]
    omega
  | cons v items =>
    have seq := rest.filled 0 v rfl
    rw [Nat.add_zero] at seq
    rw [seq,diff_low c _ _ (by omega) (by omega),if_neg (by simp)]
    omega

theorem Rest.pushAt (rest : Rest s p items) (room : items.length < c.size) (v : T) :
    Rest (s.pushAt (word c) v) p (items++[v]) := by
  have slot : (word c).slot s.head = c.index (p+items.length) := by rw [rest.head,slot_low]
  have next : (word c).next s.head = low (p+items.length+1) := by rw [rest.head]; exact (low_next c _).symm
  have length : (items++[v]).length = items.length+1 := by simp
  have mine : (s.pushAt (word c) v).slots (c.index (p+items.length)) = ⟨v,low (p+items.length+1)⟩ := by
    simp only [State.pushAt,State.writeSeq,State.writeData,slot,next,Function.update_self]
  have others : ∀ i, i < c.size → i ≠ items.length →
      (s.pushAt (word c) v).slots (c.index (p+i)) = s.slots (c.index (p+i)) := by
    intro i near other
    apply pushAt_slots
    rw [slot]
    rcases Nat.lt_or_gt_of_ne other with below | above
    · exact (index_apart p below (by omega)).symm
    · exact index_apart p above (by omega)
  refine ⟨rest.tail,?_,by omega,fun i w held => ?_,fun i after near => ?_⟩
  · rw [length]
    exact next
  · by_cases last : i = items.length
    · subst last
      rw [List.getElem?_concat_length] at held
      cases held
      exact mine
    · have old : items[i]? = some w := by
        have bound := (List.getElem?_eq_some_iff.mp held).1
        rwa [List.getElem?_append_left (by omega)] at held
      rw [others i (by have := (List.getElem?_eq_some_iff.mp old).1; omega) last]
      exact rest.filled i w old
  · rw [length] at after
    rw [others i near (by omega)]
    exact rest.vacant i (by omega) near

theorem Rest.popAt (rest : Rest s p (v::items)) : Rest (s.popAt (word c)) (p+1) items := by
  have room := rest.room
  rw [List.length_cons] at room
  have slot : (word c).slot s.tail = c.index p := by rw [rest.tail,slot_low]
  have mine : ((s.popAt (word c)).slots (c.index p)).seq = low (p+c.size) := by
    simp only [State.popAt,State.writeSeq,slot,Function.update_self]
    rw [rest.tail]
    exact (low_lap c p).symm
  have others : ∀ i, i+1 < c.size → (s.popAt (word c)).slots (c.index (p+1+i)) = s.slots (c.index (p+(i+1))) := by
    intro i near
    rw [show p+1+i = p+(i+1) by omega]
    apply popAt_slots
    rw [slot]
    exact index_apart (i:=0) p (by omega) (by omega)
  refine ⟨?_,?_,by omega,fun i w held => ?_,fun i after near => ?_⟩
  · show (word c).next s.tail = _
    rw [rest.tail]
    exact (low_next c p).symm
  · show s.head = _
    rw [rest.head,List.length_cons,show p+(items.length+1) = p+1+items.length by omega]
  · have bound := (List.getElem?_eq_some_iff.mp held).1
    rw [others i (by omega),rest.filled (i+1) w held,show p+(i+1)+1 = p+1+i+1 by omega]
  · by_cases last : i+1 = c.size
    · rw [show p+1+i = p+c.size by omega,Capacity.index_lap]
      exact mine
    · rw [others i (by omega),rest.vacant (i+1) (by rw [List.length_cons]; omega) (by omega),
        show p+(i+1) = p+1+i by omega]

theorem Rest.served {r : Result (BitVec 64) T} {op : Call T} (rest : Rest s p items) (least : 2 ≤ c.size)
    (served : Served (word c) s op r s') : ∃ items', FifoStep c.size items r items' ∧ Rest s' (p+r.output.length) items' := by
  have push := rest.pushDiff least
  have pop := rest.popDiff least
  have room := rest.room
  cases served with
  | pushed free =>
    by_cases some : items.length < c.size
    · exact ⟨_,.pushed some,rest.pushAt some _⟩
    · rw [if_neg some] at push
      omega
  | full behind =>
    have full : items.length = c.size := by
      by_contra some
      rw [if_pos (by omega)] at push
      omega
    exact ⟨_,.full full,rest⟩
  | popped ready =>
    cases items with
    | nil =>
      rw [if_pos rfl] at pop
      omega
    | cons v items =>
      have data : (s.slots ((word c).slot s.tail)).data = v := by
        have held := rest.filled 0 v rfl
        rw [rest.tail,slot_low]
        rw [Nat.add_zero] at held
        rw [held]
      rw [data]
      exact ⟨_,.popped,rest.popAt⟩
  | none behind =>
    cases items with
    | nil => exact ⟨_,.none,rest⟩
    | cons v items =>
      rw [if_neg (by simp)] at pop
      omega
  | sized asks =>
    have most := c.size_le
    have sub : (word c).sub s.head s.tail = low items.length := by
      rw [rest.head,rest.tail]
      show BitVec.ofNat 64 (p+items.length)-BitVec.ofNat 64 p = _
      rw [BitVec.ofNat_add,BitVec.add_comm,BitVec.add_sub_cancel]
      rfl
    refine ⟨items,?_,?_⟩
    · unfold sized
      rw [sub]
      split
      · have empty : decide (low items.length = (word c).ofIndex 0) = items.isEmpty := by
          rw [Bool.eq_iff_iff,decide_eq_true_iff,List.isEmpty_iff,← List.length_eq_zero_iff]
          exact ⟨fun same => low_injective _ 0 (by omega) (by omega) same,congrArg low⟩
        rw [empty]
        exact .isEmpty
      · exact .size
    · rw [sized_output]
      exact rest

end AtRest
end Chronos.MpmcQueue
