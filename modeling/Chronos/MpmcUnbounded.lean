import Chronos.MpmcTickets

namespace Chronos.MpmcQueue
variable {Tid W V T : Type} {c : Capacity}

-- Tickets and sequence numbers that never wrap. size() and empty() still
-- answer in size_t, as their return type says.
def unbounded (c : Capacity) : Arithmetic Nat c where
  ofIndex i := i
  next pos := pos+1
  lap pos := pos+c.size
  slot pos := c.index pos
  diff seq pos := (seq : Int)-pos
  sub h t := (BitVec.ofNat 64 h-BitVec.ofNat 64 t).toNat

theorem unbounded_faithful (c : Capacity) (half : Nat) : Faithful (unbounded c) id half where
  injective _ _ same := same
  ofIndex _ _ := rfl
  next _ _ := rfl
  lap _ _ := rfl
  slot _ := rfl
  zero q p := by simp only [unbounded]; omega
  sign q p _ _ := by simp only [unbounded,id]; omega

def Result.map (f : W → V) : Result W T → Result V T
  | .pushed v pos => .pushed v (f pos)
  | .full v => .full v
  | .popped pos v => .popped (f pos) v
  | .none => .none
  | .size n => .size (f n)
  | .isEmpty b => .isEmpty b

def Local.map (f : W → V) : Local W T → Local V T
  | .idle => .idle
  | .pushLoad v => .pushLoad v
  | .pushSeq v pos => .pushSeq v (f pos)
  | .pushCas v pos => .pushCas v (f pos)
  | .pushCopy v pos => .pushCopy v (f pos)
  | .pushStore v pos => .pushStore v (f pos)
  | .popLoad => .popLoad
  | .popSeq pos => .popSeq (f pos)
  | .popCas pos => .popCas (f pos)
  | .popCopy pos => .popCopy (f pos)
  | .popStore pos v => .popStore (f pos) v
  | .sizeHead isEmpty => .sizeHead isEmpty
  | .sizeTail isEmpty h => .sizeTail isEmpty (f h)
  | .returning result => .returning (result.map f)

def Event.map (f : W → V) : Event Tid W T → Event Tid V T
  | .call t op => .call t op
  | .loadHead t pos => .loadHead t (f pos)
  | .loadTail t pos => .loadTail t (f pos)
  | .loadSeq t pos seq => .loadSeq t (f pos) (f seq)
  | .pushWon t pos v => .pushWon t (f pos) v
  | .popWon t pos => .popWon t (f pos)
  | .casFailed t pos => .casFailed t (f pos)
  | .copyIn t pos v => .copyIn t (f pos) v
  | .copyOut t pos v => .copyOut t (f pos) v
  | .published t pos => .published t (f pos)
  | .released t pos => .released t (f pos)
  | .ret t result => .ret t (result.map f)

def State.map (f : W → V) (s : State Tid W T c) : State Tid V T c where
  slots i := ⟨(s.slots i).data,f (s.slots i).seq⟩
  head := f s.head
  tail := f s.tail
  threads t := (s.threads t).map f

namespace State
variable (f : W → V) (s : State Tid W T c)

@[simp] theorem map_head : (s.map f).head = f s.head := rfl
@[simp] theorem map_tail : (s.map f).tail = f s.tail := rfl
@[simp] theorem map_threads (t : Tid) : (s.map f).threads t = (s.threads t).map f := rfl
@[simp] theorem map_data (i : Fin c.size) : ((s.map f).slots i).data = (s.slots i).data := rfl
@[simp] theorem map_seq (i : Fin c.size) : ((s.map f).slots i).seq = f (s.slots i).seq := rfl

theorem map_setHead (h : W) : ({s with head := h} : State Tid W T c).map f = {s.map f with head := f h} := rfl
theorem map_setTail (t : W) : ({s with tail := t} : State Tid W T c).map f = {s.map f with tail := f t} := rfl

theorem map_move [DecidableEq Tid] (t : Tid) (l : Local W T) : (s.move t l).map f = (s.map f).move t (l.map f) := by
  simp only [move,map,State.mk.injEq,true_and]
  funext u
  by_cases own : u = t
  · subst u; simp
  · simp [own]

theorem map_writeData (i : Fin c.size) (v : T) : (s.writeData i v).map f = (s.map f).writeData i v := by
  simp only [writeData,map,State.mk.injEq,and_true]
  funext j
  by_cases same : j = i
  · subst j; simp
  · simp [same]

theorem map_writeSeq (i : Fin c.size) (seq : W) : (s.writeSeq i seq).map f = (s.map f).writeSeq i (f seq) := by
  simp only [writeSeq,map,State.mk.injEq,and_true]
  funext j
  by_cases same : j = i
  · subst j; simp
  · simp [same]

end State

def low (n : Nat) : BitVec 64 := BitVec.ofNat 64 n

theorem low_next (c : Capacity) (p : Nat) : low ((unbounded c).next p) = (word c).next (low p) := by
  simp [low,unbounded,word,BitVec.ofNat_add]

theorem low_lap (c : Capacity) (p : Nat) : low ((unbounded c).lap p) = (word c).lap (low p) := by
  simp [low,unbounded,word,BitVec.ofNat_add]

theorem low_slot (c : Capacity) (p : Nat) : (word c).slot (low p) = (unbounded c).slot p := by
  have divides : c.size ∣ 2^64 := Nat.pow_dvd_pow 2 (by have := c.fits; omega)
  apply Fin.ext
  simp only [word,unbounded,low,Capacity.index,mask_toNat,BitVec.toNat_ofNat]
  exact Nat.mod_mod_of_dvd _ divides

theorem low_diff (c : Capacity) (seq pos : Nat) (below : seq < pos+2^63) (above : pos ≤ seq+2^63) :
    (word c).diff (low seq) (low pos) = (unbounded c).diff seq pos := by
  have wrapped : (BitVec.ofNat 64 seq-BitVec.ofNat 64 pos).toInt = ((seq : Int)-pos).bmod (2^64) := by
    rw [BitVec.toInt_sub,BitVec.toInt_ofNat',BitVec.toInt_ofNat',Int.bmod_sub_bmod,Int.sub_bmod_bmod]
  simp only [word,unbounded,low,wrapped]
  apply Int.bmod_eq_of_le <;> omega

theorem low_injective (p q : Nat) (below : p < q+2^64) (above : q < p+2^64) (same : low p = low q) : p = q := by
  have words : p % 2^64 = q % 2^64 := by simpa [low] using congrArg BitVec.toNat same
  omega

theorem low_sized (c : Capacity) (isEmpty : Bool) (h t : Nat) :
    (sized (unbounded c) isEmpty h t : Result Nat T).map low = sized (word c) isEmpty (low h) (low t) := by
  have zero : (BitVec.ofNat 64 h-BitVec.ofNat 64 t).toNat = 0 ↔ BitVec.ofNat 64 h-BitVec.ofNat 64 t = 0#64 := by
    rw [← BitVec.toNat_inj]; simp
  unfold sized
  split
  · simp only [Result.map,Result.isEmpty.injEq,decide_eq_decide]
    exact zero
  · simp only [Result.map,unbounded,word,low,Result.size.injEq]
    exact BitVec.eq_of_toNat_eq (by simp)

-- How old a counter value a thread may act on: seq is compared with a pos read
-- at most 2^63-N-1 tickets ago.
def Recent (s : State Tid Nat T c) : Local Nat T → Prop
  | .pushSeq _ pos | .pushCas _ pos => s.head+c.size+1 ≤ pos+2^63
  | .popSeq pos | .popCas pos => s.tail+c.size+1 ≤ pos+2^63
  | _ => True

section Comparisons
variable {s : State Tid Nat T c} {pushed : List T} {t : Tid}

theorem push_diff (inv : Inv id pushed s) (least : c.size ≤ 2^62) (recent : Recent s (s.threads t))
    (here : s.threads t = .pushSeq v pos) : (word c).diff ((s.map low).slots ((word c).slot (low pos))).seq (low pos) =
      (unbounded c).diff (s.slots ((unbounded c).slot pos)).seq pos := by
  have order : s.tail ≤ s.head := inv.order
  have room : s.head ≤ s.tail+c.size := inv.room
  have knows := inv.known t
  rw [here] at recent knows
  have behind : pos ≤ s.head := knows
  have near : s.tail+1 ≤ (s.slots (c.index pos)).seq+c.size ∧ (s.slots (c.index pos)).seq ≤ s.tail+c.size :=
    inv.seq_window pos
  rw [low_slot]
  simp only [Recent] at recent
  exact low_diff c _ _ (by simp only [unbounded]; omega) (by simp only [unbounded]; omega)

theorem pop_diff (inv : Inv id pushed s) (recent : Recent s (s.threads t))
    (here : s.threads t = .popSeq pos) : (word c).diff ((s.map low).slots ((word c).slot (low pos))).seq ((word c).next (low pos)) =
      (unbounded c).diff (s.slots ((unbounded c).slot pos)).seq ((unbounded c).next pos) := by
  have order : s.tail ≤ s.head := inv.order
  have room : s.head ≤ s.tail+c.size := inv.room
  have knows := inv.known t
  rw [here] at recent knows
  have behind : pos ≤ s.tail := knows
  have near : s.tail+1 ≤ (s.slots (c.index pos)).seq+c.size ∧ (s.slots (c.index pos)).seq ≤ s.tail+c.size :=
    inv.seq_window pos
  rw [low_slot,← low_next]
  simp only [Recent] at recent
  exact low_diff c _ _ (by simp only [unbounded]; omega) (by simp only [unbounded]; omega)

theorem push_cas (inv : Inv id pushed s) (recent : Recent s (s.threads t)) (here : s.threads t = .pushCas v pos) :
    low s.head = low pos ↔ s.head = pos := by
  have knows := inv.known t
  rw [here] at recent knows
  have behind : pos ≤ s.head := knows.1
  simp only [Recent] at recent
  exact ⟨low_injective _ _ (by omega) (by omega),congrArg low⟩

theorem pop_cas (inv : Inv id pushed s) (recent : Recent s (s.threads t)) (here : s.threads t = .popCas pos) :
    low s.tail = low pos ↔ s.tail = pos := by
  have knows := inv.known t
  rw [here] at recent knows
  have behind : pos ≤ s.tail := knows.1
  simp only [Recent] at recent
  exact ⟨low_injective _ _ (by omega) (by omega),congrArg low⟩

end Comparisons

section Lockstep
variable [DecidableEq Tid]

theorem advance_low {s : State Tid Nat T c} {pushed : List T} (inv : Inv id pushed s) (least : c.size ≤ 2^62)
    (recent : Recent s (s.threads t)) (choice : Choice T) :
    advance (word c) (s.map low) t choice =
      (advance (unbounded c) s t choice).map (Prod.map (Event.map low) (State.map low)) := by
  cases choice with
  | call op =>
    cases here : s.threads t with
    | idle => cases op <;> simp [advance,here,entry,Local.map,Event.map,State.map_move]
    | _ => simp [advance,here,Local.map]
  | spurious =>
    cases here : s.threads t <;> simp [advance,here,Local.map,Event.map,State.map_move]
  | run =>
    cases here : s.threads t with
    | pushSeq v pos =>
      have diff := push_diff inv least recent here
      simp only [advance,State.map_threads,here,Local.map,diff,Option.map_some,Prod.map,Event.map,State.map_move]
      split_ifs <;> simp [Result.map,low_slot]
    | popSeq pos =>
      have diff := pop_diff inv recent here
      simp only [advance,State.map_threads,here,Local.map,diff,Option.map_some,Prod.map,Event.map,State.map_move]
      split_ifs <;> simp [Result.map,low_slot]
    | pushCas v pos =>
      have same := push_cas inv recent here
      simp only [advance,State.map_threads,here,Local.map,State.map_head,same]
      split_ifs <;> simp [Local.map,Event.map,State.map_move,low_next,State.map_setHead]
    | popCas pos =>
      have same := pop_cas inv recent here
      simp only [advance,State.map_threads,here,Local.map,State.map_tail,same]
      split_ifs <;> simp [Local.map,Event.map,State.map_move,low_next,State.map_setTail]
    | sizeTail isEmpty h => simp [advance,here,Local.map,Event.map,State.map_move,low_sized]
    | idle | pushLoad | pushCopy | pushStore | popLoad | popCopy | popStore | sizeHead | returning =>
      simp [advance,here,Local.map,Event.map,State.map_move,State.map_writeData,State.map_writeSeq,
        low_slot,low_next,low_lap,Result.map]

theorem Step.of_low {s : State Tid Nat T c} {pushed : List T} {e : Event Tid (BitVec 64) T}
    {s' : State Tid (BitVec 64) T c} (inv : Inv id pushed s) (least : c.size ≤ 2^62)
    (recent : Recent s (s.threads e.thread)) (step : Step (word c) (s.map low) e s') :
    ∃ e' t', Step (unbounded c) s e' t' ∧ e = e'.map low ∧ s' = t'.map low := by
  obtain ⟨choice,checked⟩ := advance_complete step
  rw [advance_low inv least recent,Option.map_eq_some_iff] at checked
  obtain ⟨⟨e',t'⟩,taken,same⟩ := checked
  cases same
  exact ⟨e',t',advance_sound taken,rfl,rfl⟩

end Lockstep

theorem initial_low (junk : Fin c.size → T) :
    (initial (unbounded c) junk : State Tid Nat T c).map low = initial (word c) junk := rfl

end Chronos.MpmcQueue
