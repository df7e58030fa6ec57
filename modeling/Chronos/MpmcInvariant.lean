import Chronos.MpmcQueue

namespace Chronos.MpmcQueue

-- Reading a word as a ticket. Below `2*half` no ticket or sequence number
-- wraps, and differences below `half` keep their sign.
structure Faithful (A : Arithmetic W c) (val : W → Nat) (half : Nat) : Prop where
  injective : ∀ p q, val p = val q → p = q
  ofIndex : ∀ i, i < 2*half → val (A.ofIndex i) = i
  next : ∀ p, val p+1 < 2*half → val (A.next p) = val p+1
  lap : ∀ p, val p+c.size < 2*half → val (A.lap p) = val p+c.size
  slot : ∀ p, A.slot p = c.index (val p)
  zero : ∀ q p, A.diff q p = 0 ↔ q = p
  sign : ∀ q p, val q < val p+half → val p ≤ val q+half → (A.diff q p < 0 ↔ val q < val p)

theorem word_faithful (c : Capacity) : Faithful (word c) BitVec.toNat (2^63) where
  injective _ _ same := BitVec.eq_of_toNat_eq same
  ofIndex i small := by simp [word]; omega
  next p small := by simp [word]; omega
  lap p small := by
    have bound := c.size_lt
    simp only [word,BitVec.toNat_add,BitVec.toNat_ofNat]
    omega
  slot p := by simp [word,Capacity.index,mask_toNat]
  zero q p := by
    simp only [word]
    constructor
    · intro none
      have same : q-p = 0 := BitVec.eq_of_toInt_eq (by simpa using none)
      have := (BitVec.sub_eq_iff_eq_add (x := q) (y := p) (z := 0)).mp same
      simpa using this
    · rintro rfl; simp
  sign q p above below := by
    simp only [word,BitVec.toInt_eq_toNat_cond,BitVec.toNat_sub]
    have hq := q.isLt
    have hp := p.isLt
    split <;> omega

def Local.writing : Local W T → Option W
  | .pushCopy _ pos | .pushStore _ pos => some pos
  | _ => none

def Local.reading : Local W T → Option W
  | .popCopy pos | .popStore pos _ => some pos
  | _ => none

def seqAt (val : W → Nat) (s : State Tid W T c) (p : Nat) : Nat := val (s.slots (c.index p)).seq
def dataAt (s : State Tid W T c) (p : Nat) : T := (s.slots (c.index p)).data

-- What a thread may rely on where it stands, however long it has been stalled:
-- positions only ever fall behind, and a slot seen free (or full) for the
-- current counter stays so until that counter moves.
def Known (val : W → Nat) (pushed : List T) (s : State Tid W T c) : Local W T → Prop
  | .pushSeq _ pos => val pos ≤ val s.head
  | .pushCas _ pos => val pos ≤ val s.head ∧ (val pos = val s.head → seqAt val s (val pos) = val pos)
  | .pushCopy v pos => pushed[val pos]? = some v
  | .pushStore v pos => pushed[val pos]? = some v ∧ dataAt s (val pos) = v
  | .popSeq pos => val pos ≤ val s.tail
  | .popCas pos => val pos ≤ val s.tail ∧ (val pos = val s.tail → seqAt val s (val pos) = val pos+1)
  | .popStore pos v => pushed[val pos]? = some v
  | .returning (.pushed v pos) => pushed[val pos]? = some v
  | .returning (.popped pos v) => pushed[val pos]? = some v
  | _ => True

-- The slots hold exactly the tickets tail .. tail+N-1, one each. Below head a
-- ticket has been pushed and is being written or is full; from head on, the
-- slot is free, unless the ticket one lap earlier is still being read out.
structure Inv (val : W → Nat) (pushed : List T) (s : State Tid W T c) : Prop where
  length : pushed.length = val s.head
  order : val s.tail ≤ val s.head
  room : val s.head ≤ val s.tail+c.size
  writer : ∀ t pos, (s.threads t).writing = some pos →
    val s.tail ≤ val pos ∧ val pos < val s.head ∧ seqAt val s (val pos) = val pos
  reader : ∀ t pos, (s.threads t).reading = some pos →
    val pos < val s.tail ∧ val s.head ≤ val pos+c.size ∧ seqAt val s (val pos) = val pos+1 ∧
      pushed[val pos]? = some (dataAt s (val pos))
  oneWriter : ∀ t u p q, (s.threads t).writing = some p → (s.threads u).writing = some q → val p = val q → t = u
  oneReader : ∀ t u p q, (s.threads t).reading = some p → (s.threads u).reading = some q → val p = val q → t = u
  filled : ∀ p, val s.tail ≤ p → p < val s.head →
    (∀ t pos, (s.threads t).writing = some pos → val pos ≠ p) →
    seqAt val s p = p+1 ∧ pushed[p]? = some (dataAt s p)
  vacant : ∀ p, val s.head ≤ p → p < val s.tail+c.size →
    (∀ t pos, (s.threads t).reading = some pos → val pos+c.size ≠ p) → seqAt val s p = p
  known : ∀ t, Known val pushed s (s.threads t)

variable {Tid W T : Type} {c : Capacity}
variable {A : Arithmetic W c} {val : W → Nat} {half : Nat} {s : State Tid W T c} {pushed : List T}

theorem Known.transfer {s s' : State Tid W T c} {l : Local W T} {pushed pushed' : List T}
    (old : Known val pushed s l) (grown : pushed <+: pushed')
    (head : val s.head ≤ val s'.head) (tail : val s.tail ≤ val s'.tail)
    (free : ∀ p, p = val s.head → p = val s'.head → seqAt val s p = p → seqAt val s' p = p)
    (ready : ∀ p, p = val s.tail → p = val s'.tail → seqAt val s p = p+1 → seqAt val s' p = p+1)
    (kept : ∀ v pos, l = .pushStore v pos → dataAt s' (val pos) = dataAt s (val pos)) :
    Known val pushed' s' l := by
  have value : ∀ {p : Nat} {v : T}, pushed[p]? = some v → pushed'[p]? = some v := by
    intro p v found
    obtain ⟨more,rfl⟩ := grown
    rw [List.getElem?_append_left (List.getElem?_eq_some_iff.mp found).1]
    exact found
  cases l with
  | idle | pushLoad | popLoad | popCopy | sizeHead | sizeTail => trivial
  | pushSeq v pos => exact Nat.le_trans old head
  | popSeq pos => exact Nat.le_trans old tail
  | pushCas v pos =>
    obtain ⟨behind,seen⟩ := old
    refine ⟨Nat.le_trans behind head,fun same => ?_⟩
    exact free _ (by omega) same (seen (by omega))
  | popCas pos =>
    obtain ⟨behind,seen⟩ := old
    refine ⟨Nat.le_trans behind tail,fun same => ?_⟩
    exact ready _ (by omega) same (seen (by omega))
  | pushCopy v pos => exact value old
  | pushStore v pos => exact ⟨value old.1,(kept v pos rfl).trans old.2⟩
  | popStore pos v => exact value old
  | returning result =>
    cases result with
    | pushed v pos => exact value old
    | popped pos v => exact value old
    | full | none | size | isEmpty => trivial

theorem Inv.seq_pushed (inv : Inv val pushed s) (low : val s.tail ≤ p) (high : p < val s.head) :
    seqAt val s p = p ∨ seqAt val s p = p+1 := by
  by_cases held : ∃ t pos, (s.threads t).writing = some pos ∧ val pos = p
  · obtain ⟨t,pos,writes,rfl⟩ := held
    exact .inl (inv.writer t pos writes).2.2
  · refine .inr (inv.filled p low high ?_).1
    intro t pos writes same
    exact held ⟨t,pos,writes,same⟩

theorem Inv.seq_free (inv : Inv val pushed s) (low : val s.head ≤ p) (high : p < val s.tail+c.size) :
    seqAt val s p = p ∨ seqAt val s p+c.size = p+1 := by
  by_cases held : ∃ t pos, (s.threads t).reading = some pos ∧ val pos+c.size = p
  · obtain ⟨t,pos,reads,rfl⟩ := held
    have seq := (inv.reader t pos reads).2.2.1
    right
    simp only [seqAt,Capacity.index_lap] at seq ⊢
    omega
  · refine .inl (inv.vacant p low high ?_)
    intro t pos reads same
    exact held ⟨t,pos,reads,same⟩

-- A slot free for the next ticket means the queue has room, and that nobody is
-- still reading that slot. With one slot "full" and "free again" coincide.
theorem Inv.free_room (inv : Inv val pushed s) (least : 2 ≤ c.size)
    (free : seqAt val s (val s.head) = val s.head) : val s.head < val s.tail+c.size := by
  have room := inv.room
  by_contra crowded
  have lap : val s.head = val s.tail+c.size := by omega
  have same : seqAt val s (val s.head) = seqAt val s (val s.tail) := by
    rw [lap]; simp only [seqAt,Capacity.index_lap]
  have := inv.seq_pushed (Nat.le_refl _) (show val s.tail < val s.head by omega)
  omega

theorem Inv.free_unread (inv : Inv val pushed s) (least : 2 ≤ c.size)
    (free : seqAt val s (val s.head) = val s.head) (reads : (s.threads t).reading = some q) :
    val s.head < val q+c.size := by
  obtain ⟨_,near,seq,_⟩ := inv.reader t q reads
  by_contra lapped
  have lap : val s.head = val q+c.size := by omega
  have same : seqAt val s (val s.head) = seqAt val s (val q) := by
    rw [lap]; simp only [seqAt,Capacity.index_lap]
  omega

theorem Inv.ready_pushed (inv : Inv val pushed s) (least : 2 ≤ c.size)
    (ready : seqAt val s (val s.tail) = val s.tail+1) : val s.tail < val s.head := by
  have order := inv.order
  by_contra none
  have empty : val s.head = val s.tail := by omega
  have := inv.seq_free (Nat.le_of_eq empty) (show val s.tail < val s.tail+c.size by omega)
  omega

theorem Inv.ready_unwritten (inv : Inv val pushed s)
    (ready : seqAt val s (val s.tail) = val s.tail+1) (writes : (s.threads t).writing = some p) :
    val p ≠ val s.tail := by
  intro same
  have seq := (inv.writer t p writes).2.2
  rw [same] at seq
  omega

theorem window_unique (lowp : val s.tail ≤ p) (highp : p < val s.tail+c.size)
    (lowq : val s.tail ≤ q) (highq : q < val s.tail+c.size) (same : c.index p = c.index q) : p = q := by
  rcases Nat.le_total p q with order | order
  · exact Capacity.index_window same order (by omega)
  · exact (Capacity.index_window same.symm order (by omega)).symm

theorem window_ticket (s : State Tid W T c) (val : W → Nat) (p : Nat) :
    ∃ q, val s.tail ≤ q ∧ q < val s.tail+c.size ∧ c.index q = c.index p := by
  have positive := c.size_pos
  refine ⟨val s.tail+(p+(c.size-1)*val s.tail) % c.size,Nat.le_add_right _ _,?_,?_⟩
  · have := Nat.mod_lt (p+(c.size-1)*val s.tail) positive
    omega
  · have shape : val s.tail+(p+(c.size-1)*val s.tail) = p+c.size*val s.tail := by
      obtain ⟨n,size⟩ : ∃ n, c.size = n+1 := ⟨c.size-1,by omega⟩
      rw [size,Nat.add_sub_cancel,Nat.add_mul,Nat.one_mul]
      omega
    rw [Capacity.index_eq,Nat.add_mod_mod,shape,Nat.add_mul_mod_self_left]

theorem Inv.seq_window (inv : Inv val pushed s) (p : Nat) :
    val s.tail+1 ≤ seqAt val s p+c.size ∧ seqAt val s p ≤ val s.tail+c.size := by
  obtain ⟨q,low,high,same⟩ := window_ticket s val p
  have shared : seqAt val s p = seqAt val s q := by simp only [seqAt,same]
  have order := inv.order
  by_cases filled : q < val s.head
  · have := inv.seq_pushed low filled
    constructor <;> omega
  · have := inv.seq_free (Nat.not_lt.mp filled) high
    constructor <;> omega

theorem Inv.apart (inv : Inv val pushed s) (writes : (s.threads t).writing = some p)
    (reads : (s.threads u).reading = some q) : c.index (val q) ≠ c.index (val p) := by
  intro same
  obtain ⟨low,high,_⟩ := inv.writer t p writes
  obtain ⟨old,near,_⟩ := inv.reader u q reads
  have := Capacity.index_window same (by omega) (by omega)
  omega

theorem seqAt_writeSeq (s : State Tid W T c) (p q : Nat) (w : W) :
    seqAt val (s.writeSeq (c.index q) w) p = if c.index p = c.index q then val w else seqAt val s p := by
  simp only [seqAt,State.writeSeq_seq]
  split <;> rfl

@[simp] theorem dataAt_writeSeq (s : State Tid W T c) (i : Fin c.size) (w : W) (p : Nat) :
    dataAt (s.writeSeq i w) p = dataAt s p := State.writeSeq_data _ _ _ _

@[simp] theorem seqAt_writeData (s : State Tid W T c) (i : Fin c.size) (v : T) (p : Nat) :
    seqAt val (s.writeData i v) p = seqAt val s p := by simp [seqAt]

theorem dataAt_writeData (s : State Tid W T c) (p q : Nat) (v : T) :
    dataAt (s.writeData (c.index q) v) p = if c.index p = c.index q then v else dataAt s p :=
  State.writeData_data _ _ _ _

theorem initial_inv (faithful : Faithful A val half) (bound : c.size < 2*half) (junk : Fin c.size → T) :
    Inv val [] (initial A junk : State Tid W T c) := by
  have zero : val (A.ofIndex 0) = 0 := faithful.ofIndex 0 (by omega)
  have idle : ∀ t : Tid, (initial A junk : State Tid W T c).threads t = .idle := fun _ => rfl
  refine ⟨by simp [initial,zero],Nat.le_refl _,Nat.le_add_right _ _,?_,?_,?_,?_,?_,?_,?_⟩
  · intro t pos held; rw [idle] at held; cases held
  · intro t pos held; rw [idle] at held; cases held
  · intro t u p q held; rw [idle] at held; cases held
  · intro t u p q held; rw [idle] at held; cases held
  · intro p _ high; simp only [initial,zero] at high; omega
  · intro p _ high _
    simp only [initial,zero,Nat.zero_add] at high
    simp only [seqAt,initial]
    rw [show ((c.index p : Fin c.size) : Nat) = p from Nat.mod_eq_of_lt high]
    exact faithful.ofIndex p (by omega)
  · intro t; rw [idle]; trivial

def Event.pushWin : Event Tid W T → Option (Tid × W × T)
  | .pushWon t pos v => some (t,pos,v)
  | _ => none

def Event.popWin : Event Tid W T → Option (Tid × W)
  | .popWon t pos => some (t,pos)
  | _ => none

def pushWins (es : List (Event Tid W T)) : List (Tid × W × T) := es.filterMap Event.pushWin
def popWins (es : List (Event Tid W T)) : List (Tid × W) := es.filterMap Event.popWin
def values (es : List (Event Tid W T)) : List T := (pushWins es).map (·.2.2)

theorem values_length (es : List (Event Tid W T)) : (values es).length = (pushWins es).length :=
  List.length_map _

theorem pushWins_snoc (es : List (Event Tid W T)) (e : Event Tid W T) :
    pushWins (es++[e]) = pushWins es++e.pushWin.toList := filterMap_snoc _ _ _

theorem popWins_snoc (es : List (Event Tid W T)) (e : Event Tid W T) :
    popWins (es++[e]) = popWins es++e.popWin.toList := filterMap_snoc _ _ _

theorem values_snoc (es : List (Event Tid W T)) (e : Event Tid W T) :
    values (es++[e]) = values es++e.pushWin.toList.map (·.2.2) := by
  simp [values,pushWins_snoc]

theorem values_quiet {es : List (Event Tid W T)} {e : Event Tid W T} (quiet : e.pushWin = none) :
    values (es++[e]) = values es := by simp [values_snoc,quiet]

-- Counted in tickets, the run stays clear of the machine's wrap-around.
def Fits (c : Capacity) (half : Nat) (es : List (Event Tid W T)) : Prop :=
  (pushWins es).length+c.size < 2*half

theorem Fits.before {es : List (Event Tid W T)} {e : Event Tid W T} (fits : Fits c half (es++[e])) :
    Fits c half es := by
  simp only [Fits,pushWins_snoc,List.length_append] at *
  omega

variable [DecidableEq Tid]

@[simp] theorem seqAt_move (s : State Tid W T c) (t : Tid) (l : Local W T) (p : Nat) :
    seqAt val (s.move t l) p = seqAt val s p := rfl
@[simp] theorem dataAt_move (s : State Tid W T c) (t : Tid) (l : Local W T) (p : Nat) :
    dataAt (s.move t l) p = dataAt s p := rfl

section Held
variable {f : Local W T → Option W} {l : Local W T}

theorem move_held (quiet : f l = none) (held : f ((s.move t l).threads u) = some p) : u ≠ t ∧ f (s.threads u) = some p := by
  have other : u ≠ t := by
    rintro rfl
    rw [State.move_self,quiet] at held
    cases held
  exact ⟨other,by rwa [State.move_other _ _ other] at held⟩

theorem move_keeps (same : f l = f (s.threads t)) (u : Tid) : f ((s.move t l).threads u) = f (s.threads u) := by
  by_cases own : u = t
  · subst u; rw [State.move_self,same]
  · rw [State.move_other _ _ own]

theorem move_unheld {good : W → Prop} (idle : f (s.threads t) = none)
    (unheld : ∀ u q, f ((s.move t l).threads u) = some q → good q) (u : Tid) (q : W) (held : f (s.threads u) = some q) : good q := by
  have other : u ≠ t := by
    rintro rfl
    rw [idle] at held
    cases held
  exact unheld u q (by rw [State.move_other _ _ other]; exact held)

theorem move_unique_held (quiet : f l = none)
    (unique : ∀ u w p q, f (s.threads u) = some p → f (s.threads w) = some q → val p = val q → u = w)
    (u w : Tid) (p q : W) (one : f ((s.move t l).threads u) = some p) (two : f ((s.move t l).threads w) = some q)
    (equal : val p = val q) : u = w :=
  unique u w p q (move_held quiet one).2 (move_held quiet two).2 equal

theorem move_unique (taken : f l = some pos) (free : ∀ u q, f (s.threads u) = some q → val q ≠ val pos)
    (unique : ∀ u w p q, f (s.threads u) = some p → f (s.threads w) = some q → val p = val q → u = w)
    (u w : Tid) (p q : W) (one : f ((s.move t l).threads u) = some p) (two : f ((s.move t l).threads w) = some q)
    (equal : val p = val q) : u = w := by
  by_cases first : u = t <;> by_cases second : w = t
  · exact first.trans second.symm
  · subst u
    rw [State.move_self,taken] at one
    rw [State.move_other _ _ second] at two
    cases one
    exact absurd equal.symm (free w q two)
  · subst w
    rw [State.move_self,taken] at two
    rw [State.move_other _ _ first] at one
    cases two
    exact absurd equal (free u p one)
  · rw [State.move_other _ _ first] at one
    rw [State.move_other _ _ second] at two
    exact unique u w p q one two equal

end Held

theorem Inv.move (inv : Inv val pushed s) {t : Tid} {l : Local W T}
    (writes : l.writing = (s.threads t).writing) (reads : l.reading = (s.threads t).reading)
    (knows : Known val pushed s l) : Inv val pushed (s.move t l) := by
  have writing := move_keeps (f:=Local.writing) writes
  have reading := move_keeps (f:=Local.reading) reads
  refine ⟨inv.length,inv.order,inv.room,?_,?_,?_,?_,?_,?_,?_⟩
  · intro u pos held; rw [writing] at held; exact inv.writer u pos held
  · intro u pos held; rw [reading] at held; exact inv.reader u pos held
  · intro u w p q one two; rw [writing] at one two; exact inv.oneWriter u w p q one two
  · intro u w p q one two; rw [reading] at one two; exact inv.oneReader u w p q one two
  · intro p low high free
    exact inv.filled p low high (fun u pos held => free u pos (by rw [writing]; exact held))
  · intro p low high free
    exact inv.vacant p low high (fun u pos held => free u pos (by rw [reading]; exact held))
  · intro u
    by_cases same : u = t
    · subst u; rw [State.move_self]
      exact knows.transfer (List.prefix_refl _) (Nat.le_refl _) (Nat.le_refl _)
        (fun _ _ _ h => h) (fun _ _ _ h => h) (fun _ _ _ => rfl)
    · rw [State.move_other _ _ same]
      exact (inv.known u).transfer (List.prefix_refl _) (Nat.le_refl _) (Nat.le_refl _)
        (fun _ _ _ h => h) (fun _ _ _ h => h) (fun _ _ _ => rfl)

theorem Inv.pushWon (inv : Inv val pushed s) (faithful : Faithful A val half) (least : 2 ≤ c.size)
    (bound : val s.head+1+c.size < 2*half) (at_ : s.threads t = .pushCas v pos) (seen : s.head = pos) :
    Inv val (pushed++[v]) (State.move {s with head := A.next pos} t (.pushCopy v pos)) := by
  subst seen
  have knows := inv.known t
  rw [at_] at knows
  have free : seqAt val s (val s.head) = val s.head := knows.2 rfl
  have newest := inv.free_room least free
  have next : val (A.next s.head) = val s.head+1 := faithful.next _ (by omega)
  have order := inv.order
  have grown : pushed <+: pushed++[v] := List.prefix_append _ _
  have value : ∀ p x, pushed[p]? = some x → (pushed++[v])[p]? = some x := fun p x found => by
    rw [List.getElem?_append_left (List.getElem?_eq_some_iff.mp found).1]; exact found
  refine ⟨?_,?_,?_,?_,?_,?_,?_,?_,?_,?_⟩
  · simp [inv.length,next]
  · simp only [State.move_tail,State.move_head,next]; omega
  · simp only [State.move_tail,State.move_head,next]; omega
  · intro u p writes
    simp only [State.move_tail,State.move_head,next]
    by_cases same : u = t
    · subst u
      rw [State.move_self] at writes
      cases writes
      exact ⟨order,Nat.lt_succ_self _,free⟩
    · rw [State.move_other _ _ same] at writes
      obtain ⟨low,high,seq⟩ := inv.writer u p writes
      exact ⟨low,by omega,seq⟩
  · intro u q reads
    simp only [State.move_tail,State.move_head,next]
    obtain ⟨_,reads⟩ := move_held (f:=Local.reading) rfl reads
    obtain ⟨low,near,seq,data⟩ := inv.reader u q reads
    exact ⟨low,inv.free_unread least free reads,seq,value _ _ data⟩
  · exact move_unique (f:=Local.writing) rfl (fun u q writes => Nat.ne_of_lt (inv.writer u q writes).2.1) inv.oneWriter
  · exact move_unique_held (f:=Local.reading) rfl inv.oneReader
  · intro p low high unwritten
    simp only [State.move_tail,State.move_head,next] at low high
    have older : p ≠ val s.head := fun same => unwritten t s.head (by rw [State.move_self]; rfl) same.symm
    have held := inv.filled p low (by omega) (move_unheld (f:=Local.writing) (by rw [at_]; rfl) unwritten)
    exact ⟨held.1,value _ _ held.2⟩
  · intro p low high unread
    simp only [State.move_tail,State.move_head,next] at low high
    exact inv.vacant p (by omega) high (move_unheld (f:=Local.reading) (by rw [at_]; rfl) unread)
  · intro u
    by_cases same : u = t
    · subst u
      rw [State.move_self]
      show (pushed++[v])[val s.head]? = some v
      rw [← inv.length,List.getElem?_append_right (Nat.le_refl _),Nat.sub_self,List.getElem?_cons_zero]
    · rw [State.move_other _ _ same]
      refine (inv.known u).transfer grown ?_ (Nat.le_refl _) ?_ (fun _ _ _ h => h) (fun _ _ _ => rfl)
      · simp only [State.move_head,next]; omega
      · intro p old new; simp only [State.move_head,next] at new; omega

theorem Inv.popWon (inv : Inv val pushed s) (faithful : Faithful A val half) (least : 2 ≤ c.size)
    (bound : val s.head+c.size < 2*half) (at_ : s.threads t = .popCas pos) (seen : s.tail = pos) :
    Inv val pushed (State.move {s with tail := A.next pos} t (.popCopy pos)) := by
  subst seen
  have knows := inv.known t
  rw [at_] at knows
  have ready : seqAt val s (val s.tail) = val s.tail+1 := knows.2 rfl
  have filled := inv.ready_pushed least ready
  have next : val (A.next s.tail) = val s.tail+1 := faithful.next _ (by omega)
  have room := inv.room
  refine ⟨?_,?_,?_,?_,?_,?_,?_,?_,?_,?_⟩
  · exact inv.length
  · simp only [State.move_tail,State.move_head,next]; omega
  · simp only [State.move_tail,State.move_head,next]; omega
  · intro u p writes
    simp only [State.move_tail,State.move_head,next]
    obtain ⟨_,writes⟩ := move_held (f:=Local.writing) rfl writes
    obtain ⟨low,high,seq⟩ := inv.writer u p writes
    have := inv.ready_unwritten ready writes
    exact ⟨by omega,high,seq⟩
  · intro u q reads
    simp only [State.move_tail,State.move_head,next]
    by_cases same : u = t
    · subst u
      rw [State.move_self] at reads
      cases reads
      refine ⟨Nat.lt_succ_self _,room,ready,?_⟩
      exact (inv.filled _ (Nat.le_refl _) filled (fun u p writes => inv.ready_unwritten ready writes)).2
    · rw [State.move_other _ _ same] at reads
      obtain ⟨low,near,held⟩ := inv.reader u q reads
      exact ⟨by omega,near,held⟩
  · exact move_unique_held (f:=Local.writing) rfl inv.oneWriter
  · exact move_unique (f:=Local.reading) rfl (fun u q reads => Nat.ne_of_lt (inv.reader u q reads).1) inv.oneReader
  · intro p low high unwritten
    simp only [State.move_tail,State.move_head,next] at low high
    exact inv.filled p (by omega) high (move_unheld (f:=Local.writing) (by rw [at_]; rfl) unwritten)
  · intro p low high unread
    simp only [State.move_tail,State.move_head,next] at low high
    have older : val s.tail+c.size ≠ p := unread t s.tail (by rw [State.move_self]; rfl)
    exact inv.vacant p low (by omega) (move_unheld (f:=Local.reading) (by rw [at_]; rfl) unread)
  · intro u
    by_cases same : u = t
    · subst u; rw [State.move_self]; trivial
    · rw [State.move_other _ _ same]
      refine (inv.known u).transfer (List.prefix_refl _) (Nat.le_refl _) ?_ (fun _ _ _ h => h) ?_ (fun _ _ _ => rfl)
      · simp only [State.move_tail,next]; omega
      · intro p old new; simp only [State.move_tail,next] at new; omega

theorem Inv.copyIn (inv : Inv val pushed s) (faithful : Faithful A val half)
    (at_ : s.threads t = .pushCopy v pos) :
    Inv val pushed ((s.writeData (A.slot pos) v).move t (.pushStore v pos)) := by
  have mine : (s.threads t).writing = some pos := by rw [at_]; rfl
  obtain ⟨low,high,seq⟩ := inv.writer t pos mine
  have room := inv.room
  rw [faithful.slot]
  have writing : ∀ u, (((s.writeData (c.index (val pos)) v).move t (.pushStore v pos)).threads u).writing =
      (s.threads u).writing := move_keeps (f:=Local.writing) (by rw [State.writeData_threads,mine]; rfl)
  have reading : ∀ u, (((s.writeData (c.index (val pos)) v).move t (.pushStore v pos)).threads u).reading =
      (s.threads u).reading := move_keeps (f:=Local.reading) (by rw [State.writeData_threads,at_]; rfl)
  refine ⟨inv.length,inv.order,room,?_,?_,?_,?_,?_,?_,?_⟩
  · intro u p writes
    rw [writing] at writes
    simpa using inv.writer u p writes
  · intro u q reads
    rw [reading] at reads
    obtain ⟨old,near,seq,data⟩ := inv.reader u q reads
    refine ⟨old,near,by simpa using seq,?_⟩
    rw [dataAt_move,dataAt_writeData,if_neg (inv.apart mine reads)]
    exact data
  · intro u w p q one two; rw [writing] at one two; exact inv.oneWriter u w p q one two
  · intro u w p q one two; rw [reading] at one two; exact inv.oneReader u w p q one two
  · intro p lowp highp unwritten
    obtain ⟨seq,data⟩ := inv.filled p lowp highp (fun u q writes => unwritten u q (by rw [writing]; exact writes))
    refine ⟨by simpa using seq,?_⟩
    have apart : c.index p ≠ c.index (val pos) := by
      intro same
      have order : val s.head ≤ val s.tail+c.size := room
      have equal : p = val pos := window_unique (s:=s) lowp (Nat.lt_of_lt_of_le highp order) low (by omega) same
      exact unwritten t pos (by rw [writing]; exact mine) equal.symm
    rw [dataAt_move,dataAt_writeData,if_neg apart]
    exact data
  · intro p lowp highp unread
    simpa using inv.vacant p lowp highp (fun u q reads => unread u q (by rw [reading]; exact reads))
  · intro u
    have knows := inv.known u
    by_cases same : u = t
    · subst u
      rw [State.move_self]
      rw [at_] at knows
      exact ⟨knows,by rw [dataAt_move,dataAt_writeData,if_pos rfl]⟩
    · rw [State.move_other _ _ same]
      refine knows.transfer (List.prefix_refl _) (Nat.le_refl _) (Nat.le_refl _)
        (fun _ _ _ h => by simpa using h) (fun _ _ _ h => by simpa using h) ?_
      intro x p stands
      have theirs : (s.threads u).writing = some p := by rw [stands]; rfl
      obtain ⟨lowp,highp,_⟩ := inv.writer u p theirs
      have apart : c.index (val p) ≠ c.index (val pos) := by
        intro shared
        have equal : val p = val pos := window_unique (s:=s) lowp (by omega) low (by omega) shared
        exact same (inv.oneWriter u t p pos theirs mine equal)
      rw [dataAt_move,dataAt_writeData,if_neg apart]

theorem Inv.publish (inv : Inv val pushed s) (faithful : Faithful A val half)
    (bound : val s.head+c.size < 2*half) (at_ : s.threads t = .pushStore v pos) :
    Inv val pushed ((s.writeSeq (A.slot pos) (A.next pos)).move t (.returning (.pushed v pos))) := by
  have mine : (s.threads t).writing = some pos := by rw [at_]; rfl
  obtain ⟨low,high,seq⟩ := inv.writer t pos mine
  have next : val (A.next pos) = val pos+1 := faithful.next _ (by omega)
  have room := inv.room
  have knows := inv.known t
  rw [at_] at knows
  obtain ⟨value,stored⟩ := knows
  rw [faithful.slot]
  -- only ticket pos of the window lives in the slot that is written
  have elsewhere : ∀ p, val s.tail ≤ p → p < val s.tail+c.size → p ≠ val pos →
      seqAt val (s.writeSeq (c.index (val pos)) (A.next pos)) p = seqAt val s p := by
    intro p lowp highp other
    rw [seqAt_writeSeq,if_neg]
    exact fun shared => other (window_unique (s:=s) lowp highp low (by omega) shared)
  refine ⟨inv.length,inv.order,room,?_,?_,?_,?_,?_,?_,?_⟩
  · intro u p writes
    obtain ⟨other,writes⟩ := move_held (f:=Local.writing) rfl writes
    obtain ⟨lowp,highp,seqp⟩ := inv.writer u p writes
    refine ⟨lowp,highp,?_⟩
    rw [seqAt_move,elsewhere _ lowp (by omega) (fun equal => other (inv.oneWriter u t p pos writes mine equal))]
    exact seqp
  · intro u q reads
    obtain ⟨other,reads⟩ := move_held (f:=Local.reading) rfl reads
    obtain ⟨old,near,seqq,data⟩ := inv.reader u q reads
    refine ⟨old,near,?_,by simpa using data⟩
    rw [seqAt_move,seqAt_writeSeq,if_neg (inv.apart mine reads)]
    exact seqq
  · exact move_unique_held (f:=Local.writing) rfl inv.oneWriter
  · exact move_unique_held (f:=Local.reading) rfl inv.oneReader
  · intro p lowp highp unwritten
    by_cases same : p = val pos
    · subst p
      rw [seqAt_move,seqAt_writeSeq,if_pos rfl,next]
      refine ⟨rfl,?_⟩
      rw [dataAt_move,dataAt_writeSeq,stored]
      exact value
    · have order : val s.head ≤ val s.tail+c.size := room
      rw [seqAt_move,elsewhere p lowp (Nat.lt_of_lt_of_le highp order) same,dataAt_move,dataAt_writeSeq]
      refine inv.filled p lowp highp ?_
      intro u q writes equal
      by_cases own : u = t
      · subst u; rw [mine] at writes; cases writes; exact same equal.symm
      · exact unwritten u q (by rw [State.move_other _ _ own]; exact writes) equal
  · intro p lowp highp unread
    have beyond : val s.head ≤ p := lowp
    rw [seqAt_move,elsewhere p (Nat.le_trans inv.order beyond) highp (by omega)]
    exact inv.vacant p lowp highp (move_unheld (f:=Local.reading) (by rw [at_]; rfl) unread)
  · intro u
    by_cases same : u = t
    · subst u; rw [State.move_self]; exact value
    · rw [State.move_other _ _ same]
      refine (inv.known u).transfer (List.prefix_refl _) (Nat.le_refl _) (Nat.le_refl _) ?_ ?_ ?_
      · intro p now _ free
        have beyond : p ≠ val pos := by omega
        rw [seqAt_move,seqAt_writeSeq]
        split
        · rename_i shared
          -- the slot of the head ticket would still belong to ticket pos
          rw [seqAt,shared] at free
          have := seq
          rw [seqAt] at this
          omega
        · exact free
      · intro p now _ ready
        have clash := inv.ready_unwritten (now ▸ ready) mine
        rw [seqAt_move,elsewhere p (by omega) (by have := c.size_pos; omega) (by omega)]
        exact ready
      · intro x p _; simp

theorem Inv.release (inv : Inv val pushed s) (faithful : Faithful A val half)
    (bound : val s.head+c.size < 2*half) (at_ : s.threads t = .popStore pos v) :
    Inv val pushed ((s.writeSeq (A.slot pos) (A.lap pos)).move t (.returning (.popped pos v))) := by
  have mine : (s.threads t).reading = some pos := by rw [at_]; rfl
  obtain ⟨old,near,seq,data⟩ := inv.reader t pos mine
  have order := inv.order
  have room := inv.room
  have lap : val (A.lap pos) = val pos+c.size := faithful.lap _ (by omega)
  have knows := inv.known t
  rw [at_] at knows
  rw [faithful.slot]
  -- the slot belongs to ticket pos+N of the window, which nobody has pushed yet
  have elsewhere : ∀ p, val s.tail ≤ p → p < val s.tail+c.size → p ≠ val pos+c.size →
      seqAt val (s.writeSeq (c.index (val pos)) (A.lap pos)) p = seqAt val s p := by
    intro p lowp highp other
    rw [seqAt_writeSeq,if_neg]
    intro shared
    rw [← c.index_lap (val pos)] at shared
    exact other (window_unique (s:=s) lowp highp (by omega) (by omega) shared)
  refine ⟨inv.length,order,room,?_,?_,?_,?_,?_,?_,?_⟩
  · intro u p writes
    obtain ⟨other,writes⟩ := move_held (f:=Local.writing) rfl writes
    obtain ⟨lowp,highp,seqp⟩ := inv.writer u p writes
    refine ⟨lowp,highp,?_⟩
    rw [seqAt_move,elsewhere _ lowp (by omega) (by omega)]
    exact seqp
  · intro u q reads
    obtain ⟨other,reads⟩ := move_held (f:=Local.reading) rfl reads
    obtain ⟨oldq,nearq,seqq,dataq⟩ := inv.reader u q reads
    refine ⟨oldq,nearq,?_,by simpa using dataq⟩
    have apart : c.index (val q) ≠ c.index (val pos) := by
      intro shared
      have equal : val q = val pos := by
        rcases Nat.le_total (val q) (val pos) with below | above
        · exact Capacity.index_window shared below (by omega)
        · exact (Capacity.index_window shared.symm above (by omega)).symm
      exact other (inv.oneReader u t q pos reads mine equal)
    rw [seqAt_move,seqAt_writeSeq,if_neg apart]
    exact seqq
  · exact move_unique_held (f:=Local.writing) rfl inv.oneWriter
  · exact move_unique_held (f:=Local.reading) rfl inv.oneReader
  · intro p lowp highp unwritten
    have below : p < val s.head := highp
    rw [seqAt_move,elsewhere p lowp (by omega) (by omega),dataAt_move,dataAt_writeSeq]
    exact inv.filled p lowp highp (move_unheld (f:=Local.writing) (by rw [at_]; rfl) unwritten)
  · intro p lowp highp unread
    have above : val s.head ≤ p := lowp
    by_cases same : p = val pos+c.size
    · subst p
      rw [seqAt_move,seqAt_writeSeq,if_pos (c.index_lap _),lap]
    · rw [seqAt_move,elsewhere p (by omega) highp same]
      refine inv.vacant p lowp highp ?_
      intro u q reads equal
      by_cases own : u = t
      · subst u; rw [mine] at reads; cases reads; exact same equal.symm
      · exact unread u q (by rw [State.move_other _ _ own]; exact reads) equal
  · intro u
    by_cases same : u = t
    · subst u; rw [State.move_self]; exact knows
    · rw [State.move_other _ _ same]
      refine (inv.known u).transfer (List.prefix_refl _) (Nat.le_refl _) (Nat.le_refl _) ?_ ?_ ?_
      · intro p now _ free
        by_cases same : p = val pos+c.size
        · rw [seqAt_move,seqAt_writeSeq,same,if_pos (c.index_lap _),lap]
        · rw [seqAt_move,seqAt_writeSeq]
          split
          · rename_i shared
            rw [← c.index_lap (val pos)] at shared
            exact absurd (Capacity.index_window shared (by omega) (by omega)) same
          · exact free
      · intro p now _ ready
        rw [seqAt_move,seqAt_writeSeq]
        split
        · rename_i shared
          -- a slot still being read cannot also be ready for the tail ticket
          rw [seqAt,shared] at ready
          rw [seqAt] at seq
          omega
        · exact ready
      · intro x p _; simp

variable [DecidableEq W]

theorem Inv.step {es : List (Event Tid W T)} {s' : State Tid W T c} {e : Event Tid W T}
    (faithful : Faithful A val half) (least : 2 ≤ c.size) (fits : Fits c half (es++[e]))
    (inv : Inv val (values es) s) (step : Step A s e s') : Inv val (values (es++[e])) s' := by
  have count : (pushWins es).length = val s.head := by rw [← values_length]; exact inv.length
  have order := inv.order
  have bound : val s.head+c.size < 2*half := by rw [← count]; exact fits.before
  have knows := inv.known
  cases step with
  | @pushWon _ t v pos at_ seen =>
    rw [values_snoc]
    refine inv.pushWon faithful least ?_ at_ seen
    simp only [Fits,pushWins_snoc,Event.pushWin,Option.toList,List.length_append,List.length_singleton] at fits
    omega
  | popWon at_ seen => rw [values_quiet rfl]; exact inv.popWon faithful least bound at_ seen
  | copyIn at_ => rw [values_quiet rfl]; exact inv.copyIn faithful at_
  | publish at_ => rw [values_quiet rfl]; exact inv.publish faithful bound at_
  | release at_ => rw [values_quiet rfl]; exact inv.release faithful bound at_
  | call free =>
    rename_i op
    rw [values_quiet rfl]
    cases op <;> exact inv.move (by rw [free]; rfl) (by rw [free]; rfl) trivial
  | pushLoad at_ =>
    rw [values_quiet rfl]
    exact inv.move (by rw [at_]; rfl) (by rw [at_]; rfl) (Nat.le_refl _)
  | pushFree at_ seen =>
    rename_i pos t v
    rw [values_quiet rfl]
    have behind := knows t
    rw [at_] at behind
    refine inv.move (by rw [at_]; rfl) (by rw [at_]; rfl) ⟨behind,fun _ => ?_⟩
    rw [seqAt,← faithful.slot,(faithful.zero _ _).mp seen]
  | pushFull at_ seen | pushBehind at_ seen =>
    rw [values_quiet rfl]
    exact inv.move (by rw [at_]; rfl) (by rw [at_]; rfl) trivial
  | pushLost at_ =>
    rw [values_quiet rfl]
    exact inv.move (by rw [at_]; rfl) (by rw [at_]; rfl) (Nat.le_refl _)
  | popLoad at_ =>
    rw [values_quiet rfl]
    exact inv.move (by rw [at_]; rfl) (by rw [at_]; rfl) (Nat.le_refl _)
  | popReady at_ seen =>
    rename_i pos t
    rw [values_quiet rfl]
    have behind : val pos ≤ val s.tail := by have := knows t; rwa [at_] at this
    refine inv.move (by rw [at_]; rfl) (by rw [at_]; rfl) ⟨behind,fun _ => ?_⟩
    rw [seqAt,← faithful.slot,(faithful.zero _ _).mp seen]
    exact faithful.next _ (by omega)
  | popNone at_ seen | popBehind at_ seen =>
    rw [values_quiet rfl]
    exact inv.move (by rw [at_]; rfl) (by rw [at_]; rfl) trivial
  | popLost at_ =>
    rw [values_quiet rfl]
    exact inv.move (by rw [at_]; rfl) (by rw [at_]; rfl) (Nat.le_refl _)
  | copyOut at_ =>
    rename_i t pos
    rw [values_quiet rfl]
    have held := inv.reader t pos (by rw [at_]; rfl)
    refine inv.move (by rw [at_]; rfl) (by rw [at_]; rfl) ?_
    rw [faithful.slot]
    exact held.2.2.2
  | sizeHead at_ =>
    rw [values_quiet rfl]
    exact inv.move (by rw [at_]; rfl) (by rw [at_]; rfl) trivial
  | sizeTail at_ =>
    rw [values_quiet rfl]
    refine inv.move (by rw [at_]; rfl) (by rw [at_]; rfl) ?_
    unfold sized
    split <;> trivial
  | ret at_ =>
    rw [values_quiet rfl]
    exact inv.move (by rw [at_]; rfl) (by rw [at_]; rfl) trivial

end Chronos.MpmcQueue
