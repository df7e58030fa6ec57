import Chronos.AtomicObject
import Chronos.MpmcOwnership

namespace Chronos.MpmcQueue
open AtomicObject

-- The abstract queue: a list, and how many elements have left it. The element
-- at position i of the list is the (taken + i)-th ever appended.
structure Fifo (T : Type) where
  taken : Nat
  items : List T

inductive QueueOp (T : Type) where
  | push (val : T)
  | pop
  deriving DecidableEq

inductive Outcome (T : Type) where
  | pushed (ticket : Nat)
  | full
  | popped (ticket : Nat) (val : T)
  | none

inductive Answer (T : Type) where
  | pushed (ok : Bool)
  | popped (val : Option T)
  deriving DecidableEq

def answer : Outcome T → Answer T
  | .pushed _ => .pushed true
  | .full => .pushed false
  | .popped _ v => .popped (some v)
  | .none => .popped none

abbrev Abstract (Tid T : Type) := Object Tid (QueueOp T) (Outcome T) (Fifo T)

inductive FifoRule (size : Nat) (crowded starved : Abstract Tid T → Prop) :
    Abstract Tid T → QueueOp T → Outcome T → Fifo T → Prop where
  | pushed (room : o.state.items.length < size) : FifoRule size crowded starved o (.push v)
      (.pushed (o.state.taken+o.state.items.length)) ⟨o.state.taken,o.state.items++[v]⟩
  | full (refused : crowded o) : FifoRule size crowded starved o (.push v) .full o.state
  | popped (front : o.state.items = v::rest) : FifoRule size crowded starved o .pop
      (.popped o.state.taken v) ⟨o.state.taken+1,rest⟩
  | none (refused : starved o) : FifoRule size crowded starved o .pop .none o.state

def fifo (size : Nat) (crowded starved : Abstract Tid T → Prop) :
    Spec Tid (QueueOp T) (Outcome T) (Answer T) (Fifo T) := ⟨FifoRule size crowded starved,answer⟩

def boundedFifo (Tid T : Type) (size : Nat) : Spec Tid (QueueOp T) (Outcome T) (Answer T) (Fifo T) :=
  fifo size (fun o => o.state.items.length = size) (fun o => o.state.items = [])

def Releasing (size : Nat) (o : Abstract Tid T) : Prop :=
  ∃ t op n v, o.phase t = .done op (.popped n v) ∧ n+size = o.state.taken+o.state.items.length

def Publishing (o : Abstract Tid T) : Prop := ∃ t op, o.phase t = .done op (.pushed o.state.taken)

-- The same queue seen through its slots: a refusal may also be owed to a call
-- that has taken effect and still holds the slot ("not yet consumed", "no data
-- written yet").
def slottedFifo (Tid T : Type) (size : Nat) : Spec Tid (QueueOp T) (Outcome T) (Answer T) (Fifo T) :=
  fifo size (fun o => o.state.items.length = size ∨ Releasing size o)
    (fun o => o.state.items = [] ∨ Publishing o)

def Event.visible : Event Tid W T → Option (Visible Tid (QueueOp T) (Answer T))
  | .call t (.tryPush v) => some (.call t (.push v))
  | .call t .tryPop => some (.call t .pop)
  | .ret t (.pushed _ _) => some (.ret t (.pushed true))
  | .ret t (.full _) => some (.ret t (.pushed false))
  | .ret t (.popped _ v) => some (.ret t (.popped (some v)))
  | .ret t .none => some (.ret t (.popped none))
  | _ => none

def history (es : List (Event Tid W T)) : List (Visible Tid (QueueOp T) (Answer T)) := es.filterMap Event.visible

-- A push takes effect with its winning exchange, a pop likewise, and a refused
-- call with the seq it loaded.
def Stands (val : W → Nat) (pushed : List T) : Local W T → Phase (QueueOp T) (Outcome T) → Prop
  | .pushLoad v,p | .pushSeq v _,p | .pushCas v _,p => p = .called (.push v)
  | .pushCopy v pos,p | .pushStore v pos,p | .returning (.pushed v pos),p =>
    p = .done (.push v) (.pushed (val pos))
  | .returning (.full v),p => p = .done (.push v) .full
  | .popLoad,p | .popSeq _,p | .popCas _,p => p = .called .pop
  | .popCopy pos,p => ∃ v, pushed[val pos]? = some v ∧ p = .done .pop (.popped (val pos) v)
  | .popStore pos v,p | .returning (.popped pos v),p => p = .done .pop (.popped (val pos) v)
  | .returning .none,p => p = .done .pop .none
  | .idle,p | .sizeHead _,p | .sizeTail _ _,p | .returning (.size _),p | .returning (.isEmpty _),p => p = .idle

structure Simulates (val : W → Nat) (pushed : List T) (s : State Tid W T c) (o : Abstract Tid T) : Prop where
  taken : o.state.taken = val s.tail
  items : o.state.items = pushed.drop (val s.tail)
  phase : ∀ t, Stands val pushed (s.threads t) (o.phase t)

variable {Tid W T : Type} {c : Capacity} {A : Arithmetic W c} {val : W → Nat} {half : Nat}
variable {s s' : State Tid W T c} {es : List (Event Tid W T)} {e : Event Tid W T} {pushed : List T}
variable {o : Abstract Tid T}

theorem Simulates.length (sim : Simulates val pushed s o) (inv : Inv val pushed s) :
    o.state.taken+o.state.items.length = val s.head := by
  have order := inv.order
  rw [sim.taken,sim.items,List.length_drop,inv.length]
  omega

theorem Stands.reading {l : Local W T} (stands : Stands val pushed l p) (held : l.reading = some pos) :
    ∃ v, p = .done .pop (.popped (val pos) v) := by
  cases l <;> simp only [Local.reading,reduceCtorEq,Option.some.injEq] at held
  case popCopy q =>
    subst held
    obtain ⟨v,_,same⟩ := stands
    exact ⟨v,same⟩
  case popStore q v =>
    subst held
    exact ⟨v,stands⟩

theorem Stands.writing {l : Local W T} (stands : Stands val pushed l p) (held : l.writing = some pos) :
    ∃ v, p = .done (.push v) (.pushed (val pos)) := by
  cases l <;> simp only [Local.writing,reduceCtorEq,Option.some.injEq] at held
  case pushCopy v q => subst held; exact ⟨v,stands⟩
  case pushStore v q => subst held; exact ⟨v,stands⟩

theorem Stands.grown {l : Local W T} {more : List T} (stands : Stands val pushed l p) :
    Stands val (pushed++more) l p := by
  cases l
  case popCopy pos =>
    obtain ⟨v,found,same⟩ := stands
    refine ⟨v,?_,same⟩
    rw [List.getElem?_append_left (List.getElem?_eq_some_iff.mp found).1]
    exact found
  case returning result => cases result <;> exact stands
  all_goals exact stands

theorem Inv.seq_behind (inv : Inv val pushed s) (below : p < val s.head) :
    p ≤ seqAt val s p ∧ (p < val s.tail → p < seqAt val s p) := by
  obtain ⟨q,low,high,same⟩ := window_ticket s val p
  have shared : seqAt val s p = seqAt val s q := by simp only [seqAt,same]
  have later : q = p ∨ p+c.size ≤ q := by
    by_cases near : q < p+c.size
    · by_cases ahead : p ≤ q
      · exact .inl (Capacity.index_window same.symm ahead near).symm
      · have room := inv.room
        exact .inl (Capacity.index_window same (by omega) (by omega))
    · exact .inr (by omega)
  have positive := c.size_pos
  by_cases filled : q < val s.head
  · have := inv.seq_pushed low filled
    constructor <;> omega
  · have := inv.seq_free (Nat.not_lt.mp filled) high
    constructor <;> omega

theorem Inv.refused_push (inv : Inv val pushed s) (behind : p ≤ val s.head) (early : seqAt val s p < p) :
    val s.head = val s.tail+c.size ∨ ∃ t q, (s.threads t).reading = some q ∧ val q+c.size = val s.head := by
  have current : p = val s.head := by
    by_contra other
    have := (inv.seq_behind (show p < val s.head by omega)).1
    omega
  subst current
  have room := inv.room
  by_cases crowded : val s.head = val s.tail+c.size
  · exact .inl crowded
  · refine .inr ?_
    by_contra unread
    have := inv.vacant _ (Nat.le_refl _) (by omega) (fun t q held same => unread ⟨t,q,held,same⟩)
    omega

theorem Inv.refused_pop (inv : Inv val pushed s) (behind : p ≤ val s.tail) (early : seqAt val s p < p+1) :
    val s.head = val s.tail ∨ ∃ t q, (s.threads t).writing = some q ∧ val q = val s.tail := by
  have order := inv.order
  have current : p = val s.tail := by
    by_contra other
    have := (inv.seq_behind (show p < val s.head by omega)).2 (by omega)
    omega
  subst current
  by_cases starved : val s.head = val s.tail
  · exact .inl starved
  · refine .inr ?_
    by_contra unwritten
    have := (inv.filled _ (Nat.le_refl _) (by omega) (fun t q held same => unwritten ⟨t,q,held,same⟩)).1
    omega

theorem Simulates.room (sim : Simulates val pushed s o) (least : 2 ≤ c.size) (inv : Inv val pushed s)
    (at_ : s.threads t = .pushCas v s.head) : o.state.items.length < c.size := by
  have knows := inv.known t
  rw [at_] at knows
  have free := inv.free_room least (knows.2 rfl)
  have length := sim.length inv
  have taken := sim.taken
  omega

theorem Simulates.front (sim : Simulates val pushed s o) (least : 2 ≤ c.size) (inv : Inv val pushed s)
    (at_ : s.threads t = .popCas s.tail) :
    ∃ v, pushed[val s.tail]? = some v ∧ o.state.items = v::pushed.drop (val s.tail+1) := by
  have knows := inv.known t
  rw [at_] at knows
  have filled := inv.ready_pushed least (knows.2 rfl)
  have bound : val s.tail < pushed.length := by rw [inv.length]; exact filled
  exact ⟨_,List.getElem?_eq_getElem bound,by rw [sim.items,List.drop_eq_getElem_cons bound]⟩

theorem Simulates.refused_push (sim : Simulates val pushed s o) (faithful : Faithful A val half)
    (short : val s.tail+c.size < half) (inv : Inv val pushed s) (at_ : s.threads t = .pushSeq v pos)
    (seen : A.diff (s.slots (A.slot pos)).seq pos < 0) : o.state.items.length = c.size ∨ Releasing c.size o := by
  have room := inv.room
  have behind : val pos ≤ val s.head := by have := inv.known t; rwa [at_] at this
  have window := (inv.seq_window (val pos)).2
  rw [faithful.slot] at seen
  have early : seqAt val s (val pos) < val pos :=
    (faithful.sign _ _ (by simp only [seqAt] at window; omega) (by omega)).mp seen
  have length := sim.length inv
  have taken := sim.taken
  rcases inv.refused_push behind early with crowded | ⟨u,q,held,lap⟩
  · exact .inl (by omega)
  · obtain ⟨w,done⟩ := (sim.phase u).reading held
    exact .inr ⟨u,_,_,w,done,by omega⟩

theorem Simulates.refused_pop (sim : Simulates val pushed s o) (faithful : Faithful A val half)
    (short : val s.tail+c.size < half) (inv : Inv val pushed s) (at_ : s.threads t = .popSeq pos)
    (seen : A.diff (s.slots (A.slot pos)).seq (A.next pos) < 0) : o.state.items = [] ∨ Publishing o := by
  have behind : val pos ≤ val s.tail := by have := inv.known t; rwa [at_] at this
  have window := (inv.seq_window (val pos)).2
  have next : val (A.next pos) = val pos+1 := faithful.next _ (by omega)
  rw [faithful.slot] at seen
  have early : seqAt val s (val pos) < val pos+1 := by
    rw [← next]
    exact (faithful.sign _ _ (by simp only [seqAt] at window; omega) (by omega)).mp seen
  rcases inv.refused_pop behind early with starved | ⟨u,q,held,first⟩
  · left
    rw [sim.items,← starved,← inv.length,List.drop_length]
  · obtain ⟨w,done⟩ := (sim.phase u).writing held
    exact .inr ⟨u,_,by rw [done,first,sim.taken]⟩

def Short (c : Capacity) (half : Nat) (es : List (Event Tid W T)) : Prop :=
  (popWins es).length+c.size < half

theorem Short.before {es : List (Event Tid W T)} {e : Event Tid W T} (short : Short c half (es++[e])) :
    Short c half es := by
  simp only [Short,popWins_snoc,List.length_append] at *
  omega

section Steps
variable [DecidableEq Tid]

theorem Simulates.enter {st : Fifo T} {pushed' : List T} (sim : Simulates val pushed s o)
    (grown : ∃ more, pushed' = pushed++more) (others : ∀ u, u ≠ t → s'.threads u = s.threads u)
    (mine : Stands val pushed' (s'.threads t) p) (taken : st.taken = val s'.tail)
    (items : st.items = pushed'.drop (val s'.tail)) :
    Simulates val pushed' s' (Object.enter {o with state := st} t p) := by
  obtain ⟨more,rfl⟩ := grown
  refine ⟨taken,items,fun u => ?_⟩
  by_cases same : u = t
  · subst u
    rw [enter_phase_self]
    exact mine
  · rw [enter_phase_other _ _ same,others u same]
    exact (sim.phase u).grown

theorem Simulates.quiet {l : Local W T} (sim : Simulates val pushed s o) (same : Stands val pushed l (o.phase t)) :
    Simulates val pushed (s.move t l) o := by
  refine ⟨sim.taken,sim.items,fun u => ?_⟩
  by_cases own : u = t
  · subst u; rw [State.move_self]; exact same
  · rw [State.move_other _ _ own]; exact sim.phase u

theorem Accounted.taken (acc : Accounted val es s) : (popWins es).length = val s.tail := by
  rw [← List.length_map (fun w : Tid × W => val w.2),acc.ordered.2,List.length_range]

theorem Accounted.fits (acc : Accounted val es s) (short : Short c half es) (e : Event Tid W T) :
    Fits c half (es++[e]) := by
  have pops := acc.taken
  have pushes := acc.inv.length
  have room := acc.inv.room
  have one : e.pushWin.toList.length ≤ 1 := by cases e.pushWin <;> simp
  rw [values_length] at pushes
  simp only [Short] at short
  simp only [Fits,pushWins_snoc,List.length_append]
  omega

variable [DecidableEq W]

theorem Simulates.step (faithful : Faithful A val half) (least : 2 ≤ c.size)
    (short : val s.tail+c.size < half) (acc : Accounted val es s)
    (sim : Simulates val (values es) s o) (step : Step A s e s') :
    ∃ o', Accepts (slottedFifo Tid T c.size) o e.visible.toList o' ∧ Simulates val (values (es++[e])) s' o' := by
  have inv := acc.inv
  have room := inv.room
  have order := inv.order
  have others : ∀ u, u ≠ e.thread → s'.threads u = s.threads u := fun u other => step.frame other
  -- thread-local steps leave the abstract queue where it is
  have stay : ∀ {o' : Abstract Tid T}, Simulates val (values es) s' o' → e.pushWin = none →
      Simulates val (values (es++[e])) s' o' := fun held quiet => by rwa [values_quiet quiet]
  have phase := sim.phase e.thread
  cases step with
  | call free =>
    rename_i t op
    simp only [Event.thread,free] at phase
    have idle : o.phase t = .idle := phase
    cases op with
    | tryPush v =>
      refine ⟨_,.one (.call idle),stay ?_ rfl⟩
      exact sim.enter ⟨[],by simp⟩ others (by rw [State.move_self]; rfl) sim.taken sim.items
    | tryPop =>
      refine ⟨_,.one (.call idle),stay ?_ rfl⟩
      exact sim.enter ⟨[],by simp⟩ others (by rw [State.move_self]; rfl) sim.taken sim.items
    | size | empty => exact ⟨o,.refl o,stay (sim.quiet idle) rfl⟩
  | pushLoad at_ | pushFree at_ seen | pushBehind at_ seen | pushLost at_ | popLoad at_ | popReady at_ seen
  | popBehind at_ seen | popLost at_ | sizeHead at_ =>
    simp only [Event.thread,at_] at phase
    exact ⟨o,.refl o,stay (sim.quiet (by exact phase)) rfl⟩
  | copyIn at_ =>
    simp only [Event.thread,at_] at phase
    have frame : ∀ i v, Simulates val (values es) (s.writeData i v) o := fun _ _ => ⟨sim.taken,sim.items,sim.phase⟩
    exact ⟨o,.refl o,stay ((frame _ _).quiet (by exact phase)) rfl⟩
  | publish at_ | release at_ =>
    simp only [Event.thread,at_] at phase
    have frame : ∀ i seq, Simulates val (values es) (s.writeSeq i seq) o := fun _ _ => ⟨sim.taken,sim.items,sim.phase⟩
    exact ⟨o,.refl o,stay ((frame _ _).quiet (by exact phase)) rfl⟩
  | sizeTail at_ =>
    simp only [Event.thread,at_] at phase
    refine ⟨o,.refl o,stay (sim.quiet ?_) rfl⟩
    unfold sized
    split <;> exact phase
  | copyOut at_ =>
    rename_i t pos
    simp only [Event.thread,at_] at phase
    obtain ⟨v,found,done⟩ := phase
    have held := (inv.reader t pos (by rw [at_]; rfl)).2.2.2
    rw [held] at found
    refine ⟨o,.refl o,stay (sim.quiet ?_) rfl⟩
    rw [done,faithful.slot,← Option.some.inj found]
    rfl
  | pushWon at_ seen =>
    rename_i pos t v
    simp only [Event.thread,at_] at phase
    subst seen
    have length := sim.length inv
    have allowed : FifoRule c.size (fun o => o.state.items.length = c.size ∨ Releasing c.size o)
        (fun o => o.state.items = [] ∨ Publishing o) o (.push v) _ _ := .pushed (sim.room least inv at_)
    refine ⟨_,.one (.effect phase allowed),?_⟩
    rw [values_snoc]
    refine sim.enter ⟨[v],rfl⟩ others ?_ sim.taken ?_
    · simp only [State.move_self]
      rw [length]
      rfl
    · simp only [State.move_tail,Event.pushWin,Option.toList,List.map_cons,List.map_nil]
      rw [sim.items,List.drop_append_of_le_length (by rw [inv.length]; exact order)]
  | popWon at_ seen =>
    rename_i pos t
    simp only [Event.thread,at_] at phase
    subst seen
    have next : val (A.next s.tail) = val s.tail+1 := faithful.next _ (by omega)
    obtain ⟨v,found,front⟩ := sim.front least inv at_
    have allowed : FifoRule c.size (fun o => o.state.items.length = c.size ∨ Releasing c.size o)
        (fun o => o.state.items = [] ∨ Publishing o) o .pop _ _ := .popped front
    refine ⟨_,.one (.effect phase allowed),stay ?_ rfl⟩
    refine sim.enter ⟨[],by simp⟩ others ?_ ?_ ?_
    · simp only [State.move_self]
      exact ⟨v,found,by rw [sim.taken]⟩
    · simp only [State.move_tail,next,sim.taken]
    · simp only [State.move_tail,next]
  | pushFull at_ seen =>
    simp only [Event.thread,at_] at phase
    refine ⟨_,.one (.effect phase (.full (sim.refused_push faithful short inv at_ seen))),stay ?_ rfl⟩
    exact sim.enter ⟨[],by simp⟩ others (by rw [State.move_self]; rfl) sim.taken sim.items
  | popNone at_ seen =>
    simp only [Event.thread,at_] at phase
    refine ⟨_,.one (.effect phase (.none (sim.refused_pop faithful short inv at_ seen))),stay ?_ rfl⟩
    exact sim.enter ⟨[],by simp⟩ others (by rw [State.move_self]; rfl) sim.taken sim.items
  | ret at_ =>
    rename_i t result
    simp only [Event.thread,at_] at phase
    cases result with
    | size n | isEmpty b => exact ⟨o,.refl o,stay (sim.quiet phase) rfl⟩
    | pushed v pos | full v | popped pos v | none =>
      refine ⟨_,.one (.ret phase),stay ?_ rfl⟩
      exact sim.enter ⟨[],by simp⟩ others (by rw [State.move_self]; rfl) sim.taken sim.items

theorem runs_linear (faithful : Faithful A val half) (least : 2 ≤ c.size)
    (path : Runs (Step A) (initial A junk) es s) (short : Short c half es) :
    Linearizable (slottedFifo Tid T c.size) ⟨0,[]⟩ (history es) := by
  have room : c.size < half := by simp only [Short] at short; omega
  have zero : val (A.ofIndex 0) = 0 := faithful.ofIndex 0 (by omega)
  have start : Simulates val [] (initial A junk : State Tid W T c) (.start ⟨0,[]⟩) :=
    ⟨zero.symm,List.drop_nil.symm,fun _ => rfl⟩
  obtain ⟨o,accepted,_⟩ := simulation (fun es s o => Accounted val es s ∧ Simulates val (values es) s o)
    (Short c half) (fun _ _ => Short.before) (fun es s e s' o short held step => by
      obtain ⟨acc,sim⟩ := held
      have before := short.before
      have window : val s.tail+c.size < half := by rw [← acc.taken]; exact before
      obtain ⟨o',accepted,sim'⟩ := sim.step faithful least window acc step
      exact ⟨o',accepted,acc.step faithful least (acc.fits before e) step,sim'⟩)
    ⟨initial_accounted faithful (by omega) junk,start⟩ path short
  exact ⟨o,accepted⟩

theorem slots_linearizable {Tid T : Type} [DecidableEq Tid] {c : Capacity} {junk : Fin c.size → T}
    {es : List (Event Tid (BitVec 64) T)} {s : State Tid (BitVec 64) T c}
    (power : 1 ≤ c.exponent) (path : Runs (Step (word c)) (initial (word c) junk) es s)
    (short : (popWins es).length+c.size < 2^63) :
    Linearizable (slottedFifo Tid T c.size) ⟨0,[]⟩ (history es) :=
  runs_linear (word_faithful c) (c.two_le power) path short

end Steps

-- Thread 0 wins a ticket and stalls, thread 1 pushes behind it and returns,
-- thread 2 is told the queue is empty.
def stalledPush : List (Fin 3 × Choice Nat) :=
  [(0,.call (.tryPush 7)),(0,.run),(0,.run),(0,.run),
   (1,.call (.tryPush 8)),(1,.run),(1,.run),(1,.run),(1,.run),(1,.run),(1,.run),
   (2,.call .tryPop),(2,.run),(2,.run),(2,.run)]

theorem slots_linearizable_stalledPush :
    ∃ follows : (play (schedule (word two)) (initial (word two) (fun _ => 0)) stalledPush).isSome,
      Linearizable (slottedFifo (Fin 3) Nat two.size) ⟨0,[]⟩
        (history ((play (schedule (word two)) (initial (word two) (fun _ => 0)) stalledPush).get follows).1) :=
  ⟨by decide,slots_linearizable (by decide) (schedule_runs (by decide)) (by decide)⟩

structure Storing (o : Abstract (Fin 3) Nat) : Prop where
  noPop : ∀ t, o.phase t ≠ .called .pop
  noAnswer : ∀ t op, o.phase t ≠ .done op .none
  pending : ∀ op, o.phase 1 = .called op → op = .push 8
  stored : ∀ op n, o.phase 1 = .done op (.pushed n) → 8 ∈ o.state.items

structure Stored (o : Abstract (Fin 3) Nat) : Prop where
  onlyPop : ∀ t, o.phase t = .called .pop → t = 2
  noAnswer : ∀ op, o.phase 2 ≠ .done op .none
  found : 8 ∈ o.state.items ∨ ∃ op n v, o.phase 2 = .done op (.popped n v)

theorem Storing.call {o : Abstract (Fin 3) Nat} (storing : Storing o) (push : op ≠ .pop)
    (eight : t = 1 → op = .push 8) : Storing (o.enter t (.called op)) := by
  obtain ⟨noPop,noAnswer,pending,stored⟩ := storing
  refine ⟨fun u held => ?_,fun u op' held => ?_,fun op' held => ?_,fun op' n held => ?_⟩
  · by_cases same : u = t
    · subst u; rw [enter_phase_self] at held; cases held; exact push rfl
    · exact noPop u (by rwa [enter_phase_other _ _ same] at held)
  · by_cases same : u = t
    · subst u; rw [enter_phase_self] at held; cases held
    · exact noAnswer u op' (by rwa [enter_phase_other _ _ same] at held)
  · by_cases same : 1 = t
    · subst t; rw [enter_phase_self] at held; cases held; exact eight rfl
    · exact pending op' (by rwa [enter_phase_other _ _ same] at held)
  · by_cases same : 1 = t
    · subst t; rw [enter_phase_self] at held; cases held
    · exact stored op' n (by rwa [enter_phase_other _ _ same] at held)

theorem Storing.effect {o : Abstract (Fin 3) Nat} (storing : Storing o) (pending : o.phase t = .called op)
    (allowed : (boundedFifo (Fin 3) Nat 2).rule o op out st) :
    Storing (Object.enter {o with state := st} t (.done op out)) := by
  obtain ⟨noPop,noAnswer,calls,stored⟩ := storing
  have phases : ∀ u op', (Object.enter {o with state := st} t (.done op out)).phase u = .called op' →
      o.phase u = .called op' := by
    intro u op' held
    by_cases same : u = t
    · subst u; rw [enter_phase_self] at held; cases held
    · rwa [enter_phase_other _ _ same] at held
  refine ⟨fun u held => noPop u (phases u _ held),fun u op' held => ?_,
    fun op' held => calls op' (phases 1 _ held),fun op' n held => ?_⟩
  · by_cases same : u = t
    · subst u
      rw [enter_phase_self] at held
      cases held
      cases allowed with
      | none => exact noPop _ pending
    · exact noAnswer u op' (by rwa [enter_phase_other _ _ same] at held)
  · cases allowed with
    | popped | none => exact absurd pending (noPop t)
    | full =>
      by_cases same : 1 = t
      · subst t; rw [enter_phase_self] at held; cases held
      · exact stored op' n (by rwa [enter_phase_other _ _ same] at held)
    | pushed =>
      by_cases same : 1 = t
      · subst t
        obtain ⟨rfl⟩ := calls _ pending
        simp
      · exact List.mem_append_left _ (stored op' n (by rwa [enter_phase_other _ _ same] at held))

theorem Stored.effect {o : Abstract (Fin 3) Nat} (held : Stored o) (pending : o.phase t = .called op)
    (allowed : (boundedFifo (Fin 3) Nat 2).rule o op out st) :
    Stored (Object.enter {o with state := st} t (.done op out)) := by
  obtain ⟨onlyPop,noAnswer,found⟩ := held
  have present : 2 = t → 8 ∈ o.state.items := by
    rintro rfl
    rcases found with member | ⟨op',n,v,done⟩
    · exact member
    · rw [done] at pending; cases pending
  refine ⟨fun u waiting => ?_,fun op' refused => ?_,?_⟩
  · by_cases same : u = t
    · subst u; rw [enter_phase_self] at waiting; cases waiting
    · exact onlyPop u (by rwa [enter_phase_other _ _ same] at waiting)
  · by_cases same : 2 = t
    · subst t
      rw [enter_phase_self] at refused
      cases refused
      cases allowed with
      | none starved =>
        rw [show o.state.items = [] from starved] at present
        cases present rfl
    · exact noAnswer op' (by rwa [enter_phase_other _ _ same] at refused)
  · by_cases same : 2 = t
    · subst t
      cases allowed with
      | popped => exact .inr ⟨_,_,_,enter_phase_self _ _ _⟩
      | none | full => exact .inl (present rfl)
      | pushed => exact .inl (List.mem_append_left _ (present rfl))
    · rw [enter_phase_other _ _ same]
      refine found.imp_left fun member => ?_
      cases allowed with
      | popped | none => exact absurd (onlyPop t pending).symm same
      | full => exact member
      | pushed => exact List.mem_append_left _ member

theorem Storing.settled {o : Abstract (Fin 3) Nat} (storing : Storing o) (done : o.phase 1 = .done op out)
    (pushed : answer out = .pushed true) : Stored (o.enter 1 .idle) := by
  refine ⟨fun u waiting => ?_,fun op' refused => ?_,.inl ?_⟩
  · by_cases same : u = 1
    · subst u; rw [enter_phase_self] at waiting; cases waiting
    · exact absurd (by rwa [enter_phase_other _ _ same] at waiting) (storing.noPop u)
  · exact storing.noAnswer 2 op' (by rwa [enter_phase_other _ _ (by decide)] at refused)
  · cases out <;> simp only [answer,reduceCtorEq,Answer.pushed.injEq,Bool.false_eq_true] at pushed
    exact storing.stored _ _ done

theorem Stored.call {o : Abstract (Fin 3) Nat} (held : Stored o) (free : o.phase 2 = .idle) :
    Stored (o.enter 2 (.called .pop)) := by
  refine ⟨fun u waiting => ?_,fun op' refused => ?_,.inl ?_⟩
  · by_cases same : u = 2
    · exact same
    · exact held.onlyPop u (by rwa [enter_phase_other _ _ same] at waiting)
  · rw [enter_phase_self] at refused; cases refused
  · rcases held.found with member | ⟨op,n,v,done⟩
    · exact member
    · rw [done] at free; cases free

theorem stalledPush_not_linearizable :
    ∃ follows : (play (schedule (word two)) (initial (word two) (fun _ => 0)) stalledPush).isSome,
      let run := (play (schedule (word two)) (initial (word two) (fun _ => 0)) stalledPush).get follows
      Runs (Step (word two)) (initial (word two) (fun _ => 0)) run.1 run.2 ∧ (pushWins run.1).length < 2^63 ∧
        ¬ Linearizable (boundedFifo (Fin 3) Nat two.size) ⟨0,[]⟩ (history run.1) := by
  refine ⟨by decide,schedule_runs (by decide),by decide,?_⟩
  have seen : history ((play (schedule (word two)) (initial (word two) (fun _ => 0)) stalledPush).get (by decide)).1 =
      [.call 0 (.push 7),.call 1 (.push 8),.ret 1 (.pushed true),.call 2 .pop,.ret 2 (.popped none)] := by decide
  rw [seen]
  rintro ⟨last,accepted⟩
  have start : Storing (.start ⟨0,[]⟩) := by constructor <;> simp [Object.start]
  obtain ⟨a,b,storing,taken,accepted⟩ := accepted.next Storing (fun _ _ _ _ _ held => held.effect) start
  obtain ⟨_,rfl⟩ := taken.call_inv
  have start : Storing (a.enter 0 (.called (.push 7))) := storing.call (by decide) (by decide)
  obtain ⟨a,b,storing,taken,accepted⟩ := accepted.next Storing (fun _ _ _ _ _ held => held.effect) start
  obtain ⟨_,rfl⟩ := taken.call_inv
  have start : Storing (a.enter 1 (.called (.push 8))) := storing.call (by decide) (fun _ => rfl)
  obtain ⟨a,b,storing,taken,accepted⟩ := accepted.next Storing (fun _ _ _ _ _ held => held.effect) start
  obtain ⟨_,_,done,pushed,rfl⟩ := taken.ret_inv
  have start := storing.settled done pushed
  obtain ⟨a,b,stored,taken,accepted⟩ := accepted.next Stored (fun _ _ _ _ _ held => held.effect) start
  obtain ⟨free,rfl⟩ := taken.call_inv
  have start := stored.call free
  obtain ⟨a,b,stored,taken,_⟩ := accepted.next Stored (fun _ _ _ _ _ held => held.effect) start
  obtain ⟨op,out,done,popped,_⟩ := taken.ret_inv
  have none : out = .none := by cases out <;> cases popped; rfl
  exact stored.noAnswer op (by rw [done,none])

end Chronos.MpmcQueue
