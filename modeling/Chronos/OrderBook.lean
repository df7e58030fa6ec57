import Chronos.Runs
import Chronos.Seqlock
import Chronos.Types

namespace Chronos.OrderBookV2
open Seqlock

inductive HotField where
  | bidPrices (i : Fin 5)
  | bidQuantities (i : Fin 5)
  | askPrices (i : Fin 5)
  | askQuantities (i : Fin 5)
  | lastUpdateTime
  | bidCount
  | askCount
  deriving DecidableEq

abbrev HotField.Value : HotField → Type
  | .lastUpdateTime => UInt64
  | .bidCount | .askCount => UInt8
  | .bidPrices _ | .bidQuantities _ | .askPrices _ | .askQuantities _ => Decimal

structure HotData where
  version : BitVec 64
  fields : (k : HotField) → k.Value

def HotData.zero : HotData where
  version := 0
  fields
    | .lastUpdateTime => (0 : UInt64)
    | .bidCount | .askCount => (0 : UInt8)
    | .bidPrices _ | .bidQuantities _ | .askPrices _ | .askQuantities _ => (0 : Decimal)

-- The func of a call: it reads a field, goes on as it likes with the value, and
-- in the end returns.
inductive Func (R : Type) where
  | done (r : R)
  | read (k : HotField) (next : k.Value → Func R)

def Func.eval (fields : (k : HotField) → k.Value) : Func R → R
  | .done r => r
  | .read k next => (next (fields k)).eval fields

-- A thread inside readHotDataOptimistic: before the load of version_before, with
-- what is left of func, and with the result. The retry counters are left out:
-- all that hangs on them is a pause.
inductive Local (R : Type) where
  | idle
  | before (func : Func R)
  | reading (func : Func R) (versionBefore : BitVec 64) (rest : Func R)
  | returning (r : R)

def turn (hot : HotData) : Local R → Option (Local R)
  | .before func => some (if hot.version &&& 1 = 0 then .reading func hot.version func else .before func)
  | .reading func versionBefore (.read k next) => some (.reading func versionBefore (next (hot.fields k)))
  | .reading func versionBefore (.done r) =>
    some (if versionBefore = hot.version then .returning r else .before func)
  | .idle | .returning _ => none

structure State (Tid R : Type) where
  hot : HotData
  threads : Tid → Local R

inductive Event (Tid R : Type) where
  | bump
  | store (k : HotField) (v : k.Value)
  | call (t : Tid) (func : Func R)
  | turn (t : Tid)
  | ret (t : Tid) (r : R)

variable {Tid R : Type}

def State.initial : State Tid R := ⟨HotData.zero,fun _ => .idle⟩

-- What the single writer does: a step of the version, or while that is odd a
-- store to any field.
def State.bump (s : State Tid R) : State Tid R := {s with hot := {s.hot with version := s.hot.version+1}}

def State.store (s : State Tid R) (k : HotField) (v : k.Value) : State Tid R :=
  {s with hot := {s.hot with fields := Function.update s.hot.fields k v}}

section Steps
variable [DecidableEq Tid]

def State.move (s : State Tid R) (t : Tid) (l : Local R) : State Tid R :=
  {s with threads := Function.update s.threads t l}

@[simp] theorem move_hot (s : State Tid R) (t : Tid) (l : Local R) : (s.move t l).hot = s.hot := rfl
@[simp] theorem move_self (s : State Tid R) (t : Tid) (l : Local R) : (s.move t l).threads t = l := by simp [State.move]
theorem move_other (s : State Tid R) {t u : Tid} (l : Local R) (other : u ≠ t) : (s.move t l).threads u = s.threads u := by
  simp [State.move,other]

inductive Step : State Tid R → Event Tid R → State Tid R → Prop where
  | bump : Step s .bump s.bump
  | store {k : HotField} {v : k.Value} (busy : s.hot.version &&& 1 = 1) : Step s (.store k v) (s.store k v)
  | call {t : Tid} {func : Func R} (free : s.threads t = .idle) : Step s (.call t func) (s.move t (.before func))
  | turn {t : Tid} {l : Local R} (moved : turn s.hot (s.threads t) = some l) : Step s (.turn t) (s.move t l)
  | ret {t : Tid} {r : R} (at_ : s.threads t = .returning r) : Step s (.ret t r) (s.move t .idle)

inductive Choice (Tid R : Type) where
  | bump
  | store (k : HotField) (v : k.Value)
  | call (t : Tid) (func : Func R)
  | own (t : Tid)

def advance (s : State Tid R) : Choice Tid R → Option (Event Tid R × State Tid R)
  | .bump => some (.bump,s.bump)
  | .store k v => if s.hot.version &&& 1 = 1 then some (.store k v,s.store k v) else none
  | .call t func =>
    match s.threads t with
    | .idle => some (.call t func,s.move t (.before func))
    | _ => none
  | .own t =>
    match s.threads t with
    | .returning r => some (.ret t r,s.move t .idle)
    | l => (OrderBookV2.turn s.hot l).map fun l => (.turn t,s.move t l)

theorem advance_sound (s : State Tid R) (choice : Choice Tid R) (e : Event Tid R) (s' : State Tid R)
    (checked : advance s choice = some (e,s')) : Step s e s' := by
  cases choice with
  | bump => cases checked; exact .bump
  | store k v =>
    simp only [advance] at checked
    split at checked
    · cases checked; exact .store ‹_›
    · cases checked
  | call t func =>
    simp only [advance] at checked
    split at checked
    · cases checked; exact .call ‹_›
    · cases checked
  | own t =>
    simp only [advance] at checked
    split at checked
    · cases checked; exact .ret ‹_›
    · obtain ⟨l,moved,same⟩ := Option.map_eq_some_iff.mp checked
      cases same
      exact .turn moved

end Steps

def Event.bumped : Event Tid R → Bool
  | .bump => true
  | _ => false

def bumps (es : List (Event Tid R)) : Nat := es.countP Event.bumped

def Finished (es : List (Event Tid R)) : Prop := es = [] ∨ ∃ rest, es = rest++[.bump] ∧ bumps es % 2 = 0

def Book [DecidableEq Tid] (here : List (Event Tid R)) (fields : (k : HotField) → k.Value) : Prop :=
  ∃ s : State Tid R, Runs Step State.initial here s ∧ s.hot.fields = fields ∧
    ∃ whole left, whole <+: here ∧ Finished whole ∧ Runs Step State.initial whole left ∧ left.hot = s.hot

structure Called (es opening : List (Event Tid R)) (t : Tid) (func : Func R) : Prop where
  call : ∃ before, opening = before++[.call t func]
  since : ∃ during, es = opening++during ∧ ∀ r, .ret t r ∉ during

variable {es opening : List (Event Tid R)} {e : Event Tid R} {s s' : State Tid R} {t : Tid} {func : Func R}

theorem bumps_snoc (es : List (Event Tid R)) (e : Event Tid R) : bumps (es++[e]) = bumps es+if e.bumped then 1 else 0 := by
  simp only [bumps,List.countP_append,List.countP_singleton]

theorem Called.opened (es : List (Event Tid R)) (t : Tid) (func : Func R) :
    Called (es++[.call t func]) (es++[.call t func]) t func := ⟨⟨es,rfl⟩,[],by simp,by simp⟩

theorem Called.snoc (called : Called es opening t func) (away : ∀ r, e ≠ .ret t r) : Called (es++[e]) opening t func := by
  obtain ⟨call,during,rfl,silent⟩ := called
  refine ⟨call,during++[e],by simp,fun r member => ?_⟩
  rcases List.mem_append.mp member with old | new
  · exact silent r old
  · exact away r (List.mem_singleton.mp new).symm

theorem Called.begins (called : Called es opening t func) : opening <+: es := by
  obtain ⟨during,rfl,_⟩ := called.since
  exact List.prefix_append _ _

def cell (es : List (Event Tid R)) (hot : HotData) : Cell HotField HotField.Value := ⟨bumps es,hot.fields⟩

section Readers
variable [DecidableEq Tid]

theorem runs_version (path : Runs Step State.initial es s) : s.hot.version = BitVec.ofNat 64 (bumps es) := by
  refine path.preserves_history (fun es s => s.hot.version = BitVec.ofNat 64 (bumps es)) ?_ rfl
  intro es s e s' word step
  rw [bumps_snoc]
  cases step with
  | bump => simp [State.bump,Event.bumped,word,BitVec.ofNat_add]
  | store | call | turn | ret => exact word

theorem Step.write (step : Step s e s') (word : s.hot.version = BitVec.ofNat 64 (bumps es)) :
    Write (cell es s.hot) (cell (es++[e]) s'.hot) := by
  unfold cell
  rw [bumps_snoc]
  cases step with
  | bump => exact .bump
  | store busy =>
    rw [word,odd_word] at busy
    exact .field busy
  | call | turn | ret => exact .still

theorem book_current (path : Runs Step State.initial es s) (even : bumps es % 2 = 0) : Book es s.hot.fields := by
  suffices settled : bumps es % 2 = 0 →
      ∃ whole left, whole <+: es ∧ Finished whole ∧ Runs Step State.initial whole left ∧ left.hot = s.hot from
    ⟨s,path,rfl,settled even⟩
  clear even
  induction path with
  | nil => exact fun _ => ⟨[],_,List.prefix_rfl,.inl rfl,.nil,rfl⟩
  | @step earlier middle event after prior step ih =>
    intro even
    have word := runs_version prior
    have kept : event.bumped = false → after.hot = middle.hot →
        ∃ whole left, whole <+: earlier++[event] ∧ Finished whole ∧ Runs Step State.initial whole left ∧ left.hot = after.hot := by
      intro still same
      obtain ⟨whole,left,front,finished,path,held⟩ := ih (by simpa [bumps_snoc,still] using even)
      exact ⟨whole,left,front.trans (List.prefix_append _ _),finished,path,held.trans same.symm⟩
    cases step with
    | bump => exact ⟨_,_,List.prefix_rfl,.inr ⟨earlier,rfl,even⟩,prior.step .bump,rfl⟩
    | store busy =>
      rw [word,odd_word] at busy
      have even' : bumps earlier % 2 = 0 := by simpa [bumps_snoc,Event.bumped] using even
      omega
    | call | turn | ret => exact kept rfl rfl

def Seen (es opening : List (Event Tid R)) (here : List (Event Tid R)) (book : (k : HotField) → k.Value) : Prop :=
  opening <+: here ∧ here <+: es ∧ bumps here % 2 = 0 ∧ Book here book

def Reading (es : List (Event Tid R)) (hot : HotData) (t : Tid) : Local R → Prop
  | .idle => True
  | .before func => ∃ opening, Called es opening t func
  | .reading func versionBefore rest => ∃ opening, Called es opening t func ∧ ∃ here book, Seen es opening here book ∧
      versionBefore = BitVec.ofNat 64 (bumps here) ∧ Sound (cell es hot) (bumps here) book [] ∧
      (bumps es = bumps here → rest.eval book = func.eval book)
  | .returning r => ∃ func opening, Called es opening t func ∧ ∃ here book, Seen es opening here book ∧ r = func.eval book

theorem Seen.snoc {here : List (Event Tid R)} {book : (k : HotField) → k.Value} (seen : Seen es opening here book) :
    Seen (es++[e]) opening here book :=
  ⟨seen.1,seen.2.1.trans (List.prefix_append _ _),seen.2.2⟩

theorem Reading.frame {l : Local R} (reading : Reading es s.hot t l) (away : ∀ r, e ≠ .ret t r)
    (write : Write (cell es s.hot) (cell (es++[e]) s'.hot)) : Reading (es++[e]) s'.hot t l := by
  cases l with
  | idle => trivial
  | before func =>
    obtain ⟨opening,called⟩ := reading
    exact ⟨opening,called.snoc away⟩
  | reading func versionBefore rest =>
    obtain ⟨opening,called,here,book,seen,word,sound,left⟩ := reading
    refine ⟨opening,called.snoc away,here,book,seen.snoc,word,sound.write seen.2.2.1 write,fun same => left ?_⟩
    have begun : bumps here ≤ bumps es := sound.1
    rw [bumps_snoc] at same
    omega
  | returning r =>
    obtain ⟨func,opening,called,here,book,seen,result⟩ := reading
    exact ⟨func,opening,called.snoc away,here,book,seen.snoc,result⟩

theorem Reading.turn {l l' : Local R} (path : Runs Step State.initial es s) (few : bumps es < 2^64)
    (reading : Reading es s.hot t l) (moved : turn s.hot l = some l') : Reading (es++[.turn t]) s.hot t l' := by
  have word := runs_version path
  have away : ∀ r, Event.turn (R := R) t ≠ .ret t r := by simp
  have still : cell (es++[.turn t]) s.hot = cell es s.hot := by simp [cell,bumps_snoc,Event.bumped]
  cases l with
  | idle | returning => cases moved
  | before func =>
    obtain ⟨opening,called⟩ := reading
    cases moved
    split
    · rename_i even
      rw [word,even_word] at even
      refine ⟨opening,called.snoc away,es,s.hot.fields,⟨called.begins,List.prefix_append _ _,even,book_current path even⟩,word,?_,
        fun _ => rfl⟩
      rw [still]
      exact Sound.opened (cell es s.hot)
    · exact ⟨opening,called.snoc away⟩
  | reading func versionBefore rest =>
    obtain ⟨opening,called,here,book,seen,before,sound,left⟩ := reading
    cases rest with
    | read k next =>
      cases moved
      refine ⟨opening,called.snoc away,here,book,seen.snoc,before,still ▸ sound,fun same => ?_⟩
      have same' : bumps es = bumps here := by simpa [bumps_snoc,Event.bumped] using same
      rw [← left same',show s.hot.fields = book from (sound.2 same').1]
      rfl
    | done r =>
      cases moved
      split
      · rename_i equal
        have same := sound.same_word (c := cell es s.hot) (show bumps es < _ by omega) (before ▸ equal ▸ word)
        exact ⟨func,opening,called.snoc away,here,book,seen.snoc,left same⟩
      · exact ⟨opening,called.snoc away⟩

theorem runs_reading (path : Runs Step State.initial es s) (few : bumps es < 2^64) (t : Tid) :
    Reading es s.hot t (s.threads t) := by
  induction path with
  | nil => trivial
  | @step earlier middle event after prior step ih =>
    have before : bumps earlier < 2^64 := by rw [bumps_snoc] at few; omega
    have reading := ih before
    have write := step.write (runs_version prior)
    cases step with
    | bump | store => exact reading.frame (by simp) write
    | @call u func free =>
      by_cases mine : t = u
      · subst mine
        rw [move_self]
        exact ⟨_,Called.opened earlier t func⟩
      · rw [move_other _ _ mine]
        exact reading.frame (by simp) write
    | @turn u l moved =>
      by_cases mine : t = u
      · subst mine
        rw [move_self,move_hot]
        exact reading.turn prior before moved
      · rw [move_other _ _ mine]
        exact reading.frame (by simp) write
    | @ret u r at_ =>
      by_cases mine : t = u
      · subst mine
        rw [move_self]
        trivial
      · rw [move_other _ _ mine]
        exact reading.frame (by simp [Ne.symm mine]) write

end Readers

theorem returns_book {Tid R : Type} [DecidableEq Tid] {es : List (Event Tid R)} {s : State Tid R}
    (path : Runs Step State.initial es s) (few : bumps es < 2^64) :
    ∀ earlier t r later, es = earlier++.ret t r::later →
      ∃ func opening, Called earlier opening t func ∧
        ∃ here book, opening <+: here ∧ here <+: earlier ∧ Book here book ∧ r = func.eval book := by
  rintro earlier t r later rfl
  obtain ⟨here,next,front,step,_⟩ := path.split_at
  have before : bumps earlier < 2^64 := by
    simp only [bumps,List.countP_append] at few ⊢
    omega
  have reading := runs_reading front before t
  cases step with
  | ret at_ =>
    rw [at_] at reading
    obtain ⟨func,opening,called,here,book,⟨since,upto,_,held⟩,result⟩ := reading
    exact ⟨func,opening,called,here,book,since,upto,held,result⟩

def bestBid : Func (Option (Decimal × Decimal)) :=
  .read .bidCount fun (count : UInt8) => if count = 0 then .done none else
    .read (.bidPrices 0) fun price => .read (.bidQuantities 0) fun quantity => .done (some (price,quantity))

def units (n : Fin 100) : Decimal := ⟨n,by omega,by omega⟩

-- Two updates; the second begins between the reader's two fields.
def overtaken : List (Choice Unit (Option (Decimal × Decimal))) := List.flatten [
  [.bump,.store .bidCount (1 : UInt8),.store (.bidPrices 0) (units 7),.store (.bidQuantities 0) (units 3),.bump],
  [.call () bestBid,.own (),.own (),.own ()],
  [.bump,.store (.bidQuantities 0) (units 5),.own (),.own (),.own (),.store (.bidPrices 0) (units 8),.bump],
  List.replicate 6 (.own ())]

def Event.result : Event Tid R → Option R
  | .ret _ r => some r
  | _ => none

theorem returns_book_overtaken :
    ∃ follows : (play advance State.initial overtaken).isSome,
      let run := (play advance State.initial overtaken).get follows
      run.1.filterMap Event.result = [some (units 8,units 5)] ∧ ∀ earlier t r later, run.1 = earlier++.ret t r::later →
        ∃ func opening, Called earlier opening t func ∧
          ∃ here book, opening <+: here ∧ here <+: earlier ∧ Book here book ∧ r = func.eval book :=
  ⟨by decide +kernel,by decide +kernel,returns_book (play_get advance_sound (by decide +kernel)) (by decide +kernel)⟩

end Chronos.OrderBookV2
