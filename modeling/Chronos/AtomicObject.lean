import Chronos.Runs
import Mathlib.Data.List.ReduceOption

namespace Chronos.AtomicObject

inductive Visible (Tid Op Res : Type) where
  | call (t : Tid) (op : Op)
  | ret (t : Tid) (res : Res)
  deriving DecidableEq

-- A call that is `done` has taken effect and has not returned yet.
inductive Phase (Op Out : Type) where
  | idle
  | called (op : Op)
  | done (op : Op) (out : Out)

structure Object (Tid Op Out S : Type) where
  state : S
  phase : Tid → Phase Op Out

-- `rule` says with which outcomes an operation may take effect, and may look at
-- the calls in progress; `view` is the part of an outcome the caller is given.
structure Spec (Tid Op Out Res S : Type) where
  rule : Object Tid Op Out S → Op → Out → S → Prop
  view : Out → Res

variable {Tid Op Out Res S : Type} [DecidableEq Tid]

def Object.enter (o : Object Tid Op Out S) (t : Tid) (p : Phase Op Out) : Object Tid Op Out S :=
  {o with phase := Function.update o.phase t p}

def Object.start (s : S) : Object Tid Op Out S := ⟨s,fun _ => .idle⟩

-- Every call takes effect in one silent step of its own, somewhere between the
-- step that starts it and the step that returns.
inductive Step (spec : Spec Tid Op Out Res S) :
    Object Tid Op Out S → Option (Visible Tid Op Res) → Object Tid Op Out S → Prop where
  | call (free : o.phase t = .idle) : Step spec o (some (.call t op)) (o.enter t (.called op))
  | effect (pending : o.phase t = .called op) (allowed : spec.rule o op out s) :
      Step spec o none (Object.enter {o with state := s} t (.done op out))
  | ret (settled : o.phase t = .done op out) :
      Step spec o (some (.ret t (spec.view out))) (o.enter t .idle)

def Accepts (spec : Spec Tid Op Out Res S) (o : Object Tid Op Out S)
    (history : List (Visible Tid Op Res)) (o' : Object Tid Op Out S) : Prop :=
  ∃ labels, Runs (Step spec) o labels o' ∧ labels.reduceOption = history

-- Linearizable: effects can be placed inside the calls so that the object,
-- stepping atomically, answers exactly as recorded.
def Linearizable (spec : Spec Tid Op Out Res S) (s : S) (history : List (Visible Tid Op Res)) : Prop :=
  ∃ o, Accepts spec (.start s) history o

variable {spec : Spec Tid Op Out Res S}

@[simp] theorem enter_state (o : Object Tid Op Out S) (t : Tid) (p : Phase Op Out) :
    (o.enter t p).state = o.state := rfl

@[simp] theorem enter_phase_self (o : Object Tid Op Out S) (t : Tid) (p : Phase Op Out) :
    (o.enter t p).phase t = p := by simp [Object.enter]

theorem enter_phase_other (o : Object Tid Op Out S) {t u : Tid} (p : Phase Op Out) (other : u ≠ t) :
    (o.enter t p).phase u = o.phase u := by simp [Object.enter,other]

theorem Step.call_inv (taken : Step spec o (some (.call t op)) o') :
    o.phase t = .idle ∧ o' = o.enter t (.called op) := by
  cases taken with
  | call free => exact ⟨free,rfl⟩

theorem Step.ret_inv (taken : Step spec o (some (.ret t res)) o') :
    ∃ op out, o.phase t = .done op out ∧ spec.view out = res ∧ o' = o.enter t .idle := by
  generalize shape : some (Visible.ret t res) = label at taken
  cases taken with
  | call => simp at shape
  | effect => simp at shape
  | ret settled =>
    simp only [Option.some.injEq,Visible.ret.injEq] at shape
    obtain ⟨rfl,rfl⟩ := shape
    exact ⟨_,_,settled,rfl,rfl⟩

namespace Accepts

theorem refl (o : Object Tid Op Out S) : Accepts spec o [] o := ⟨[],.nil,rfl⟩

theorem trans (front : Accepts spec o h o') (back : Accepts spec o' h' o'') :
    Accepts spec o (h++h') o'' := by
  obtain ⟨labels,path,rfl⟩ := front
  obtain ⟨later,tail,rfl⟩ := back
  exact ⟨labels++later,path.append tail,List.reduceOption_append _ _⟩

theorem one (taken : Step spec o label o') : Accepts spec o label.toList o' :=
  ⟨[label],.single taken,by cases label <;> rfl⟩

theorem cons_inv (accepted : Accepts spec o (v::h) o'') :
    ∃ a b, Accepts spec o [] a ∧ Step spec a (some v) b ∧ Accepts spec b h o'' := by
  obtain ⟨labels,path,shape⟩ := accepted
  obtain ⟨front,back,rfl,quiet,found⟩ :
      ∃ front back, labels = front++some v::back ∧ front.reduceOption = [] ∧ back.reduceOption = h := by
    clear path
    induction labels with
    | nil => simp at shape
    | cons label rest ih =>
      cases label with
      | none =>
        obtain ⟨front,back,rfl,quiet,found⟩ := ih shape
        exact ⟨none::front,back,rfl,quiet,found⟩
      | some w =>
        simp only [List.reduceOption_cons_of_some,List.cons.injEq] at shape
        obtain ⟨rfl,rest⟩ := shape
        exact ⟨[],_,rfl,rfl,rest⟩
  obtain ⟨a,b,quietPath,taken,last⟩ := path.split_at
  exact ⟨a,b,⟨front,quietPath,quiet⟩,taken,⟨back,last,found⟩⟩

theorem silent (keep : Object Tid Op Out S → Prop)
    (effects : ∀ o t op out s, keep o → o.phase t = .called op → spec.rule o op out s →
      keep (Object.enter {o with state := s} t (.done op out)))
    (start : keep o) (accepted : Accepts spec o [] o') : keep o' := by
  obtain ⟨labels,path,quiet⟩ := accepted
  induction path with
  | nil => exact start
  | step prior taken ih =>
    rw [List.reduceOption_append,List.append_eq_nil_iff] at quiet
    have before := ih quiet.1
    cases taken with
    | call => simp at quiet
    | ret => simp at quiet
    | effect pending allowed => exact effects _ _ _ _ _ before pending allowed

theorem next (keep : Object Tid Op Out S → Prop)
    (effects : ∀ o t op out s, keep o → o.phase t = .called op → spec.rule o op out s →
      keep (Object.enter {o with state := s} t (.done op out)))
    (start : keep o) (accepted : Accepts spec o (v::h) o'') :
    ∃ a b, keep a ∧ Step spec a (some v) b ∧ Accepts spec b h o'' := by
  obtain ⟨a,b,quiet,taken,rest⟩ := accepted.cons_inv
  exact ⟨a,b,silent keep effects start quiet,taken,rest⟩

end Accepts

-- Forward simulation: each step of the implementation is matched by moves of
-- the atomic object with the same visible part.
theorem simulation {σ ε : Type} {step : σ → ε → σ → Prop} {visible : ε → Option (Visible Tid Op Res)}
    (related : List ε → σ → Object Tid Op Out S → Prop) (admits : List ε → Prop)
    (prefixes : ∀ es e, admits (es++[e]) → admits es)
    (matched : ∀ es s e s' o, admits (es++[e]) → related es s o → step s e s' →
      ∃ o', Accepts spec o (visible e).toList o' ∧ related (es++[e]) s' o')
    {before after : σ} {events : List ε} (start : related [] before o)
    (path : Runs step before events after) (admitted : admits events) :
    ∃ o', Accepts spec o (events.filterMap visible) o' ∧ related events after o' := by
  induction path with
  | nil => exact ⟨o,.refl o,start⟩
  | step prior taken ih =>
    obtain ⟨middle,accepted,held⟩ := ih (prefixes _ _ admitted)
    obtain ⟨last,moved,result⟩ := matched _ _ _ _ _ admitted held taken
    refine ⟨last,?_,result⟩
    rw [filterMap_snoc]
    exact accepted.trans moved

end Chronos.AtomicObject
