import Chronos.OrderBook

namespace Chronos.OrderBookV2
open Seqlock

variable {Tid R : Type}

def Func.reads (fields : (k : HotField) → k.Value) : Func R → Nat
  | .done _ => 0
  | .read k next => (next (fields k)).reads fields+1

def Local.func? : Local R → Option (Func R)
  | .before func | .reading func _ _ => some func
  | .idle | .returning _ => none

def Local.ahead (fields : (k : HotField) → k.Value) : Local R → Nat
  | .reading _ _ rest => rest.reads fields+1
  | _ => 0

-- A reader while nobody writes: what it has read under the present version is
-- current, and nothing is validated under an odd one.
def Alone (hot : HotData) (func : Func R) : Local R → Prop
  | .idle => False
  | .before f => f = func
  | .reading f versionBefore rest => f = func ∧
      (versionBefore = hot.version → hot.version &&& 1 = 0 ∧ rest.eval hot.fields = func.eval hot.fields)
  | .returning r => hot.version &&& 1 = 0 ∧ r = func.eval hot.fields

theorem Alone.turn {hot : HotData} {func : Func R} {l l' : Local R} (alone : Alone hot func l) (moved : turn hot l = some l') :
    Alone hot func l' := by
  cases l with
  | idle | returning => cases moved
  | before f =>
    cases moved
    split
    · rename_i even
      exact ⟨alone,fun _ => ⟨even,by rw [show f = func from alone]⟩⟩
    · exact alone
  | reading f versionBefore rest =>
    obtain ⟨same,current⟩ := alone
    cases rest with
    | read k next =>
      cases moved
      exact ⟨same,current⟩
    | done r =>
      cases moved
      split
      · rename_i valid
        exact current valid
      · exact same

section Alone
variable [DecidableEq Tid] {s s' : State Tid R} {t : Tid} {func : Func R} {n : Nat} {es : List (Event Tid R)}

theorem alone_runs (path : Runs Step s (List.replicate n (.turn t)) s') (alone : Alone s.hot func (s.threads t)) :
    s'.hot = s.hot ∧ Alone s'.hot func (s'.threads t) := by
  induction n generalizing s' with
  | zero =>
    rw [path.nil_inv]
    exact ⟨rfl,alone⟩
  | succ n ih =>
    rw [List.replicate_succ'] at path
    obtain ⟨middle,front,last⟩ := path.snoc_inv
    obtain ⟨same,held⟩ := ih front
    cases last with
    | turn moved =>
      rw [move_hot,move_self]
      exact ⟨same,held.turn moved⟩

theorem read_out {versionBefore : BitVec 64} {rest : Func R} (at_ : s.threads t = .reading func versionBefore rest) :
    ∃ s', Runs Step s (List.replicate (rest.reads s.hot.fields) (.turn t)) s' ∧ s'.hot = s.hot ∧
      s'.threads t = .reading func versionBefore (.done (rest.eval s.hot.fields)) := by
  induction rest generalizing s with
  | done r => exact ⟨s,.nil,rfl,at_⟩
  | read k next ih =>
    have step : Step s (.turn t) (s.move t (.reading func versionBefore (next (s.hot.fields k)))) := .turn (by rw [at_]; rfl)
    obtain ⟨s',path,same,last⟩ := ih (s.hot.fields k) (s:=s.move t _) (move_self s t _)
    exact ⟨s',by rw [Func.reads,List.replicate_succ]; exact .cons step path,same,last⟩

theorem attempt_ends {versionBefore : BitVec 64} {rest : Func R} (at_ : s.threads t = .reading func versionBefore rest) :
    ∃ s', Runs Step s (List.replicate (rest.reads s.hot.fields+1) (.turn t)) s' ∧ s'.hot = s.hot ∧
      s'.threads t = if versionBefore = s.hot.version then .returning (rest.eval s.hot.fields) else .before func := by
  obtain ⟨middle,path,same,last⟩ := read_out at_
  let next : Local R := if versionBefore = middle.hot.version then .returning (rest.eval s.hot.fields) else .before func
  have step : Step middle (.turn t) (middle.move t next) := .turn (by rw [last]; rfl)
  refine ⟨middle.move t next,by rw [List.replicate_succ']; exact path.step step,same,?_⟩
  rw [move_self]
  simp only [next,same]

theorem attempt_returns (at_ : s.threads t = .before func) (even : s.hot.version &&& 1 = 0) :
    ∃ s', Runs Step s (List.replicate (func.reads s.hot.fields+2) (.turn t)) s' ∧ s'.threads t = .returning (func.eval s.hot.fields) := by
  have step : Step s (.turn t) (s.move t (.reading func s.hot.version func)) := .turn (by rw [at_]; exact congrArg some (if_pos even))
  obtain ⟨s',path,_,last⟩ := attempt_ends (s:=s.move t _) (move_self s t _)
  rw [move_hot,if_pos rfl] at last
  exact ⟨s',by rw [List.replicate_succ]; exact .cons step path,last⟩

theorem alone_returns (at_ : (s.threads t).func? = some func) (alone : Alone s.hot func (s.threads t)) (even : s.hot.version &&& 1 = 0) :
    ∃ n s', n ≤ (s.threads t).ahead s.hot.fields+func.reads s.hot.fields+2 ∧ Runs Step s (List.replicate n (.turn t)) s' ∧
      s'.threads t = .returning (func.eval s.hot.fields) := by
  cases here : s.threads t with
  | idle | returning => rw [here] at at_; cases at_
  | before f =>
    rw [here] at at_
    obtain rfl := Option.some.inj at_
    obtain ⟨s',path,last⟩ := attempt_returns here even
    exact ⟨_,s',by omega,path,last⟩
  | reading f versionBefore rest =>
    rw [here] at at_ alone
    obtain rfl := Option.some.inj at_
    obtain ⟨middle,path,same,last⟩ := attempt_ends here
    by_cases valid : versionBefore = s.hot.version
    · rw [if_pos valid,(alone.2 valid).2] at last
      exact ⟨_,middle,by simp only [Local.ahead]; omega,path,last⟩
    · rw [if_neg valid] at last
      obtain ⟨s',more,result⟩ := attempt_returns last (by rwa [same])
      rw [same] at more result
      refine ⟨_,s',?_,by rw [List.replicate_add]; exact path.append more,result⟩
      simp only [Local.ahead]
      omega

structure ReadsAlone (s : State Tid R) (t : Tid) (func : Func R) : Prop where
  returns : (∃ n s' r, Runs Step s (List.replicate n (.turn t)) s' ∧ s'.threads t = .returning r) ↔ s.hot.version &&& 1 = 0
  current : ∀ n s' r, Runs Step s (List.replicate n (.turn t)) s' → s'.threads t = .returning r → r = func.eval s.hot.fields
  soon : s.hot.version &&& 1 = 0 → ∃ n s' r, n ≤ (s.threads t).ahead s.hot.fields+func.reads s.hot.fields+2 ∧
    Runs Step s (List.replicate n (.turn t)) s' ∧ s'.threads t = .returning r

end Alone

theorem runs_alone {Tid R : Type} [DecidableEq Tid] {es : List (Event Tid R)} {s : State Tid R} {t : Tid} {func : Func R}
    (path : Runs Step State.initial es s) (few : bumps es < 2^64) (at_ : (s.threads t).func? = some func) :
    Alone s.hot func (s.threads t) := by
  have reading := runs_reading path few t
  have word := runs_version path
  cases here : s.threads t with
  | idle | returning => rw [here] at at_; cases at_
  | before f =>
    rw [here] at at_
    exact Option.some.inj at_
  | reading f versionBefore rest =>
    rw [here] at at_ reading
    obtain rfl := Option.some.inj at_
    obtain ⟨opening,_,earlier,book,⟨_,_,even,_⟩,before,sound,left⟩ := reading
    refine ⟨rfl,fun valid => ?_⟩
    have same : bumps es = bumps earlier := sound.same_word (c := cell es s.hot) (show bumps es < _ by omega) (before ▸ valid ▸ word)
    refine ⟨?_,?_⟩
    · rw [word,even_word,same]
      exact even
    · rw [show s.hot.fields = book from (sound.2 same).1]
      exact left same

-- It returns the current book, after one attempt of its own at most, unless the
-- writer stands in the middle of an update; then it goes round until the writer is done.
theorem reads_alone {Tid R : Type} [DecidableEq Tid] {es : List (Event Tid R)} {s : State Tid R} {t : Tid} {func : Func R}
    (path : Runs Step State.initial es s) (few : bumps es < 2^64) (at_ : (s.threads t).func? = some func) : ReadsAlone s t func := by
  have alone := runs_alone path few at_
  have soon : s.hot.version &&& 1 = 0 → _ := alone_returns at_ alone
  refine ⟨⟨?_,fun even => ?_⟩,?_,fun even => ?_⟩
  · rintro ⟨n,s',r,path,result⟩
    obtain ⟨same,held⟩ := alone_runs path alone
    rw [result] at held
    exact same ▸ held.1
  · obtain ⟨n,s',_,path,result⟩ := soon even
    exact ⟨n,s',_,path,result⟩
  · intro n s' r path result
    obtain ⟨same,held⟩ := alone_runs path alone
    rw [result] at held
    exact same ▸ held.2
  · obtain ⟨n,s',bound,path,result⟩ := soon even
    exact ⟨n,s',_,bound,path,result⟩

def passedBy : List (Choice Unit (Option (Decimal × Decimal))) := [.call () bestBid,.own ()]++overtaken.take 5++[.own ()]

theorem reads_alone_passedBy :
    ∃ follows : (play advance State.initial passedBy).isSome,
      ReadsAlone ((play advance State.initial passedBy).get follows).2 () bestBid :=
  ⟨by decide +kernel,reads_alone (play_get advance_sound (by decide +kernel)) (by decide +kernel) rfl⟩

end Chronos.OrderBookV2
