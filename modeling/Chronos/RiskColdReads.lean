import Chronos.RiskWriter
import Mathlib.Data.Fintype.Basic

namespace Chronos.RiskEngine
open Seqlock

variable {Tid F : Type} [Double F]

def wholeCold (p : RiskParameters F) : (f : ColdField) → f.Value F
  | .params k => p k
  | .hot l => buildHot p l

def coldSets (cold₀ : ColdParams F) (es : List (Event Tid F)) : List ((f : ColdField) → f.Value F) :=
  cold₀.get::(updates es).map wholeCold

def Event.writes : Event Tid F → Option (Fin 2)
  | .turn _ (.writer (.fill _ i (_::_))) | .turn _ (.writer (.build _ i (_::_)))
  | .turn _ (.writer (.back _ i (_::_))) => some i
  | _ => none

def Local.holds : Local F → Option (Fin 2)
  | .cold (.copy i (_::_) _) => some i
  | _ => none

def Unheld (s : State Tid F) (e : Event Tid F) : Prop := ∀ i ∈ e.writes, ∀ u, (s.threads u).holds ≠ some i

instance [Fintype Tid] (s : State Tid F) (e : Event Tid F) : Decidable (Unheld s e) :=
  inferInstanceAs (Decidable (∀ i ∈ e.writes, ∀ u, (s.threads u).holds ≠ some i))

variable {hot₀ : HotParams} {cold₀ : ColdParams F} {es : List (Event Tid F)} {e : Event Tid F}

theorem Served.mem {s : Shared F} (served : Served cold₀ es s) : (s.cold s.active).get ∈ coldSets cold₀ es := by
  rcases served with first | ⟨p,member,params,hot⟩
  · rw [first]; exact List.mem_cons_self ..
  · refine List.mem_cons_of_mem _ (List.mem_map.mpr ⟨p,member,?_⟩)
    funext f
    cases f with
    | params k => exact (congrFun params k).symm
    | hot l => exact (congrFun hot l).symm

theorem coldSets_mem {set : (f : ColdField) → f.Value F} (member : set ∈ coldSets cold₀ es) :
    set ∈ coldSets cold₀ (es++[e]) := by
  rw [coldSets,updates_snoc,List.map_append,← List.cons_append]
  exact List.mem_append_left _ member

theorem writerTurn_get (s : Shared F) (x : Writer F) (t : Tid) {i : Fin 2}
    (unwritten : (Event.turn t (.writer x)).writes ≠ some i) :
    ((writerTurn s x).1.cold i).get = (s.cold i).get := by
  have other : ∀ j : Fin 2, some j ≠ some i → i ≠ j := fun j different same => different (by rw [same])
  cases x with
  | fill p j rest =>
    cases rest with
    | nil => rfl
    | cons k rest => exact congrArg _ (Shared.setParam_other s k _ (other j unwritten))
  | build p j rest =>
    cases rest with
    | nil => rfl
    | cons l rest => exact congrArg _ (Shared.setColdHot_other s l _ (other j unwritten))
  | back p j rest =>
    cases rest with
    | nil => rfl
    | cons l rest => exact congrArg _ (Shared.setColdHot_other s l _ (other j unwritten))
  | copy p j rest => cases rest <;> rfl
  | darkStore p j v => exact Shared.setColdVersion_get s j i (v+1)
  | openLoad | openStore | closeStore | swapLoad | swapStore | flipLoad | flipStore | backLoad => rfl

section Steps
variable [DecidableEq Tid] {w : Tid} {s s' : State Tid F}

def UnheldStep (s : State Tid F) (e : Event Tid F) (s' : State Tid F) : Prop := Step s e s' ∧ Unheld s e

-- What a reader of a buffer knows: as long as it has fields to copy the buffer
-- is one set, and so is all it has copied.
def Holding (cold₀ : ColdParams F) (es : List (Event Tid F)) (s : Shared F) : Local F → Prop
  | .cold (.copy i rest got) => ∃ set ∈ coldSets cold₀ es, (rest ≠ [] → (s.cold i).get = set) ∧ PartOf set got
  | _ => True

omit [DecidableEq Tid] in
theorem Holding.frame {l : Local F} (holding : Holding cold₀ es s.shared l)
    (kept : ∀ i, l.holds = some i → (s'.shared.cold i).get = (s.shared.cold i).get) :
    Holding cold₀ (es++[e]) s'.shared l := by
  cases l with
  | idle | writer | hot => trivial
  | cold r =>
    cases r with
    | load => trivial
    | copy i rest got =>
      obtain ⟨set,member,held,part⟩ := holding
      refine ⟨set,coldSets_mem member,fun more => ?_,part⟩
      cases rest with
      | nil => exact absurd rfl more
      | cons f rest => exact (kept i rfl).trans (held more)

omit [DecidableEq Tid] in
theorem coldTurn_holding {r : ColdReader F} {shared : Shared F} (served : Served cold₀ es shared)
    (holding : Holding cold₀ es shared (.cold r)) : Holding cold₀ (es++[e]) shared (coldTurn shared r) := by
  cases r with
  | load order => exact ⟨_,coldSets_mem served.mem,fun _ => rfl,by simp [PartOf]⟩
  | copy i rest got =>
    obtain ⟨set,member,held,part⟩ := holding
    cases rest with
    | nil => trivial
    | cons f rest =>
      obtain rfl := held (by simp)
      exact ⟨_,coldSets_mem member,fun _ => rfl,part.snoc f⟩

theorem cold_kept {u : Tid} {i : Fin 2} (step : Step s e s') (unheld : Unheld s e)
    (held : (s.threads u).holds = some i) : (s'.shared.cold i).get = (s.shared.cold i).get := by
  cases step with
  | call => rfl
  | @turn t l shared l' at_ moved =>
    cases l with
    | idle => cases moved
    | hot | cold => cases moved; rfl
    | writer x =>
      rw [move_shared,← (writer_moved moved).1]
      exact writerTurn_get s.shared x t fun written => unheld i written u held

def Kept (w : Tid) (hot₀ : HotParams) (cold₀ : ColdParams F) (es : List (Event Tid F)) (s : State Tid F) : Prop :=
  Sole w hot₀ cold₀ es s ∧ ∀ u, Holding cold₀ es s.shared (s.threads u)

theorem Kept.step (one : OneWriter w (es++[e])) (kept : Kept w hot₀ cold₀ es s) (step : UnheldStep s e s') :
    Kept w hot₀ cold₀ (es++[e]) s' := by
  obtain ⟨sole,holding⟩ := kept
  obtain ⟨step,unheld⟩ := step
  refine ⟨sole.step one.last step,fun u => ?_⟩
  have frame := (holding u).frame (e:=e) fun i => cold_kept (i:=i) step unheld
  cases step with
  | @call t op free =>
    by_cases mine : u = t
    · subst u
      rw [move_self]
      cases op <;> trivial
    · rwa [move_other _ _ _ mine]
  | @turn t l shared l' at_ moved =>
    by_cases mine : u = t
    · subst u
      have held := holding t
      rw [at_] at held
      rw [move_self,move_shared]
      cases l with
      | idle => cases moved
      | writer x =>
        rw [← (writer_moved moved).2]
        rcases writerTurn_place s.shared x with none | ⟨x',more⟩
        · rw [none]; trivial
        · rw [more]; trivial
      | hot r =>
        cases moved
        rcases hotTurn_place s.shared r with none | ⟨r',more⟩
        · rw [none]; trivial
        · rw [more]; trivial
      | cold r =>
        cases moved
        exact coldTurn_holding sole.served held
    · rwa [move_other _ _ _ mine]

theorem runs_kept {cold : Fin 2 → ColdParams F} (path : Runs UnheldStep (initial hot₀ cold) es s) (one : OneWriter w es) :
    Kept w hot₀ (cold 0) es s :=
  path.preserves_admissible (Kept w hot₀ (cold 0)) (OneWriter w) (fun _ _ => OneWriter.front)
    (fun _ _ _ _ one kept step => kept.step one step) ⟨initial_sole w hot₀ cold,fun _ => trivial⟩ one

end Steps

def Local.copied : Local F → Option (List (ColdRead F))
  | .cold (.copy _ _ got) => some got
  | _ => none

theorem buffers_whole {Tid F : Type} [Double F] [DecidableEq Tid] {w : Tid} {hot₀ : HotParams}
    {cold : Fin 2 → ColdParams F} {es : List (Event Tid F)} {s : State Tid F}
    (path : Runs UnheldStep (initial hot₀ cold) es s) (one : OneWriter w es) :
    ∀ t, ∀ got ∈ (s.threads t).copied, ∃ set ∈ coldSets (cold 0) es, PartOf set got := by
  intro t got copied
  have holding := (runs_kept path one).2 t
  cases l : s.threads t with
  | idle | writer | hot => rw [l] at copied; cases copied
  | cold r =>
    rw [l] at copied holding
    cases r with
    | load => cases copied
    | copy i rest got' =>
      cases copied
      obtain ⟨set,member,_,part⟩ := holding
      exact ⟨set,member,part⟩

def advanceUnheld [Fintype Tid] [DecidableEq Tid] (s : State Tid F) (choice : Tid × Option (Call F)) :
    Option (Event Tid F × State Tid F) := (advance s choice).filter fun (e,_) => Unheld s e

theorem advanceUnheld_sound [Fintype Tid] [DecidableEq Tid] (s : State Tid F) (choice : Tid × Option (Call F))
    (e : Event Tid F) (s' : State Tid F) (checked : advanceUnheld s choice = some (e,s')) : UnheldStep s e s' := by
  obtain ⟨moved,unheld⟩ := Option.filter_eq_some_iff.mp checked
  exact ⟨advance_sound s choice e s' moved,by simpa using unheld⟩

def doneBefore : List (Bool × Option (Call Rat)) :=
  [(true,some (.update fives)),(false,some (.readCold [.params .maxOrderValue,.hot .maxOrderValue])),(false,none),
   (true,none),(false,none),(true,none),(false,none)]++List.replicate 31 (true,none)

theorem buffers_whole_doneBefore :
    ∃ follows : (play advanceUnheld (initial zeros buffers) doneBefore).isSome,
      let run := (play advanceUnheld (initial zeros buffers) doneBefore).get follows
      ∀ t, ∀ got ∈ (run.2.threads t).copied, ∃ set ∈ coldSets (buffers 0) run.1, PartOf set got :=
  ⟨by decide +kernel,buffers_whole (w := true) (play_get advanceUnheld_sound (by decide +kernel)) (by decide +kernel)⟩

-- A whole update fits between two reads: the swap leaves the old limits in
-- buffer 0 for the reader, and the copy after it puts the new ones there.
def overtaken : List (Bool × Option (Call Rat)) :=
  [(false,some (.readCold [.hot .maxOrderValue,.hot .maxPositionValue])),(false,none),(false,none),
   (true,some (.update fives))]++List.replicate 33 (true,none)++[(false,none)]

theorem overtaken_torn :
    ∃ follows : (play advance (initial zeros buffers) overtaken).isSome,
      let run := (play advance (initial zeros buffers) overtaken).get follows
      Runs Step (initial zeros buffers) run.1 run.2 ∧ OneWriter true run.1 ∧
        ∃ got ∈ (run.2.threads false).copied, ¬ ∃ set ∈ coldSets (buffers 0) run.1, PartOf set got :=
  ⟨by decide +kernel,play_get advance_sound _,by decide +kernel,by decide +kernel⟩

end Chronos.RiskEngine
