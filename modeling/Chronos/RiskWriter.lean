import Chronos.RiskEngine
import Chronos.Seqlock

namespace Chronos.RiskEngine
open Seqlock

variable {Tid F : Type} [Double F]

theorem Limit.mem_all (l : Limit) : l ∈ Limit.all := by cases l <;> decide
theorem Param.mem_all (k : Param) : k ∈ Param.all := by cases k <;> decide

def Holds (cold : ColdParams F) (p : RiskParameters F) : Prop := cold.params = p ∧ cold.hot = buildHot p

-- How far the writer has got with the buffers. The dark buffer is the one that
-- is not active, except between the swap and the flip of the index.
def Dark (s : Shared F) : Writer F → Prop
  | .fill p dark rest => dark = s.writeIdx ∧ s.active ≠ s.writeIdx ∧ ∀ k ∉ rest, (s.cold dark).params k = p k
  | .build p dark rest => dark = s.writeIdx ∧ s.active ≠ s.writeIdx ∧ (s.cold dark).params = p ∧
      ∀ l ∉ rest, (s.cold dark).hot l = buildHot p l
  | .darkStore p dark _ | .openLoad p dark | .openStore p dark _ | .copy p dark _ =>
      dark = s.writeIdx ∧ s.active ≠ s.writeIdx ∧ Holds (s.cold dark) p
  | .closeStore p _ | .swapLoad p => s.active ≠ s.writeIdx ∧ Holds (s.cold s.writeIdx) p
  | .swapStore p i => i = s.writeIdx ∧ s.active ≠ s.writeIdx ∧ Holds (s.cold s.writeIdx) p
  | .flipLoad p => s.active = s.writeIdx ∧ Holds (s.cold s.active) p
  | .flipStore p i => i = s.writeIdx ∧ s.active = s.writeIdx ∧ Holds (s.cold s.active) p
  | .backLoad p => s.active ≠ s.writeIdx ∧ Holds (s.cold s.active) p
  | .back p next _ => next = s.writeIdx ∧ s.active ≠ s.writeIdx ∧ Holds (s.cold s.active) p

def DarkAt (s : Shared F) : Local F → Prop
  | .writer w => Dark s w
  | _ => s.active ≠ s.writeIdx

theorem flip_ne (i : Fin 2) : i ≠ if i = 0 then 1 else 0 := by revert i; decide

theorem copied_cons {α : Type} {V : α → Type} [DecidableEq α] {fields target : (a : α) → V a} {rest : List α} {a : α}
    (copied : ∀ b ∉ a::rest, fields b = target b) : ∀ b ∉ rest, Function.update fields a (target a) b = target b := by
  intro b left
  by_cases same : b = a
  · subst b; exact Function.update_self ..
  · rw [Function.update_of_ne same]
    exact copied b (by simp [same,left])

theorem writerTurn_dark {s : Shared F} {w : Writer F} (dark : Dark s w) :
    DarkAt (writerTurn s w).1 (writerTurn s w).2 := by
  cases w with
  | fill p i rest =>
    obtain ⟨rfl,apart,filled⟩ := dark
    cases rest with
    | nil => exact ⟨rfl,apart,funext fun k => filled k (by simp),fun l none => absurd (Limit.mem_all l) none⟩
    | cons k rest =>
      refine ⟨rfl,apart,?_⟩
      simp only [writerTurn,Shared.setParam,Shared.setCold,Function.update_self]
      exact copied_cons filled
  | build p i rest =>
    obtain ⟨rfl,apart,params,built⟩ := dark
    cases rest with
    | nil => exact ⟨rfl,apart,params,funext fun l => built l (by simp)⟩
    | cons l rest =>
      refine ⟨rfl,apart,?_,?_⟩
      · simpa [writerTurn,Shared.setColdHot,Shared.setCold] using params
      · simp only [writerTurn,Shared.setColdHot,Shared.setCold,Function.update_self,params]
        exact copied_cons built
  | darkStore p i v =>
    obtain ⟨rfl,apart,holds⟩ := dark
    refine ⟨rfl,apart,?_⟩
    simpa [writerTurn,Shared.setColdVersion,Shared.setCold,Holds] using holds
  | openLoad p i => exact dark
  | openStore p i v => exact dark
  | copy p i rest =>
    obtain ⟨rfl,apart,holds⟩ := dark
    cases rest with
    | nil => exact ⟨apart,holds⟩
    | cons l rest => exact ⟨rfl,apart,holds⟩
  | closeStore p v => exact dark
  | swapLoad p => exact ⟨rfl,dark⟩
  | swapStore p i =>
    obtain ⟨rfl,_,holds⟩ := dark
    exact ⟨rfl,holds⟩
  | flipLoad p => exact ⟨rfl,dark⟩
  | flipStore p i =>
    obtain ⟨rfl,same,holds⟩ := dark
    refine ⟨?_,holds⟩
    simp only [writerTurn,same]
    exact flip_ne _
  | backLoad p => exact ⟨rfl,dark⟩
  | back p i rest =>
    obtain ⟨rfl,apart,holds⟩ := dark
    cases rest with
    | nil => exact apart
    | cons l rest =>
      refine ⟨rfl,apart,?_⟩
      simpa [writerTurn,Shared.setColdHot,Shared.setCold,apart] using holds

def Event.updated : Event Tid F → Option (RiskParameters F)
  | .call _ (.update p) => some p
  | _ => none

def Event.bumped : Event Tid F → Bool
  | .turn _ (.writer (.openStore _ _ _)) | .turn _ (.writer (.closeStore _ _)) => true
  | _ => false

def updates (es : List (Event Tid F)) : List (RiskParameters F) := es.filterMap Event.updated
def sets (hot₀ : HotParams) (es : List (Event Tid F)) : List HotParams := hot₀::(updates es).map buildHot
def bumps (es : List (Event Tid F)) : Nat := es.countP Event.bumped

variable {hot₀ : HotParams} {cold₀ : ColdParams F} {es : List (Event Tid F)}

omit [Double F] in
theorem updates_snoc (es : List (Event Tid F)) (e : Event Tid F) :
    updates (es++[e]) = updates es++e.updated.toList := filterMap_snoc _ _ _

omit [Double F] in
theorem bumps_snoc (es : List (Event Tid F)) (e : Event Tid F) :
    bumps (es++[e]) = bumps es+if e.bumped then 1 else 0 := by
  simp only [bumps,List.countP_append,List.countP_singleton]

omit [Double F] in
theorem bumps_le_append (es more : List (Event Tid F)) : bumps es ≤ bumps (es++more) := by
  simp only [bumps,List.countP_append]
  exact Nat.le_add_right _ _

theorem sets_grown {k : Nat} {set : HotParams} {e : Event Tid F} (found : (sets hot₀ es)[k]? = some set) :
    (sets hot₀ (es++[e]))[k]? = some set := by
  have bound := (List.getElem?_eq_some_iff.mp found).1
  rw [sets,updates_snoc,List.map_append,← List.cons_append]
  exact (List.getElem?_append_left bound).trans found

theorem sets_last {p : RiskParameters F} (last : (updates es).getLast? = some p) :
    (sets hot₀ es)[(updates es).length]? = some (buildHot p) := by
  obtain ⟨front,shape⟩ := List.getLast?_eq_some_iff.mp last
  simp [sets,shape]

-- The limits in force while no update has reached hot_params_, and the ones an
-- update p is about to replace. With n updates begun the version counts to 2n.
def Quiet (hot₀ : HotParams) (es : List (Event Tid F)) (s : Shared F) : Prop :=
  bumps es = 2*(updates es).length ∧ (sets hot₀ es)[(updates es).length]? = some s.hot

def Before (hot₀ : HotParams) (es : List (Event Tid F)) (s : Shared F) (p : RiskParameters F) : Prop :=
  (updates es).getLast? = some p ∧ bumps es+2 = 2*(updates es).length ∧
    (sets hot₀ es)[(updates es).length-1]? = some s.hot

def During (es : List (Event Tid F)) (p : RiskParameters F) : Prop :=
  (updates es).getLast? = some p ∧ bumps es+1 = 2*(updates es).length

def Stage (hot₀ : HotParams) (es : List (Event Tid F)) (s : Shared F) : Writer F → Prop
  | .fill p _ _ | .build p _ _ | .darkStore p _ _ | .openLoad p _ => Before hot₀ es s p
  | .openStore p _ v => Before hot₀ es s p ∧ v = s.version
  | .copy p _ rest => During es p ∧ rest <:+ Limit.all ∧ (∀ l ∉ rest, s.hot l = buildHot p l) ∧
      (rest = Limit.all → (sets hot₀ es)[(updates es).length-1]? = some s.hot)
  | .closeStore p v => During es p ∧ s.hot = buildHot p ∧ v = s.version
  | .swapLoad p | .swapStore p _ | .flipLoad p | .flipStore p _ | .backLoad p | .back p _ _ =>
      (updates es).getLast? = some p ∧ Quiet hot₀ es s

def StageAt (hot₀ : HotParams) (es : List (Event Tid F)) (s : Shared F) : Local F → Prop
  | .writer w => Stage hot₀ es s w
  | _ => Quiet hot₀ es s

theorem writerTurn_version {s : Shared F} {w : Writer F} {t : Tid} (stage : Stage hot₀ es s w)
    (word : s.version = BitVec.ofNat 64 (bumps es)) :
    (writerTurn s w).1.version = BitVec.ofNat 64 (bumps (es++[.turn t (.writer w)])) := by
  rw [bumps_snoc]
  cases w with
  | openStore p i v =>
    obtain ⟨_,rfl⟩ := stage
    simp [writerTurn,Event.bumped,word,BitVec.ofNat_add]
  | closeStore p v =>
    obtain ⟨_,_,rfl⟩ := stage
    simp [writerTurn,Event.bumped,word,BitVec.ofNat_add]
  | fill p i rest | build p i rest | copy p i rest | back p i rest =>
    cases rest <;> simpa [writerTurn,Event.bumped] using word
  | darkStore | openLoad | swapLoad | swapStore | flipLoad | flipStore | backLoad =>
    simpa [writerTurn,Event.bumped] using word

omit [Double F] in
theorem During.snoc {p : RiskParameters F} {e : Event Tid F} (during : During es p) (quiet : e.updated = none)
    (still : e.bumped = false) : During (es++[e]) p := by
  simpa [During,updates_snoc,bumps_snoc,quiet,still] using during

theorem Before.snoc {s : Shared F} {p : RiskParameters F} {e : Event Tid F} (before : Before hot₀ es s p)
    (quiet : e.updated = none) (still : e.bumped = false) : Before hot₀ (es++[e]) s p := by
  simpa [Before,sets,updates_snoc,bumps_snoc,quiet,still] using before

theorem Quiet.snoc {s : Shared F} {e : Event Tid F} (held : Quiet hot₀ es s)
    (quiet : e.updated = none) (still : e.bumped = false) : Quiet hot₀ (es++[e]) s := by
  simpa [Quiet,sets,updates_snoc,bumps_snoc,quiet,still] using held

theorem writerTurn_stage {s : Shared F} {w : Writer F} (t : Tid) (dark : Dark s w) (stage : Stage hot₀ es s w) :
    StageAt hot₀ (es++[.turn t (.writer w)]) (writerTurn s w).1 (writerTurn s w).2 := by
  cases w with
  | fill p i rest | build p i rest =>
    cases rest with
    | nil => exact Before.snoc stage rfl rfl
    | cons k rest => exact Before.snoc stage rfl rfl
  | darkStore p i v => exact Before.snoc stage rfl rfl
  | openLoad p i => exact ⟨Before.snoc stage rfl rfl,rfl⟩
  | openStore p i v =>
    obtain ⟨⟨last,count,old⟩,rfl⟩ := stage
    refine ⟨⟨by simpa [updates_snoc,Event.updated] using last,?_⟩,List.suffix_refl _,?_,?_⟩
    · simp only [updates_snoc,bumps_snoc,Event.updated,Event.bumped,Option.toList_none,List.append_nil,if_true]
      omega
    · intro l none; exact absurd (Limit.mem_all l) none
    · intro _
      simpa [sets,updates_snoc,Event.updated,writerTurn] using old
  | copy p i rest =>
    obtain ⟨during,suffix,copied,old⟩ := stage
    cases rest with
    | nil => exact ⟨during.snoc rfl rfl,funext fun l => copied l (by simp),rfl⟩
    | cons l rest =>
      obtain ⟨_,_,_,hot⟩ := dark
      refine ⟨during.snoc rfl rfl,(List.suffix_cons l rest).trans suffix,?_,fun whole => ?_⟩
      · simp only [writerTurn,Shared.setHot_hot,hot]
        exact copied_cons copied
      · subst whole
        have := suffix.length_le
        simp at this
  | closeStore p v =>
    obtain ⟨⟨last,count⟩,hot,rfl⟩ := stage
    refine ⟨by simpa [updates_snoc,Event.updated] using last,?_,?_⟩
    · simp only [updates_snoc,bumps_snoc,Event.updated,Event.bumped,Option.toList_none,List.append_nil,if_true]
      omega
    · simpa [sets,updates_snoc,Event.updated,writerTurn,hot] using sets_last last
  | swapLoad | swapStore | flipLoad | flipStore | backLoad =>
    exact ⟨by simpa [updates_snoc,Event.updated] using stage.1,stage.2.snoc rfl rfl⟩
  | back p i rest =>
    cases rest with
    | nil => exact stage.2.snoc rfl rfl
    | cons l rest => exact ⟨by simpa [updates_snoc,Event.updated] using stage.1,stage.2.snoc rfl rfl⟩

def Served (cold₀ : ColdParams F) (es : List (Event Tid F)) (s : Shared F) : Prop :=
  (s.cold s.active).get = cold₀.get ∨ ∃ p ∈ updates es, Holds (s.cold s.active) p

theorem served_keep {s s' : Shared F} {e : Event Tid F} (served : Served cold₀ es s)
    (kept : (s'.cold s'.active).get = (s.cold s.active).get) : Served cold₀ (es++[e]) s' := by
  rcases served with first | ⟨p,member,params,hot⟩
  · exact .inl (kept.trans first)
  · refine .inr ⟨p,?_,funext fun k => ?_,funext fun l => ?_⟩
    · rw [updates_snoc]; exact List.mem_append_left _ member
    · exact (congrFun kept (.params k)).trans (congrFun params k)
    · exact (congrFun kept (.hot l)).trans (congrFun hot l)

theorem writerTurn_served {s : Shared F} {w : Writer F} (t : Tid) (dark : Dark s w) (stage : Stage hot₀ es s w)
    (served : Served cold₀ es s) : Served cold₀ (es++[.turn t (.writer w)]) (writerTurn s w).1 := by
  cases w with
  | fill p i rest =>
    obtain ⟨rfl,apart,_⟩ := dark
    cases rest with
    | nil => exact served_keep served rfl
    | cons k rest => exact served_keep served (congrArg _ (Shared.setParam_other s k _ apart))
  | build p i rest =>
    obtain ⟨rfl,apart,_⟩ := dark
    cases rest with
    | nil => exact served_keep served rfl
    | cons l rest => exact served_keep served (congrArg _ (Shared.setColdHot_other s l _ apart))
  | darkStore p i v =>
    refine served_keep served ?_
    simp only [writerTurn,Shared.setColdVersion_active,Shared.setColdVersion_get]
  | copy p i rest => cases rest <;> exact served_keep served rfl
  | openLoad | openStore | closeStore | swapLoad | flipLoad | flipStore | backLoad => exact served_keep served rfl
  | swapStore p i =>
    obtain ⟨rfl,_,holds⟩ := dark
    refine .inr ⟨p,?_,holds⟩
    rw [updates_snoc]
    exact List.mem_append_left _ (List.mem_of_getLast? stage.1)
  | back p i rest =>
    obtain ⟨rfl,apart,_⟩ := dark
    cases rest with
    | nil => exact served_keep served rfl
    | cons l rest => exact served_keep served (congrArg _ (Shared.setColdHot_other s l _ apart))

def Event.updater : Event Tid F → Option Tid
  | .call t (.update _) => some t
  | _ => none

def OneWriter (w : Tid) (es : List (Event Tid F)) : Prop := ∀ e ∈ es, ∀ t ∈ e.updater, t = w

instance [DecidableEq Tid] (w : Tid) (es : List (Event Tid F)) : Decidable (OneWriter w es) :=
  inferInstanceAs (Decidable (∀ e ∈ es, ∀ t ∈ e.updater, t = w))

omit [Double F] in
theorem OneWriter.front {w : Tid} {more : List (Event Tid F)} (one : OneWriter w (es++more)) : OneWriter w es :=
  fun e member => one e (List.mem_append_left _ member)

omit [Double F] in
theorem OneWriter.last {w : Tid} {e : Event Tid F} (one : OneWriter w (es++[e])) : ∀ t ∈ e.updater, t = w :=
  one e (by simp)

def Local.reading : Local F → Prop
  | .writer _ => False
  | _ => True

def Local.updating : Local F → Bool
  | .writer _ => true
  | _ => false

omit [Double F] in
theorem reading_iff {l : Local F} : l.reading ↔ l.updating = false := by cases l <;> simp [Local.reading,Local.updating]

theorem writer_moved {s shared : Shared F} {x : Writer F} {l' : Local F}
    (moved : turn s (.writer x) = some (shared,l')) : (writerTurn s x).1 = shared ∧ (writerTurn s x).2 = l' :=
  Prod.mk.inj (Option.some.inj moved)

theorem writerTurn_place (s : Shared F) (x : Writer F) :
    (writerTurn s x).2 = .idle ∨ ∃ x', (writerTurn s x).2 = .writer x' := by
  cases x with
  | fill p i rest | build p i rest | copy p i rest => cases rest <;> exact .inr ⟨_,rfl⟩
  | back p i rest =>
    cases rest with
    | nil => exact .inl rfl
    | cons => exact .inr ⟨_,rfl⟩
  | darkStore | openLoad | openStore | closeStore | swapLoad | swapStore | flipLoad | flipStore | backLoad =>
    exact .inr ⟨_,rfl⟩

omit [Double F] in
theorem hotTurn_place (s : Shared F) (r : HotReader) : hotTurn s r = .idle ∨ ∃ r', hotTurn s r = .hot r' := by
  cases r with
  | first =>
    simp only [hotTurn]
    split <;> exact .inr ⟨_,rfl⟩
  | copy order retry v rest got =>
    cases rest with
    | cons => exact .inr ⟨_,rfl⟩
    | nil =>
      simp only [hotTurn]
      split <;> exact .inr ⟨_,rfl⟩
  | anyway order rest got =>
    cases rest with
    | nil => exact .inl rfl
    | cons => exact .inr ⟨_,rfl⟩
  | done => exact .inl rfl

omit [Double F] in
theorem coldTurn_place (s : Shared F) (r : ColdReader F) : coldTurn s r = .idle ∨ ∃ r', coldTurn s r = .cold r' := by
  cases r with
  | load => exact .inr ⟨_,rfl⟩
  | copy i rest got =>
    cases rest with
    | nil => exact .inl rfl
    | cons => exact .inr ⟨_,rfl⟩

omit [Double F] in
theorem turn_reading {s s' : Shared F} {l l' : Local F} [Double F] (reads : l.reading) (moved : turn s l = some (s',l')) :
    s' = s ∧ l'.reading := by
  cases l with
  | idle => cases moved
  | writer => cases reads
  | hot r =>
    cases moved
    refine ⟨rfl,?_⟩
    rcases hotTurn_place s r with none | ⟨r',more⟩
    · rw [none]; trivial
    · rw [more]; trivial
  | cold r =>
    cases moved
    refine ⟨rfl,?_⟩
    rcases coldTurn_place s r with none | ⟨r',more⟩
    · rw [none]; trivial
    · rw [more]; trivial

theorem darkAt_reading {s : Shared F} {l : Local F} (reads : l.reading) : DarkAt s l ↔ s.active ≠ s.writeIdx := by
  cases l <;> first | rfl | cases reads

theorem stageAt_reading {s : Shared F} {l : Local F} (reads : l.reading) : StageAt hot₀ es s l ↔ Quiet hot₀ es s := by
  cases l <;> first | rfl | cases reads

structure Sole [DecidableEq Tid] (w : Tid) (hot₀ : HotParams) (cold₀ : ColdParams F) (es : List (Event Tid F)) (s : State Tid F) : Prop where
  lone : ∀ t, t ≠ w → (s.threads t).reading
  dark : DarkAt s.shared (s.threads w)
  stage : StageAt hot₀ es s.shared (s.threads w)
  version : s.shared.version = BitVec.ofNat 64 (bumps es)
  served : Served cold₀ es s.shared

section Steps
variable [DecidableEq Tid] {w : Tid} {s s' : State Tid F} {e : Event Tid F}

omit [Double F] in
theorem others_move {t u : Tid} {shared : Shared F} {l : Local F} (lone : ∀ t, t ≠ w → (s.threads t).reading)
    (mine : t ≠ w → l.reading) (other : u ≠ w) : ((s.move t shared l).threads u).reading := by
  by_cases same : u = t
  · subst u; rw [move_self]; exact mine other
  · rw [move_other _ _ _ same]; exact lone u other

omit [DecidableEq Tid] in
theorem stageAt_snoc {shared : Shared F} {l : Local F} (stage : StageAt hot₀ es shared l) (quiet : e.updated = none)
    (still : e.bumped = false) : StageAt hot₀ (es++[e]) shared l := by
  have same : updates (es++[e]) = updates es := by simp [updates_snoc,quiet]
  have count : bumps (es++[e]) = bumps es := by simp [bumps_snoc,still]
  cases l with
  | idle | hot | cold => exact Quiet.snoc stage quiet still
  | writer x =>
    cases x <;>
      simpa only [StageAt,Stage,Quiet,Before,During,sets,same,count] using stage

theorem Sole.calm (sole : Sole w hot₀ cold₀ es s) (quiet : e.updated = none) (still : e.bumped = false)
    (shared : s'.shared = s.shared) (lone : ∀ t, t ≠ w → (s'.threads t).reading)
    (place : s'.threads w = s.threads w ∨ (s.threads w).reading ∧ (s'.threads w).reading) :
    Sole w hot₀ cold₀ (es++[e]) s' := by
  have version : s'.shared.version = BitVec.ofNat 64 (bumps (es++[e])) := by
    rw [shared,sole.version,bumps_snoc,still]; rfl
  have served : Served cold₀ (es++[e]) s'.shared := served_keep sole.served (by rw [shared])
  have stage := stageAt_snoc sole.stage quiet still
  rcases place with same | ⟨before,after⟩
  · exact ⟨lone,by rw [shared,same]; exact sole.dark,by rw [shared,same]; exact stage,version,served⟩
  · refine ⟨lone,?_,?_,version,served⟩
    · rw [darkAt_reading after,shared]
      exact (darkAt_reading before).mp sole.dark
    · rw [stageAt_reading after,shared]
      exact (stageAt_reading before).mp stage

theorem Sole.turn_writer {t : Tid} {l : Local F} (sole : Sole w hot₀ cold₀ es s) (at_ : s.threads t = l)
    (writes : ¬ l.reading) : t = w ∧ ∃ x, l = .writer x := by
  constructor
  · by_contra other
    exact writes (at_ ▸ sole.lone t other)
  · cases l with
    | idle | hot | cold => exact absurd trivial writes
    | writer x => exact ⟨x,rfl⟩

theorem Sole.step (mine : ∀ t ∈ e.updater, t = w) (sole : Sole w hot₀ cold₀ es s) (step : Step s e s') :
    Sole w hot₀ cold₀ (es++[e]) s' := by
  cases step with
  | @call t op free =>
    have place : ∀ l : Local F, l.reading → (s.move t s.shared l).threads w = s.threads w ∨
        (s.threads w).reading ∧ ((s.move t s.shared l).threads w).reading := by
      intro l reads
      by_cases mine : w = t
      · subst w; rw [free,move_self]; exact .inr ⟨trivial,reads⟩
      · exact .inl (move_other _ _ _ mine)
    cases op with
    | readHot order | readCold order =>
      exact sole.calm rfl rfl rfl (fun u => others_move sole.lone fun _ => trivial) (place _ trivial)
    | update p =>
      obtain rfl := mine t rfl
      have dark := sole.dark
      have stage := sole.stage
      rw [free] at dark stage
      refine ⟨fun u => others_move sole.lone fun other => absurd rfl other,?_,?_,?_,?_⟩
      · rw [move_self]
        exact ⟨rfl,dark,fun k none => absurd (Param.mem_all k) none⟩
      · rw [move_self]
        obtain ⟨count,hot⟩ := stage
        refine ⟨by simp [updates_snoc,Event.updated],?_,?_⟩
        · simp only [updates_snoc,bumps_snoc,Event.updated,Event.bumped,Option.toList_some,List.length_append,
            List.length_singleton,Bool.false_eq_true,if_false]
          omega
        · simp only [updates_snoc,Event.updated,Option.toList_some,List.length_append,List.length_singleton,
            Nat.add_sub_cancel]
          exact sets_grown hot
      · rw [bumps_snoc]; exact sole.version
      · exact served_keep sole.served rfl
  | @turn t l shared l' at_ moved =>
    by_cases reads : l.reading
    · obtain ⟨rfl,reads'⟩ := turn_reading reads moved
      have quiet : (Event.turn t l).bumped = false := by cases l <;> first | rfl | cases reads
      refine sole.calm rfl quiet rfl (fun u => others_move sole.lone fun _ => reads') ?_
      by_cases mine : w = t
      · subst w; rw [at_,move_self]; exact .inr ⟨reads,reads'⟩
      · exact .inl (move_other _ _ _ mine)
    · obtain ⟨rfl,x,rfl⟩ := sole.turn_writer at_ reads
      have dark := sole.dark
      have stage := sole.stage
      rw [at_] at dark stage
      obtain ⟨rfl,rfl⟩ := writer_moved moved
      refine ⟨fun u => others_move sole.lone fun other => absurd rfl other,?_,?_,?_,?_⟩
      · rw [move_self]; exact writerTurn_dark dark
      · rw [move_self]; exact writerTurn_stage t dark stage
      · exact writerTurn_version stage sole.version
      · exact writerTurn_served t dark stage sole.served

theorem initial_sole (w : Tid) (hot₀ : HotParams) (cold : Fin 2 → ColdParams F) :
    Sole w hot₀ (cold 0) [] (initial hot₀ cold : State Tid F) :=
  ⟨fun _ _ => trivial,by simp [DarkAt,initial],⟨rfl,rfl⟩,rfl,.inl rfl⟩

end Steps

def zeros : HotParams := fun | .maxOrdersPerSecond => 100 | .maxOrderValue | .maxPositionValue
  | .maxTotalPositionValue | .minAvailableCapital => (0 : Decimal)
def fives : RiskParameters Rat := fun | .maxOrdersPerSecond => 7 | .maxOrderValue | .maxPositionValue
  | .maxTotalPositionValue | .minAvailableCapital | .maxDrawdownPercent => (5 : Rat)
def buffers : Fin 2 → ColdParams Rat := fun _ => ⟨fun | .maxOrdersPerSecond => 100 | .maxOrderValue | .maxPositionValue
  | .maxTotalPositionValue | .minAvailableCapital | .maxDrawdownPercent => (0 : Rat),zeros,0⟩

def nines : RiskParameters Rat := fun | .maxOrdersPerSecond => 9 | .maxOrderValue | .maxPositionValue
  | .maxTotalPositionValue | .minAvailableCapital | .maxDrawdownPercent => (9 : Rat)

def turns (t : Bool) (n : Nat) : List (Bool × Option (Call Rat)) := List.replicate n (t,none)

end Chronos.RiskEngine
