import Chronos.RiskWriter
import Mathlib.Data.Fintype.Basic

namespace Chronos.RiskEngine
open Seqlock

variable {Tid F : Type} [Double F] [DecidableEq Tid]

def Event.looks (t : Tid) : Event Tid F → Bool
  | .turn u (.hot (.first _ _)) => u = t
  | _ => false

def stamp (t : Tid) (es : List (Event Tid F)) : Nat :=
  (es.foldl (fun (count,seen) e => (count+if e.bumped then 1 else 0,if e.looks t then count else seen)) (0,0)).2

omit [Double F] in
theorem stamp_snoc (t : Tid) (es : List (Event Tid F)) (e : Event Tid F) :
    stamp t (es++[e]) = if e.looks t then bumps es else stamp t es := by
  have count : ∀ es : List (Event Tid F), (es.foldl (fun (count,seen) e =>
      (count+if e.bumped then 1 else 0,if e.looks t then count else seen)) (0,0)).1 = bumps es := by
    intro es
    induction es using List.reverseRecOn with
    | nil => rfl
    | append_singleton es e ih => rw [List.foldl_append,bumps_snoc,← ih]; rfl
  rw [stamp,List.foldl_append,← count es]
  rfl

-- Fewer than 2^64 version stores fall between the two loads of a read.
def Prompt (es : List (Event Tid F)) : Prop :=
  ∀ earlier t order retry v got later, es = earlier++.turn t (.hot (.copy order retry v [] got))::later →
    bumps earlier < stamp t earlier+2^64

def Local.halfRead : Local F → Bool
  | .hot (.anyway _ (_::_) (_::_)) => true
  | _ => false

def Local.halfCopied : Local F → Bool
  | .writer (.copy _ _ rest) => rest ≠ [] ∧ rest ≠ Limit.all
  | _ => false

def Event.copies : Event Tid F → Bool
  | .turn _ (.writer (.copy _ _ (_::_))) => true
  | _ => false

def Event.takes : Event Tid F → Bool
  | .turn _ (.hot (.anyway _ (_::_) _)) => true
  | _ => false

-- The read after the loop and the copy of the fields do not overlap.
def Calm (s : State Tid F) (e : Event Tid F) : Prop :=
  (e.copies = true → ∀ u, (s.threads u).halfRead = false) ∧ (e.takes = true → ∀ u, (s.threads u).halfCopied = false)

instance [Fintype Tid] (s : State Tid F) (e : Event Tid F) : Decidable (Calm s e) := inferInstanceAs (Decidable (_ ∧ _))

def CalmStep (s : State Tid F) (e : Event Tid F) (s' : State Tid F) : Prop := Step s e s' ∧ Calm s e

def cell (es : List (Event Tid F)) (s : Shared F) : Cell Limit Limit.Value := ⟨bumps es,s.hot⟩

variable {hot₀ : HotParams} {cold₀ : ColdParams F} {es : List (Event Tid F)} {e : Event Tid F} {w : Tid}
variable {s s' : State Tid F}

def Reading (hot₀ : HotParams) (es : List (Event Tid F)) (s : Shared F) (t : Tid) : Local F → Prop
  | .hot (.copy order _ v rest got) => got.map (·.1)++rest = order ∧ v = BitVec.ofNat 64 (stamp t es) ∧
      stamp t es % 2 = 0 ∧ ∃ whole, (sets hot₀ es)[stamp t es/2]? = some whole ∧ Sound (cell es s) (stamp t es) whole got
  | .hot (.anyway order rest got) => got.map (·.1)++rest = order ∧
      (got = [] ∨ ∃ whole ∈ sets hot₀ es, (rest ≠ [] → s.hot = whole) ∧ PartOf whole got)
  | .hot (.done order v got) => got.map (·.1) = order ∧ v = BitVec.ofNat 64 (stamp t es) ∧
      stamp t es % 2 = 0 ∧ ∃ whole, (sets hot₀ es)[stamp t es/2]? = some whole ∧ PartOf whole got
  | _ => True

omit [DecidableEq Tid] in
theorem sets_mem {set : HotParams} (member : set ∈ sets hot₀ es) : set ∈ sets hot₀ (es++[e]) := by
  obtain ⟨k,found⟩ := List.mem_iff_getElem?.mp member
  exact List.mem_iff_getElem?.mpr ⟨k,sets_grown found⟩

theorem Sole.current (sole : Sole w hot₀ cold₀ es s) (even : bumps es % 2 = 0) :
    (sets hot₀ es)[bumps es/2]? = some s.shared.hot := by
  have quiet : ∀ n, bumps es = 2*n → bumps es/2 = n := fun n count => by omega
  have stage := sole.stage
  cases l : s.threads w with
  | idle | hot | cold =>
    rw [l] at stage
    rw [quiet _ stage.1]
    exact stage.2
  | writer x =>
    rw [l] at stage
    cases x with
    | fill | build | darkStore | openLoad =>
      obtain ⟨_,count,hot⟩ := stage
      rw [quiet ((updates es).length-1) (by omega)]
      exact hot
    | openStore =>
      obtain ⟨⟨_,count,hot⟩,_⟩ := stage
      rw [quiet ((updates es).length-1) (by omega)]
      exact hot
    | copy | closeStore =>
      obtain ⟨⟨_,count⟩,_⟩ := stage
      omega
    | swapLoad | swapStore | flipLoad | flipStore | backLoad | back =>
      obtain ⟨_,count,hot⟩ := stage
      rw [quiet _ count]
      exact hot

theorem Sole.whole (sole : Sole w hot₀ cold₀ es s) (settled : (s.threads w).halfCopied = false) :
    s.shared.hot ∈ sets hot₀ es := by
  by_cases even : bumps es % 2 = 0
  · exact List.mem_of_getElem? (sole.current even)
  · have stage := sole.stage
    have new : ∀ p, (updates es).getLast? = some p → buildHot p ∈ sets hot₀ es := fun p last =>
      List.mem_of_getElem? (sets_last last)
    cases l : s.threads w with
    | idle | hot | cold => rw [l] at stage; have := stage.1; omega
    | writer x =>
      rw [l] at stage settled
      cases x with
      | fill | build | darkStore | openLoad => have := stage.2.1; omega
      | openStore => have := stage.1.2.1; omega
      | swapLoad | swapStore | flipLoad | flipStore | backLoad | back => have := stage.2.1; omega
      | closeStore p v =>
        obtain ⟨⟨last,_⟩,hot,_⟩ := stage
        rw [hot]
        exact new p last
      | copy p i rest =>
        obtain ⟨⟨last,_⟩,_,copied,old⟩ := stage
        by_cases started : rest = Limit.all
        · exact List.mem_of_getElem? (old started)
        · have finished : rest = [] := by
            by_contra more
            simp [Local.halfCopied,more,started] at settled
          subst finished
          rw [show s.shared.hot = buildHot p from funext fun l => copied l (by simp)]
          exact new p last

omit [DecidableEq Tid] in
theorem writerTurn_write {s : Shared F} {x : Writer F} (t : Tid) (stage : Stage hot₀ es s x) :
    Write (cell es s) (cell (es++[.turn t (.writer x)]) (writerTurn s x).1) := by
  unfold cell
  rw [bumps_snoc]
  cases x with
  | openStore | closeStore => exact .bump
  | copy p i rest =>
    cases rest with
    | nil => exact .still
    | cons l rest =>
      obtain ⟨⟨_,count⟩,_⟩ := stage
      exact .field (by simp only; omega)
  | fill p i rest | build p i rest | back p i rest => cases rest <;> exact .still
  | darkStore | openLoad | swapLoad | swapStore | flipLoad | flipStore | backLoad => exact .still

omit [Double F] [DecidableEq Tid] in
theorem cell_still {shared : Shared F} (still : e.bumped = false) : cell (es++[e]) shared = cell es shared := by
  simp only [cell,bumps_snoc,still]
  rfl

theorem Sole.write (sole : Sole w hot₀ cold₀ es s) (step : Step s e s') :
    Write (cell es s.shared) (cell (es++[e]) s'.shared) := by
  cases step with
  | call => rw [cell_still rfl]; exact .still
  | @turn t l shared l' at_ moved =>
    by_cases reads : l.reading
    · obtain ⟨rfl,_⟩ := turn_reading reads moved
      rw [cell_still (by cases l <;> first | rfl | cases reads)]
      exact .still
    · have mine : t = w := by
        by_contra other
        exact reads (at_ ▸ sole.lone t other)
      have stage := sole.stage
      subst mine
      rw [at_] at stage
      cases l with
      | idle | hot | cold => exact absurd trivial reads
      | writer x =>
        rw [move_shared,← (writer_moved moved).1]
        exact writerTurn_write t stage

-- What the version check of the loop relies on, and what the read after it does.
def Validating (hot₀ : HotParams) (es : List (Event Tid F)) (s : Shared F) (t : Tid) : Local F → Prop
  | .hot (.copy order _ v rest got) => got.map (·.1)++rest = order ∧ v = BitVec.ofNat 64 (stamp t es) ∧
      stamp t es % 2 = 0 ∧ ∃ whole, (sets hot₀ es)[stamp t es/2]? = some whole ∧ Sound (cell es s) (stamp t es) whole got
  | .hot (.done order v got) => got.map (·.1) = order ∧ v = BitVec.ofNat 64 (stamp t es) ∧
      stamp t es % 2 = 0 ∧ ∃ whole, (sets hot₀ es)[stamp t es/2]? = some whole ∧ PartOf whole got
  | _ => True

def Rereading (hot₀ : HotParams) (es : List (Event Tid F)) (s : Shared F) : Local F → Prop
  | .hot (.anyway order rest got) => got.map (·.1)++rest = order ∧
      (got = [] ∨ ∃ whole ∈ sets hot₀ es, (rest ≠ [] → s.hot = whole) ∧ PartOf whole got)
  | _ => True

theorem reading_split {s : Shared F} {t : Tid} {l : Local F} :
    Reading hot₀ es s t l ↔ Validating hot₀ es s t l ∧ Rereading hot₀ es s l := by
  cases l with
  | idle | writer | cold => exact ⟨fun _ => ⟨trivial,trivial⟩,fun _ => trivial⟩
  | hot r =>
    cases r with
    | first => exact ⟨fun _ => ⟨trivial,trivial⟩,fun _ => trivial⟩
    | copy | done => exact ⟨fun held => ⟨held,trivial⟩,And.left⟩
    | anyway => exact ⟨fun held => ⟨trivial,held⟩,And.right⟩

theorem Validating.frame {u : Tid} {l : Local F} (validating : Validating hot₀ es s.shared u l)
    (write : Write (cell es s.shared) (cell (es++[e]) s'.shared)) (blind : e.looks u = false) :
    Validating hot₀ (es++[e]) s'.shared u l := by
  have same : stamp u (es++[e]) = stamp u es := by simp [stamp_snoc,blind]
  cases l with
  | idle | writer | cold => trivial
  | hot r =>
    cases r with
    | first | anyway => trivial
    | copy order retry v rest got =>
      obtain ⟨shape,word,even,whole,found,sound⟩ := validating
      simp only [Validating,same]
      exact ⟨shape,word,even,whole,sets_grown found,sound.write even write⟩
    | done order v got =>
      obtain ⟨shape,word,even,whole,found,part⟩ := validating
      simp only [Validating,same]
      exact ⟨shape,word,even,whole,sets_grown found,part⟩

omit [DecidableEq Tid] in
theorem Rereading.frame {l : Local F} (rereading : Rereading hot₀ es s.shared l)
    (kept : l.halfRead = true → s'.shared.hot = s.shared.hot) : Rereading hot₀ (es++[e]) s'.shared l := by
  cases l with
  | idle | writer | cold => trivial
  | hot r =>
    cases r with
    | first | copy | done => trivial
    | anyway order rest got =>
      obtain ⟨shape,none | ⟨whole,member,held,part⟩⟩ := rereading
      · exact ⟨shape,.inl none⟩
      · refine ⟨shape,?_⟩
        cases got with
        | nil => exact .inl rfl
        | cons r got =>
          refine .inr ⟨whole,sets_mem member,fun more => ?_,part⟩
          cases rest with
          | nil => exact absurd rfl more
          | cons l rest => exact (kept rfl).trans (held more)

theorem again_reading (shared : Shared F) (t : Tid) (order : List Limit) (retry : Nat) :
    Reading hot₀ es shared t (.hot (again order retry)) := by
  unfold again
  split
  · trivial
  · exact ⟨rfl,.inl rfl⟩

theorem hotTurn_validating {r : HotReader} {t : Tid} (sole : Sole w hot₀ cold₀ es s)
    (validating : Validating hot₀ es s.shared t (.hot r))
    (prompt : ∀ order retry v got, r = .copy order retry v [] got → bumps es < stamp t es+2^64) :
    Validating hot₀ (es++[.turn t (.hot r)]) s.shared t (hotTurn s.shared r) := by
  have count : bumps (es++[.turn t (.hot r)]) = bumps es := by simp [bumps_snoc,Event.bumped]
  cases r with
  | first order retry =>
    have now : stamp t (es++[.turn t (.hot (.first order retry))]) = bumps es := by simp [stamp_snoc,Event.looks]
    simp only [hotTurn]
    split
    · rename_i even
      rw [sole.version,even_word] at even
      simp only [Validating,now]
      refine ⟨rfl,sole.version,even,_,sets_grown (sole.current even),?_⟩
      have opened := Sound.opened (cell (es++[.turn t (.hot (.first order retry))]) s.shared)
      rwa [show (cell (es++[.turn t (.hot (.first order retry))]) s.shared).bumps = bumps es from count] at opened
    · exact (reading_split.mp (again_reading _ _ _ _)).1
  | copy order retry v rest got =>
    obtain ⟨shape,word,even,whole,found,sound⟩ := validating
    cases rest with
    | cons l rest =>
      have same : stamp t (es++[.turn t (.hot (.copy order retry v (l::rest) got))]) = stamp t es := by
        simp [stamp_snoc,Event.looks]
      simp only [hotTurn,Validating,same]
      refine ⟨by simpa using shape,word,even,whole,sets_grown found,?_⟩
      rw [cell_still rfl]
      exact sound.read l
    | nil =>
      have same : stamp t (es++[.turn t (.hot (.copy order retry v [] got))]) = stamp t es := by
        simp [stamp_snoc,Event.looks]
      simp only [hotTurn]
      split
      · rename_i equal
        have still := sound.same_word (prompt _ _ _ _ rfl) (by rw [← word,equal,sole.version]; rfl)
        simp only [Validating,same]
        exact ⟨by simpa using shape,word,even,whole,sets_grown found,sound.validated still⟩
      · exact (reading_split.mp (again_reading _ _ _ _)).1
  | anyway order rest got => cases rest <;> trivial
  | done => trivial

theorem hotTurn_rereading {r : HotReader} {t : Tid} (sole : Sole w hot₀ cold₀ es s)
    (rereading : Rereading hot₀ es s.shared (.hot r)) (calm : Calm s (.turn t (.hot r))) :
    Rereading hot₀ (es++[.turn t (.hot r)]) s.shared (hotTurn s.shared r) := by
  cases r with
  | first order retry =>
    simp only [hotTurn]
    split
    · trivial
    · exact (reading_split.mp (again_reading s.shared t _ _)).2
  | copy order retry v rest got =>
    cases rest with
    | cons l rest => trivial
    | nil =>
      simp only [hotTurn]
      split
      · trivial
      · exact (reading_split.mp (again_reading s.shared t _ _)).2
  | anyway order rest got =>
    obtain ⟨shape,known⟩ := rereading
    cases rest with
    | nil => trivial
    | cons l rest =>
      refine ⟨by simpa using shape,.inr ?_⟩
      rcases known with rfl | ⟨whole,member,held,part⟩
      · refine ⟨s.shared.hot,sets_mem (sole.whole (calm.2 rfl w)),fun _ => rfl,?_⟩
        have none : PartOf s.shared.hot [] := by simp [PartOf]
        exact none.snoc l
      · obtain rfl := held (by simp)
        exact ⟨_,sets_mem member,fun _ => rfl,part.snoc l⟩
  | done => trivial

theorem hot_kept {u : Tid} (step : Step s e s') (calm : Calm s e) (half : (s.threads u).halfRead = true) :
    s'.shared.hot = s.shared.hot := by
  cases step with
  | call => rfl
  | @turn t l shared l' at_ moved =>
    cases l with
    | idle => cases moved
    | hot | cold => cases moved; rfl
    | writer x =>
      rw [move_shared,← (writer_moved moved).1]
      cases x with
      | copy p i rest =>
        cases rest with
        | nil => rfl
        | cons l rest => rw [calm.1 rfl u] at half; cases half
      | fill p i rest | build p i rest | back p i rest => cases rest <;> rfl
      | darkStore | openLoad | openStore | closeStore | swapLoad | swapStore | flipLoad | flipStore | backLoad => rfl

def Known (w : Tid) (hot₀ : HotParams) (cold₀ : ColdParams F) (es : List (Event Tid F)) (s : State Tid F) : Prop :=
  Sole w hot₀ cold₀ es s ∧ ∀ u, Reading hot₀ es s.shared u (s.threads u)

def Local.atHot : Local F → Bool
  | .hot _ => true
  | _ => false

omit [DecidableEq Tid] in
theorem turn_off {shared shared' : Shared F} {l l' : Local F} (moved : turn shared l = some (shared',l')) (off : l.atHot = false) :
    l'.atHot = false := by
  cases l with
  | idle => cases moved
  | hot => cases off
  | writer x =>
    rw [← (writer_moved moved).2]
    rcases writerTurn_place shared x with none | ⟨x',more⟩
    · rw [none]; rfl
    · rw [more]; rfl
  | cold r =>
    cases moved
    rcases coldTurn_place shared r with none | ⟨r',more⟩
    · rw [none]; rfl
    · rw [more]; rfl

theorem validating_off {shared : Shared F} {t : Tid} {l : Local F} (off : l.atHot = false) : Validating hot₀ es shared t l := by
  cases l with
  | idle | writer | cold => trivial
  | hot => cases off

omit [DecidableEq Tid] in
theorem rereading_off {shared : Shared F} {l : Local F} (off : l.atHot = false) : Rereading hot₀ es shared l := by
  cases l with
  | idle | writer | cold => trivial
  | hot => cases off

omit [Double F] in
theorem looks_other {t u : Tid} {l : Local F} (other : u ≠ t) : (Event.turn t l).looks u = false := by
  cases l <;> try rfl
  rename_i r
  cases r <;> simp [Event.looks,Ne.symm other]

theorem validating_step (sole : Sole w hot₀ cold₀ es s) (prompt : Prompt (es++[e]))
    (validating : ∀ u, Validating hot₀ es s.shared u (s.threads u)) (step : Step s e s') (u : Tid) :
    Validating hot₀ (es++[e]) s'.shared u (s'.threads u) := by
  have write := sole.write step
  cases step with
  | @call t op free =>
    by_cases mine : u = t
    · subst u
      rw [move_self]
      cases op <;> trivial
    · rw [move_other _ _ _ mine]
      exact (validating u).frame write rfl
  | @turn t l shared l' at_ moved =>
    by_cases mine : u = t
    · subst u
      have held := validating t
      rw [at_] at held
      rw [move_self,move_shared]
      cases l with
      | idle | writer | cold => exact validating_off (turn_off moved rfl)
      | hot r =>
        cases moved
        refine hotTurn_validating sole held fun order retry v got shape => ?_
        subst shape
        exact prompt es t order retry v got [] rfl
    · rw [move_other _ _ _ mine]
      exact (validating u).frame write (looks_other mine)

theorem rereading_step (sole : Sole w hot₀ cold₀ es s) (rereading : ∀ u, Rereading hot₀ es s.shared (s.threads u))
    (step : CalmStep s e s') (u : Tid) : Rereading hot₀ (es++[e]) s'.shared (s'.threads u) := by
  obtain ⟨step,calm⟩ := step
  have kept : (s.threads u).halfRead = true → s'.shared.hot = s.shared.hot := hot_kept step calm
  cases step with
  | @call t op free =>
    by_cases mine : u = t
    · subst u
      rw [move_self]
      cases op <;> trivial
    · rw [move_other _ _ _ mine]
      exact (rereading u).frame kept
  | @turn t l shared l' at_ moved =>
    by_cases mine : u = t
    · subst u
      have held := rereading t
      rw [at_] at held
      rw [move_self,move_shared]
      cases l with
      | idle | writer | cold => exact rereading_off (turn_off moved rfl)
      | hot r =>
        cases moved
        exact hotTurn_rereading sole held calm
    · rw [move_other _ _ _ mine]
      exact (rereading u).frame kept

theorem Known.step (one : OneWriter w (es++[e])) (prompt : Prompt (es++[e])) (known : Known w hot₀ cold₀ es s)
    (step : CalmStep s e s') : Known w hot₀ cold₀ (es++[e]) s' := by
  obtain ⟨sole,reading⟩ := known
  refine ⟨sole.step one.last step.1,fun u => reading_split.mpr ⟨?_,?_⟩⟩
  · exact validating_step sole prompt (fun u => (reading_split.mp (reading u)).1) step.1 u
  · exact rereading_step sole (fun u => (reading_split.mp (reading u)).2) step u

omit [Double F] in
theorem Prompt.before (prompt : Prompt (es++[e])) : Prompt es :=
  fun earlier t order retry v got later shape => prompt earlier t order retry v got (later++[e])
    (by rw [shape,List.append_assoc,List.cons_append])

theorem runs_known {cold : Fin 2 → ColdParams F} (path : Runs CalmStep (initial hot₀ cold) es s)
    (one : OneWriter w es) (prompt : Prompt es) : Known w hot₀ (cold 0) es s :=
  path.preserves_admissible (Known w hot₀ (cold 0)) (fun es => OneWriter w es ∧ Prompt es)
    (fun _ _ admitted => ⟨admitted.1.front,admitted.2.before⟩)
    (fun _ _ _ _ admitted known step => known.step admitted.1 admitted.2 step)
    ⟨initial_sole w hot₀ cold,fun _ => trivial⟩ ⟨one,prompt⟩

def Local.result : Local F → Option (List Limit × List HotRead)
  | .hot (.anyway order [] got) => some (order,got)
  | .hot (.done order _ got) => some (order,got)
  | _ => none

theorem Reading.result {l : Local F} {shared : Shared F} {t : Tid} (reading : Reading hot₀ es shared t l)
    (returned : l.result = some (order,got)) : got.map (·.1) = order ∧ ∃ set ∈ sets hot₀ es, PartOf set got := by
  cases l with
  | idle | writer | cold => cases returned
  | hot r =>
    cases r with
    | first | copy => cases returned
    | done order v got =>
      cases returned
      obtain ⟨shape,_,_,whole,found,part⟩ := reading
      exact ⟨shape,whole,List.mem_of_getElem? found,part⟩
    | anyway order rest got =>
      cases rest with
      | cons => cases returned
      | nil =>
        cases returned
        obtain ⟨shape,rfl | ⟨whole,member,_,part⟩⟩ := reading
        · exact ⟨by simpa using shape,hot₀,by simp [sets],by simp [PartOf]⟩
        · exact ⟨by simpa using shape,whole,member,part⟩

omit [Double F] in
theorem prompt_of_few (few : bumps es < 2^64) : Prompt es := by
  rintro earlier t order retry v got later rfl
  have part := bumps_le_append earlier (.turn t (.hot (.copy order retry v [] got))::later)
  omega

def advanceCalm [Fintype Tid] (s : State Tid F) (choice : Tid × Option (Call F)) : Option (Event Tid F × State Tid F) :=
  (advance s choice).filter fun (e,_) => Calm s e

theorem advanceCalm_sound [Fintype Tid] (s : State Tid F) (choice : Tid × Option (Call F)) (e : Event Tid F)
    (s' : State Tid F) (checked : advanceCalm s choice = some (e,s')) : CalmStep s e s' := by
  obtain ⟨moved,calm⟩ := Option.filter_eq_some_iff.mp checked
  exact ⟨advance_sound s choice e s' moved,by simpa using calm⟩

def returned (es : List (Event Tid F)) : List (List Limit × List HotRead) :=
  es.filterMap fun | .turn _ l => l.result | _ => none

theorem reads_whole {Tid F : Type} [Double F] [DecidableEq Tid] {w : Tid} {hot₀ : HotParams} {cold : Fin 2 → ColdParams F}
    {es : List (Event Tid F)} {s : State Tid F} (path : Runs CalmStep (initial hot₀ cold) es s)
    (one : OneWriter w es) (prompt : Prompt es) :
    ∀ r ∈ returned es, r.2.map (·.1) = r.1 ∧ ∃ set ∈ sets hot₀ es, PartOf set r.2 := by
  intro ⟨order,got⟩ member
  obtain ⟨e,member,answer⟩ := List.mem_filterMap.mp member
  obtain ⟨earlier,later,rfl⟩ := List.append_of_mem member
  obtain ⟨middle,next,front,⟨step,_⟩,_⟩ := path.split_at
  have known := runs_known front one.front
    (fun e' u order retry v got l' shape => prompt e' u order retry v got (l'++e::later) (by rw [shape]; simp))
  cases step with
  | call => cases answer
  | @turn t l shared l' at_ =>
    have reading := known.2 t
    rw [at_] at reading
    obtain ⟨shape,set,published,part⟩ := reading.result answer
    refine ⟨shape,set,?_,part⟩
    simp only [sets,updates,List.filterMap_append,List.map_append,List.mem_cons,List.mem_append] at published ⊢
    exact published.imp_right .inl

def reread : List (Bool × Option (Call Rat)) :=
  [(false,some (.readHot Limit.all)),(false,none),(false,none),(true,some (.update fives))]++
    List.replicate 23 (true,none)++List.replicate 13 (false,none)

theorem reads_whole_reread :
    ∃ follows : (play advanceCalm (initial zeros buffers) reread).isSome,
      let run := (play advanceCalm (initial zeros buffers) reread).get follows
      ∀ r ∈ returned run.1, r.2.map (·.1) = r.1 ∧ ∃ set ∈ sets zeros run.1, PartOf set r.2 :=
  ⟨by decide +kernel,reads_whole (w := true) (play_get advanceCalm_sound (by decide +kernel)) (by decide +kernel)
    (prompt_of_few (by decide +kernel))⟩

-- The writer is held up after two of its five fields; the reader gives up
-- waiting after 100 looks at the version.
def heldUp : List (Bool × Option (Call Rat)) :=
  [(true,some (.update fives))]++List.replicate 18 (true,none)++
    [(false,some (.readHot Limit.all))]++List.replicate 106 (false,none)

theorem heldUp_torn :
    ∃ follows : (play advance (initial zeros buffers) heldUp).isSome,
      let run := (play advance (initial zeros buffers) heldUp).get follows
      Runs Step (initial zeros buffers) run.1 run.2 ∧ OneWriter true run.1 ∧
        ∃ r ∈ returned run.1, r.1 = Limit.all ∧ ¬ ∃ set ∈ sets zeros run.1, PartOf set r.2 :=
  ⟨by decide +kernel,play_get advance_sound _,by decide +kernel,by decide +kernel⟩

end Chronos.RiskEngine
