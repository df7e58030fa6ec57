import Chronos.LogRecords
import Mathlib.Data.List.FinRange
import Mathlib.Data.Set.List

namespace Chronos.LogWriter

def Act.called : Act s → Option (Record s)
  | .call record => some record
  | _ => none

def called (es : List (Event Tid s)) : List (Record s) := es.filterMap (·.act.called)

structure Passed (es : List (Event Tid s)) (st : State Tid s) : Prop where
  waiting : ∀ t record, st.waiting t = some record → record ∈ called es
  inside : ∀ t l record, st.holder = some (t,l) → l.record = some record → record ∈ called es
  accepted : ∀ record ∈ accepted es, record ∈ called es

section Passed
variable {Tid : Type} [DecidableEq Tid] {s : Nat} {start : LogBuffer} {st st' : State Tid s} {e : Event Tid s} {es : List (Event Tid s)}

omit [DecidableEq Tid] in
theorem called_snoc (es : List (Event Tid s)) (e : Event Tid s) : called (es++[e]) = called es++e.act.called.toList :=
  filterMap_snoc _ es e

theorem Passed.step (passed : Passed es st) (step : Step st e st') : Passed (es++[e]) st' := by
  obtain ⟨waiting,inside,accepted⟩ := passed
  have kept : ∀ {record}, record ∈ called es → record ∈ called (es++[e]) := fun member => by
    rw [called_snoc]
    exact List.mem_append_left _ member
  have quiet : e.act.accepted = none → ∀ record ∈ LogWriter.accepted (es++[e]), record ∈ called (es++[e]) := fun none record member => by
    rw [LogWriter.accepted,filterMap_snoc,none,Option.toList_none,List.append_nil] at member
    exact kept (accepted record member)
  cases step with
  | call =>
    rename_i t new free out
    refine ⟨fun u record asked => ?_,fun u l record held mine => kept (inside u l record held mine),quiet rfl⟩
    dsimp only at asked
    by_cases same : u = t
    · subst same
      rw [Function.update_self] at asked
      rw [called_snoc]
      simp [Act.called,Option.some.inj asked]
    · rw [Function.update_of_ne same] at asked
      exact kept (waiting u record asked)
  | lock asked free =>
    rename_i t new
    refine ⟨fun u record waits => ?_,fun u l record held mine => ?_,quiet rfl⟩
    · dsimp only at waits
      by_cases same : u = t
      · subst same
        rw [Function.update_self] at waits
        cases waits
      · rw [Function.update_of_ne same] at waits
        exact kept (waiting u record waits)
    · cases held
      cases mine
      exact kept (waiting t _ asked)
  | refuse at_ | ret at_ =>
    refine ⟨fun u record asked => kept (waiting u record asked),fun u l record held mine => ?_,quiet rfl⟩
    cases held
    try cases mine
  | accept at_ | copy at_ =>
    refine ⟨fun u record asked => kept (waiting u record asked),fun u l record held mine => ?_,quiet rfl⟩
    cases held
    cases mine
    exact kept (inside _ _ _ at_ rfl)
  | advance at_ =>
    refine ⟨fun u record asked => kept (waiting u record asked),fun u l record held mine => ?_,fun record member => ?_⟩
    · cases held
      cases mine
    · rw [LogWriter.accepted,filterMap_snoc,List.mem_append] at member
      rcases member with old | new
      · exact kept (accepted record old)
      · simp only [Act.accepted,Option.toList_some,List.mem_singleton] at new
        subst new
        exact kept (inside _ _ _ at_ rfl)

theorem runs_passed (path : Runs Step (initial start) es st) : Passed es st := by
  refine path.preserves_history Passed (fun es st e st' passed step => passed.step step) ⟨?_,?_,?_⟩ <;> simp [initial,accepted]

end Passed

def image {A : Type} (c : Codec A) (a : A) : Record c.width := fun i => (c.encode a).get (i.cast (c.length a).symm)

def readRecord {A : Type} (c : Codec A) (record : Record c.width) : Option A := c.decode (List.ofFn record)

theorem readRecord_image {A : Type} (c : Codec A) (a : A) : readRecord c (image c a) = some a := by
  have bytes : List.ofFn (image c a) = c.encode a := by
    refine List.ext_getElem ?_ ?_
    · rw [List.length_ofFn,c.length]
    · intro i _ _
      rw [List.getElem_ofFn]
      rfl
  rw [readRecord,bytes,c.decode_encode]

-- The template is instantiated with one record type for a buffer.
def Typed {A : Type} (c : Codec A) (es : List (Event Tid c.width)) : Prop := ∀ record ∈ called es, ∃ a, record = image c a

-- The buffer read by strides gives the values whose records were accepted, in that order.
structure ReadsBack {A : Type} (c : Codec A) (es : List (Event Tid c.width)) (st : State Tid c.width) (values : List A) : Prop where
  accepted : accepted es = values.map (image c)
  passed : ∀ a ∈ values, image c a ∈ called es
  read : (st.buf.records c.width).mapM (readRecord c) = some values

theorem mapM_image {A : Type} (c : Codec A) (values : List A) : (values.map (image c)).mapM (readRecord c) = some values := by
  induction values with
  | nil => rfl
  | cons a rest ih => rw [List.map_cons,List.mapM_cons,readRecord_image,ih]; rfl

theorem log_reads_back {Tid A : Type} [DecidableEq Tid] {c : Codec A} {start : LogBuffer} {es : List (Event Tid c.width)}
    {st : State Tid c.width} (positive : 0 < c.width) (object : c.width < 2^63) (empty : start.writePos = 0)
    (path : Runs Step (initial start) es st) (typed : Typed c es) : ∃ values, ReadsBack c es st values := by
  have passed := (runs_passed path).accepted
  have typed' : accepted es ∈ Set.range (List.map (image c)) := by
    rw [Set.range_list_map]
    intro record member
    obtain ⟨a,rfl⟩ := typed record (passed record member)
    exact ⟨a,rfl⟩
  obtain ⟨values,same⟩ := typed'
  refine ⟨values,same.symm,fun a member => passed _ (same ▸ List.mem_map_of_mem member),?_⟩
  rw [(runs_kept object empty path).held.readBack positive,← same,mapM_image]

section Alone
variable {Tid : Type} [DecidableEq Tid] {s : Nat} {st : State Tid s} {t : Tid} {record : Record s}

def callOf (t : Tid) (record : Record s) : List (Event Tid s) :=
  [⟨t,.call record⟩,⟨t,.lock record⟩,⟨t,.accept record⟩]++(List.finRange s).map (fun i => ⟨t,.copy i⟩)++
    [⟨t,.advance record⟩,⟨t,.ret true⟩]

theorem copies_run (at_ : st.holder = some (t,.copying record done)) (is : List (Fin s)) :
    ∃ st', Runs Step st (is.map fun i => ⟨t,.copy i⟩) st' ∧ st'.holder = some (t,.copying record (done++is)) := by
  induction is generalizing st done with
  | nil => exact ⟨st,.nil,by simpa using at_⟩
  | cons i rest ih =>
    let next : State Tid s := {st with buf := st.buf.store i (record i), holder := some (t,.copying record (done++[i]))}
    have there : next.holder = some (t,.copying record (done++[i])) := rfl
    obtain ⟨st',path,after⟩ := ih there
    exact ⟨st',.cons (.copy at_) path,by simpa using after⟩

theorem append_alone (free : st.waiting t = none) (unlocked : st.holder = none) (room : st.buf.full s = false) :
    ∃ st', Runs Step st (callOf t record) st' := by
  let asked : State Tid s := {st with waiting := Function.update st.waiting t (some record)}
  let inside : State Tid s := {asked with waiting := Function.update asked.waiting t none, holder := some (t,.locked record)}
  let started : State Tid s := {inside with holder := some (t,.copying record [])}
  have called : Step st ⟨t,.call record⟩ asked := .call free (by simp [unlocked])
  have locked : Step asked ⟨t,.lock record⟩ inside := .lock (Function.update_self t _ _) unlocked
  have accepted : Step inside ⟨t,.accept record⟩ started := .accept rfl room
  obtain ⟨copied,path,after⟩ := copies_run (show started.holder = some (t,.copying record []) from rfl) (List.finRange s)
  rw [List.nil_append] at after
  have front := (((Runs.single called).step locked).step accepted).append path
  have back := (Runs.single (Step.advance after List.mem_finRange)).step (.ret rfl)
  exact ⟨_,front.append back⟩

end Alone

def oneTick : LogBuffer := ⟨64,fun _ => 0,0,by decide⟩

def firstTick : LogRecord.Tick := ⟨1000000,2000000,0,1,0,0,.trade,0,.replicate 22 0⟩

theorem log_reads_back_firstTick : ∃ st values, Runs Step (initial oneTick) (callOf () (image LogRecord.Tick.codec firstTick)) st ∧
    ReadsBack LogRecord.Tick.codec (callOf () (image LogRecord.Tick.codec firstTick)) st values := by
  obtain ⟨st,path⟩ : ∃ st, Runs Step (initial oneTick) (callOf () (image LogRecord.Tick.codec firstTick)) st :=
    append_alone rfl rfl (by decide)
  have typed : Typed LogRecord.Tick.codec (callOf () (image LogRecord.Tick.codec firstTick)) := by
    intro record member
    simp [called,callOf,Act.called,List.filterMap_append] at member
    exact ⟨firstTick,member⟩
  obtain ⟨values,reads⟩ := log_reads_back (by decide) (by decide) rfl path typed
  exact ⟨st,values,path,reads⟩

end Chronos.LogWriter
