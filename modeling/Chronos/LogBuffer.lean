import Chronos.Runs
import Mathlib.Algebra.Ring.Nat

namespace Chronos.LogWriter

-- A record as memcpy sees it. Like a vector, no object has as many as 2^63 bytes.
abbrev Record (s : Nat) := Fin s → UInt8

-- LogWriter::LogBuffer but for its mutex. `memory` goes on behind the bytes of data,
-- so that a write past them would show; a vector has less than 2^63 of them.
structure LogBuffer where
  size : Nat
  memory : Nat → UInt8
  writePos : BitVec 64
  vector : size < 2^63

namespace LogBuffer

-- write_pos + record_size > data.size()
def full (buf : LogBuffer) (s : Nat) : Bool := BitVec.ofNat 64 buf.size < buf.writePos+BitVec.ofNat 64 s

def store (buf : LogBuffer) (i : Nat) (byte : UInt8) : LogBuffer :=
  {buf with memory := Function.update buf.memory (buf.writePos.toNat+i) byte}

def advance (buf : LogBuffer) (s : Nat) : LogBuffer := {buf with writePos := buf.writePos+BitVec.ofNat 64 s}

theorem store_memory (buf : LogBuffer) (i : Nat) (byte : UInt8) :
    (buf.store i byte).memory = Function.update buf.memory (buf.writePos.toNat+i) byte := rfl

theorem advance_writePos (buf : LogBuffer) (s : Nat) : (buf.advance s).writePos = buf.writePos+BitVec.ofNat 64 s := rfl

def records (buf : LogBuffer) (s : Nat) : List (Record s) :=
  (List.range (buf.writePos.toNat/s)).map fun k i => buf.memory (k*s+i)

end LogBuffer

-- Where the thread that has the mutex is in appendToBuffer. memcpy copies its
-- bytes in some order.
inductive Inside (s : Nat) where
  | locked (record : Record s)
  | copying (record : Record s) (done : List (Fin s))
  | leaving (accepted : Bool)

inductive Act (s : Nat) where
  | call (record : Record s)
  | lock (record : Record s)
  | refuse (record : Record s)
  | accept (record : Record s)
  | copy (i : Fin s)
  | advance (record : Record s)
  | ret (accepted : Bool)

def Inside.record : Inside s → Option (Record s)
  | .locked record | .copying record _ => some record
  | .leaving _ => none

def Inside.answer : Inside s → Option Bool
  | .locked _ | .copying _ _ => none
  | .leaving accepted => some accepted

def Inside.refusing : Inside s → Bool
  | .locked _ | .leaving false => true
  | .copying _ _ | .leaving true => false

structure Event (Tid : Type) (s : Nat) where
  tid : Tid
  act : Act s

-- The mutex has one holder at most, so that only one thread can be inside.
structure State (Tid : Type) (s : Nat) where
  buf : LogBuffer
  waiting : Tid → Option (Record s)
  holder : Option (Tid × Inside s)

def initial (buf : LogBuffer) : State Tid s := ⟨buf,fun _ => none,none⟩

inductive Step [DecidableEq Tid] : State Tid s → Event Tid s → State Tid s → Prop where
  | call {t : Tid} {record : Record s} (free : st.waiting t = none) (out : ∀ l, st.holder ≠ some (t,l)) :
      Step st ⟨t,.call record⟩ {st with waiting := Function.update st.waiting t (some record)}
  | lock {t : Tid} {record : Record s} (called : st.waiting t = some record) (free : st.holder = none) :
      Step st ⟨t,.lock record⟩
        {st with waiting := Function.update st.waiting t none, holder := some (t,.locked record)}
  | refuse {t : Tid} {record : Record s} (at_ : st.holder = some (t,.locked record)) (full : st.buf.full s = true) :
      Step st ⟨t,.refuse record⟩ {st with holder := some (t,.leaving false)}
  | accept {t : Tid} {record : Record s} (at_ : st.holder = some (t,.locked record)) (room : st.buf.full s = false) :
      Step st ⟨t,.accept record⟩ {st with holder := some (t,.copying record [])}
  | copy {t : Tid} {record : Record s} {done : List (Fin s)} {i : Fin s} (at_ : st.holder = some (t,.copying record done)) :
      Step st ⟨t,.copy i⟩ {st with buf := st.buf.store i (record i), holder := some (t,.copying record (done++[i]))}
  | advance {t : Tid} {record : Record s} {done : List (Fin s)} (at_ : st.holder = some (t,.copying record done))
      (all : ∀ i, i ∈ done) :
      Step st ⟨t,.advance record⟩ {st with buf := st.buf.advance s, holder := some (t,.leaving true)}
  | ret {t : Tid} {accepted : Bool} (at_ : st.holder = some (t,.leaving accepted)) :
      Step st ⟨t,.ret accepted⟩ {st with holder := none}

def Act.offered : Act s → Option (Record s)
  | .refuse record | .accept record => some record
  | _ => none

def Act.accepted : Act s → Option (Record s)
  | .advance record => some record
  | _ => none

def Act.refused : Act s → Option (Record s)
  | .refuse record => some record
  | _ => none

section Histories
variable (es : List (Event Tid s))

def offered : List (Record s) := es.filterMap (·.act.offered)
def accepted : List (Record s) := es.filterMap (·.act.accepted)
def refused : List (Record s) := es.filterMap (·.act.refused)

end Histories

structure Holds (start : LogBuffer) (records : List (Record s)) (buf : LogBuffer) : Prop where
  size : buf.size = start.size
  outside : ∀ a, start.size ≤ a → buf.memory a = start.memory a
  position : buf.writePos.toNat = records.length*s
  room : records.length*s ≤ start.size
  stored : ∀ k (inside : k < records.length) (i : Fin s), buf.memory (k*s+i) = records[k] i

def pending : Option (Tid × Inside s) → List (Record s)
  | some (_,.copying record _) => [record]
  | _ => []

-- What holds at every point of a run, in terms of what was accepted, refused and offered.
structure Kept (start : LogBuffer) (taken turned shown : List (Record s)) (st : State Tid s) : Prop where
  held : Holds start taken st.buf
  copying : ∀ t record done, st.holder = some (t,.copying record done) →
    taken.length*s+s ≤ start.size ∧ ∀ i ∈ done, st.buf.memory (taken.length*s+i) = record i
  order : shown = taken++pending st.holder++turned
  full : turned ≠ [] → start.size < taken.length*s+s

section Buffer
variable {buf start : LogBuffer} {records : List (Record s)}

theorem LogBuffer.full_iff (within : buf.writePos.toNat ≤ buf.size) (object : s < 2^63) :
    buf.full s = true ↔ buf.size < buf.writePos.toNat+s := by
  have vector := buf.vector
  have size : (BitVec.ofNat 64 buf.size).toNat = buf.size := by
    rw [BitVec.toNat_ofNat]
    omega
  have sum : (buf.writePos+BitVec.ofNat 64 s).toNat = buf.writePos.toNat+s := by
    rw [BitVec.toNat_add,BitVec.toNat_ofNat]
    omega
  rw [LogBuffer.full,decide_eq_true_eq,BitVec.lt_def,size,sum]

theorem Holds.full_iff (held : Holds start records buf) (object : s < 2^63) :
    buf.full s = true ↔ start.size < records.length*s+s := by
  have within : buf.writePos.toNat ≤ buf.size := by
    rw [held.position,held.size]
    exact held.room
  rw [LogBuffer.full_iff within object,held.position,held.size]

theorem stride_apart {k n : Nat} (before : k < n) (i : Fin s) (j : Nat) : k*s+i ≠ n*s+j := by
  have span : (k+1)*s ≤ n*s := Nat.mul_le_mul_right s before
  have := i.isLt
  rw [Nat.succ_mul] at span
  omega

theorem Holds.store (held : Holds start records buf) (space : records.length*s+s ≤ start.size) (i : Fin s) (byte : UInt8) :
    Holds start records (buf.store i byte) := by
  have := i.isLt
  refine ⟨held.size,?_,held.position,held.room,?_⟩
  · intro a beyond
    rw [LogBuffer.store_memory,held.position,Function.update_of_ne (by omega)]
    exact held.outside a beyond
  · intro k inside j
    rw [LogBuffer.store_memory,held.position,Function.update_of_ne (stride_apart inside j i)]
    exact held.stored k inside j

theorem Holds.advance (held : Holds start records buf) (space : records.length*s+s ≤ start.size)
    (written : ∀ i : Fin s, buf.memory (records.length*s+i) = record i) :
    Holds start (records++[record]) (buf.advance s) := by
  have length : (records++[record]).length*s = records.length*s+s := by rw [List.length_append,List.length_singleton,Nat.succ_mul]
  have vector := start.vector
  refine ⟨held.size,held.outside,?_,?_,?_⟩
  · rw [length,LogBuffer.advance_writePos,BitVec.toNat_add,BitVec.toNat_ofNat,held.position]
    omega
  · rwa [length]
  · intro k inside i
    by_cases old : k < records.length
    · rw [List.getElem_append_left old]
      exact held.stored k old i
    · have last : k = records.length := by
        rw [List.length_append,List.length_singleton] at inside
        omega
      subst last
      rw [List.getElem_concat_length rfl]
      exact written i

theorem Holds.readBack (held : Holds start records buf) (positive : 0 < s) : buf.records s = records := by
  have count : buf.writePos.toNat/s = records.length := by rw [held.position,Nat.mul_div_cancel _ positive]
  refine List.ext_getElem ?_ ?_
  · rw [LogBuffer.records,List.length_map,List.length_range,count]
  · intro k _ inside
    simp only [LogBuffer.records,List.getElem_map,List.getElem_range]
    funext i
    exact held.stored k inside i

end Buffer

section Steps
variable {Tid : Type} [DecidableEq Tid] {s : Nat} {start : LogBuffer} {taken turned shown : List (Record s)}
  {st st' : State Tid s} {e : Event Tid s} {es : List (Event Tid s)}

theorem Kept.step (kept : Kept start taken turned shown st) (object : s < 2^63) (step : Step st e st') :
    Kept start (taken++e.act.accepted.toList) (turned++e.act.refused.toList) (shown++e.act.offered.toList) st' := by
  have full := kept.held.full_iff object
  have order := kept.order
  cases step <;> simp only [Act.accepted,Act.refused,Act.offered,Option.toList,List.append_nil]
  case call free out => exact ⟨kept.held,kept.copying,kept.order,kept.full⟩
  case lock record called free =>
    rw [free] at order
    exact ⟨kept.held,by simp,order,kept.full⟩
  case refuse record at_ past =>
    rw [at_] at order
    refine ⟨kept.held,by simp,?_,fun _ => full.mp past⟩
    simp [order,pending]
  case accept record at_ room =>
    rw [at_] at order
    have space : taken.length*s+s ≤ start.size := by
      by_contra short
      exact absurd (full.mpr (Nat.lt_of_not_le short)) (by simp [room])
    have none : turned = [] := by
      by_contra some
      exact absurd (kept.full some) (Nat.not_lt.mpr space)
    refine ⟨kept.held,?_,?_,kept.full⟩
    · intro t' record' done' copying
      cases copying
      exact ⟨space,by simp⟩
    · simp [order,pending,none]
  case copy record done i at_ =>
    obtain ⟨space,written⟩ := kept.copying _ _ _ at_
    rw [at_] at order
    refine ⟨kept.held.store space i _,?_,order,kept.full⟩
    intro t' record' done' copying
    cases copying
    refine ⟨space,?_⟩
    intro j member
    rw [LogBuffer.store_memory,kept.held.position]
    by_cases same : j = i
    · rw [same,Function.update_self]
    · have earlier : j ∈ done := by simpa [same] using member
      rw [Function.update_of_ne (by omega)]
      exact written j earlier
  case advance record done at_ all =>
    obtain ⟨space,written⟩ := kept.copying _ _ _ at_
    rw [at_] at order
    refine ⟨kept.held.advance space fun i => written i (all i),by simp,?_,?_⟩
    · simp [order,pending]
    · intro some
      exact absurd (kept.full some) (Nat.not_lt.mpr space)
  case ret accepted at_ =>
    rw [at_] at order
    exact ⟨kept.held,by simp,order,kept.full⟩

omit [DecidableEq Tid] in
theorem initial_kept (empty : start.writePos = 0) : Kept start ([] : List (Record s)) [] [] (initial start : State Tid s) := by
  refine ⟨⟨rfl,fun _ _ => rfl,?_,by simp,by simp⟩,by simp [initial],rfl,by simp⟩
  simp [initial,empty]

theorem runs_kept (object : s < 2^63) (empty : start.writePos = 0) (path : Runs Step (initial start) es st) :
    Kept start (accepted es) (refused es) (offered es) st := by
  refine path.preserves_history (fun es st => Kept start (accepted es) (refused es) (offered es) st) ?_ (initial_kept empty)
  intro es st e st' kept step
  rw [accepted,refused,offered,filterMap_snoc,filterMap_snoc,filterMap_snoc]
  exact kept.step object step

-- A call, from its lock on: what it has added to the histories, and that it has not
-- changed the buffer it found if it is refused or may yet be.
structure Calling (buf : LogBuffer) (t : Tid) (record : Record s) (within : List (Event Tid s)) (st : State Tid s)
    (l : Inside s) : Prop where
  held : st.holder = some (t,l)
  own : ∀ r, l.record = some r → r = record
  accepted : accepted within = if l.answer = some true then [record] else []
  refused : refused within = if l.answer = some false then [record] else []
  same : l.refusing = true → st.buf = buf

theorem Calling.step {l : Inside s} (calling : Calling buf t record within st l) (step : Step st e st') (inside : ∀ a, e ≠ ⟨t,.ret a⟩) :
    ∃ l', Calling buf t record (within++[e]) st' l' := by
  obtain ⟨held,own,taken,turned,same⟩ := calling
  have grown : LogWriter.accepted (within++[e]) = LogWriter.accepted within++e.act.accepted.toList := filterMap_snoc _ within e
  have more : LogWriter.refused (within++[e]) = LogWriter.refused within++e.act.refused.toList := filterMap_snoc _ within e
  cases step with
  | call free out => exact ⟨l,held,own,by simp [grown,taken,Act.accepted],by simp [more,turned,Act.refused],same⟩
  | lock called free => simp [free] at held
  | refuse at_ past =>
    rw [at_] at held
    cases held
    obtain rfl := own _ rfl
    exact ⟨.leaving false,rfl,by simp [Inside.record],by simp [grown,taken,Act.accepted,Inside.answer],
      by simp [more,turned,Act.refused,Inside.answer],fun _ => same rfl⟩
  | accept at_ room =>
    rw [at_] at held
    cases held
    exact ⟨.copying _ [],rfl,own,by simp [grown,taken,Act.accepted,Inside.answer],
      by simp [more,turned,Act.refused,Inside.answer],fun refusing => by cases refusing⟩
  | copy at_ =>
    rw [at_] at held
    cases held
    exact ⟨_,rfl,own,by simp [grown,taken,Act.accepted,Inside.answer],
      by simp [more,turned,Act.refused,Inside.answer],fun refusing => by cases refusing⟩
  | advance at_ all =>
    rw [at_] at held
    cases held
    obtain rfl := own _ rfl
    exact ⟨.leaving true,rfl,by simp [Inside.record],by simp [grown,taken,Act.accepted,Inside.answer],
      by simp [more,turned,Act.refused,Inside.answer],fun refusing => by cases refusing⟩
  | ret at_ =>
    rw [at_] at held
    cases held
    exact absurd rfl (inside _)

theorem calling_run (locked : Step before ⟨t,.lock record⟩ middle) (path : Runs Step middle within st)
    (inside : ∀ e ∈ within, ∀ a, e ≠ ⟨t,.ret a⟩) : ∃ l, Calling before.buf t record within st l := by
  refine path.preserves_admissible (fun es st => ∃ l, Calling before.buf t record es st l)
    (fun es => ∀ e ∈ es, ∀ a, e ≠ ⟨t,.ret a⟩) ?_ ?_ ?_ inside
  · intro es e admitted e' member
    exact admitted e' (List.mem_append_left [e] member)
  · rintro es st e st' admitted ⟨l,calling⟩ step
    exact calling.step step (admitted e (List.mem_append_right es List.mem_cons_self))
  · cases locked
    exact ⟨.locked record,rfl,by simp [Inside.record],rfl,rfl,fun _ => rfl⟩

structure Answered (start : LogBuffer) (earlier call : List (Event Tid s)) (record : Record s) (answer : Bool) : Prop where
  accepted : accepted call = if answer then [record] else []
  refused : refused call = if answer then [] else [record]
  untouched : answer = false →
    ∃ before after, Runs Step (initial start) earlier before ∧ Runs Step before call after ∧ after.buf = before.buf

structure KeepsAccepted (start : LogBuffer) (es : List (Event Tid s)) (st : State Tid s) : Prop where
  position : st.buf.writePos.toNat = s*(accepted es).length ∧ st.buf.writePos.toNat ≤ st.buf.size
  outside : st.buf.size = start.size ∧ ∀ a, start.size ≤ a → st.buf.memory a = start.memory a
  records : st.buf.records s = accepted es
  refusal : ∀ t record, st.holder = some (t,.locked record) →
    ((∃ next, Step st ⟨t,.refuse record⟩ next) ↔ st.buf.size-st.buf.writePos.toNat < s) ∧
      ((∃ next, Step st ⟨t,.accept record⟩ next) ↔ s ≤ st.buf.size-st.buf.writePos.toNat)
  untouched : ∀ earlier t record within, es = earlier++⟨t,.lock record⟩::within → (∀ e ∈ within, ∀ a, e ≠ ⟨t,.ret a⟩) →
    st.holder = some (t,.leaving false) → ∃ before, Runs Step (initial start) earlier before ∧ st.buf = before.buf
  answered : ∀ earlier t record within answer later, es = earlier++⟨t,.lock record⟩::(within++[⟨t,.ret answer⟩])++later →
    (∀ e ∈ within, ∀ a, e ≠ ⟨t,.ret a⟩) → Answered start earlier (⟨t,.lock record⟩::(within++[⟨t,.ret answer⟩])) record answer
  closed : ∀ earlier t record later, es = earlier++⟨t,.refuse record⟩::later → ∀ t' record', ⟨t',.accept record'⟩ ∉ later
  order : accepted es <+: offered es

theorem kept_refusal (object : s < 2^63) (kept : Kept start taken turned shown st) (at_ : st.holder = some (t,.locked record)) :
    ((∃ next, Step st ⟨t,.refuse record⟩ next) ↔ st.buf.size-st.buf.writePos.toNat < s) ∧
      ((∃ next, Step st ⟨t,.accept record⟩ next) ↔ s ≤ st.buf.size-st.buf.writePos.toNat) := by
  have full := kept.held.full_iff object
  have room := kept.held.room
  rw [kept.held.position,kept.held.size]
  constructor
  · constructor
    · intro ⟨next,step⟩
      cases step with
      | refuse at_ past =>
        have short := full.mp past
        omega
    · intro few
      exact ⟨_,.refuse at_ (full.mpr (by omega))⟩
  · constructor
    · intro ⟨next,step⟩
      cases step with
      | accept at_ open_ =>
        by_contra few
        exact absurd (full.mpr (by omega)) (by simp [open_])
    · intro enough
      refine ⟨_,.accept at_ ?_⟩
      rw [Bool.eq_false_iff]
      intro past
      have short := full.mp past
      omega

theorem refused_untouched (path : Runs Step (initial start) (earlier++⟨t,.lock record⟩::within) st)
    (inside : ∀ e ∈ within, ∀ a, e ≠ ⟨t,.ret a⟩) (refused : st.holder = some (t,.leaving false)) :
    ∃ before, Runs Step (initial start) earlier before ∧ st.buf = before.buf := by
  obtain ⟨before,middle,front,locked,rest⟩ := path.split_at
  obtain ⟨l,calling⟩ := calling_run locked rest inside
  cases refused.symm.trans calling.held
  exact ⟨before,front,calling.same rfl⟩

theorem call_answered (path : Runs Step (initial start) (earlier++⟨t,.lock record⟩::(within++[⟨t,.ret answer⟩])++later) st)
    (inside : ∀ e ∈ within, ∀ a, e ≠ ⟨t,.ret a⟩) :
    Answered start earlier (⟨t,.lock record⟩::(within++[⟨t,.ret answer⟩])) record answer := by
  obtain ⟨after,path,_⟩ := path.append_inv
  obtain ⟨before,front,call⟩ := path.append_inv
  obtain ⟨middle,locked,rest⟩ := call.cons_inv
  obtain ⟨last,inner,returned⟩ := rest.snoc_inv
  obtain ⟨l,calling⟩ := calling_run locked inner inside
  cases returned with
  | ret at_ =>
    cases at_.symm.trans calling.held
    have taken := calling.accepted
    have turned := calling.refused
    refine ⟨?_,?_,?_⟩
    · cases answer <;> simpa [accepted,Act.accepted,Inside.answer] using taken
    · cases answer <;> simpa [refused,Act.refused,Inside.answer] using turned
    · rintro rfl
      exact ⟨before,_,front,call,calling.same rfl⟩

theorem refused_closed (object : s < 2^63) (empty : start.writePos = 0)
    (path : Runs Step (initial start) (earlier++⟨t,.refuse record⟩::later) st) : ⟨t',.accept record'⟩ ∉ later := by
  intro member
  obtain ⟨middle,rest,rfl⟩ := List.append_of_mem member
  rw [← List.cons_append,← List.append_assoc] at path
  obtain ⟨here,next,front,step,_⟩ := path.split_at
  have kept := runs_kept object empty front
  have short := kept.full (by simp [refused,Act.refused])
  cases step with
  | accept at_ room => exact absurd ((kept.held.full_iff object).mpr short) (by simp [room])

theorem buffer_keeps_accepted (positive : 0 < s) (object : s < 2^63) (empty : start.writePos = 0)
    (path : Runs Step (initial start) es st) : KeepsAccepted start es st := by
  have kept := runs_kept object empty path
  refine ⟨?_,⟨kept.held.size,kept.held.outside⟩,kept.held.readBack positive,fun _ _ => kept_refusal object kept,?_,?_,?_,?_⟩
  · rw [kept.held.position,kept.held.size]
    exact ⟨Nat.mul_comm _ _,kept.held.room⟩
  · rintro earlier t record within rfl
    exact refused_untouched path
  · rintro earlier t record within answer later rfl
    exact call_answered path
  · rintro earlier t record later rfl t' record'
    exact refused_closed object empty path
  · rw [kept.order,List.append_assoc]
    exact List.prefix_append _ _

end Steps

def threeBytes : LogBuffer := ⟨3,fun _ => 0,0,by decide⟩

def ones : Record 2 := fun _ => 1
def twos : Record 2 := fun _ => 2

def twoCalls : List (Event Bool 2) :=
  [⟨true,.call ones⟩,⟨false,.call twos⟩,⟨true,.lock ones⟩,⟨true,.accept ones⟩,⟨true,.copy (.last 1)⟩,
    ⟨true,.copy (.castSucc (.last 0))⟩,⟨true,.advance ones⟩,⟨true,.ret true⟩,⟨false,.lock twos⟩,⟨false,.refuse twos⟩,⟨false,.ret false⟩]

theorem buffer_keeps_accepted_sample : ∃ st, Runs Step (initial threeBytes) twoCalls st ∧ KeepsAccepted threeBytes twoCalls st := by
  have path : ∃ st, Runs Step (initial threeBytes) twoCalls st :=
    ⟨_,.cons (.call rfl (by simp [initial])) (.cons (.call rfl (by simp [initial])) (.cons (.lock rfl rfl) (.cons (.accept rfl rfl)
      (.cons (.copy rfl) (.cons (.copy rfl) (.cons (.advance rfl (by decide)) (.cons (.ret rfl) (.cons (.lock rfl rfl)
        (.cons (.refuse rfl rfl) (.single (.ret rfl)))))))))))⟩
  obtain ⟨st,path⟩ := path
  exact ⟨st,path,buffer_keeps_accepted (by decide) (by decide) rfl path⟩

end Chronos.LogWriter
