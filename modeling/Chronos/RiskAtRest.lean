import Chronos.RiskWriter
import Mathlib.Logic.Relation

namespace Chronos.RiskEngine
open Seqlock

variable {F : Type} [Double F]

structure AtRest (s : Shared F) : Prop where
  apart : s.writeIdx ≠ s.active
  even : s.version &&& 1 = 0

-- Every copy of the limits is the conversion of p, and p is what getParameters sees.
structure Agree (s : Shared F) (p : RiskParameters F) : Prop where
  params : (s.cold s.active).params = p
  fast : s.hot = buildHot p
  slow : (s.cold s.active).hot = buildHot p
  dark : ∀ i, i ≠ s.active → (s.cold i).hot = buildHot p

theorem fin_two_other {i j k : Fin 2} (first : i ≠ k) (second : j ≠ k) : i = j := by
  revert i j k
  decide

theorem bump_twice_even {v : BitVec 64} (even : v &&& 1 = 0) : (v+1+1) &&& 1 = 0 := by
  rw [word_even] at even ⊢
  simp only [BitVec.toNat_add]
  omega

theorem update_version (s : Shared F) (p : RiskParameters F) : (s.update p).version = s.version+1+1 := rfl

theorem update_active (s : Shared F) (p : RiskParameters F) : (s.update p).active = s.writeIdx := rfl

theorem update_hot (s : Shared F) (p : RiskParameters F) : (s.update p).hot = buildHot p := by
  simp [Shared.update,Shared.publishParams,Shared.swapColdBuffers,Shared.setCold,Shared.setColdVersion]

theorem update_atRest {s : Shared F} (p : RiskParameters F) (rest : AtRest s) : AtRest (s.update p) :=
  ⟨(flip_ne s.writeIdx).symm,bump_twice_even rest.even⟩

theorem update_published (s : Shared F) (p : RiskParameters F) : Holds ((s.update p).cold s.writeIdx) p := by
  have other : s.writeIdx ≠ if s.writeIdx = 0 then 1 else 0 := flip_ne s.writeIdx
  simp [Holds,Shared.update,Shared.publishParams,Shared.swapColdBuffers,Shared.setCold,Shared.setColdVersion,other]

theorem update_retired (s : Shared F) (p : RiskParameters F) :
    ((s.update p).cold (s.update p).writeIdx).hot = (s.update p).hot := by
  simp [Shared.update,Shared.publishParams,Shared.swapColdBuffers,Shared.setCold]

theorem update_agree (s : Shared F) (p : RiskParameters F) : Agree (s.update p) p := by
  obtain ⟨params,slow⟩ := update_published s p
  refine ⟨params,update_hot s p,slow,fun i other => ?_⟩
  have retired : i = (s.update p).writeIdx :=
    fin_two_other other (by rw [update_active]; exact (flip_ne s.writeIdx).symm)
  rw [retired,update_retired,update_hot]

theorem updates_atRest {s : Shared F} (ps : List (RiskParameters F)) (rest : AtRest s) :
    AtRest (ps.foldl Shared.update s) := by
  induction ps generalizing s with
  | nil => exact rest
  | cons p ps ih => exact ih (update_atRest p rest)

theorem updates_version (s : Shared F) (ps : List (RiskParameters F)) :
    (ps.foldl Shared.update s).version = s.version+BitVec.ofNat 64 (2*ps.length) := by
  induction ps generalizing s with
  | nil => simp
  | cons p ps ih =>
    have twice : BitVec.ofNat 64 (2*(ps.length+1)) = 1+(1+BitVec.ofNat 64 (2*ps.length)) := by
      rw [Nat.mul_add,Nat.add_comm,BitVec.ofNat_add,← BitVec.add_assoc]
      rfl
    rw [List.foldl_cons,ih,update_version,List.length_cons,twice,BitVec.add_assoc,BitVec.add_assoc]

theorem updates_agree (s : Shared F) {ps : List (RiskParameters F)} (some : ps ≠ []) :
    Agree (ps.foldl Shared.update s) (ps.getLast some) := by
  obtain ⟨front,p,rfl⟩ := (List.eq_nil_or_concat ps).resolve_left some
  simp only [List.concat_eq_append,List.foldl_append,List.foldl_cons,List.foldl_nil,List.getLast_concat]
  exact update_agree _ p

def Alone : Shared F × Local F → Shared F × Local F → Prop := Relation.ReflTransGen fun x y => turn x.1 x.2 = some y

theorem Alone.turn {s : Shared F} {w : Writer F} (rest : Alone (writerTurn s w) y) : Alone (s,.writer w) y := .head rfl rest

theorem Alone.runs {Tid : Type} [DecidableEq Tid] {x y : Shared F × Local F} (alone : Alone x y) (s : State Tid F) (t : Tid) :
    ∃ es, Runs Step (s.move t x.1 x.2) es (s.move t y.1 y.2) := by
  induction alone with
  | refl => exact ⟨[],.nil⟩
  | @tail y z _ taken ih =>
    obtain ⟨es,path⟩ := ih
    have next := Step.turn (move_self s t y.1 y.2) taken
    have same : (s.move t y.1 y.2).move t z.1 z.2 = s.move t z.1 z.2 := by simp [State.move]
    rw [same] at next
    exact ⟨_,path.step next⟩

section Loops
variable {α : Type} {V : α → Type} [DecidableEq α]

def assign (target : (a : α) → V a) (rest : List α) (fields : (a : α) → V a) : (a : α) → V a :=
  rest.foldl (fun fields a => Function.update fields a (target a)) fields

theorem assign_all (target fields : (a : α) → V a) {rest : List α} (all : ∀ a, a ∈ rest) :
    assign target rest fields = target := by
  have listed : ∀ (rest : List α) (fields : (a : α) → V a) (a : α),
      assign target rest fields a = if a ∈ rest then target a else fields a := by
    intro rest
    induction rest with
    | nil => intro fields a; simp [assign]
    | cons b rest ih =>
      intro fields a
      rw [assign,List.foldl_cons,← assign,ih]
      by_cases same : a = b
      · subst b; simp
      · simp [same]
  funext a
  rw [listed,if_pos (all a)]

end Loops

omit [Double F] in
theorem setCold_same (s : Shared F) (i : Fin 2) : s.setCold i (s.cold i) = s := by simp [Shared.setCold]

section Phases
variable {y : Shared F × Local F}

theorem fill_alone (p : RiskParameters F) (i : Fin 2) (rest : List Param) (s : Shared F)
    (next : Alone (s.setCold i {s.cold i with params := assign p rest (s.cold i).params},.writer (.fill p i [])) y) :
    Alone (s,.writer (.fill p i rest)) y := by
  induction rest generalizing s with
  | nil => rw [← setCold_same s i]; exact next
  | cons k rest ih =>
    refine .turn (ih _ ?_)
    simpa [Shared.setParam,Shared.setCold,assign] using next

theorem build_alone (p : RiskParameters F) (i : Fin 2) (rest : List Limit) (s : Shared F)
    (next : Alone (s.setCold i {s.cold i with hot := assign (buildHot (s.cold i).params) rest (s.cold i).hot},
      .writer (.build p i [])) y) : Alone (s,.writer (.build p i rest)) y := by
  induction rest generalizing s with
  | nil => rw [← setCold_same s i]; exact next
  | cons l rest ih =>
    refine .turn (ih _ ?_)
    simpa [Shared.setColdHot,Shared.setCold,assign,buildHot] using next

theorem copy_alone (p : RiskParameters F) (i : Fin 2) (rest : List Limit) (s : Shared F)
    (next : Alone ({s with hot := assign (s.cold i).hot rest s.hot},.writer (.copy p i [])) y) :
    Alone (s,.writer (.copy p i rest)) y := by
  induction rest generalizing s with
  | nil => exact next
  | cons l rest ih => exact .turn (ih _ next)

theorem back_alone (p : RiskParameters F) (i : Fin 2) (rest : List Limit) (s : Shared F)
    (next : Alone (s.setCold i {s.cold i with hot := assign s.hot rest (s.cold i).hot},.writer (.back p i [])) y) :
    Alone (s,.writer (.back p i rest)) y := by
  induction rest generalizing s with
  | nil => rw [← setCold_same s i]; exact next
  | cons l rest ih =>
    refine .turn (ih _ ?_)
    simpa [Shared.setColdHot,Shared.setCold,assign] using next

end Phases

theorem update_alone (s : Shared F) (p : RiskParameters F) : Alone (s,entry s (.update p)) (s.update p,.idle) := by
  refine fill_alone _ _ _ _ ?_
  rw [assign_all _ _ Param.mem_all]
  refine .turn (build_alone _ _ _ _ ?_)
  rw [assign_all _ _ Limit.mem_all]
  refine .turn (.turn (.turn (.turn (copy_alone _ _ _ _ ?_))))
  rw [assign_all _ _ Limit.mem_all]
  refine .turn (.turn (.turn (.turn (.turn (.turn (.turn (back_alone _ _ _ _ ?_)))))))
  rw [assign_all _ _ Limit.mem_all]
  exact .turn .refl

theorem update_runs {Tid : Type} [DecidableEq Tid] {s : State Tid F} {t : Tid} (p : RiskParameters F)
    (free : s.threads t = .idle) : ∃ es, Runs Step s es (s.move t (s.shared.update p) .idle) := by
  obtain ⟨es,path⟩ := (update_alone s.shared p).runs s t
  have entered : Step s (.call t (.update p)) (s.move t s.shared (entry s.shared (.update p))) := .call free
  exact ⟨_,.cons entered path⟩

theorem copies_agree {F : Type} [Double F] (s : Shared F) (apart : s.writeIdx ≠ s.active) (even : s.version &&& 1 = 0)
    (ps : List (RiskParameters F)) (some : ps ≠ []) :
    Agree (ps.foldl Shared.update s) (ps.getLast some) ∧
      (ps.foldl Shared.update s).writeIdx ≠ (ps.foldl Shared.update s).active ∧
      (ps.foldl Shared.update s).version &&& 1 = 0 ∧
      (ps.foldl Shared.update s).version = s.version+BitVec.ofNat 64 (2*ps.length) := by
  have rest := updates_atRest ps ⟨apart,even⟩
  exact ⟨updates_agree s some,rest.apart,rest.even,updates_version s ps⟩

theorem copies_agree_thrice :
    Agree ([fives,(buffers 0).params,fives].foldl Shared.update (initial zeros buffers : State Bool Rat).shared) fives ∧
      ([fives,(buffers 0).params,fives].foldl Shared.update (initial zeros buffers : State Bool Rat).shared).version = 6 := by
  have agreed := copies_agree (initial zeros buffers : State Bool Rat).shared (by decide) (by decide)
    [fives,(buffers 0).params,fives] (by simp)
  exact ⟨agreed.1,agreed.2.2.2⟩

end Chronos.RiskEngine
