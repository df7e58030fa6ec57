import Chronos.PriorityQueue

namespace Chronos

structure HeapEntry where
  timestamp : UInt64
  streamIdx : UInt64
  deriving DecidableEq

namespace HeapEntry

-- operator>, which looks at the timestamps alone.
def greater (e o : HeapEntry) : Bool := e.timestamp > o.timestamp

def Upto (e o : HeapEntry) : Prop :=
  e.timestamp < o.timestamp ∨ e.timestamp = o.timestamp ∧ e.streamIdx ≤ o.streamIdx

theorem greater_iff {e o : HeapEntry} : e.greater o = true ↔ o.timestamp.toNat < e.timestamp.toNat := by
  simp [greater,UInt64.lt_iff_toNat_lt]

theorem upto_antisymm {e o : HeapEntry} (same : e.timestamp = o.timestamp) (up : e.Upto o) (down : o.Upto e) : e = o := by
  obtain ⟨timestamp,streamIdx⟩ := e
  obtain ⟨timestamp',streamIdx'⟩ := o
  cases same
  simp only [Upto,UInt64.lt_irrefl,false_or,true_and] at up down
  rw [UInt64.le_antisymm up down]

end HeapEntry

abbrev ReplayHeap := PriorityQueue HeapEntry (fun e o => o.greater e = true)

def Reproducible (entries : List HeapEntry) : Prop :=
  ∀ (heap : ReplayHeap) (as bs : List HeapEntry), as.Perm entries → bs.Perm entries →
    heap.pops as = heap.pops bs ∧ (heap.pops as).Pairwise HeapEntry.Upto

def arrivalHeap : ReplayHeap := .first (fun e => e.timestamp.toNat) fun _ _ => HeapEntry.greater_iff

section Replay
variable {entries : List HeapEntry}

theorem distinct_reproducible (distinct : (entries.map HeapEntry.timestamp).Nodup) : Reproducible entries := by
  have told : ∀ e ∈ entries, ∀ o ∈ entries, ¬ o.greater e = true → ¬ e.greater o = true → e = o := by
    intro e left o right upto downto
    rw [HeapEntry.greater_iff] at upto downto
    have same : e.timestamp = o.timestamp := UInt64.toNat_inj.mp (by omega)
    exact List.inj_on_of_nodup_map distinct left right same
  intro heap as bs one two
  refine ⟨heap.pops_unique heap told one two,?_⟩
  have members : ∀ e ∈ heap.pops as, e ∈ entries := fun e popped => one.subset ((heap.pops_perm as).subset popped)
  refine (heap.pops_ordered as).imp_of_mem ?_
  intro e o left right upto
  by_cases earlier : e.timestamp < o.timestamp
  · exact .inl earlier
  · have downto : ¬ o.greater e = true := by simpa [HeapEntry.greater] using earlier
    obtain rfl := told e (members e left) o (members o right) downto upto
    exact .inr ⟨rfl,UInt64.le_refl _⟩

theorem arrival_pops {e o : HeapEntry} (same : e.timestamp = o.timestamp) (apart : e ≠ o) (rest : List HeapEntry) :
    List.Sublist [e,o] (arrivalHeap.pops (e::o::rest)) := by
  unfold arrivalHeap
  exact PriorityQueue.first_pops (x:=e) (y:=o) _ (congrArg UInt64.toNat same) apart rest

-- Whatever arrives first of a tie comes out first, so that it cannot be the larger.
theorem reproducible_ties {e o : HeapEntry} (reproducible : Reproducible entries) (left : e ∈ entries) (right : o ∈ entries)
    (same : e.timestamp = o.timestamp) (apart : e ≠ o) : e.Upto o := by
  have kept : o ∈ entries.erase e := (List.mem_erase_of_ne (Ne.symm apart)).mpr right
  have order : (e::o::(entries.erase e).erase o).Perm entries :=
    ((List.perm_cons_erase kept).symm.cons e).trans (List.perm_cons_erase left).symm
  obtain ⟨_,sorted⟩ := reproducible arrivalHeap _ _ order order
  exact List.pairwise_pair.mp (sorted.sublist (arrival_pops same apart _))

theorem reproducible_distinct (nodup : entries.Nodup) (reproducible : Reproducible entries) :
    (entries.map HeapEntry.timestamp).Nodup := by
  refine (List.nodup_map_iff_inj_on nodup).mpr ?_
  intro e left o right same
  by_contra apart
  have up := reproducible_ties reproducible left right same apart
  have down := reproducible_ties reproducible right left same.symm (Ne.symm apart)
  exact apart (HeapEntry.upto_antisymm same up down)

theorem reproducible_iff (streams : (entries.map HeapEntry.streamIdx).Nodup) :
    Reproducible entries ↔ (entries.map HeapEntry.timestamp).Nodup :=
  ⟨reproducible_distinct streams.of_map,distinct_reproducible⟩

end Replay

theorem reproducible_sample : Reproducible [⟨5,0⟩,⟨7,1⟩] ↔ ([⟨5,0⟩,⟨7,1⟩].map HeapEntry.timestamp).Nodup :=
  reproducible_iff (by decide)

theorem tied_entries : arrivalHeap.pops [⟨5,0⟩,⟨5,1⟩] = [⟨5,0⟩,⟨5,1⟩] ∧ arrivalHeap.pops [⟨5,1⟩,⟨5,0⟩] = [⟨5,1⟩,⟨5,0⟩] ∧
    ([⟨5,0⟩,⟨5,1⟩].map HeapEntry.streamIdx).Nodup ∧ ¬ Reproducible [⟨5,0⟩,⟨5,1⟩] := by
  refine ⟨rfl,rfl,by decide,?_⟩
  intro reproducible
  obtain ⟨same,_⟩ := reproducible arrivalHeap [⟨5,0⟩,⟨5,1⟩] [⟨5,1⟩,⟨5,0⟩] (.refl _) (.swap _ _ _)
  exact absurd (congrArg List.head? same) (by decide)

end Chronos
