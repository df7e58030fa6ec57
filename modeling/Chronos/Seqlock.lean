import Mathlib.Algebra.Ring.Nat
import Mathlib.Logic.Function.Basic

namespace Chronos.Seqlock

-- A record guarded by a version that is odd while its fields are written. The
-- version is counted here without wrap-around.
structure Cell (K : Type) (V : K → Type) where
  bumps : Nat
  fields : (k : K) → V k

variable {K : Type} {V : K → Type} [DecidableEq K]

inductive Write : Cell K V → Cell K V → Prop where
  | still : Write c c
  | bump : Write c {c with bumps := c.bumps+1}
  | field (busy : c.bumps % 2 = 1) : Write c {c with fields := Function.update c.fields k v}

def PartOf (whole : (k : K) → V k) (seen : List ((k : K) × V k)) : Prop := ∀ r ∈ seen, whole r.1 = r.2

instance [∀ k, DecidableEq (V k)] (whole : (k : K) → V k) (seen : List ((k : K) × V k)) : Decidable (PartOf whole seen) :=
  inferInstanceAs (Decidable (∀ r ∈ seen, whole r.1 = r.2))

omit [DecidableEq K] in
theorem PartOf.snoc {whole : (k : K) → V k} {seen : List ((k : K) × V k)} (part : PartOf whole seen) (k : K) :
    PartOf whole (seen++[⟨k,whole k⟩]) := by
  intro r member
  rcases List.mem_append.mp member with old | new
  · exact part r old
  · obtain rfl := List.mem_singleton.mp new
    rfl

-- What a reader may rely on that saw the version at `start`: until the version
-- moves, the record is the one it started from, and so is all it has read.
def Sound (c : Cell K V) (start : Nat) (whole : (k : K) → V k) (seen : List ((k : K) × V k)) : Prop :=
  start ≤ c.bumps ∧ (c.bumps = start → c.fields = whole ∧ PartOf whole seen)

variable {c c' : Cell K V} {whole : (k : K) → V k} {seen : List ((k : K) × V k)}

omit [DecidableEq K] in
theorem Sound.opened (c : Cell K V) : Sound c c.bumps c.fields [] :=
  ⟨Nat.le_refl _,fun _ => ⟨rfl,by simp [PartOf]⟩⟩

omit [DecidableEq K] in
theorem Sound.read (sound : Sound c start whole seen) (k : K) : Sound c start whole (seen++[⟨k,c.fields k⟩]) := by
  refine ⟨sound.1,fun same => ?_⟩
  obtain ⟨held,part⟩ := sound.2 same
  subst held
  exact ⟨rfl,part.snoc k⟩

theorem Sound.write (sound : Sound c start whole seen) (even : start % 2 = 0) (write : Write c c') :
    Sound c' start whole seen := by
  cases write with
  | still => exact sound
  | bump =>
    refine ⟨Nat.le_succ_of_le sound.1,fun same => ?_⟩
    have := sound.1
    simp only at same
    omega
  | field busy =>
    refine ⟨sound.1,fun same => ?_⟩
    simp only at same
    omega

omit [DecidableEq K] in
theorem Sound.validated (sound : Sound c start whole seen) (same : c.bumps = start) : PartOf whole seen :=
  (sound.2 same).2

theorem word_parity (v : BitVec 64) : (v &&& 1).toNat = v.toNat % 2 := by
  rw [BitVec.toNat_and,show (1 : BitVec 64).toNat = 1 from rfl,Nat.and_one_is_mod]

theorem word_even (v : BitVec 64) : v &&& 1 = 0 ↔ v.toNat % 2 = 0 := by
  rw [← BitVec.toNat_inj,word_parity]
  rfl

theorem word_odd (v : BitVec 64) : v &&& 1 = 1 ↔ v.toNat % 2 = 1 := by
  rw [← BitVec.toNat_inj,word_parity]
  rfl

theorem even_word (n : Nat) : BitVec.ofNat 64 n &&& 1 = 0 ↔ n % 2 = 0 := by
  rw [word_even,BitVec.toNat_ofNat]
  omega

theorem odd_word (n : Nat) : BitVec.ofNat 64 n &&& 1 = 1 ↔ n % 2 = 1 := by
  rw [word_odd,BitVec.toNat_ofNat]
  omega

-- Equal version words mean equal versions as long as the counter has not come
-- round in between.
omit [DecidableEq K] in
theorem Sound.same_word (sound : Sound c start whole seen) (prompt : c.bumps < start+2^64)
    (words : BitVec.ofNat 64 start = BitVec.ofNat 64 c.bumps) : c.bumps = start := by
  have equal := congrArg BitVec.toNat words
  have order := sound.1
  simp only [BitVec.toNat_ofNat] at equal
  omega

end Chronos.Seqlock
