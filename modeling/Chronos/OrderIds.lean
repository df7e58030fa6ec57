import Chronos.GridLedger

namespace Chronos

structure OrderIDGenerator where
  currentId : UInt64 := 1
  deriving DecidableEq

namespace OrderIDGenerator

-- fetch_add(1): the id handed out is the one before.
def generate (gen : OrderIDGenerator) : UInt64 × OrderIDGenerator := (gen.currentId,⟨gen.currentId+1⟩)

def issue (gen : OrderIDGenerator) : Nat → List UInt64
  | 0 => []
  | m+1 => gen.generate.1::gen.generate.2.issue m

theorem issue_range {gen : OrderIDGenerator} {m : Nat} (few : gen.currentId.toNat+m ≤ 2^64) :
    (gen.issue m).map UInt64.toNat = List.range' gen.currentId.toNat m := by
  induction m generalizing gen with
  | zero => rfl
  | succ m ih =>
    rw [issue,List.map_cons,List.range'_succ]
    congr 1
    cases m with
    | zero => rfl
    | succ m =>
      have next : gen.generate.2.currentId.toNat = gen.currentId.toNat+1 := by
        show (gen.currentId+1).toNat = _
        rw [UInt64.toNat_add,show (1 : UInt64).toNat = 1 from rfl]
        omega
      rw [ih (by omega),next]

theorem issue_nodup {gen : OrderIDGenerator} {m : Nat} (few : gen.currentId.toNat+m ≤ 2^64) :
    ((gen.issue m).map UInt64.toNat).Nodup := issue_range few ▸ List.nodup_range'

end OrderIDGenerator

namespace GridStrategy

variable {F : Type} [Double F] {n : Nat}

-- The accepted orders got ids of m calls to one generator, in the order of the
-- calls; the rest of the m went to rejected orders and to other strategies.
def Drawn (start : UInt64) (m : Nat) (es : List (Event n)) : Prop :=
  (accepted es).Sublist (((OrderIDGenerator.mk start).issue m).map UInt64.toNat)

instance (start : UInt64) (m : Nat) (es : List (Event n)) : Decidable (Drawn start m es) :=
  inferInstanceAs (Decidable (List.Sublist _ _))

theorem Drawn.fresh {start : UInt64} {m : Nat} {es : List (Event n)} (drawn : Drawn start m es)
    (few : m < 2^64-start.toNat) : (accepted es).Nodup :=
  drawn.nodup (OrderIDGenerator.issue_nodup (show start.toNat+m ≤ 2^64 by omega))

structure FillsOnce (es : List (Event n)) (g : Strategy F n) : Prop where
  distinct : ∀ k l : Key n, (g.levels k.2).slot k.1 ≠ 0 → (g.levels k.2).slot k.1 = (g.levels l.2).slot l.1 → k = l
  once : ∀ oid ∈ processed es, ∀ (fill : Fill) (answers : Answers), fill.orderId = oid →
    deliver g (.onFill fill answers) = (g,[.filled fill none])

theorem fills_once {F : Type} [Double F] {cfg : Config F} {es : List (Event (cfg.gridLevels+1).toNat)}
    {g : Strategy F (cfg.gridLevels+1).toNat} {start : UInt64} {m : Nat} (path : Runs Step (initial cfg) es g)
    (few : m < 2^64-start.toNat) (drawn : Drawn start m es) : FillsOnce es g := by
  have fresh := drawn.fresh few
  have slots := runs_table path
  rw [table_initial] at slots
  constructor
  · intro k l held same
    exact SlotTable.unique slots (fresh_entered fresh) (table_eq_some.mpr ⟨held,rfl⟩)
      (table_eq_some.mpr ⟨held,same.symm⟩)
  · rintro oid done fill answers rfl
    exact deliver_unknown (left_slots path fresh (.inr done)) answers

def filledTwice : List Callback :=
  [.onLoad,.onTick {mid := hundred, ids := [1,2]},.onFill (whole 1) {mid := hundred, ids := [4]},
   .onFill (whole 1) {mid := hundred, ids := [5]}]

theorem fills_once_filledTwice :
    ∃ follows : (play follow (initial pair) filledTwice).isSome,
      FillsOnce ((play follow (initial pair) filledTwice).get follows).1
        ((play follow (initial pair) filledTwice).get follows).2 :=
  have drawn : Drawn 1 4 ((play follow (initial pair) filledTwice).get (by decide +kernel)).1 := by decide +kernel
  ⟨by decide +kernel,fills_once (play_get follow_sound _) (by decide) drawn⟩

end GridStrategy
end Chronos
