import Chronos.Runs

namespace Chronos.RetryLoop

-- A loop that reads a shared counter, looks at something, and then tries to move
-- the counter on by one with a compare-exchange; others move the same counter.
inductive Stage where
  | load
  | look (pos : Nat)
  | swap (pos : Nat)
  | past
  deriving DecidableEq

structure Loop where
  stage : Stage
  counter : Nat

inductive Label where
  | quiet
  | iteration
  | rival
  | spurious
  deriving DecidableEq

inductive Step : Loop → Label → Loop → Prop where
  | load : Step ⟨.load,n⟩ .quiet ⟨.look n,n⟩
  | matched : Step ⟨.look pos,n⟩ .iteration ⟨.swap pos,n⟩
  | decided : Step ⟨.look pos,n⟩ .iteration ⟨.past,n⟩
  | behind (moved : pos < n) : Step ⟨.look pos,n⟩ .iteration ⟨.load,n⟩
  | won : Step ⟨.swap n,n⟩ .quiet ⟨.past,n+1⟩
  | lost (moved : pos < n) : Step ⟨.swap pos,n⟩ .quiet ⟨.look n,n⟩
  | spurious : Step ⟨.swap n,n⟩ .spurious ⟨.look n,n⟩
  | rival : Step ⟨stage,n⟩ .rival ⟨stage,n+1⟩
  | idle : Step loop .quiet loop

-- Each iteration but the last is paid for: by a spurious failure, or by the
-- distance that the position has moved since the counter stood at `origin`.
def Paid (origin : Nat) (ls : List Label) : Loop → Prop
  | ⟨.load,n⟩ => n = origin+ls.count .rival ∧ ls.count .iteration+origin ≤ ls.count .spurious+n
  | ⟨.look pos,n⟩ => n = origin+ls.count .rival ∧ pos ≤ n ∧ ls.count .iteration+origin ≤ ls.count .spurious+pos
  | ⟨.swap pos,n⟩ => n = origin+ls.count .rival ∧ pos ≤ n ∧ ls.count .iteration+origin ≤ 1+ls.count .spurious+pos
  | ⟨.past,_⟩ => ls.count .iteration ≤ 1+ls.count .rival+ls.count .spurious

theorem Paid.step {ls : List Label} {label : Label} {loop loop' : Loop} (paid : Paid origin ls loop)
    (step : Step loop label loop') : Paid origin (ls++[label]) loop' := by
  cases step with
  | rival =>
    rename_i stage n
    cases stage <;> (simp [Paid,List.count_append] at *; omega)
  | idle =>
    obtain ⟨stage,n⟩ := loop
    cases stage <;> simpa [Paid,List.count_append] using paid
  | _ => simp [Paid,List.count_append] at *; omega

theorem runs_paid {ls : List Label} {loop : Loop} (path : Runs Step ⟨.load,origin⟩ ls loop) : Paid origin ls loop :=
  path.preserves_history (Paid origin) (fun _ _ _ _ => Paid.step) (by simp [Paid])

theorem iterations_le {ls : List Label} {loop : Loop} (path : Runs Step ⟨.load,origin⟩ ls loop) :
    ls.count .iteration ≤ 1+ls.count .rival+ls.count .spurious := by
  have paid := runs_paid path
  obtain ⟨stage,n⟩ := loop
  cases stage <;> simp only [Paid] at paid <;> omega

end Chronos.RetryLoop
