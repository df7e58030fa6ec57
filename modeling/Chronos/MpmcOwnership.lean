import Chronos.MpmcTickets

namespace Chronos.MpmcQueue
variable {Tid W T : Type} {c : Capacity} {A : Arithmetic W c} {val : W → Nat} {half : Nat}
variable {s : State Tid W T c} {es : List (Event Tid W T)} {pushed : List T}

def Local.holding (l : Local W T) : Option W := l.writing.or l.reading

theorem Local.holding_cases {l : Local W T} (held : l.holding = some pos) :
    l.writing = some pos ∨ l.reading = some pos := by
  cases l <;> simp_all [Local.holding,Local.writing,Local.reading]

-- Tickets read out lie in one lap as well: behind tail, not a lap behind head.
theorem Inv.readers_apart (inv : Inv val pushed s) (one : (s.threads t).reading = some p)
    (two : (s.threads u).reading = some q) (same : c.index (val p) = c.index (val q)) : val p = val q := by
  obtain ⟨oldp,nearp,_⟩ := inv.reader t p one
  obtain ⟨oldq,nearq,_⟩ := inv.reader u q two
  have order := inv.order
  rcases Nat.le_total (val p) (val q) with below | above
  · exact Capacity.index_window same below (by omega)
  · exact (Capacity.index_window same.symm above (by omega)).symm

theorem Inv.writers_apart (inv : Inv val pushed s) (one : (s.threads t).writing = some p)
    (two : (s.threads u).writing = some q) (same : c.index (val p) = c.index (val q)) : val p = val q := by
  obtain ⟨lowp,highp,_⟩ := inv.writer t p one
  obtain ⟨lowq,highq,_⟩ := inv.writer u q two
  have room := inv.room
  exact window_unique lowp (by omega) lowq (by omega) same

theorem Inv.slot_owner (inv : Inv val pushed s) (one : (s.threads t).holding = some p)
    (two : (s.threads u).holding = some q) (same : c.index (val p) = c.index (val q)) : t = u := by
  rcases Local.holding_cases one with writes | reads <;> rcases Local.holding_cases two with writes' | reads'
  · exact inv.oneWriter t u p q writes writes' (inv.writers_apart writes writes' same)
  · exact absurd same.symm (inv.apart writes reads')
  · exact absurd same (inv.apart writes' reads)
  · exact inv.oneReader t u p q reads reads' (inv.readers_apart reads reads' same)

theorem Accounted.kept [DecidableEq Tid] (faithful : Faithful A val half) (acc : Accounted val es s)
    (won : (t,pos,v) ∈ pushWins es) (stored : .published t pos ∈ es)
    (unreleased : ∀ u, .released u pos ∉ es) :
    dataAt s (val pos) = v ∧ seqAt val s (val pos) = val pos+1 := by
  have value := acc.ordered.value_at won
  have below := acc.ordered.head_lt won
  by_cases popped : val pos < val s.tail
  · have present : val pos ∈ (popWins es).map (fun w => val w.2) := by
      rw [acc.ordered.2]; exact List.mem_range.mpr popped
    obtain ⟨⟨u,q⟩,member,same⟩ := List.mem_map.mp present
    obtain rfl := faithful.injective _ _ same
    rcases acc.traced.released u q member with done | held
    · exact absurd done (unreleased u)
    · obtain ⟨_,_,seq,data⟩ := acc.inv.reader u q held
      rw [value] at data
      exact ⟨(Option.some.inj data).symm,seq⟩
  · obtain ⟨_,unheld⟩ := acc.traced.published t pos stored
    obtain ⟨seq,data⟩ := acc.inv.filled (val pos) (Nat.not_lt.mp popped) below
      (fun u q held same => unheld u (by rw [held,faithful.injective _ _ same]))
    rw [value] at data
    exact ⟨(Option.some.inj data).symm,seq⟩

structure SlotsOwned (es : List (Event Tid (BitVec 64) T)) (s : State Tid (BitVec 64) T c) : Prop where
  behind : s.tail.toNat ≤ s.head.toNat
  room : s.head.toNat ≤ s.tail.toNat+c.size
  oneOwner : ∀ t u p q, (s.threads t).holding = some p → (s.threads u).holding = some q →
    (word c).slot p = (word c).slot q → t = u
  kept : ∀ t pos v, (t,pos,v) ∈ pushWins es → .published t pos ∈ es →
    (∀ u, .released u pos ∉ es) → (s.slots ((word c).slot pos)).data = v

theorem slots_owned {Tid T : Type} [DecidableEq Tid] {c : Capacity} {junk : Fin c.size → T}
    {es : List (Event Tid (BitVec 64) T)} {s : State Tid (BitVec 64) T c}
    (power : 1 ≤ c.exponent) (path : Runs (Step (word c)) (initial (word c) junk) es s)
    (few : (pushWins es).length < 2^63) : SlotsOwned es s := by
  have fits : Fits c (2^63) es := by have := c.size_le; simp only [Fits]; omega
  have faithful := word_faithful c
  have acc := runs_accounted faithful (c.two_le power) path fits
  refine ⟨acc.inv.order,acc.inv.room,?_,?_⟩
  · intro t u p q one two same
    rw [faithful.slot,faithful.slot] at same
    exact acc.inv.slot_owner one two same
  · intro t pos v won stored unreleased
    rw [faithful.slot]
    exact (acc.kept faithful won stored unreleased).1

def stalledCopy : List (Bool × Choice Nat) :=
  [(true,.call (.tryPush 7)),(true,.run),(true,.run),(true,.run),
   (false,.call (.tryPush 8)),(false,.run),(false,.run),(false,.run),(false,.run),(false,.run)]

theorem slots_owned_stalledCopy :
    ∃ follows : (play (schedule (word two)) (initial (word two) (fun _ => 0)) stalledCopy).isSome,
      SlotsOwned ((play (schedule (word two)) (initial (word two) (fun _ => 0)) stalledCopy).get follows).1
        ((play (schedule (word two)) (initial (word two) (fun _ => 0)) stalledCopy).get follows).2 :=
  ⟨by decide,slots_owned (by decide) (schedule_runs (by decide)) (by decide)⟩

end Chronos.MpmcQueue
