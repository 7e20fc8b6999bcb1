import Ctguard.QueueOperations
import Mathlib.Algebra.Order.BigOperators.Group.Finset

/-!
# No thread waits in vain

The threads that are inside an operation get to an end by themselves: so many steps of theirs, and
nobody can take another one. Then the mutex is free, and whoever has not returned waits for an
element of an empty queue. A notification is never lost, since it is made under the mutex that the
waiting thread gives back only when it is on the list.
-/

namespace Ctguard.BlockedQueue

universe u v

variable {θ : Type u} {α : Type v} [DecidableEq θ] {s s' : State θ α}

/-- No operation is under way, but those that need an element and find none. -/
structure Rests (s : State θ α) : Prop where
  mutex : s.mutex = none
  phase : ∀ t, s.phase t = .outside ∨
    ∃ op : Op α, s.phase t = .waiting op ∧ op.waits = true ∧ s.queue = []

section Rest

/-- The thread that holds the mutex can go on. -/
theorem Guarded.inside_goes (h : Guarded s) {t : θ} (hinside : (s.phase t).inside = true) :
    s.go t ≠ none := by
  have hfits := h.fits t
  rw [State.go]
  cases hphase : s.phase t with
  | testing op waited => simp
  | notifying => simp
  | leaving r => simp
  | removing op tmp =>
    rw [hphase] at hfits
    obtain ⟨-, hhead⟩ := hfits
    cases hqueue : s.queue with
    | nil => simp [hqueue] at hhead
    | cons x rest => simp
  | accessing op =>
    rw [hphase] at hfits
    have hsome : op.tests = true → s.queue ≠ [] := hfits
    cases hqueue : s.queue with
    | nil =>
      cases op with
      | push value => simp [State.use]
      | size => simp [State.use]
      | empty => simp [State.use]
      | _ => exact absurd hqueue (hsome rfl)
    | cons x rest => cases op <;> simp [State.use, hqueue]
  | _ =>
    rw [hphase] at hinside
    cases hinside

theorem Guarded.rests (h : Guarded s) (hnone : ∀ t, s.go t = none) : Rests s := by
  have hout : ∀ t, (s.phase t).inside = false := by
    intro t
    cases hinside : (s.phase t).inside with
    | false => rfl
    | true => exact absurd (hnone t) (h.inside_goes hinside)
  have hmutex : s.mutex = none := by
    cases hheld : s.mutex with
    | none => rfl
    | some t =>
      have hinside := (h.owner t).mpr hheld
      rw [hout t] at hinside
      cases hinside
  refine ⟨hmutex, fun t => ?_⟩
  have hstuck := hnone t
  have houtside := hout t
  have hfits := h.fits t
  rw [State.go, hmutex] at hstuck
  cases hphase : s.phase t with
  | outside => exact .inl rfl
  | waiting op =>
    rw [hphase] at hfits
    refine .inr ⟨op, rfl, hfits, ?_⟩
    rcases h.wakes with hqueue | hno | ⟨u, hu⟩
    · exact hqueue
    · exact absurd hphase (hno t op)
    · have hinside := hout u
      rw [hu] at hinside
      cases hinside
  | locking op => simp [hphase] at hstuck
  | waking op => simp [hphase] at hstuck
  | _ =>
    rw [hphase] at houtside
    cases houtside

end Rest

section Measure

variable [Fintype θ]

/-- The steps that the threads can take by themselves. Each notification may wake all of them. -/
def State.measure (s : State θ α) : ℕ :=
  ∑ t, (s.phase t).weight + 6 * Fintype.card θ * ∑ t, (s.phase t).owes

theorem sum_update (f : Phase α → ℕ) (s : State θ α) (t : θ) (p : Phase α) :
    ∑ u, f (Function.update s.phase t p u) + f (s.phase t) = ∑ u, f (s.phase u) + f p := by
  have hothers : ∑ u ∈ Finset.univ.erase t, f (Function.update s.phase t p u) =
      ∑ u ∈ Finset.univ.erase t, f (s.phase u) := by
    refine Finset.sum_congr rfl fun u hu => ?_
    rw [Function.update_of_ne (Finset.ne_of_mem_erase hu)]
  have hnew := Finset.add_sum_erase Finset.univ (fun u => f (Function.update s.phase t p u))
    (Finset.mem_univ t)
  have hold := Finset.add_sum_erase Finset.univ (fun u => f (s.phase u)) (Finset.mem_univ t)
  simp only [Function.update_self] at hnew
  rw [← hnew, ← hold, hothers]
  omega

theorem measure_below {t : θ} {p : Phase α} (h : p.Below (s.phase t)) (q : List α)
    (m : Option θ) : (State.mk q m (Function.update s.phase t p)).measure < s.measure := by
  have hweight := sum_update Phase.weight s t p
  have howes := sum_update Phase.owes s t p
  have hless : ∑ u, (Function.update s.phase t p u).weight < ∑ u, (s.phase u).weight := by
    have := h.1
    omega
  have hle : ∑ u, (Function.update s.phase t p u).owes ≤ ∑ u, (s.phase u).owes := by
    have := h.2
    omega
  exact Nat.add_lt_add_of_lt_of_le hless (Nat.mul_le_mul_left _ hle)

theorem weight_notified (p : Phase α) : p.notified.weight ≤ p.weight + 6 := by
  cases p <;> simp [Phase.notified, Phase.weight]

theorem owes_notified (p : Phase α) : p.notified.owes = p.owes := by
  cases p <;> rfl

/-- Who notifies may wake all the others, but does not owe it any more. -/
theorem measure_notify {t : θ} (hphase : s.phase t = .notifying) : State.measure
    { s with phase := Function.update (fun u => (s.phase u).notified) t (.leaving .done) } <
      s.measure := by
  have hnotified : (s.phase t).notified = .notifying := by
    rw [hphase]
    rfl
  have hend : (Phase.notifying : Phase α).weight = 2 ∧ (Phase.leaving .done : Phase α).weight = 1 ∧
      (Phase.notifying : Phase α).owes = 1 ∧ (Phase.leaving .done : Phase α).owes = 0 :=
    ⟨rfl, rfl, rfl, rfl⟩
  have hweight := sum_update Phase.weight { s with phase := fun u => (s.phase u).notified } t
    (.leaving .done)
  have howes := sum_update Phase.owes { s with phase := fun u => (s.phase u).notified } t
    (.leaving .done)
  simp only [hnotified, owes_notified] at hweight howes
  have hwoken : ∑ u, (s.phase u).notified.weight ≤
      ∑ u, (s.phase u).weight + 6 * Fintype.card θ := by
    calc ∑ u, (s.phase u).notified.weight ≤ ∑ u, ((s.phase u).weight + 6) :=
          Finset.sum_le_sum fun u _ => weight_notified (s.phase u)
      _ = ∑ u, (s.phase u).weight + 6 * Fintype.card θ := by
          rw [Finset.sum_add_distrib, Finset.sum_const_nat fun _ _ => rfl, Finset.card_univ,
            Nat.mul_comm]
  have hless : ∑ u, (Function.update (fun u => (s.phase u).notified) t
      (.leaving .done) u).weight < ∑ u, (s.phase u).weight + 6 * Fintype.card θ := by
    omega
  have hsettled : ∑ u, (s.phase u).owes = ∑ u, (Function.update (fun u => (s.phase u).notified) t
      (.leaving .done) u).owes + 1 := by
    omega
  rw [State.measure, State.measure, hsettled, Nat.mul_add, Nat.mul_one]
  dsimp only
  omega

/-- A step of a thread by itself brings the end nearer. -/
theorem Goes.measure {t : θ} (h : Goes s t s') : s'.measure < s.measure := by
  cases h with
  | locks op p hfree hinside habs hnext hfits hbelow => exact measure_below hbelow _ _
  | moves op p hheld hinside habs hnext hfits hbelow => exact measure_below hbelow _ _
  | waits op hheld hnone habs hwaits hbelow => exact measure_below hbelow _ _
  | runs op r q hheld habs heffect hnone hbelow => exact measure_below hbelow _ _
  | pushes value hheld habs hbelow => exact measure_below hbelow _ _
  | notifies hheld hphase => exact measure_notify hphase
  | leaves r hheld hphase =>
    refine measure_below ?_ _ _
    rw [hphase]
    exact ⟨Nat.zero_lt_one, Nat.le_refl _⟩

/-- However the threads are scheduled, those that are inside an operation come to an end: every
`push` has returned, and nobody waits for an element that is there. -/
theorem operations_end {xs : List (Step θ α)} (h : runSteps step initial xs = some s)
    {ts : List θ} (hts : runSteps State.go s ts = some s') :
    ts.length ≤ s.measure ∧ ((∀ t, s'.go t = none) → Rests s') := by
  have hguarded : Guarded s :=
    runSteps_invariant (fun hinv hstep => hinv.step hstep) guarded_initial h
  have hlength := runSteps_length (fun hinv hgo => hinv.of_goes (hinv.goes hgo))
    (fun hinv hgo => (hinv.goes hgo).measure) hguarded hts
  have hguarded' : Guarded s' :=
    runSteps_invariant (fun hinv hgo => hinv.of_goes (hinv.goes hgo)) hguarded hts
  exact ⟨by omega, hguarded'.rests⟩

/-- The steps of the two threads, once one of them waits and the other one has the mutex. -/
def bothEnd : List Bool := [true, true, true, true, false, false, false, false, false]

theorem operations_end_bothEnd : ∃ s s' : State Bool ℕ,
    runSteps step initial (takeThenPush.take 4) = some s ∧ runSteps State.go s bothEnd = some s' ∧
      9 ≤ s.measure ∧ Rests s' := by
  have hruns : ((runSteps step (initial : State Bool ℕ) (takeThenPush.take 4)).bind
      fun s => runSteps State.go s bothEnd).any
        (fun s' => (s'.go false).isNone && (s'.go true).isNone) = true := by decide
  cases hs : runSteps step (initial : State Bool ℕ) (takeThenPush.take 4) with
  | none => simp [hs] at hruns
  | some s =>
    rw [hs, Option.bind_some] at hruns
    cases hs' : runSteps State.go s bothEnd with
    | none => simp [hs'] at hruns
    | some s' =>
      simp only [hs', Option.any_some, Bool.and_eq_true, Option.isNone_iff_eq_none] at hruns
      obtain ⟨hlength, hrests⟩ := operations_end hs hs'
      refine ⟨s, s', rfl, hs', hlength, hrests fun t => ?_⟩
      cases t
      · exact hruns.1
      · exact hruns.2

end Measure

end Ctguard.BlockedQueue
