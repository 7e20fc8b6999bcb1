import Ctguard.OutputTask

/-!
# The order in which an output task forwards events

Events that wait in the local queue are sent later than they were taken. While they wait,
a new event can go to the sink directly. The sink sees them late, if one of them is sent
after all.
-/

namespace Ctguard.OutputTask

variable {ι ε : Type} {t : OutputTask ι ε} {s s' : State ι ε}

/-- The events at the sink stand in the order in which they were put into the queue. -/
def State.InOrder (s : State ι ε) : Prop := (s.delivered.map Prod.fst).Pairwise (· < ·)

/-- The step sends a new event although older ones wait. -/
def Overtakes (t : OutputTask ι ε) (s : State ι ε) : Step ι → Prop
  | .take (.ok ()) => (∀ e ∈ s.queue.head?, t.isKill e.2 = false) ∧ s.localQueue ≠ []
  | _ => False

/-- After an event was sent ahead of waiting ones, nothing is sent from the local queue. -/
def LeavesBehind (t : OutputTask ι ε) (steps : List (Step ι)) : Prop :=
  ∀ pre x mid post s, steps = pre ++ x :: mid ++ .resend (.ok ()) :: post →
    t.run pre = some s → ¬ t.Overtakes s x

/-- How a step changes what is at the sink and what waits. -/
inductive Moves (t : OutputTask ι ε) (s : State ι ε) (x : Step ι) (s' : State ι ε) : Prop where
  | nothing (hdelivered : s'.delivered = s.delivered) (hlocal : s'.localQueue = s.localQueue)
      (hover : ¬ t.Overtakes s x) (hne : x ≠ .resend (.ok ()))
  | direct (e : ℕ × ε) (hdelivered : s'.delivered = s.delivered ++ [e])
      (hlocal : s'.localQueue = s.localQueue) (hnew : ∀ d ∈ s.taken, d.1 < e.1)
      (hover : s.localQueue ≠ [] → t.Overtakes s x) (hne : x ≠ .resend (.ok ()))
  | kept (e : ℕ × ε) (hdelivered : s'.delivered = s.delivered)
      (hlocal : s'.localQueue = s.localQueue ++ [e]) (hnew : ∀ d ∈ s.taken, d.1 < e.1)
      (hover : ¬ t.Overtakes s x) (hne : x ≠ .resend (.ok ()))
  | resent (e : ℕ × ε) (hdelivered : s'.delivered = s.delivered ++ [e])
      (hlocal : s.localQueue = e :: s'.localQueue) (hx : x = .resend (.ok ()))

theorem Balanced.moves (h : Balanced s) {x : Step ι} (hstep : t.step s x = some s') :
    t.Moves s x s' := by
  cases does_of_step hstep with
  | emplace x => exact .nothing rfl rfl (fun hx => hx) (by simp)
  | @kill n y rest sent hphase hqueue hkill =>
    have hsame := drain_sameEvents (t := t) .shutdown { s with queue := rest }
    refine .nothing hsame.delivered hsame.localQueue ?_ (by simp)
    intro hx
    cases sent with
    | ok u =>
      have hfalse := hx.1 (n, y) (by simp [hqueue])
      simp [hkill] at hfalse
    | error what => exact hx
  | direct hphase hqueue hkill =>
    exact .direct _ rfl rfl (h.front hqueue)
      (fun hlocal => ⟨by simp [hqueue, hkill], hlocal⟩) (by simp)
  | keep what hphase hqueue hkill =>
    exact .kept _ rfl rfl (h.front hqueue) (fun hx => hx) (by simp)
  | timeout hphase hqueue =>
    have hsame := drain_sameEvents (t := t) .interval s
    exact .nothing hsame.delivered hsame.localQueue (fun hx => hx) (by simp)
  | @resent e rest hphase hlocal =>
    have hsame := drain_sameEvents (t := t) s.phase
      { s with localQueue := rest, delivered := s.delivered ++ [e] }
    exact .resent e hsame.delivered (hlocal.trans (by rw [hsame.localQueue])) rfl
  | failed moment what hphase hlocal =>
    have hsame := leave_sameEvents (t := t)
      { s with log := s.log ++ [t.cannotForward moment what] }
    exact .nothing hsame.delivered hsame.localQueue (fun hx => hx) (by simp)

theorem Balanced.delivered_subset (h : Balanced s) : s.delivered ⊆ s.taken := by
  intro d hd
  rw [h.balance.mem_iff]
  exact List.mem_append_left _ hd

theorem Balanced.waiting_sorted (h : Balanced s) :
    (s.localQueue.map Prod.fst).Pairwise (· < ·) :=
  (List.pairwise_append.mp h.sorted).1.sublist (h.waiting.map Prod.fst)

theorem inOrder_append {e : ℕ × ε} (hdelivered : s'.delivered = s.delivered ++ [e]) :
    s'.InOrder ↔ s.InOrder ∧ ∀ d ∈ s.delivered, d.1 < e.1 := by
  simp [State.InOrder, hdelivered, List.pairwise_append]

theorem inOrder_congr (hdelivered : s'.delivered = s.delivered) : s'.InOrder ↔ s.InOrder := by
  rw [State.InOrder, State.InOrder, hdelivered]

/-- Everything at the sink is older than what waits. -/
def State.Clear (s : State ι ε) : Prop := ∀ d ∈ s.delivered, ∀ e ∈ s.localQueue, d.1 < e.1

/-- Without overtaking, a step keeps what waits behind what was sent. -/
theorem State.Clear.step (h : s.Clear) (hbalanced : Balanced s) {x : Step ι}
    (hx : ¬ t.Overtakes s x) (hstep : t.step s x = some s') : s'.Clear := by
  intro d hd e' he'
  cases hbalanced.moves hstep with
  | nothing hdelivered hlocal hover hne => exact h d (hdelivered ▸ hd) e' (hlocal ▸ he')
  | direct e hdelivered hlocal hnew hover hne =>
    have hempty : s.localQueue = [] := by
      by_contra hwaiting
      exact hx (hover hwaiting)
    simp [hlocal, hempty] at he'
  | kept e hdelivered hlocal hnew hover hne =>
    rw [hlocal] at he'
    rcases List.mem_append.mp he' with hold | hlast
    · exact h d (hdelivered ▸ hd) e' hold
    · rw [List.mem_singleton.mp hlast]
      exact hnew d (hbalanced.delivered_subset (hdelivered ▸ hd))
  | resent e hdelivered hlocal hx =>
    have hsorted := hbalanced.waiting_sorted
    rw [hlocal, List.map_cons, List.pairwise_cons] at hsorted
    rw [hdelivered] at hd
    rcases List.mem_append.mp hd with hold | hlast
    · exact h d hold e' (hlocal ▸ List.mem_cons_of_mem e he')
    · rw [List.mem_singleton.mp hlast]
      exact hsorted.1 e'.1 (List.mem_map_of_mem he')

theorem clear_run {steps : List (Step ι)}
    (hC : StepsMeet t.step (fun s x => ¬ t.Overtakes s x) {} steps)
    (h : t.run steps = some s) : s.Clear := by
  have hboth : Balanced s ∧ s.Clear :=
    hC.invariant (P := fun s => Balanced s ∧ s.Clear)
      (fun hs hx hstep => ⟨hs.1.step hstep, hs.2.step hs.1 hx hstep⟩)
      ⟨balanced_init, by simp [State.Clear]⟩ h
  exact hboth.2

theorem LeavesBehind.concat {steps : List (Step ι)} {x : Step ι}
    (h : t.LeavesBehind (steps ++ [x])) : t.LeavesBehind steps := by
  rintro pre y mid post s rfl hs
  exact h pre y mid (post ++ [x]) s (by simp) hs

theorem LeavesBehind.last {steps : List (Step ι)}
    (h : t.LeavesBehind (steps ++ [.resend (.ok ())])) :
    StepsMeet t.step (fun s x => ¬ t.Overtakes s x) {} steps := by
  rintro pre x post s rfl hs
  exact h pre x post [] s rfl hs

theorem LeavesBehind.inOrder {steps : List (Step ι)} (hbehind : t.LeavesBehind steps)
    (h : t.run steps = some s) : s.InOrder := by
  induction steps using List.reverseRecOn generalizing s with
  | nil =>
    rw [← Option.some.inj h]
    exact List.Pairwise.nil
  | append_singleton steps x ih =>
    obtain ⟨u, hu, hstep⟩ := runSteps_concat.mp h
    have hbalanced := balanced_run hu
    have horder := ih hbehind.concat hu
    cases hbalanced.moves hstep with
    | nothing hdelivered hlocal hover hne => exact (inOrder_congr hdelivered).mpr horder
    | direct e hdelivered hlocal hnew hover hne =>
      exact (inOrder_append hdelivered).mpr
        ⟨horder, fun d hd => hnew d (hbalanced.delivered_subset hd)⟩
    | kept e hdelivered hlocal hnew hover hne => exact (inOrder_congr hdelivered).mpr horder
    | resent e hdelivered hlocal hx =>
      subst hx
      have hclear := clear_run hbehind.last hu
      exact (inOrder_append hdelivered).mpr
        ⟨horder, fun d hd => hclear d hd e (by simp [hlocal])⟩

/-- The first of the waiting events was overtaken, or the order is lost already. -/
def State.Late (s : State ι ε) : Prop :=
  (∃ e ∈ s.localQueue.head?, ∃ d ∈ s.delivered, e.1 < d.1) ∨ ¬ s.InOrder

theorem not_inOrder_step (h : ¬ s.InOrder) (hbalanced : Balanced s) {x : Step ι}
    (hstep : t.step s x = some s') : ¬ s'.InOrder := by
  cases hbalanced.moves hstep with
  | nothing hdelivered hlocal hover hne => rwa [inOrder_congr hdelivered]
  | direct e hdelivered hlocal hnew hover hne =>
    exact fun horder => h ((inOrder_append hdelivered).mp horder).1
  | kept e hdelivered hlocal hnew hover hne => rwa [inOrder_congr hdelivered]
  | resent e hdelivered hlocal hx =>
    exact fun horder => h ((inOrder_append hdelivered).mp horder).1

/-- An overtaken event stays at the front of the local queue until it is sent, and then
the order is lost. -/
theorem State.Late.step (h : s.Late) (hbalanced : Balanced s) {x : Step ι}
    (hstep : t.step s x = some s') :
    s'.Late ∧ (x = .resend (.ok ()) → ¬ s'.InOrder) := by
  rcases h with ⟨e, he, d, hd, hlt⟩ | hnot
  · obtain ⟨rest, hfront⟩ := List.head?_eq_some_iff.mp he
    cases hbalanced.moves hstep with
    | nothing hdelivered hlocal hover hne =>
      exact ⟨.inl ⟨e, hlocal ▸ he, d, hdelivered ▸ hd, hlt⟩, fun hx => absurd hx hne⟩
    | direct e' hdelivered hlocal hnew hover hne =>
      have hd' : d ∈ s'.delivered := hdelivered ▸ List.mem_append_left [e'] hd
      exact ⟨.inl ⟨e, hlocal ▸ he, d, hd', hlt⟩, fun hx => absurd hx hne⟩
    | kept e' hdelivered hlocal hnew hover hne =>
      have he' : e ∈ s'.localQueue.head? := by simp [hlocal, hfront]
      exact ⟨.inl ⟨e, he', d, hdelivered ▸ hd, hlt⟩, fun hx => absurd hx hne⟩
    | resent e' hdelivered hlocal hx =>
      obtain ⟨rfl, -⟩ := List.cons.inj (hfront.symm.trans hlocal)
      have hlost : ¬ s'.InOrder := by
        intro horder
        have hge := ((inOrder_append hdelivered).mp horder).2 d hd
        omega
      exact ⟨.inr hlost, fun _ => hlost⟩
  · have hlost := not_inOrder_step hnot hbalanced hstep
    exact ⟨.inr hlost, fun _ => hlost⟩

theorem late_of_overtakes (hbalanced : Balanced s) {x : Step ι} (hx : t.Overtakes s x)
    (hstep : t.step s x = some s') : s'.Late := by
  cases hbalanced.moves hstep with
  | nothing hdelivered hlocal hover hne => exact absurd hx hover
  | direct e hdelivered hlocal hnew hover hne =>
    have hwaiting : s.localQueue ≠ [] := by
      cases x with
      | take sent =>
        cases sent with
        | ok u => exact hx.2
        | error what => exact hx.elim
      | emplace y => exact hx.elim
      | timeout => exact hx.elim
      | resend sent => exact hx.elim
    obtain ⟨e', rest, hfront⟩ := List.exists_cons_of_ne_nil hwaiting
    have hlt := hnew e' (hbalanced.waiting.subset (by simp [hfront]))
    exact .inl ⟨e', by simp [hlocal, hfront], e, by simp [hdelivered], hlt⟩
  | kept e hdelivered hlocal hnew hover hne => exact absurd hx hover
  | resent e hdelivered hlocal heq => exact (heq ▸ hx : t.Overtakes s (.resend (.ok ()))).elim

theorem not_inOrder_of_overtakes {pre mid post : List (Step ι)} {x : Step ι} {u : State ι ε}
    (h : t.run (pre ++ x :: mid ++ .resend (.ok ()) :: post) = some s)
    (hu : t.run pre = some u) (hx : t.Overtakes u x) : ¬ s.InOrder := by
  obtain ⟨w, w', hw, hresend, hpost⟩ := runSteps_split h
  obtain ⟨u', v, hu', hstep, hmid⟩ := runSteps_split hw
  obtain rfl := Option.some.inj (hu.symm.trans hu')
  have hv := late_of_overtakes (balanced_run hu) hx hstep
  have hlate : Balanced w ∧ w.Late :=
    runSteps_invariant (P := fun s => Balanced s ∧ s.Late)
      (fun hs hx => ⟨hs.1.step hx, (hs.2.step hs.1 hx).1⟩)
      ⟨(balanced_run hu).step hstep, hv⟩ hmid
  have hlost : Balanced w' ∧ ¬ w'.InOrder :=
    ⟨hlate.1.step hresend, (hlate.2.step hlate.1 hresend).2 rfl⟩
  have hend : Balanced s ∧ ¬ s.InOrder :=
    runSteps_invariant (P := fun s => Balanced s ∧ ¬ s.InOrder)
      (fun hs hx => ⟨hs.1.step hx, not_inOrder_step hs.2 hs.1 hx⟩) hlost hpost
  exact hend.2

/-- A task forwards in order exactly if it never makes up for an event it overtook. -/
theorem inOrder_iff_leavesBehind (t : OutputTask ι ε) {steps : List (Step ι)}
    (h : t.run steps = some s) : s.InOrder ↔ t.LeavesBehind steps := by
  constructor
  · rintro horder pre x mid post u rfl hu hx
    exact not_inOrder_of_overtakes h hu hx horder
  · intro hbehind
    exact hbehind.inOrder h

/-- The first of two events can not be sent at once, the second can; then the first one
is sent from the local queue. -/
def overtakingRun (x y : ι) : List (Step ι) :=
  [.emplace x, .emplace y, .take (.error "Connection refused"), .take (.ok ()), .timeout,
    .resend (.ok ())]

theorem inOrder_iff_overtakingRun :
    ∃ s, logscan.run (overtakingRun { message := "first" } { message := "second" }) = some s ∧
      (s.InOrder ↔
        logscan.LeavesBehind (overtakingRun { message := "first" } { message := "second" })) :=
  ⟨_, rfl, inOrder_iff_leavesBehind logscan rfl⟩

theorem overtakingRun_delivered {x y : ι} (hx : t.isKill x = false) (hy : t.isKill y = false) :
    ∃ s, t.run (overtakingRun x y) = some s ∧
      s.delivered = [(1, t.forwarded y), (0, t.forwarded x)] := by
  simp [overtakingRun, step, forward, drain, leave, resend, hx, hy]

theorem exists_not_inOrder {x y : ι} (hx : t.isKill x = false) (hy : t.isKill y = false) :
    ¬ ∀ steps s, t.run steps = some s → s.InOrder := by
  intro h
  obtain ⟨s, hrun, hdelivered⟩ := overtakingRun_delivered hx hy
  have horder := h _ s hrun
  simp [State.InOrder, hdelivered] at horder

theorem output_tasks_not_inOrder :
    (¬ ∀ steps s, logscan.run steps = some s → s.InOrder) ∧
      (¬ ∀ steps s, diskscan.run steps = some s → s.InOrder) ∧
      (¬ ∀ steps s, intervention.run steps = some s → s.InOrder) := by
  have hevents : ∀ t : OutputTask SourceEvent SourceEvent,
      t.isKill { message := "first" } = false → t.isKill { message := "second" } = false →
      ¬ ∀ steps s, t.run steps = some s → s.InOrder := fun _ => exists_not_inOrder
  refine ⟨hevents logscan rfl rfl, hevents diskscan rfl rfl, ?_⟩
  have hblock : intervention.isKill ⟨"block", "10.0.0.1", false⟩ = false := rfl
  have hunblock : intervention.isKill ⟨"unblock", "10.0.0.1", false⟩ = false := rfl
  exact exists_not_inOrder hblock hunblock

end Ctguard.OutputTask
