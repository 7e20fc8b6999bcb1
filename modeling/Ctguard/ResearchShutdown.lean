import Ctguard.ResearchDaemon
import Ctguard.RuleChain

/-!
# Which alerts a shutdown of the research daemon forgets

`output_task` returns at the kill message, and `mail_task` when it finds `RUNNING` false. An
alert is written exactly if it is put into the output queue in front of the kill message,
and a written alert is mailed, or counted as discarded, exactly if it reaches the queue of
`mail_task` and is taken from there before that thread leaves its loop. A thread that ends
with an exception loses what it holds and what waits for it.
-/

namespace Ctguard.ResearchDaemon

variable {ρ : Type} {host : Host ρ} {cfg : MailConfig} {rules : RuleCfg ρ} {s s' : State}

/-- A numbered event at which `output_task` ends. -/
def Stop (e : ℕ × Event) : Prop := Stops e.2

/-- The event that `output_task` holds and has not written. -/
def OutputPhase.writes : OutputPhase → List (ℕ × Event)
  | .writing e => [e]
  | _ => []

/-- The event that `output_task` holds for `mail_task`. -/
def OutputPhase.mails : OutputPhase → List (ℕ × Event)
  | .mailing e => [e]
  | _ => []

def OutputPhase.reads : OutputPhase → Bool
  | .ended => false
  | _ => true

/-- The event that a step puts into the output queue. -/
def alertPut (cfg : MailConfig) (s : State) : Step → Option Event
  | .processing _ =>
    match s.processingTask with
    | .putting (.alert e :: _) _ => some e
    | _ => none
  | .state now =>
    match s.stateTask with
    | .passing above =>
      (nextState above s.rulesState).bind fun p => (statePoll cfg.toResearchConfig now p.2).2
    | _ => none
  | _ => none

/-- An alert is put while `output_task` reads and no kill message waits in its queue, and that
task does not end with an exception while it holds an alert or one waits. -/
def PutInTime (cfg : MailConfig) (s : State) : Step → Prop
  | .fail .output => s.outputTask.writes = [] ∧ ∀ e ∈ s.outputQueue, Stop e
  | x => ∀ e, alertPut cfg s x = some e → ¬ Stops e →
      s.outputTask.reads = true ∧ ∀ k ∈ s.outputQueue, ¬ Stop k

section Alerts

/-- What was written, is to be written, or waits was put, and is there once. -/
structure AlertInv (history written : List (ℕ × Event)) (output : OutputPhase)
    (queue : List (ℕ × Event)) : Prop where
  numbered : ∀ e ∈ history, e.1 < history.length
  subset : written ++ (output.writes ++ queue) ⊆ history
  nodup : (written ++ (output.writes ++ queue)).Nodup
  writes : ∀ e ∈ output.writes, ¬ Stop e

/-- Every alert that was put is written, is to be written, or waits in front of every kill
message. -/
def AllWritten (history written : List (ℕ × Event)) (output : OutputPhase)
    (queue : List (ℕ × Event)) : Prop :=
  AllReached Stop history (written ++ output.writes) queue output.reads

variable {history written queue : List (ℕ × Event)} {output output' : OutputPhase}

theorem AlertInv.new (h : AlertInv history written output queue) (e : Event) :
    (history.length, e) ∉ history :=
  fun hmem => lt_irrefl _ (h.numbered _ hmem)

theorem AlertInv.put (h : AlertInv history written output queue) (e : Event) :
    AlertInv (history ++ [(history.length, e)]) written output
      (queue ++ [(history.length, e)]) := by
  have heq : written ++ (output.writes ++ (queue ++ [(history.length, e)])) =
      written ++ (output.writes ++ queue) ++ [(history.length, e)] := by simp
  refine ⟨?_, ?_, ?_, h.writes⟩
  · intro x hx
    rw [List.length_append, List.length_singleton]
    rcases List.mem_append.mp hx with hx | hx
    · exact (h.numbered x hx).trans (Nat.lt_succ_self _)
    · rw [List.mem_singleton.mp hx]
      exact Nat.lt_succ_self _
  · rw [heq]
    exact List.append_subset.mpr ⟨List.Subset.trans h.subset (List.subset_append_left _ _),
      List.subset_append_right _ _⟩
  · rw [heq]
    exact List.nodup_append'.mpr ⟨h.nodup, List.nodup_singleton _,
      List.disjoint_singleton.mpr fun hmem => h.new e (h.subset hmem)⟩

/-- What is lost is a part of what was there. -/
theorem AlertInv.lose (h : AlertInv history written output queue)
    {queue' : List (ℕ × Event)} (houtput : output'.writes = [])
    (hqueue : queue'.Sublist (output.writes ++ queue)) :
    AlertInv history written output' queue' := by
  have hsub : (written ++ (output'.writes ++ queue')).Sublist
      (written ++ (output.writes ++ queue)) := by
    rw [houtput, List.nil_append]
    exact (List.Sublist.refl written).append hqueue
  refine ⟨h.numbered, List.Subset.trans hsub.subset h.subset, hsub.nodup h.nodup, ?_⟩
  simp [houtput]

theorem AlertInv.take {e : ℕ × Event} (h : AlertInv history written .loop (e :: queue))
    (hstop : ¬ Stop e) : AlertInv history written (.writing e) queue where
  numbered := h.numbered
  subset := h.subset
  nodup := h.nodup
  writes := by simpa [OutputPhase.writes] using hstop

theorem AlertInv.write {e : ℕ × Event} (h : AlertInv history written (.writing e) queue)
    (houtput : output'.writes = []) : AlertInv history (written ++ [e]) output' queue := by
  have heq : written ++ [e] ++ (output'.writes ++ queue) =
      written ++ ((OutputPhase.writing e).writes ++ queue) := by
    have hhand : (OutputPhase.writing e).writes = [e] := rfl
    rw [houtput, hhand, List.append_assoc, List.nil_append]
  refine ⟨h.numbered, ?_, ?_, ?_⟩
  · rw [heq]
    exact h.subset
  · rw [heq]
    exact h.nodup
  · simp [houtput]

theorem AlertInv.step (h : AlertInv s.history s.written s.outputTask s.outputQueue) {x : Step}
    (hstep : step host cfg rules s x = some s') :
    AlertInv s'.history s'.written s'.outputTask s'.outputQueue := by
  cases does_of_step hstep with
  | @puts now p ps stop hphase =>
    cases p with
    | intervention i => exact h
    | alert e => exact h.put e
  | @raises now above id state e hphase hnext hpoll => exact h.put e
  | @takes e rest hphase hqueue hstop =>
    rw [hphase, hqueue] at h
    exact h.take hstop
  | @takesKill e rest hphase hqueue hstop =>
    rw [hphase, hqueue] at h
    exact h.lose rfl (List.sublist_cons_self e rest)
  | @writes e hphase =>
    rw [hphase] at h
    exact h.write (by split <;> rfl)
  | @mails e hphase =>
    rw [hphase] at h
    exact h.lose rfl (List.Sublist.refl _)
  | @fails w hawake =>
    cases w with
    | output => exact h.lose rfl (List.sublist_append_right _ _)
    | _ => exact h
  | _ => exact h

/-- Nothing is put, and `output_task` does not fail. -/
theorem putInTime_of_none {x : Step} (hput : alertPut cfg s x = none) (hx : x ≠ .fail .output) :
    PutInTime cfg s x := by
  rw [PutInTime]
  · simp [hput]
  · exact hx

theorem putInTime_iff {x : Step} {e : Event} (hput : alertPut cfg s x = some e)
    (hx : x ≠ .fail .output) : PutInTime cfg s x ↔
      (¬ Stops e → s.outputTask.reads = true ∧ ∀ k ∈ s.outputQueue, ¬ Stop k) := by
  rw [PutInTime]
  · simp [hput]
  · exact hx

theorem allWritten_put (h : AlertInv history written output queue) (e : Event) :
    AllWritten (history ++ [(history.length, e)]) written output
        (queue ++ [(history.length, e)]) ↔
      AllWritten history written output queue ∧
        (¬ Stops e → output.reads = true ∧ ∀ k ∈ queue, ¬ Stop k) := by
  have hnew : (history.length, e) ∉ written ++ output.writes := by
    intro hmem
    apply h.new e
    apply h.subset
    rw [← List.append_assoc]
    exact List.mem_append_left _ hmem
  exact allReached_put (h.new e) hnew

theorem allWritten_step (h : AlertInv s.history s.written s.outputTask s.outputQueue) {x : Step}
    (hstep : step host cfg rules s x = some s') :
    AllWritten s'.history s'.written s'.outputTask s'.outputQueue ↔
      AllWritten s.history s.written s.outputTask s.outputQueue ∧ PutInTime cfg s x := by
  have hquiet : ∀ {P : Prop}, alertPut cfg s x = none → x ≠ .fail .output →
      (P ↔ P ∧ PutInTime cfg s x) :=
    fun hput hx => (and_iff_left (putInTime_of_none hput hx)).symm
  cases does_of_step hstep with
  | @puts now p ps stop hphase =>
    cases p with
    | intervention i => exact hquiet (by simp [alertPut, hphase]) (by simp)
    | alert e =>
      have hput : alertPut cfg s (.processing now) = some e := by simp [alertPut, hphase]
      rw [putInTime_iff hput (by simp)]
      exact allWritten_put h e
  | @raises now above id state e hphase hnext hpoll =>
    have hput : alertPut cfg s (.state now) = some e := by simp [alertPut, hphase, hnext, hpoll]
    rw [putInTime_iff hput (by simp)]
    exact allWritten_put h e
  | @takes e rest hphase hqueue hstop =>
    rw [← hquiet rfl (by simp), hphase, hqueue]
    rw [hphase, hqueue] at h
    have hnodup : (e :: rest).Nodup := (List.nodup_append.mp h.nodup).2.1
    have htake : AllReached Stop s.history (s.written ++ [e]) rest true ↔
        AllReached Stop s.history s.written (e :: rest) true := allReached_take hstop hnodup
    simpa [AllWritten, OutputPhase.writes, OutputPhase.reads] using htake
  | @takesKill e rest hphase hqueue hstop =>
    rw [← hquiet rfl (by simp), hphase, hqueue]
    have hstopped : AllReached Stop s.history (s.written ++ []) rest false ↔
        AllReached Stop s.history (s.written ++ []) (e :: rest) true := allReached_stop hstop
    exact hstopped
  | @writes e hphase =>
    rw [← hquiet rfl (by simp), hphase, AllWritten, AllWritten]
    split <;> simp [OutputPhase.writes, OutputPhase.reads]
  | @mails e hphase =>
    rw [← hquiet rfl (by simp), hphase]
    exact Iff.rfl
  | @fails w hawake =>
    cases w with
    | output =>
      have hreads : s.outputTask.reads = true := by
        cases hphase : s.outputTask with
        | ended => simp [State.awake, hphase] at hawake
        | _ => rfl
      have hsubset : s.outputTask.writes ++ s.outputQueue ⊆ s.history :=
        fun e he => h.subset (List.mem_append_right _ he)
      have hlost := allReached_giveUp hsubset h.writes h.nodup
      rw [AllWritten, AllWritten, hreads, PutInTime, ← hlost]
      simp [State.catchAll, State.throws, OutputPhase.writes, OutputPhase.reads]
    | _ => exact hquiet rfl (by simp)
  | processes hphase | throws hphase | forwards hphase =>
    exact hquiet (by simp [alertPut, hphase]) (by simp)
  | next hphase => exact hquiet (by simp [alertPut, hphase]) (by simp)
  | polls hphase hnext hpoll =>
    exact hquiet (by simp [alertPut, hphase, hnext, hpoll]) (by simp)
  | @loops now phase hphase hnext hended hmoves =>
    refine hquiet ?_ (by simp)
    cases hpass : s.stateTask with
    | passing above => simp [alertPut, hpass, hnext above hpass]
    | _ => simp [alertPut, hpass]
  | stops errors hx hmain =>
    rcases hx with rfl | rfl
    · exact hquiet rfl (by simp)
    · exact hquiet rfl (by simp)
  | receives hx hbefore hphase hses =>
    rcases hx with rfl | ⟨r, rfl⟩
    · exact hquiet rfl (by simp)
    · exact hquiet rfl (by simp)
  | _ => exact hquiet rfl (by simp)

end Alerts

section Mails

open MailTask (discarding)

/-- `mail_task` has not left its loop. -/
def listens : MailTask.Phase → Bool
  | .leaving => false
  | .ended => false
  | _ => true

/-- An alert that was mailed, or waits and is counted when the task ends. -/
def Saved (task : MailTask.State) (e : ℕ × Event) : Prop :=
  e ∈ task.sent.flatten ∨
    (e ∈ task.localQueue ∧
      (task.phase = .ended → task.warnings = [discarding task.localQueue.length]))

/-- An alert that is not lost on its way into a mail. -/
def OnTheWay (cfg : MailConfig) (output : OutputPhase) (task : MailTask.State) (e : ℕ × Event) :
    Prop :=
  e ∈ output.mails ∨ (listens task.phase = true ∧ e ∈ task.queue) ∨ e ∈ task.phase.kept cfg ∨
    Saved task e

/-- No written alert that is to be mailed is lost. -/
def AllMailed (cfg : MailConfig) (written : List (ℕ × Event)) (output : OutputPhase)
    (task : MailTask.State) : Prop :=
  ∀ e ∈ written, cfg.Mails e.2 → OnTheWay cfg output task e

/-- What a failing `mail_task` loses. -/
def collected (cfg : MailConfig) (task : MailTask.State) : List (ℕ × Event) :=
  (if listens task.phase then task.queue else []) ++ (task.phase.kept cfg ++ task.localQueue)

/-- No alert that is to be mailed reaches the queue of `mail_task` too late, waits there when the
task leaves its loop, or is held by a thread that ends with an exception. -/
def MailInTime (cfg : MailConfig) (s : State) : Step → Prop
  | .output => listens s.mailTask.phase = false → ∀ e ∈ s.outputTask.mails, ¬ cfg.Mails e.2
  | .mail .check => s.running = false → ∀ e ∈ s.mailTask.queue, ¬ cfg.Mails e.2
  | .fail .output => ∀ e ∈ s.outputTask.mails, ¬ cfg.Mails e.2
  | .fail .mail => ∀ e ∈ collected cfg s.mailTask, ¬ cfg.Mails e.2
  | _ => True

/-- The alerts behind `output_task`, on their way and in mails. -/
def behindOutput (cfg : MailConfig) (output : OutputPhase) (task : MailTask.State) :
    List (ℕ × Event) :=
  output.mails ++ (task.queue ++ (task.phase.kept cfg ++ task.kept))

/-- Every alert behind `output_task` was written, and is there once. -/
structure MailInv (cfg : MailConfig) (written : List (ℕ × Event)) (output : OutputPhase)
    (task : MailTask.State) : Prop where
  subset : behindOutput cfg output task ⊆ written
  nodup : (behindOutput cfg output task).Nodup
  warnings : task.phase ≠ .ended → task.warnings = []

variable {written queue : List (ℕ × Event)} {output output' : OutputPhase}
  {task task' : MailTask.State} {e : ℕ × Event}

theorem Saved.mem_kept (h : Saved task e) : e ∈ task.kept :=
  List.mem_append.mpr (h.imp_right And.left)

theorem saved_iff (h : task.phase ≠ .ended) : Saved task e ↔ e ∈ task.kept := by
  rw [Saved, MailTask.State.kept, List.mem_append]
  apply or_congr_right
  exact and_iff_left fun hended => absurd hended h

section Distinct

variable (h : MailInv cfg written output task)
include h

theorem MailInv.not_mem_of_mails (he : e ∈ output.mails) :
    e ∉ task.queue ∧ e ∉ task.phase.kept cfg ∧ e ∉ task.kept := by
  have hdisjoint : e ∉ task.queue ++ (task.phase.kept cfg ++ task.kept) :=
    fun hmem => List.disjoint_of_nodup_append h.nodup he hmem
  simpa only [List.mem_append, not_or] using hdisjoint

theorem MailInv.not_mem_of_queue (he : e ∈ task.queue) :
    e ∉ output.mails ∧ e ∉ task.phase.kept cfg ∧ e ∉ task.kept := by
  refine ⟨fun hmails => (h.not_mem_of_mails hmails).1 he, ?_⟩
  have hrest := (List.nodup_append.mp h.nodup).2.1
  have hdisjoint : e ∉ task.phase.kept cfg ++ task.kept :=
    fun hmem => List.disjoint_of_nodup_append hrest he hmem
  simpa only [List.mem_append, not_or] using hdisjoint

theorem MailInv.not_mem_of_hand (he : e ∈ task.phase.kept cfg) :
    e ∉ output.mails ∧ e ∉ task.queue ∧ e ∉ task.kept := by
  refine ⟨fun hmails => (h.not_mem_of_mails hmails).2.1 he,
    fun hqueue => (h.not_mem_of_queue hqueue).2.1 he, ?_⟩
  have hrest := (List.nodup_append.mp (List.nodup_append.mp h.nodup).2.1).2.1
  exact List.disjoint_of_nodup_append hrest he

theorem MailInv.not_sent_of_waiting (he : e ∈ task.localQueue) :
    e ∉ task.sent.flatten := by
  have hrest := (List.nodup_append.mp (List.nodup_append.mp h.nodup).2.1).2.1
  have hkept : (task.sent.flatten ++ task.localQueue).Nodup := (List.nodup_append.mp hrest).2.1
  exact fun hsent => List.disjoint_of_nodup_append hkept hsent he

end Distinct

/-- Nothing comes to what is behind `output_task`. -/
theorem MailInv.of_subperm (h : MailInv cfg written output task)
    (hsub : (behindOutput cfg output' task').Subperm (behindOutput cfg output task))
    (hwarnings : task'.phase ≠ .ended → task'.warnings = []) :
    MailInv cfg written output' task' := by
  obtain ⟨l, hperm, hsublist⟩ := hsub
  refine ⟨?_, hperm.nodup_iff.mp (hsublist.nodup h.nodup), hwarnings⟩
  intro e he
  exact h.subset (hsublist.subset (hperm.mem_iff.mpr he))

theorem kept_sublist (x : ℕ × Event) :
    ((MailTask.Phase.received (some x)).kept cfg).Sublist [x] := by
  rw [MailTask.Phase.kept]
  split
  · exact List.Sublist.refl _
  · exact List.nil_sublist _

theorem MailInv.collect {running : Bool} {x : MailTask.Step} (h : MailInv cfg written output task)
    (hstep : MailTask.step cfg running task x = some task') :
    MailInv cfg written output task' := by
  have hwarnings := h.warnings
  cases MailTask.does_of_step hstep with
  | loop hphase hrunning =>
    rw [hphase] at hwarnings
    refine h.of_subperm ?_ fun _ => hwarnings (by simp)
    simp [behindOutput, hphase, MailTask.Phase.kept, MailTask.State.kept, List.Subperm.refl]
  | leave hphase hrunning =>
    rw [hphase] at hwarnings
    refine h.of_subperm ?_ fun _ => hwarnings (by simp)
    simp [behindOutput, hphase, MailTask.Phase.kept, MailTask.State.kept, List.Subperm.refl]
  | timeout hphase hqueue =>
    rw [hphase] at hwarnings
    refine h.of_subperm ?_ fun _ => hwarnings (by simp)
    simp [behindOutput, hphase, MailTask.Phase.kept, MailTask.State.kept, List.Subperm.refl]
  | @take x rest hphase hqueue =>
    rw [hphase] at hwarnings
    refine h.of_subperm ?_ fun _ => hwarnings (by simp)
    have hnone : task.phase.kept cfg = [] := by simp [hphase, MailTask.Phase.kept]
    have hkept : (rest ++ ((MailTask.Phase.received (some x)).kept cfg ++ task.kept)).Subperm
        (rest ++ ([x] ++ task.kept)) :=
      (((kept_sublist x).append_right _).append_left rest).subperm
    have hmove : (rest ++ ([x] ++ task.kept)).Perm (x :: rest ++ task.kept) := List.perm_middle
    rw [behindOutput, behindOutput, hqueue, hnone]
    exact (List.subperm_append_left _).mpr (hkept.trans hmove.subperm)
  | round c sent hphase hphase' hqueue hkept hwarnings' =>
    rw [hphase] at hwarnings
    refine h.of_subperm ?_ fun _ => hwarnings'.trans (hwarnings (by simp))
    have hnone : task'.phase.kept cfg = [] := by simp [hphase', MailTask.Phase.kept]
    rw [behindOutput, behindOutput, hqueue, hkept, hnone, List.nil_append]
    exact ((List.perm_append_comm.append_left _).append_left _).subperm
  | finish sent hphase hphase' hqueue hkept hwarnings' =>
    refine h.of_subperm ?_ fun hne => absurd hphase' hne
    have hnone : task'.phase.kept cfg = task.phase.kept cfg := by
      simp [hphase, hphase', MailTask.Phase.kept]
    rw [behindOutput, behindOutput, hqueue, hkept, hnone]

theorem MailInv.step (hinv : AlertInv s.history s.written s.outputTask s.outputQueue)
    (h : MailInv cfg s.written s.outputTask s.mailTask) {x : Step}
    (hstep : step host cfg rules s x = some s') :
    MailInv cfg s'.written s'.outputTask s'.mailTask := by
  cases does_of_step hstep with
  | takes hphase hqueue hstop =>
    rw [hphase] at h
    exact ⟨h.subset, h.nodup, h.warnings⟩
  | takesKill hphase hqueue hstop =>
    rw [hphase] at h
    exact ⟨h.subset, h.nodup, h.warnings⟩
  | @writes e hphase =>
    rw [hphase] at h hinv
    have hnew : e ∉ s.written := by
      intro hmem
      exact List.disjoint_of_nodup_append hinv.nodup hmem (by simp [OutputPhase.writes])
    have hrest : behindOutput cfg (.writing e) s.mailTask ⊆ s.written := h.subset
    cases hmail : cfg.mail with
    | true =>
      refine ⟨?_, List.nodup_cons.mpr ⟨fun hmem => hnew (hrest hmem), h.nodup⟩, h.warnings⟩
      exact List.cons_subset.mpr
        ⟨by simp, List.Subset.trans hrest (List.subset_append_left _ _)⟩
    | false =>
      exact ⟨List.Subset.trans hrest (List.subset_append_left _ _), h.nodup, h.warnings⟩
  | @mails e hphase =>
    rw [hphase] at h
    refine h.of_subperm ?_ h.warnings
    have hmove : (s.mailTask.queue ++ [e] ++ (s.mailTask.phase.kept cfg ++ s.mailTask.kept)).Perm
        (e :: (s.mailTask.queue ++ (s.mailTask.phase.kept cfg ++ s.mailTask.kept))) := by
      rw [List.append_assoc]
      exact List.perm_middle
    exact hmove.subperm
  | collects hmail => exact h.collect hmail
  | @fails w hawake =>
    cases w with
    | output =>
      exact h.of_subperm (List.sublist_append_right s.outputTask.mails _).subperm h.warnings
    | mail =>
      refine h.of_subperm (List.Sublist.subperm ?_) fun hne => absurd rfl hne
      exact ((List.sublist_append_right _ _).append_left _).append_left _
    | _ => exact h
  | @puts now p ps stop hphase =>
    cases p with
    | intervention i => exact h
    | alert e => exact h
  | _ => exact h

/-- A step that loses some alerts on their way and no others. -/
theorem allMailed_lose {lost : List (ℕ × Event)} (hlost : lost ⊆ written)
    (hway : ∀ e, OnTheWay cfg output task e ↔ OnTheWay cfg output' task' e ∨ e ∈ lost)
    (hapart : ∀ e ∈ lost, ¬ OnTheWay cfg output' task' e) :
    AllMailed cfg written output' task' ↔
      AllMailed cfg written output task ∧ ∀ e ∈ lost, ¬ cfg.Mails e.2 := by
  constructor
  · intro h
    refine ⟨fun e he hmails => (hway e).mpr (.inl (h e he hmails)), ?_⟩
    exact fun e he hmails => hapart e he (h e (hlost he) hmails)
  · rintro ⟨h, hnone⟩ e he hmails
    exact ((hway e).mp (h e he hmails)).resolve_right fun hmem => hnone e hmem hmails

theorem allMailed_congr (hway : ∀ e, cfg.Mails e.2 →
    (OnTheWay cfg output' task' e ↔ OnTheWay cfg output task e)) :
    AllMailed cfg written output' task' ↔ AllMailed cfg written output task := by
  apply forall₂_congr
  intro e he
  exact imp_congr_right fun hmails => hway e hmails

/-- What `mail_task` does on its own. -/
theorem allMailed_collect {running : Bool} {x : MailTask.Step}
    (h : MailInv cfg written output task)
    (hstep : MailTask.step cfg running task x = some task') :
    AllMailed cfg written output task' ↔ AllMailed cfg written output task ∧
      (x = .check → running = false → ∀ e ∈ task.queue, ¬ cfg.Mails e.2) := by
  cases MailTask.does_of_step hstep with
  | loop hphase hrunning =>
    rw [and_iff_left (by simp [hrunning])]
    apply allMailed_congr
    intro e hmails
    simp [OnTheWay, Saved, hphase, listens, MailTask.Phase.kept]
  | leave hphase hrunning =>
    simp only [hrunning, true_imp_iff]
    have hway : ∀ e, OnTheWay cfg output { task with phase := .leaving } e ↔
        e ∈ output.mails ∨ Saved task e := by
      intro e
      simp [OnTheWay, Saved, hphase, listens, MailTask.Phase.kept]
    apply allMailed_lose
    · exact fun e he => h.subset (by simp [behindOutput, he])
    · intro e
      have hbefore : OnTheWay cfg output task e ↔
          e ∈ output.mails ∨ e ∈ task.queue ∨ Saved task e := by
        simp [OnTheWay, hphase, listens, MailTask.Phase.kept]
      rw [hbefore, hway, or_comm (b := Saved task e), or_assoc]
    · intro e he
      obtain ⟨hmails, -, hkept⟩ := h.not_mem_of_queue he
      rw [hway, not_or]
      exact ⟨hmails, fun hsaved => hkept hsaved.mem_kept⟩
  | @take x rest hphase hqueue =>
    rw [and_iff_left (by simp)]
    apply allMailed_congr
    intro e hmails
    have hhand : e ∈ (MailTask.Phase.received (some x)).kept cfg ↔ e = x := by
      rw [MailTask.Phase.kept]
      split
      · exact List.mem_singleton
      · rename_i hnot
        simp only [List.not_mem_nil, false_iff]
        rintro rfl
        exact hnot hmails
    simp only [OnTheWay, Saved, hhand, hphase, hqueue, listens, List.mem_cons]
    simp only [MailTask.Phase.kept, List.not_mem_nil, false_or, true_and, reduceCtorEq,
      false_imp_iff, and_true]
    tauto
  | timeout hphase hqueue =>
    rw [and_iff_left (by simp)]
    apply allMailed_congr
    intro e hmails
    simp [OnTheWay, Saved, hphase, listens, MailTask.Phase.kept]
  | round c sent hphase hphase' hqueue hkept hwarnings =>
    rw [and_iff_left (by simp)]
    apply allMailed_congr
    intro e hmails
    have hsaved : Saved task' e ↔ e ∈ task.phase.kept cfg ∨ Saved task e := by
      rw [saved_iff (by simp [hphase']), saved_iff (by simp [hphase]), hkept, List.mem_append,
        or_comm]
    have hnone : task'.phase.kept cfg = [] := by simp [hphase', MailTask.Phase.kept]
    have hlistens : listens task'.phase = listens task.phase := by simp [hphase, hphase', listens]
    rw [OnTheWay, OnTheWay, hsaved, hnone, hlistens, hqueue]
    simp
  | finish sent hphase hphase' hqueue hkept hwarnings =>
    rw [and_iff_left (by simp)]
    apply allMailed_congr
    intro e hmails
    have hempty : task.warnings = [] := h.warnings (by simp [hphase])
    have hsaved : Saved task' e ↔ Saved task e := by
      rw [saved_iff (by simp [hphase] : task.phase ≠ .ended), ← hkept, Saved,
        MailTask.State.kept, List.mem_append]
      apply or_congr_right
      apply and_iff_left_of_imp
      intro he hended
      rw [hwarnings, hempty, if_neg (List.ne_nil_of_mem he), List.nil_append]
    simp only [OnTheWay, hsaved, hphase, hphase', hqueue, listens, MailTask.Phase.kept]

theorem mem_collected : e ∈ collected cfg task ↔
    (listens task.phase = true ∧ e ∈ task.queue) ∨ e ∈ task.phase.kept cfg ∨
      e ∈ task.localQueue := by
  rw [collected, List.mem_append, List.mem_append]
  split <;> simp [*]

theorem allMailed_fail (h : MailInv cfg written output task) (hphase : task.phase ≠ .ended) :
    AllMailed cfg written output { task with phase := .ended } ↔
      AllMailed cfg written output task ∧ ∀ e ∈ collected cfg task, ¬ cfg.Mails e.2 := by
  have hway : ∀ e, OnTheWay cfg output { task with phase := .ended } e ↔
      e ∈ output.mails ∨ e ∈ task.sent.flatten := by
    intro e
    have hwarnings : task.warnings = [] := h.warnings hphase
    have hnone : ({ task with phase := .ended } : MailTask.State).warnings = [] := hwarnings
    simp [OnTheWay, Saved, hnone, listens, MailTask.Phase.kept]
  apply allMailed_lose
  · intro e he
    apply h.subset
    simp only [behindOutput, MailTask.State.kept, List.mem_append]
    rcases mem_collected.mp he with ⟨-, hqueue⟩ | hhand | hwaits
    · exact .inr (.inl hqueue)
    · exact .inr (.inr (.inl hhand))
    · exact .inr (.inr (.inr (.inr hwaits)))
  · intro e
    rw [hway, mem_collected, OnTheWay, saved_iff hphase, MailTask.State.kept, List.mem_append]
    grind
  · intro e he
    have hother : e ∉ output.mails ∧ e ∉ task.sent.flatten := by
      rcases mem_collected.mp he with ⟨-, hqueue⟩ | hhand | hwaits
      · obtain ⟨hmails, -, hkept⟩ := h.not_mem_of_queue hqueue
        exact ⟨hmails, fun hsent => hkept (List.mem_append_left _ hsent)⟩
      · obtain ⟨hmails, -, hkept⟩ := h.not_mem_of_hand hhand
        exact ⟨hmails, fun hsent => hkept (List.mem_append_left _ hsent)⟩
      · refine ⟨fun hmails => ?_, h.not_sent_of_waiting hwaits⟩
        exact (h.not_mem_of_mails hmails).2.2 (List.mem_append_right _ hwaits)
    rw [hway, not_or]
    exact hother

/-- `output_task` hands an alert on, which is lost if `mail_task` has left its loop. -/
theorem allMailed_handOn (h : MailInv cfg written (.mailing e) task) :
    AllMailed cfg written .loop { task with queue := task.queue ++ [e] } ↔
      AllMailed cfg written (.mailing e) task ∧
        (listens task.phase = false → ∀ x ∈ (OutputPhase.mailing e).mails, ¬ cfg.Mails x.2) := by
  cases hlistens : listens task.phase with
  | true =>
    rw [and_iff_left (by simp)]
    apply allMailed_congr
    intro x hmails
    simp only [OnTheWay, Saved, hlistens, OutputPhase.mails, List.mem_append, List.mem_singleton,
      List.not_mem_nil]
    tauto
  | false =>
    simp only [true_imp_iff]
    have hway : ∀ x, OnTheWay cfg .loop { task with queue := task.queue ++ [e] } x ↔
        x ∈ task.phase.kept cfg ∨ Saved task x := by
      intro x
      have hsaved : Saved { task with queue := task.queue ++ [e] } x ↔ Saved task x := Iff.rfl
      simp [OnTheWay, hsaved, hlistens, OutputPhase.mails]
    apply allMailed_lose
    · exact fun x hx => h.subset (List.mem_append_left _ hx)
    · intro x
      rw [hway, OnTheWay, hlistens, or_comm]
      simp
    · intro x hx
      obtain ⟨-, hhand, hkept⟩ := h.not_mem_of_mails hx
      rw [hway, not_or]
      exact ⟨hhand, fun hsaved => hkept hsaved.mem_kept⟩

theorem allMailed_giveUp (h : MailInv cfg written output task) :
    AllMailed cfg written .ended task ↔
      AllMailed cfg written output task ∧ ∀ x ∈ output.mails, ¬ cfg.Mails x.2 := by
  have hway : ∀ x, OnTheWay cfg .ended task x ↔ (listens task.phase = true ∧ x ∈ task.queue) ∨
      x ∈ task.phase.kept cfg ∨ Saved task x := by
    intro x
    simp [OnTheWay, OutputPhase.mails]
  apply allMailed_lose
  · exact fun x hx => h.subset (List.mem_append_left _ hx)
  · intro x
    rw [hway, OnTheWay, or_comm]
  · intro x hx
    obtain ⟨hqueue, hhand, hkept⟩ := h.not_mem_of_mails hx
    rw [hway, not_or, not_or]
    exact ⟨fun hwaits => hqueue hwaits.2, hhand, fun hsaved => hkept hsaved.mem_kept⟩

theorem allMailed_step (hmail : cfg.mail = true)
    (hinv : AlertInv s.history s.written s.outputTask s.outputQueue)
    (h : MailInv cfg s.written s.outputTask s.mailTask) {x : Step}
    (hstep : step host cfg rules s x = some s') :
    AllMailed cfg s'.written s'.outputTask s'.mailTask ↔
      AllMailed cfg s.written s.outputTask s.mailTask ∧ MailInTime cfg s x := by
  have hquiet : ∀ {P : Prop}, P ↔ P ∧ True := (and_iff_left trivial).symm
  cases does_of_step hstep with
  | takes hphase hqueue hstop =>
    rw [hphase, MailInTime]
    simp [hphase, OutputPhase.mails, AllMailed, OnTheWay]
  | takesKill hphase hqueue hstop =>
    rw [hphase, MailInTime]
    simp [hphase, OutputPhase.mails, AllMailed, OnTheWay]
  | @writes e hphase =>
    rw [MailInTime, hphase, and_iff_left (by simp [OutputPhase.mails]), hmail, if_pos rfl]
    constructor
    · intro hall x hx hmails
      have hne : x ≠ e := by
        rintro rfl
        rw [hphase] at hinv
        exact List.disjoint_of_nodup_append hinv.nodup hx (by simp [OutputPhase.writes])
      rcases hall x (List.mem_append_left _ hx) hmails with hx' | hrest
      · exact absurd (List.mem_singleton.mp hx') hne
      · exact .inr hrest
    · intro hall x hx hmails
      rcases List.mem_append.mp hx with hx | hx
      · rcases hall x hx hmails with hx' | hrest
        · simp [OutputPhase.mails] at hx'
        · exact .inr hrest
      · exact .inl (by simpa [OutputPhase.mails] using hx)
  | @mails e hphase =>
    rw [MailInTime, hphase]
    rw [hphase] at h
    exact allMailed_handOn h
  | @collects x task hcollect =>
    rw [allMailed_collect h hcollect]
    apply and_congr_right
    intro hall
    cases x <;> simp [MailInTime]
  | @fails w hawake =>
    cases w with
    | output => exact allMailed_giveUp h
    | mail => exact allMailed_fail h (by simpa [State.awake] using hawake)
    | _ => exact hquiet
  | @puts now p ps stop hphase =>
    cases p with
    | intervention i => exact hquiet
    | alert e => exact hquiet
  | stops errors hx hmain =>
    rcases hx with rfl | rfl
    · exact hquiet
    · exact hquiet
  | receives hx hbefore hphase hses =>
    rcases hx with rfl | ⟨r, rfl⟩
    · exact hquiet
    · exact hquiet
  | _ => exact hquiet

end Mails

section KillMessages

/-- No pending alert would stop `output_task`. -/
def Innocent (st : RulesState) : Prop :=
  ∀ id deadline e, pending st id = some (deadline, e) → ¬ Stops e

theorem stops_update {ev : Event} {rl : Rule ρ} : Stops (ev.update rl) ↔ Stops ev := Iff.rfl

theorem stops_eventAfter (ev : Event) (acts : List (Act ρ)) :
    Stops (eventAfter ev acts) ↔ Stops ev := by
  induction acts generalizing ev with
  | nil => rfl
  | cons a acts ih =>
    rw [eventAfter_cons, ih]
    cases a <;> rfl

/-- An event has the log string of its message and is a control message like it. -/
theorem stops_formatLog {se : SourceEvent} {formats : List (Format ρ)} {e : Event}
    (h : formatLog host (.ofSource host se) formats = .ok e) :
    Stops e ↔ isKill se = true := by
  have hsummary := summary_formatLog h
  rw [Stops, hsummary.controlMessage, hsummary.logstr, isKill, Bool.and_eq_true, decide_eq_true_iff]

theorem not_stops_of_processLog {now : ℤ} {se : SourceEvent} {st : RulesState} {e : Event}
    (hkill : isKill se = false) (h : (processLog host now se rules st).result = .ok e) :
    ¬ Stops e := by
  obtain ⟨_, _, _, _, _, -, -, -, hsummary⟩ := processLog_chain se rules st h
  rw [Stops, hsummary.controlMessage, hsummary.logstr]
  simpa [isKill] using hkill

theorem innocent_processLog {now : ℤ} {se : SourceEvent} {st : RulesState} (h : Innocent st)
    (hkill : isKill se = false) : Innocent (processLog host now se rules st).state := by
  intro id deadline e hpending
  have hreplay : replayLog host {} st
      ((processLog host now se rules st).trace.map (.act now)) =
        (processLog host now se rules st).state :=
    (replayLog_acts now st _).trans (processLog_replay se rules st).symm
  rw [← hreplay, pending_replayLog] at hpending
  rcases OneShotTimer.run_eq_some hpending with hold | harmed
  · exact h id deadline e hold
  · obtain ⟨x, hx, hsignal⟩ := List.mem_filterMap.mp harmed
    obtain ⟨t, ev, rl, rfl, -, -, -, -, -, rfl⟩ := signalOf_eq_arm.mp hsignal
    obtain ⟨a, hmem, ha⟩ := List.mem_map.mp hx
    obtain ⟨rfl, rfl⟩ := Entry.act.inj ha
    obtain ⟨pre, post, htrace⟩ := List.append_of_mem hmem
    obtain ⟨start, hformat, hevent, -⟩ := processLog_act htrace
    rw [Act.event_check] at hevent
    rw [stops_update, hevent, stops_eventAfter, stops_formatLog hformat, hkill]
    simp

theorem getElem?_of_nextState {above : Option RuleId} {st : RulesState} {id : RuleId}
    {state : RuleState} (h : nextState above st = some (id, state)) : st[id]? = some state :=
  Std.ExtTreeMap.mem_toList_iff_getElem?_eq_some.mp (List.mem_of_find?_eq_some h)

theorem pending_of_nextState {above : Option RuleId} {st : RulesState} {id : RuleId}
    {state : RuleState} (h : nextState above st = some (id, state)) :
    pending st id = state.pending := by
  rw [pending, getElem?_of_nextState h, Option.bind_some]

theorem innocent_poll {now : ℤ} {above : Option RuleId} {st : RulesState} {id : RuleId}
    {state : RuleState} (h : Innocent st) (hnext : nextState above st = some (id, state)) :
    Innocent (st.insert id (statePoll cfg.toResearchConfig now state).1) := by
  intro id' deadline e hpending
  by_cases hid : id = id'
  · subst hid
    rw [pending_insert, statePoll_pending, ← pending_of_nextState hnext] at hpending
    exact h id deadline e (Option.filter_eq_some_iff.mp hpending).1
  · rw [pending, Std.ExtTreeMap.getElem?_insert, if_neg (by simpa using hid)] at hpending
    exact h id' deadline e hpending

theorem not_stops_of_poll {now : ℤ} {above : Option RuleId} {st : RulesState} {id : RuleId}
    {state : RuleState} {e : Event} (h : Innocent st)
    (hnext : nextState above st = some (id, state))
    (hpoll : (statePoll cfg.toResearchConfig now state).2 = some e) : ¬ Stops e := by
  obtain ⟨hdue, -⟩ := (statePoll_raised now state e).mp hpoll
  rw [← pending_of_nextState hnext] at hdue
  obtain ⟨deadline, hpending, -⟩ := OneShotTimer.due_eq_some.mp hdue
  exact h id deadline e hpending

def ProcessingPhase.puts : ProcessingPhase → List Put
  | .putting puts _ => puts
  | _ => []

/-- Whatever stops a task is the kill message of `input_task`. -/
structure KillInv (host : Host ρ) (s : State) : Prop where
  input : ∀ se ∈ s.inputQueue, isKill se = true → se = killMessage
  rules : Innocent s.rulesState
  puts : ∀ e, .alert e ∈ s.processingTask.puts → Stops e → e = .ofSource host killMessage
  history : ∀ e ∈ s.history, Stop e → e.2 = .ofSource host killMessage

theorem KillInv.put {e : Event} (h : KillInv host s)
    (he : Stops e → e = .ofSource host killMessage) :
    ∀ x ∈ s.history ++ [(s.history.length, e)], Stop x → x.2 = .ofSource host killMessage := by
  intro x hx hstop
  rcases List.mem_append.mp hx with hx | hx
  · exact h.history x hx hstop
  · obtain rfl := List.mem_singleton.mp hx
    exact he hstop

theorem KillInv.receive {ses : List SourceEvent} (h : KillInv host s)
    (hses : ∀ se ∈ ses, isKill se = true → se = killMessage) :
    ∀ se ∈ s.inputQueue ++ ses, isKill se = true → se = killMessage := by
  intro se hse hkill
  rcases List.mem_append.mp hse with hse | hse
  · exact h.input se hse hkill
  · exact hses se hse hkill

theorem KillInv.step (h : KillInv host s) {x : Step}
    (hstep : step host cfg rules s x = some s') : KillInv host s' := by
  cases does_of_step hstep with
  | starts now hostname hmain =>
    refine ⟨h.receive ?_, h.rules, h.puts, h.history⟩
    intro se hse hkill
    rw [List.mem_singleton.mp hse] at hkill
    simp [isKill, startedMessage] at hkill
  | receives hx hbefore hphase hses =>
    refine ⟨h.receive ?_, h.rules, h.puts, h.history⟩
    intro se hse hkill
    simp [hses se hse] at hkill
  | kills hphase =>
    refine ⟨h.receive ?_, h.rules, h.puts, h.history⟩
    exact fun se hse _ => List.mem_singleton.mp hse
  | @processes now se rest e puts log hphase hqueue hkill hresult hputs hkills =>
    have hinput := h.input
    rw [hqueue] at hinput
    refine ⟨fun se' hse' => hinput se' (List.mem_cons_of_mem _ hse'),
      innocent_processLog h.rules hkill, ?_, h.history⟩
    intro e' he' hstop
    rw [hputs e' he'] at hstop
    exact absurd hstop (not_stops_of_processLog hkill hresult)
  | @throws now se rest f hphase hqueue hkill hresult =>
    have hinput := h.input
    rw [hqueue] at hinput
    refine ⟨fun se' hse' => hinput se' (List.mem_cons_of_mem _ hse'),
      innocent_processLog h.rules hkill, ?_, h.history⟩
    intro e' he'
    simp [State.catchAll, ProcessingPhase.puts] at he'
  | @forwards now se rest hphase hqueue hkill =>
    have hinput := h.input
    rw [hqueue] at hinput
    refine ⟨fun se' hse' => hinput se' (List.mem_cons_of_mem _ hse'), h.rules, ?_, h.history⟩
    intro e' he' hstop
    have heq : e' = .ofSource host se := by simpa [ProcessingPhase.puts] using he'
    rw [heq, hinput se List.mem_cons_self hkill]
  | @puts now p ps stop hphase =>
    have hputs := h.puts
    rw [hphase] at hputs
    have hrest : ∀ e, .alert e ∈ ps → Stops e → e = .ofSource host killMessage :=
      fun e he => hputs e (List.mem_cons_of_mem _ he)
    cases p with
    | intervention i => exact ⟨h.input, h.rules, hrest, h.history⟩
    | alert e => exact ⟨h.input, h.rules, hrest, h.put (hputs e List.mem_cons_self)⟩
  | @next now stop hphase =>
    refine ⟨h.input, h.rules, ?_, h.history⟩
    cases stop <;> simp [ProcessingPhase.puts]
  | polls hphase hnext hpoll =>
    exact ⟨h.input, innocent_poll h.rules hnext, h.puts, h.history⟩
  | raises hphase hnext hpoll =>
    refine ⟨h.input, innocent_poll h.rules hnext, h.puts, h.put ?_⟩
    exact fun hstop => absurd hstop (not_stops_of_poll h.rules hnext hpoll)
  | @fails w hawake =>
    cases w with
    | processing => exact ⟨h.input, h.rules, by simp [State.catchAll, ProcessingPhase.puts], h.history⟩
    | _ => exact ⟨h.input, h.rules, h.puts, h.history⟩
  | _ => exact ⟨h.input, h.rules, h.puts, h.history⟩

end KillMessages

section Joined

/-- The main thread has joined all others. -/
def Joined (s : State) : Prop := s.main = .joining []

/-- Every event that was put into the output queue is written, but for the kill message, and
every written event that is to be mailed is mailed or counted in the warning. -/
def ForgetsNoAlert (host : Host ρ) (cfg : MailConfig) (s : State) : Prop :=
  (∀ e ∈ s.history, e.2 ≠ .ofSource host killMessage → e ∈ s.written) ∧
    (cfg.mail = true → ∀ e ∈ s.written, cfg.Mails e.2 → e ∈ s.mailTask.sent.flatten ∨
      (e ∈ s.mailTask.localQueue ∧
        s.mailTask.warnings = [MailTask.discarding s.mailTask.localQueue.length]))

/-- A step forgets no alert, and no mail if there are mails. -/
def Timely (cfg : MailConfig) (s : State) (x : Step) : Prop :=
  PutInTime cfg s x ∧ (cfg.mail = true → MailInTime cfg s x)

theorem mail_ended {running : Bool} {task task' : MailTask.State} {x : MailTask.Step}
    (h : task.phase = .ended) : MailTask.step cfg running task x ≠ some task' := by
  intro hstep
  cases MailTask.does_of_step hstep with
  | loop hphase | leave hphase | take hphase | timeout hphase => simp [hphase] at h
  | round c sent hphase => simp [hphase] at h
  | finish sent hphase => simp [hphase] at h

theorem intervention_ended {task task' : OutputTask.State Intervention (InterventionCmd String)}
    {x : OutputTask.Step Intervention} (hx : ∀ i, x ≠ .emplace i) (h : task.phase = .ended) :
    OutputTask.intervention.step task x ≠ some task' := by
  intro hstep
  cases x with
  | emplace i => exact hx i rfl
  | take sent | timeout | resend sent => simp [OutputTask.step, h] at hstep

/-- A thread that has ended does so for good. -/
theorem hasEnded_step {w : Worker} (h : s.hasEnded w = true) {x : Step}
    (hstep : step host cfg rules s x = some s') : s'.hasEnded w = true := by
  cases does_of_step hstep with
  | receives hx hbefore =>
    cases w with
    | input => rcases hbefore with hbefore | hbefore <;> simp [State.hasEnded, hbefore] at h
    | _ => exact h
  | kills hphase =>
    cases w with
    | input => rfl
    | _ => exact h
  | processes hphase | forwards hphase | next hphase =>
    cases w with
    | processing => simp [State.hasEnded, hphase] at h
    | _ => exact h
  | throws hphase =>
    cases w with
    | processing => rfl
    | _ => exact h
  | @puts now p ps stop hphase =>
    cases w with
    | processing => simp [State.hasEnded, hphase] at h
    | _ => cases p <;> exact h
  | loops hphase =>
    cases w with
    | state => simp [State.hasEnded, hphase] at h
    | _ => exact h
  | polls hphase | raises hphase =>
    cases w with
    | state => simp [State.hasEnded, hphase] at h
    | _ => exact h
  | takes hphase | takesKill hphase | writes hphase | mails hphase =>
    cases w with
    | output => simp [State.hasEnded, hphase] at h
    | _ => exact h
  | intervenes hx hstep' =>
    cases w with
    | intervention => exact absurd hstep' (intervention_ended hx (by simpa [State.hasEnded] using h))
    | _ => exact h
  | collects hstep' =>
    cases w with
    | mail => exact absurd hstep' (mail_ended (by simpa [State.hasEnded] using h))
    | _ => exact h
  | @fails w' hawake =>
    cases w' with
    | input =>
      cases w with
      | input =>
        have hended : s.inputTask = .ended := by simpa [State.hasEnded] using h
        simp [State.awake, hended] at hawake
      | _ => exact h
    | _ => cases w <;> first | exact h | rfl
  | _ => exact h

/-- The threads that are not left to be joined have ended. -/
def JoinInv (cfg : MailConfig) (s : State) : Prop :=
  ∀ ws, s.main = .joining ws → ∀ w ∈ workers cfg, w ∈ ws ∨ s.hasEnded w = true

theorem JoinInv.step (h : JoinInv cfg s) {x : Step}
    (hstep : step host cfg rules s x = some s') : JoinInv cfg s' := by
  have hquiet : s'.main = s.main → JoinInv cfg s' := by
    intro hmain ws hws w hw
    exact (h ws (hmain ▸ hws) w hw).imp_right fun hended => hasEnded_step hended hstep
  cases does_of_step hstep with
  | starts now hostname hmain =>
    intro ws hws
    simp at hws
  | stops errors hx hmain =>
    intro ws hws w hw
    exact .inl (MainPhase.joining.inj hws ▸ hw)
  | @joins w ws hmain hended =>
    intro ws' hws w' hw
    obtain rfl := MainPhase.joining.inj hws
    rcases h (w :: ws) hmain w' hw with hmem | hended'
    · rcases List.mem_cons.mp hmem with rfl | hmem
      · exact .inr hended
      · exact .inl hmem
    · exact .inr hended'
  | @puts now p ps stop hphase => cases p <;> exact hquiet rfl
  | @fails w hawake => cases w <;> exact hquiet rfl
  | _ => exact hquiet rfl

/-- All that holds in every state that the daemon can reach. -/
structure Inv (host : Host ρ) (cfg : MailConfig) (s : State) : Prop where
  alerts : AlertInv s.history s.written s.outputTask s.outputQueue
  mails : MailInv cfg s.written s.outputTask s.mailTask
  kill : KillInv host s
  join : JoinInv cfg s

theorem Inv.step (h : Inv host cfg s) {x : Step} (hstep : step host cfg rules s x = some s') :
    Inv host cfg s' :=
  ⟨h.alerts.step hstep, h.mails.step h.alerts hstep, h.kill.step hstep, h.join.step hstep⟩

theorem inv_initial : Inv host cfg (initial cfg) where
  alerts := ⟨by simp [initial], by simp [initial, OutputPhase.writes],
    by simp [initial, OutputPhase.writes], by simp [initial, OutputPhase.writes]⟩
  mails := by
    have hempty : behindOutput cfg (initial cfg).outputTask (initial cfg).mailTask = [] := by
      cases hmail : cfg.mail <;>
        simp [initial, behindOutput, hmail, OutputPhase.mails, MailTask.Phase.kept,
          MailTask.State.kept]
    exact ⟨by simp [hempty], by simp [hempty], fun _ => rfl⟩
  kill := ⟨by simp [initial], by simp [initial, Innocent],
    by simp [initial, ProcessingPhase.puts], by simp [initial]⟩
  join := by simp [initial, JoinInv]

theorem inv_run {steps : List Step} (h : run host cfg rules steps = some s) : Inv host cfg s :=
  runSteps_invariant (fun hs hx => hs.step hx) inv_initial h

theorem hasEnded_of_joined (hinv : Inv host cfg s) (hjoined : Joined s) :
    ∀ w ∈ workers cfg, s.hasEnded w = true := by
  intro w hw
  rcases hinv.join [] hjoined w hw with hmem | hended
  · simp at hmem
  · exact hended

/-- When all threads have ended, what was to be written and is not has been lost. -/
theorem allWritten_iff_of_joined (hinv : Inv host cfg s) (hjoined : Joined s) :
    AllWritten s.history s.written s.outputTask s.outputQueue ↔
      ∀ e ∈ s.history, e.2 ≠ .ofSource host killMessage → e ∈ s.written := by
  have houtput : s.outputTask = .ended := by
    simpa [State.hasEnded] using hasEnded_of_joined hinv hjoined .output (by simp [workers])
  have hstop : ∀ e ∈ s.history, Stop e ↔ e.2 = .ofSource host killMessage := by
    intro e he
    constructor
    · exact hinv.kill.history e he
    · intro heq
      rw [Stop, heq]
      exact ⟨rfl, rfl⟩
  rw [houtput]
  apply forall₂_congr
  intro e he
  rw [hstop e he]
  simp [Reached, OutputPhase.reads, OutputPhase.writes]

theorem allMailed_iff_of_joined (hmail : cfg.mail = true) (hinv : Inv host cfg s)
    (hjoined : Joined s) :
    AllMailed cfg s.written s.outputTask s.mailTask ↔
      ∀ e ∈ s.written, cfg.Mails e.2 → e ∈ s.mailTask.sent.flatten ∨
        (e ∈ s.mailTask.localQueue ∧
          s.mailTask.warnings = [MailTask.discarding s.mailTask.localQueue.length]) := by
  have houtput : s.outputTask = .ended := by
    simpa [State.hasEnded] using hasEnded_of_joined hinv hjoined .output (by simp [workers])
  have htask : s.mailTask.phase = .ended := by
    simpa [State.hasEnded] using hasEnded_of_joined hinv hjoined .mail (by simp [workers, hmail])
  simp [AllMailed, OnTheWay, Saved, houtput, htask, OutputPhase.mails, listens,
    MailTask.Phase.kept]

/-- A shutdown of the research daemon forgets no alert. When the threads have been joined, all
alerts have been written, and mailed or counted as discarded, exactly if each step of the run
was timely. -/
theorem forgetsNoAlert_iff {steps : List Step} (h : run host cfg rules steps = some s)
    (hjoined : Joined s) :
    ForgetsNoAlert host cfg s ↔
      StepsMeet (step host cfg rules) (Timely cfg) (initial cfg) steps := by
  have hinv := inv_run h
  have hstart : Inv host cfg (initial cfg) := inv_initial
  have hwritten : AllWritten s.history s.written s.outputTask s.outputQueue ↔
      StepsMeet (step host cfg rules) (PutInTime cfg) (initial cfg) steps :=
    stepsMeet_iff (fun hu hx => hu.step hx) (fun hu hx => allWritten_step hu.alerts hx) hstart
      (by simp [AllWritten, AllReached, initial]) h
  have hmailed : cfg.mail = true →
      (AllMailed cfg s.written s.outputTask s.mailTask ↔
        StepsMeet (step host cfg rules) (MailInTime cfg) (initial cfg) steps) :=
    fun hmail => stepsMeet_iff (fun hu hx => hu.step hx)
      (fun hu hx => allMailed_step hmail hu.alerts hu.mails hx) hstart
      (by simp [AllMailed, initial]) h
  have htimely : StepsMeet (step host cfg rules) (Timely cfg) (initial cfg) steps ↔
      StepsMeet (step host cfg rules) (PutInTime cfg) (initial cfg) steps ∧
        (cfg.mail = true →
          StepsMeet (step host cfg rules) (MailInTime cfg) (initial cfg) steps) :=
    stepsMeet_and.trans (and_congr_right fun _ => stepsMeet_imp)
  rw [htimely, ← hwritten, ForgetsNoAlert, allWritten_iff_of_joined hinv hjoined]
  apply and_congr_right
  intro hall
  apply forall_congr'
  intro hmail
  rw [← hmailed hmail, allMailed_iff_of_joined hmail hinv hjoined]

section Runs

def atFive : MailTask.Readings := { event := 5, interval := 5, sample := 5, count := 5, send := 5 }

/-- The first message arms a rule and gives an alert that is not mailed. At the end, `state_task`
is about to look at the rules. -/
def firstSteps : List Step :=
  [.start 1 "host", .processing 1, .processing 1, .processing 1, .output, .output, .output,
    .mail .check, .mail .take, .mail (.round atFive (.ok ())), .state 5]

/-- A signal comes, and the kill message goes to `output_task` and `intervention_task`. -/
def stopSteps : List Step :=
  [.signal, .input, .input, .processing 5, .processing 5, .processing 5, .processing 5]

def joinSteps : List Step :=
  [.intervention (.take (.ok ())), .join, .join, .join, .join, .join, .join]

/-- The alert of the rule is raised, written and mailed before the daemon stops. -/
def timelyRun : List Step :=
  firstSteps ++ [.state 5, .output, .output, .output, .mail .check, .mail .take,
    .mail (.round atFive (.ok ()))] ++ stopSteps ++ [.output, .state 5, .state 5, .mail .check,
    .mail (.finish (.ok ()))] ++ joinSteps

theorem forgetsNoAlert_iff_timelyRun :
    ∃ s, run plainHost {} waitingRules timelyRun = some s ∧ Joined s ∧
      (ForgetsNoAlert plainHost {} s ↔
        StepsMeet (step plainHost {} waitingRules) (Timely {}) (initial {}) timelyRun) := by
  have hmain : (run plainHost {} waitingRules timelyRun).map State.main = some (.joining []) := by
    decide +kernel
  obtain ⟨s, hs, hjoined⟩ := Option.map_eq_some_iff.mp hmain
  exact ⟨s, hs, hjoined, forgetsNoAlert_iff hs hjoined⟩

/-- The alert is raised behind the kill message. -/
def lateAlertRun : List Step :=
  firstSteps ++ stopSteps ++ [.state 5, .output, .state 5, .state 5, .mail .check,
    .mail (.finish (.ok ()))] ++ joinSteps

/-- The alert is written in time, and `mail_task` leaves its loop before it is handed on. -/
def lateMailRun : List Step :=
  firstSteps ++ [.state 5, .output, .output] ++ stopSteps ++ [.state 5, .state 5, .mail .check,
    .mail (.finish (.ok ())), .output, .output] ++ joinSteps

/-- One run forgets to write an alert, and another to mail one, without a warning. -/
theorem shutdown_forgets :
    (∃ s, run plainHost {} waitingRules lateAlertRun = some s ∧ Joined s ∧
      ∃ e ∈ s.history, e.2 ≠ .ofSource plainHost killMessage ∧ e ∉ s.written) ∧
    ∃ s, run plainHost {} waitingRules lateMailRun = some s ∧ Joined s ∧
      s.mailTask.log = [] ∧ ∃ e ∈ s.written, MailConfig.Mails {} e.2 ∧
        e ∉ s.mailTask.sent.flatten ∧ e ∉ s.mailTask.localQueue := by
  constructor
  · have hrun : (run plainHost {} waitingRules lateAlertRun).map (fun s =>
        (s.main, s.history.map fun e => (e.1, e.2.ruleId), s.written.map Prod.fst)) =
          some (.joining [], [(0, 1), (1, 0), (2, 3)], [0]) := by
      decide +kernel
    obtain ⟨s, hs, heq⟩ := Option.map_eq_some_iff.mp hrun
    obtain ⟨hmain, hhistory, hwritten⟩ : s.main = .joining [] ∧
        s.history.map (fun e => (e.1, e.2.ruleId)) = [(0, 1), (1, 0), (2, 3)] ∧
          s.written.map Prod.fst = [0] := by simpa using heq
    have hlast : (2, 3) ∈ s.history.map (fun e => (e.1, e.2.ruleId)) := by simp [hhistory]
    obtain ⟨e, he, hnumber⟩ := List.mem_map.mp hlast
    obtain ⟨hnumber, hrule⟩ := Prod.mk.inj hnumber
    refine ⟨s, hs, hmain, e, he, ?_, ?_⟩
    · intro hkill
      rw [hkill] at hrule
      cases hrule
    · intro hmem
      have hfirst : e.1 ∈ s.written.map Prod.fst := List.mem_map_of_mem hmem
      rw [hwritten, hnumber] at hfirst
      simp at hfirst
  · have hrun : (run plainHost {} waitingRules lateMailRun).map (fun s =>
        (s.main, s.written.map fun e => e.2.priority,
          s.mailTask.log.length, s.mailTask.kept.length)) = some (.joining [], [1, 8], 0, 0) := by
      decide +kernel
    obtain ⟨s, hs, heq⟩ := Option.map_eq_some_iff.mp hrun
    obtain ⟨hmain, hwritten, hlog, hkept⟩ : s.main = .joining [] ∧
        s.written.map (fun e => e.2.priority) = [1, 8] ∧ s.mailTask.log = [] ∧
          s.mailTask.kept = [] := by simpa using heq
    obtain ⟨hsent, hlocal⟩ := List.append_eq_nil_iff.mp hkept
    have hlast : 8 ∈ s.written.map (fun e => e.2.priority) := by simp [hwritten]
    obtain ⟨e, he, hpriority⟩ := List.mem_map.mp hlast
    refine ⟨s, hs, hmain, hlog, e, he, .inl ?_, by simp [hsent], by simp [hlocal]⟩
    rw [hpriority]
    decide

end Runs

end Joined

end Ctguard.ResearchDaemon
