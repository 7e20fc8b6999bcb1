import Ctguard.LogfileRuns
import Mathlib.Data.List.Chain
import Mathlib.Data.List.Pairwise

/-!
# The messages about a file

The scanner reports when a file goes down and when it comes alive, and when no line has come for
too long. What was reported last agrees with the state of the entry, which is how no report is
made twice.
-/

namespace Ctguard.LogfileTrace

open LogfileTask

variable {unitTest : Bool} {clock : ℕ → ℤ} {saved : List (String × UInt64 × ℤ)} {file : ℕ}
  {ls ls' : Logfile} {ds : List Deed} {d : Deed}

section Tracks

variable {β : Type*} {mark : Deed → Option β} {R : β → β → Prop} {agrees : Logfile → β → Prop}

/-- Of the deeds that are marked, each may follow the one before, and the last one agrees with the
entry as it is. -/
structure Tracks (mark : Deed → Option β) (R : β → β → Prop) (agrees : Logfile → β → Prop)
    (ls : Logfile) (ds : List Deed) : Prop where
  chain : (ds.filterMap mark).IsChain R
  last : ∀ b ∈ (ds.filterMap mark).getLast?, agrees ls b

theorem Tracks.same (h : Tracks mark R agrees ls ds) (hsame : ∀ b, agrees ls b → agrees ls' b) :
    Tracks mark R agrees ls' ds :=
  ⟨h.chain, fun b hb => hsame b (h.last b hb)⟩

theorem Tracks.unmarked (h : Tracks mark R agrees ls ds) (hd : mark d = none)
    (hsame : ∀ b, agrees ls b → agrees ls' b) : Tracks mark R agrees ls' (ds ++ [d]) := by
  have hmarks : (ds ++ [d]).filterMap mark = ds.filterMap mark := by simp [hd]
  exact ⟨hmarks ▸ h.chain, fun b hb => hsame b (h.last b (hmarks ▸ hb))⟩

theorem Tracks.marked (h : Tracks mark R agrees ls ds) {b : β} (hd : mark d = some b)
    (hbefore : ∀ c, agrees ls c → R c b) (hafter : agrees ls' b) :
    Tracks mark R agrees ls' (ds ++ [d]) := by
  have hmarks : (ds ++ [d]).filterMap mark = ds.filterMap mark ++ [b] := by simp [hd]
  constructor
  · rw [hmarks, List.isChain_append]
    refine ⟨h.chain, List.isChain_singleton b, fun c hc b' hb' => ?_⟩
    obtain rfl : b = b' := by simpa using hb'
    exact hbefore c (h.last c hc)
  · rw [hmarks]
    intro c hc
    obtain rfl : b = c := by simpa using hc
    exact hafter

theorem tracks_unmarked (h : ∀ d ∈ ds, mark d = none) : Tracks mark R agrees ls ds := by
  have hnone : ds.filterMap mark = [] := List.filterMap_eq_nil_iff.mpr h
  exact ⟨by simp [hnone], by simp [hnone]⟩

end Tracks

section DownAndAlive

/-- Whether a deed reports the file as alive, `true`, or as down, `false`. -/
def Deed.report : Deed → Option Bool
  | .emplace _ _ se =>
    if se.controlMessage = false then none
    else if se.message = "!File coming alive" then some true
    else if se.message = "!File went down" then some false
    else none
  | _ => none

/-- The reports alternate, and the last one is about the entry as it is. -/
abbrev Reported : Logfile → List Deed → Prop :=
  Tracks Deed.report (· ≠ ·) fun ls b => b = true ↔ Usable ls

theorem Reported.same (h : Reported ls ds) (husable : Usable ls' ↔ Usable ls) :
    Reported ls' ds :=
  Tracks.same h fun _ hb => hb.trans husable.symm

theorem Reported.unreported (h : Reported ls ds) (hd : d.report = none)
    (husable : Usable ls' ↔ Usable ls) : Reported ls' (ds ++ [d]) :=
  Tracks.unmarked h hd fun _ hb => hb.trans husable.symm

/-- A change is reported. -/
theorem Reported.report (h : Reported ls ds) {b : Bool} (hd : d.report = some b)
    (hbefore : b = true ↔ ¬ Usable ls) (hafter : b = true ↔ Usable ls') :
    Reported ls' (ds ++ [d]) := by
  refine Tracks.marked h hd (fun c hc hcb => ?_) hafter
  rw [hcb, hbefore] at hc
  exact iff_not_self hc.symm

theorem Reported.checks {p q : Progress} (h : Reported p.entry (own file p.trace))
    (hchecks : Checks unitTest clock file p q) : Reported q.entry (own file q.trace) := by
  cases hchecks with
  | unasked => exact h
  | early => exact h
  | silent =>
    rw [alertTimeout, Progress.emplace, own_append, own_cons, own_nil]
    exact h.unreported (by simp [Deed.report, log2Se]) Iff.rfl

theorem Reported.opens {p q : Progress} (h : Reported p.entry (own file p.trace))
    (hopens : Opens unitTest clock file p q) : Reported q.entry (own file q.trace) := by
  cases hopens with
  | usable => exact h
  | alive hnot fd hfd =>
    have hopened : Reported p.entry (own file p.trace ++ [.opened fd]) := h.unreported rfl Iff.rfl
    simp only [comeAlive, Progress.change, Progress.emplace, Progress.note, own_append, own_cons,
      own_nil]
    exact hopened.report (b := true) (by simp [Deed.report, log2Se]) (iff_of_true rfl hnot)
      (iff_of_true rfl ⟨hfd, rfl⟩)
  | still hnot => exact h.same (iff_of_false (fun h => h.1 rfl) hnot)

theorem Reported.replace {p : Progress} (h : Reported p.entry (own file p.trace)) (inode : UInt64)
    (fd : ℤ) :
    Reported p.entry (own file (LogfileTrace.replace unitTest clock file inode fd p).trace) := by
  simp only [LogfileTrace.replace, Progress.change, Progress.emplace, Progress.note, own_append,
    own_cons, own_nil]
  refine Reported.unreported (Reported.unreported h ?_ Iff.rfl) rfl Iff.rfl
  simp [Deed.report, log2Se]

theorem Reported.step {p q : Progress} (h : Reported p.entry (own file p.trace))
    (hstep : Step unitTest clock file p q) : Reported q.entry (own file q.trace) := by
  cases hstep with
  | quiet => exact h.same Iff.rfl
  | truncated =>
    rw [Progress.emplace, own_append, own_cons, own_nil]
    exact h.unreported (by simp [Deed.report, log2Se]) Iff.rfl
  | line position line =>
    rw [gotLine, Progress.emplace, own_append, own_cons, own_nil]
    exact h.unreported (by simp [Deed.report, log2Se]) Iff.rfl
  | replaced inode fd husable hfd =>
    rw [Progress.note, own_append, own_cons, own_nil]
    exact (h.replace inode fd).unreported rfl (iff_of_true ⟨hfd, husable.2⟩ husable)
  | lost inode husable =>
    rw [Progress.emplace, own_append, own_cons, own_nil]
    exact (h.replace inode (-1)).report (b := false) (by simp [Deed.report, log2Se])
      (iff_of_false Bool.false_ne_true fun h => h husable)
      (iff_of_false Bool.false_ne_true fun h => h.1 rfl)
  | down husable =>
    simp only [goDown, Progress.change, Progress.emplace, own_append, own_cons, own_nil]
    exact h.report (b := false) (by simp [Deed.report, log2Se])
      (iff_of_false Bool.false_ne_true fun h => h husable)
      (iff_of_false Bool.false_ne_true fun h => absurd h.2 Bool.noConfusion)

theorem SetUp.report (h : SetUp d) : d.report = none := by
  cases d with
  | emplace time updated se => simp [Deed.report, h.2]
  | opened fd => rfl
  | closed fd => rfl

/-- The reports that a file went down or came alive alternate, and the last of them tells whether
the file is usable. -/
theorem reports_alternate {xs : List Action} {s : Scan}
    (h : runSteps (step unitTest clock saved) {} xs = some s) {i : ℕ}
    (hi : s.entries[i]? = some ls) :
    ((own i s.trace).filterMap Deed.report).IsChain (· ≠ ·) ∧
      ∀ b, ((own i s.trace).filterMap Deed.report).getLast? = some b → (b = true ↔ Usable ls) := by
  have hall : EachFile (fun ls _ ds => Reported ls ds) s := by
    refine eachFile_of_run (fun h _ => h) ?_ ?_ h
    · intro file opened fstat lc moment trace hnone q
      obtain ⟨ds, hds, hsetUp⟩ := Extends.own_self (startFile_extends saved opened fstat _)
      rw [hds, hnone]
      exact tracks_unmarked fun d hd => (hsetUp d hd).report
    · intro file a p hp
      exact @visitFile_invariant unitTest clock file
        (fun p => Reported p.entry (own file p.trace)) (fun h h' => h.checks h')
        (fun h h' => h.opens h') (fun h h' => h.step h') a p hp
  have hreported := hall.each i ls hi
  exact ⟨hreported.chain, hreported.last⟩

theorem reports_alternate_returning : ∃ s ls,
    runSteps (LogfileTrace.step false (fun _ => 0) []) {} returningRun = some s ∧
      s.entries[0]? = some ls ∧ (own 0 s.trace).filterMap Deed.report = [false, true] ∧
      Usable ls := by
  have h : ((runSteps (LogfileTrace.step false (fun _ => 0) []) {} returningRun).bind fun s =>
      s.entries[0]?.map fun _ => (own 0 s.trace).filterMap Deed.report) = some [false, true] := by
    decide +kernel
  obtain ⟨s, hs, hmap⟩ := Option.bind_eq_some_iff.mp h
  obtain ⟨ls, hls, hreports⟩ := Option.map_eq_some_iff.mp hmap
  exact ⟨s, ls, hs, hls, hreports,
    ((reports_alternate hs hls).2 true (by rw [hreports]; rfl)).mp rfl⟩

end DownAndAlive

section Silence

/-- The time never goes back. -/
def NonDecreasing (clock : ℕ → ℤ) : Prop := ∀ n m, n ≤ m → clock n ≤ clock m

/-- A line that was noted at one time and put into the queue at another. -/
def LineAt (updated time : ℤ) (d : Deed) : Prop :=
  ∃ se, d = .emplace time updated se ∧ se.controlMessage = false

def AlertAt (time : ℤ) (d : Deed) : Prop :=
  ∃ updated se, d = .emplace time updated se ∧ se.controlMessage = true ∧
    se.message = "!Timeout alert"

theorem lineAt_emplace {updated time updated' time' : ℤ} {se : SourceEvent} :
    LineAt updated time (.emplace time' updated' se) ↔
      updated = updated' ∧ time = time' ∧ se.controlMessage = false := by
  simp only [LineAt, Deed.emplace.injEq]
  constructor
  · rintro ⟨se', ⟨rfl, rfl, rfl⟩, h⟩
    exact ⟨rfl, rfl, h⟩
  · rintro ⟨rfl, rfl, h⟩
    exact ⟨se, ⟨rfl, rfl, rfl⟩, h⟩

theorem alertAt_emplace {time updated' time' : ℤ} {se : SourceEvent} :
    AlertAt time (.emplace time' updated' se) ↔
      time = time' ∧ se.controlMessage = true ∧ se.message = "!Timeout alert" := by
  simp only [AlertAt, Deed.emplace.injEq]
  constructor
  · rintro ⟨updated, se', ⟨rfl, rfl, rfl⟩, h⟩
    exact ⟨rfl, h⟩
  · rintro ⟨rfl, h⟩
    exact ⟨updated', se, ⟨rfl, rfl, rfl⟩, h⟩

/-- Whether a deed is an alert, `true`, or ends a silence, `false`: a line, or the message that
the file came alive. -/
def Deed.alarm : Deed → Option Bool
  | .emplace _ _ se =>
    if se.controlMessage = false then some false
    else if se.message = "!Timeout alert" then some true
    else if se.message = "!File coming alive" then some false
    else none
  | _ => none

/-- No alert follows another one, and the last one is known to the entry. -/
abbrev Alarmed : Logfile → List Deed → Prop :=
  Tracks Deed.alarm (fun a b => ¬ (a = true ∧ b = true)) fun ls b => b = true → ls.timeoutTriggered

/-- A line was noted right before it was put into the queue, and not after the last update. -/
def Noted (clock : ℕ → ℤ) (n : ℕ) (ls : Logfile) (d : Deed) : Prop :=
  ∀ updated time, LineAt updated time d → updated ≤ ls.lastUpdated ∧
    ∃ k, k < n ∧ updated = clock k ∧ time = clock (k + 1)

/-- The alert is not put into the queue earlier than the configured time after the line. -/
def Late (t : ℕ) (d e : Deed) : Prop :=
  ∀ updated time now, LineAt updated time d → AlertAt now e → updated + t ≤ now

structure Silent (clock : ℕ → ℤ) (ls : Logfile) (n : ℕ) (ds : List Deed) : Prop where
  noted : ∀ d ∈ ds, Noted clock n ls d
  late : ds.Pairwise (Late ls.config.timeoutAlert.toNat)
  alarmed : Alarmed ls ds

theorem Noted.later {n m : ℕ} (h : Noted clock n ls d) (hle : n ≤ m)
    (hupdated : ls.lastUpdated ≤ ls'.lastUpdated) : Noted clock m ls' d := by
  intro updated time hd
  obtain ⟨hlast, k, hk, htimes⟩ := h updated time hd
  exact ⟨Int.le_trans hlast hupdated, k, hk.trans_le hle, htimes⟩

/-- A deed that is neither a line nor an alert. -/
theorem Silent.other {n m : ℕ} (h : Silent clock ls n ds) (hle : n ≤ m)
    (hline : ∀ updated time, ¬ LineAt updated time d) (halert : ∀ time, ¬ AlertAt time d)
    (hconfig : ls'.config = ls.config) (hupdated : ls'.lastUpdated = ls.lastUpdated)
    (halarmed : Alarmed ls' (ds ++ [d])) : Silent clock ls' m (ds ++ [d]) where
  noted := by
    intro e he
    rcases List.mem_append.mp he with he | he
    · exact (h.noted e he).later hle (Int.le_of_eq hupdated.symm)
    · obtain rfl : e = d := by simpa using he
      exact fun updated time hd => absurd hd (hline updated time)
  late := by
    rw [hconfig, List.pairwise_append]
    refine ⟨h.late, List.pairwise_singleton _ _, ?_⟩
    intro a _ e he updated time now _ hnow
    obtain rfl : e = d := by simpa using he
    exact absurd hnow (halert now)
  alarmed := halarmed

theorem Silent.line (hclock : NonDecreasing clock) {n : ℕ} (h : Silent clock ls n ds)
    {se : SourceEvent} (hse : se.controlMessage = false) (hconfig : ls'.config = ls.config)
    (hupdated : ls'.lastUpdated = clock n) :
    Silent clock ls' (n + 2) (ds ++ [.emplace (clock (n + 1)) (clock n) se]) where
  noted := by
    intro e he updated time hline
    rcases List.mem_append.mp he with he | he
    · obtain ⟨-, k, hk, htimes⟩ := h.noted e he updated time hline
      have hle : clock k ≤ clock n := hclock k n hk.le
      exact ⟨by rw [hupdated, htimes.1]; exact hle, k, by omega, htimes⟩
    · obtain rfl : e = _ := List.mem_singleton.mp he
      obtain ⟨rfl, rfl, -⟩ := lineAt_emplace.mp hline
      exact ⟨(Int.le_of_eq hupdated.symm), n, by omega, rfl, rfl⟩
  late := by
    rw [hconfig, List.pairwise_append]
    refine ⟨h.late, List.pairwise_singleton _ _, ?_⟩
    intro a _ e he updated time now _ hnow
    obtain rfl : e = _ := List.mem_singleton.mp he
    obtain ⟨-, hcontrol, -⟩ := alertAt_emplace.mp hnow
    rw [hse] at hcontrol
    cases hcontrol
  alarmed := Tracks.marked h.alarmed (b := false) (by simp [Deed.alarm, hse])
    (fun _ _ hb => Bool.false_ne_true hb.2) fun hb => absurd hb Bool.false_ne_true

/-- The clock has moved on by the configured time since the last update, and so since any line. -/
theorem Silent.alert (hclock : NonDecreasing clock) {n : ℕ} (h : Silent clock ls n ds)
    (hquiet : ls.timeoutTriggered = false)
    (hdue : ls.lastUpdated + ls.config.timeoutAlert.toNat ≤ clock n) (updated : ℤ)
    {se : SourceEvent} (hse : se.controlMessage = true) (hmessage : se.message = "!Timeout alert")
    (hconfig : ls'.config = ls.config) (hupdated : ls'.lastUpdated = ls.lastUpdated)
    (htriggered : ls'.timeoutTriggered = true) :
    Silent clock ls' (n + 2) (ds ++ [.emplace (clock (n + 1)) updated se]) where
  noted := by
    intro e he
    rcases List.mem_append.mp he with he | he
    · exact (h.noted e he).later (by omega) (Int.le_of_eq hupdated.symm)
    · obtain rfl : e = _ := List.mem_singleton.mp he
      intro updated time hline
      rw [lineAt_emplace, hse] at hline
      cases hline.2.2
  late := by
    rw [hconfig, List.pairwise_append]
    refine ⟨h.late, List.pairwise_singleton _ _, ?_⟩
    intro a ha e he updated time now hline hnow
    obtain rfl : e = _ := List.mem_singleton.mp he
    obtain ⟨rfl, -⟩ := alertAt_emplace.mp hnow
    obtain ⟨hlast, -⟩ := h.noted a ha updated time hline
    have hnext : clock n ≤ clock (n + 1) := hclock n (n + 1) (Nat.le_succ n)
    omega
  alarmed := Tracks.marked h.alarmed (b := true) (by simp [Deed.alarm, hse, hmessage])
    (fun c hc hb => by simp [hc hb.1] at hquiet) fun _ => htriggered

theorem not_lineAt {time updated : ℤ} {se : SourceEvent} (h : se.controlMessage = true)
    (updated' time' : ℤ) : ¬ LineAt updated' time' (.emplace time updated se) := by
  simp [lineAt_emplace, h]

theorem not_alertAt {time updated : ℤ} {se : SourceEvent} (h : se.message ≠ "!Timeout alert")
    (time' : ℤ) : ¬ AlertAt time' (.emplace time updated se) := by
  simp [alertAt_emplace, h]

theorem not_lineAt_of_ne (h : ∀ time updated se, d ≠ .emplace time updated se) (updated time : ℤ) :
    ¬ LineAt updated time d := fun ⟨se, heq, _⟩ => h time updated se heq

theorem not_alertAt_of_ne (h : ∀ time updated se, d ≠ .emplace time updated se) (time : ℤ) :
    ¬ AlertAt time d := fun ⟨updated, se, heq, _⟩ => h time updated se heq

/-- A message of the scanner that is neither an alert nor ends a silence. -/
theorem Silent.message {p : Progress} (h : Silent clock p.entry p.moment (own file p.trace))
    {message : String} (halert : message ≠ "!Timeout alert")
    (halive : message ≠ "!File coming alive") :
    Silent clock p.entry (p.moment + 1)
      (own file (p.emplace unitTest clock file true message).trace) := by
  rw [Progress.emplace, own_append, own_cons, own_nil]
  exact h.other (Nat.le_succ _) (not_lineAt rfl) (not_alertAt halert) rfl rfl
    (Tracks.unmarked h.alarmed (by simp [Deed.alarm, log2Se, halert, halive]) fun _ hb => hb)

theorem Silent.later {n m : ℕ} (h : Silent clock ls n ds) (hle : n ≤ m)
    (hconfig : ls'.config = ls.config) (hupdated : ls'.lastUpdated = ls.lastUpdated)
    (htriggered : ls'.timeoutTriggered = ls.timeoutTriggered) : Silent clock ls' m ds where
  noted := fun d hd => (h.noted d hd).later hle (Int.le_of_eq hupdated.symm)
  late := hconfig ▸ h.late
  alarmed := Tracks.same h.alarmed fun _ hb => htriggered ▸ hb

/-- Opening and closing descriptors is no message. -/
theorem Silent.handle {n : ℕ} (h : Silent clock ls n ds)
    (hd : ∀ time updated se, d ≠ .emplace time updated se) : Silent clock ls n (ds ++ [d]) :=
  h.other le_rfl (not_lineAt_of_ne hd) (not_alertAt_of_ne hd) rfl rfl
    (Tracks.unmarked h.alarmed (by cases d <;> simp_all [Deed.alarm]) fun _ hb => hb)

variable {p q : Progress}

theorem Silent.checks (hclock : NonDecreasing clock)
    (h : Silent clock p.entry p.moment (own file p.trace))
    (hchecks : Checks unitTest clock file p q) :
    Silent clock q.entry q.moment (own file q.trace) := by
  cases hchecks with
  | unasked => exact h
  | early => exact h.later (Nat.le_succ _) rfl rfl rfl
  | silent hquiet hdue =>
    rw [alertTimeout, Progress.emplace, own_append, own_cons, own_nil]
    exact h.alert hclock hquiet hdue _ rfl rfl rfl rfl rfl

theorem Silent.opens (h : Silent clock p.entry p.moment (own file p.trace))
    (hopens : Opens unitTest clock file p q) :
    Silent clock q.entry q.moment (own file q.trace) := by
  cases hopens with
  | usable => exact h
  | alive hnot fd hfd =>
    have hopened : Silent clock p.entry p.moment (own file p.trace ++ [.opened fd]) :=
      h.handle (by simp)
    simp only [comeAlive, Progress.change, Progress.emplace, Progress.note, own_append, own_cons,
      own_nil]
    refine hopened.other (Nat.le_succ _) (not_lineAt rfl) (not_alertAt (by simp [log2Se])) rfl rfl ?_
    exact Tracks.marked hopened.alarmed (b := false) (by simp [Deed.alarm, log2Se])
      (fun _ _ hb => Bool.false_ne_true hb.2) fun hb => absurd hb Bool.false_ne_true
  | still hnot => exact h.later le_rfl rfl rfl rfl

theorem Silent.replace (h : Silent clock p.entry p.moment (own file p.trace)) (inode : UInt64)
    (fd : ℤ) :
    let r := LogfileTrace.replace unitTest clock file inode fd p
    Silent clock r.entry r.moment (own file r.trace) := by
  intro r
  have hmessage := @Silent.message unitTest clock file p h "!File got replaced" (by simp) (by simp)
  have hclosed := hmessage.handle (d := .closed p.entry.fd) (by simp)
  simp only [r, LogfileTrace.replace, Progress.change, Progress.note, own_append, own_cons, own_nil]
  exact hclosed.later le_rfl rfl rfl rfl

theorem Silent.step (hclock : NonDecreasing clock)
    (h : Silent clock p.entry p.moment (own file p.trace))
    (hstep : Step unitTest clock file p q) :
    Silent clock q.entry q.moment (own file q.trace) := by
  cases hstep with
  | quiet => exact h.later le_rfl rfl rfl rfl
  | truncated => exact h.message (by simp) (by simp)
  | line position line =>
    rw [gotLine, Progress.emplace, own_append, own_cons, own_nil]
    exact h.line hclock rfl rfl rfl
  | replaced inode fd husable hfd =>
    rw [Progress.note, own_append, own_cons, own_nil]
    exact (h.replace inode fd).handle (by simp)
  | lost inode husable => exact (h.replace inode (-1)).message (by simp) (by simp)
  | down husable => exact (h.message (by simp) (by simp)).later le_rfl rfl rfl rfl

theorem SetUp.not_lineAt (h : SetUp d) (updated time : ℤ) : ¬ LineAt updated time d := by
  rintro ⟨se, rfl, hcontrol⟩
  rw [h.1] at hcontrol
  cases hcontrol

theorem silent_setUp {n : ℕ} (h : ∀ d ∈ ds, SetUp d) : Silent clock ls n ds where
  noted := fun d hd updated time hline => absurd hline ((h d hd).not_lineAt updated time)
  late := List.pairwise_of_forall_mem_list fun d hd _ _ updated time _ hline _ =>
    absurd hline ((h d hd).not_lineAt updated time)
  alarmed := by
    refine tracks_unmarked fun d hd => ?_
    have hsetUp := h d hd
    cases d with
    | emplace time updated se => simp [Deed.alarm, hsetUp.1, hsetUp.2]
    | opened fd => rfl
    | closed fd => rfl

theorem silent_of_run (hclock : NonDecreasing clock) {xs : List Action} {s : Scan}
    (h : runSteps (LogfileTrace.step unitTest clock saved) {} xs = some s) :
    EachFile (Silent clock) s := by
  refine eachFile_of_run (fun h hle => h.later hle rfl rfl rfl) ?_ ?_ h
  · intro file opened fstat lc moment trace hnone q
    obtain ⟨ds, hds, hsetUp⟩ := Extends.own_self (startFile_extends saved opened fstat _)
    rw [hds, hnone]
    exact silent_setUp hsetUp
  · intro file a p hp
    exact @visitFile_invariant unitTest clock file
      (fun p => Silent clock p.entry p.moment (own file p.trace)) (fun h h' => h.checks hclock h')
      (fun h h' => h.opens h') (fun h h' => h.step hclock h') a p hp

def IsAlive (d : Deed) : Prop :=
  ∃ time updated se, d = .emplace time updated se ∧ se.controlMessage = true ∧
    se.message = "!File coming alive"

theorem alarm_of_alertAt {now : ℤ} (h : AlertAt now d) : d.alarm = some true := by
  obtain ⟨updated, se, rfl, hcontrol, hmessage⟩ := h
  simp [Deed.alarm, hcontrol, hmessage]

theorem line_or_alive_of_alarm (h : d.alarm = some false) :
    (∃ updated time, LineAt updated time d) ∨ IsAlive d := by
  cases d with
  | emplace time updated se =>
    by_cases hcontrol : se.controlMessage = false
    · exact .inl ⟨updated, time, se, rfl, hcontrol⟩
    · rw [Deed.alarm, if_neg hcontrol] at h
      by_cases halert : se.message = "!Timeout alert"
      · simp [halert] at h
      · by_cases halive : se.message = "!File coming alive"
        · exact .inr ⟨time, updated, se, rfl, by simpa using hcontrol, halive⟩
        · simp [halert, halive] at h
  | opened fd => cases h
  | closed fd => cases h

/-- Of the deeds that are marked, the one behind an alert is none. -/
theorem between_alerts (h : Alarmed ls ds) {pre mid post : List Deed} {d e : Deed} {now now' : ℤ}
    (hds : ds = pre ++ d :: (mid ++ e :: post)) (hd : AlertAt now d) (he : AlertAt now' e) :
    ∃ c ∈ mid, c.alarm = some false := by
  have hchain := h.chain
  rw [hds, List.filterMap_append, List.filterMap_cons_some (alarm_of_alertAt hd),
    List.filterMap_append, List.filterMap_cons_some (alarm_of_alertAt he)] at hchain
  cases hmid : mid.filterMap Deed.alarm with
  | nil =>
    rw [hmid, List.nil_append, List.isChain_append_cons_cons] at hchain
    exact absurd ⟨rfl, rfl⟩ hchain.2.1
  | cons b bs =>
    rw [hmid, List.cons_append, List.isChain_append_cons_cons] at hchain
    obtain ⟨c, hc, hb⟩ := List.mem_filterMap.mp (hmid ▸ List.mem_cons_self : b ∈ mid.filterMap _)
    have hfalse : b = false := Bool.eq_false_iff.mpr fun hb => hchain.2.1 ⟨rfl, hb⟩
    exact ⟨c, hc, hb.trans (congrArg some hfalse)⟩

/-- Every line is noted right before it is put into the queue. An alert comes only when the
configured time has gone by since each line before it was noted, and between two alerts there is
a line, or the file has come alive. -/
theorem silence_reported (hclock : NonDecreasing clock) {xs : List Action} {s : Scan}
    (h : runSteps (LogfileTrace.step unitTest clock saved) {} xs = some s) {i : ℕ}
    (hi : s.entries[i]? = some ls) :
    (∀ d ∈ own i s.trace, ∀ updated time, LineAt updated time d →
      ∃ k, updated = clock k ∧ time = clock (k + 1)) ∧
    (∀ pre e post now, own i s.trace = pre ++ e :: post → AlertAt now e →
      ∀ d ∈ pre, ∀ updated time, LineAt updated time d →
        updated + ls.config.timeoutAlert.toNat ≤ now) ∧
    ∀ pre d mid e post now now', own i s.trace = pre ++ d :: (mid ++ e :: post) →
      AlertAt now d → AlertAt now' e →
      ∃ c ∈ mid, (∃ updated time, LineAt updated time c) ∨ IsAlive c := by
  have hsilent := (silent_of_run hclock h).each i ls hi
  refine ⟨?_, ?_, ?_⟩
  · intro d hd updated time hline
    obtain ⟨-, k, -, htimes⟩ := hsilent.noted d hd updated time hline
    exact ⟨k, htimes⟩
  · intro pre e post now hds he d hd updated time hline
    have hlate := hsilent.late
    rw [hds, List.pairwise_append] at hlate
    exact hlate.2.2 d hd e List.mem_cons_self updated time now hline he
  · intro pre d mid e post now now' hds hd he
    obtain ⟨c, hc, halarm⟩ := between_alerts hsilent.alarmed hds hd he
    exact ⟨c, hc, line_or_alive_of_alarm halarm⟩

/-- The time moves on between the note that a line was read and its message. -/
def tickingClock (n : ℕ) : ℤ := if n < 2 then 0 else if n = 2 then 3 else if n = 3 then 4 else 8

theorem tickingClock_nonDecreasing : NonDecreasing tickingClock := by
  intro n m hnm
  simp only [tickingClock]
  split_ifs <;> omega

def tickingRun : List Action :=
  [.start { path := "/var/log/auth.log", timeoutAlert := 5 } 3 (some (7, 0)),
    .visit { opened := 3, stat := some (7, 2), reopened := 3, stream := some ['a', '\n'] },
    .visit { opened := 3, stat := some (7, 2), reopened := 3, stream := none }]

def tickingLine : Deed := .emplace 4 3 (log2Se false 4 "/var/log/auth.log" false "a")

def tickingAlert : Deed := .emplace 8 3 (log2Se false 8 "/var/log/auth.log" true "!Timeout alert")

theorem tickingRun_ends : ∃ s ls,
    runSteps (LogfileTrace.step false tickingClock []) {} tickingRun = some s ∧
      s.entries[0]? = some ls ∧ ls.config.timeoutAlert = 5 ∧
      own 0 s.trace = [.opened 3, tickingLine, tickingAlert] := by
  have h : ((runSteps (LogfileTrace.step false tickingClock []) {} tickingRun).bind fun s =>
      s.entries[0]?.map fun ls => (ls.config.timeoutAlert, own 0 s.trace)) =
        some (5, [.opened 3, tickingLine, tickingAlert]) := by
    decide +kernel
  obtain ⟨s, hs, hmap⟩ := Option.bind_eq_some_iff.mp h
  obtain ⟨ls, hls, heq⟩ := Option.map_eq_some_iff.mp hmap
  obtain ⟨htimeout, hown⟩ := Prod.mk.inj heq
  exact ⟨s, ls, hs, hls, htimeout, hown⟩

theorem tickingAlert_at : AlertAt 8 tickingAlert := ⟨3, _, rfl, rfl, rfl⟩

theorem tickingLine_at : LineAt 3 4 tickingLine := ⟨_, rfl, rfl⟩

theorem silence_reported_ticking : ∃ s ls,
    runSteps (LogfileTrace.step false tickingClock []) {} tickingRun = some s ∧
      s.entries[0]? = some ls ∧ (3 : ℤ) + ls.config.timeoutAlert.toNat ≤ 8 := by
  obtain ⟨s, ls, hs, hls, -, hown⟩ := tickingRun_ends
  exact ⟨s, ls, hs, hls, (silence_reported tickingClock_nonDecreasing hs hls).2.1
    [.opened 3, tickingLine] tickingAlert [] 8 hown tickingAlert_at tickingLine (by simp) 3 4
    tickingLine_at⟩

/-- The line was put into the queue four seconds before the alert, and not five. -/
theorem alert_soon_after_line : NonDecreasing tickingClock ∧ ∃ s ls,
    runSteps (LogfileTrace.step false tickingClock []) {} tickingRun = some s ∧
      s.entries[0]? = some ls ∧ ls.config.timeoutAlert = 5 ∧
      ∃ d e, own 0 s.trace = [.opened 3, d, e] ∧ LineAt 3 4 d ∧ AlertAt 8 e := by
  obtain ⟨s, ls, hs, hls, htimeout, hown⟩ := tickingRun_ends
  exact ⟨tickingClock_nonDecreasing, s, ls, hs, hls, htimeout, tickingLine, tickingAlert, hown,
    tickingLine_at, tickingAlert_at⟩

end Silence

end Ctguard.LogfileTrace
