import Ctguard.LogfileTrace
import Mathlib.Logic.Relation

/-!
# The steps of a visit

A visit checks for silence, opens the file if it is not usable, and then takes steps until it
comes to an end. What is done for one file is a part of the trace, which grows in the visits of
this file only. So what holds of a file when it is set up, and is preserved by the check, the
opening and the steps, holds in every run.
-/

namespace Ctguard.LogfileTrace

open LogfileTask

section Steps

variable (unitTest : Bool) (clock : ℕ → ℤ) (file : ℕ)

/-- The check for silence. -/
inductive Checks (p : Progress) : Progress → Prop where
  | unasked : Checks p p
  | early : Checks p { p with moment := p.moment + 1 }
  | silent (hquiet : p.entry.timeoutTriggered = false)
      (hdue : p.entry.lastUpdated + p.entry.config.timeoutAlert.toNat ≤ clock p.moment) :
      Checks p (alertTimeout unitTest clock file { p with moment := p.moment + 1 })

/-- A file that is not usable is opened anew, and what was its descriptor is overwritten. -/
inductive Opens (p : Progress) : Progress → Prop where
  | usable (h : Usable p.entry) : Opens p p
  | alive (h : ¬ Usable p.entry) (fd : ℤ) (hfd : fd ≠ -1) :
      Opens p (comeAlive unitTest clock file fd p)
  | still (h : ¬ Usable p.entry) : Opens p (stillDown p)

/-- What happens in a visit once the file is open. -/
inductive Step (p : Progress) : Progress → Prop where
  | quiet (position size : ℤ) :
      Step p (p.change fun ls => { ls with position := position, size := size })
  | truncated : Step p (p.emplace unitTest clock file true "!File truncated")
  | line (position : ℤ) (line : List Char) : Step p (gotLine unitTest clock file position line p)
  | replaced (inode : UInt64) (fd : ℤ) (h : Usable p.entry) (hfd : fd ≠ -1) :
      Step p ((replace unitTest clock file inode fd p).note file (.opened fd))
  | lost (inode : UInt64) (h : Usable p.entry) :
      Step p ((replace unitTest clock file inode (-1) p).emplace unitTest clock file true
        "!File went down")
  | down (h : Usable p.entry) : Step p (goDown unitTest clock file p)

abbrev Steps : Progress → Progress → Prop := Relation.ReflTransGen (Step unitTest clock file)

variable {unitTest clock file}

theorem readLoop_steps (st : InputStream Char) (line : List Char) (p : Progress) :
    Steps unitTest clock file p (readLoop unitTest clock file st line p) := by
  induction st, line, p using readLoop.induct unitTest clock file with
  | case1 st line p h =>
    rw [readLoop, dif_pos h]
  | case2 st line p h got hempty ih =>
    rw [readLoop, dif_neg h]
    simp only
    rw [if_pos hempty]
    exact ih
  | case3 st line p h got hempty told ih =>
    rw [readLoop, dif_neg h]
    simp only
    rw [if_neg hempty]
    exact .head (.line _ _) ih

theorem readStream_steps (a : Answers) (p : Progress) :
    Steps unitTest clock file p (readStream unitTest clock file a p) := by
  rw [readStream]
  split
  · exact .refl
  · simp only
    split
    · exact .refl
    · exact readLoop_steps _ _ p

theorem checkSize_steps (a : Answers) (size : ℤ) (p : Progress) :
    Steps unitTest clock file p (checkSize unitTest clock file a size p) := by
  rw [checkSize]
  split
  · exact .refl
  · split
    · exact .head .truncated (.head (.quiet 0 size) (readStream_steps a _))
    · exact .head (.quiet p.entry.position size) (readStream_steps a _)

theorem checkInode_steps (a : Answers) (inode : UInt64) (size : ℤ) {p : Progress}
    (h : Usable p.entry) :
    Steps unitTest clock file p (checkInode unitTest clock file a inode size p) := by
  rw [checkInode]
  split
  · simp only
    split
    · rename_i hreopened
      rw [hreopened]
      exact .single (.lost inode h)
    · rename_i hreopened
      exact .head (.replaced inode a.reopened h hreopened) (checkSize_steps a size _)
  · exact checkSize_steps a size p

theorem checkStat_steps (a : Answers) {p : Progress} (h : Usable p.entry) :
    Steps unitTest clock file p (checkStat unitTest clock file a p) := by
  rw [checkStat]
  split
  · exact .single (.down h)
  · exact checkInode_steps a _ _ h

theorem not_usable_iff (ls : Logfile) : ¬ Usable ls ↔ ls.fd = -1 ∨ ls.down = true := by
  simp [Usable]
  tauto

theorem usable_comeAlive {p : Progress} {fd : ℤ} (hfd : fd ≠ -1) :
    Usable (comeAlive unitTest clock file fd p).entry := ⟨hfd, rfl⟩

theorem bringUp_opens (a : Answers) (p : Progress) : ∃ q, Opens unitTest clock file p q ∧
    Steps unitTest clock file q (bringUp unitTest clock file a p) := by
  rw [bringUp]
  by_cases h : Usable p.entry
  · rw [if_neg fun h' => (not_usable_iff _).mpr h' h]
    exact ⟨p, .usable h, checkStat_steps a h⟩
  · rw [if_pos ((not_usable_iff _).mp h)]
    by_cases hopened : a.opened = -1
    · rw [if_pos hopened]
      exact ⟨_, .still h, .refl⟩
    · rw [if_neg hopened]
      exact ⟨_, .alive h a.opened hopened, checkStat_steps a (usable_comeAlive hopened)⟩

theorem checkTimeout_checks (p : Progress) :
    Checks unitTest clock file p (checkTimeout unitTest clock file p) := by
  rw [checkTimeout]
  split
  · rename_i hasked
    simp only
    split
    · rename_i hdue
      exact .silent hasked.2 hdue
    · exact .early
  · exact .unasked

/-- What the check, the opening and every step preserve is preserved by a visit. -/
theorem visitFile_invariant {P : Progress → Prop}
    (hchecks : ∀ {p q}, P p → Checks unitTest clock file p q → P q)
    (hopens : ∀ {p q}, P p → Opens unitTest clock file p q → P q)
    (hstep : ∀ {p q}, P p → Step unitTest clock file p q → P q) (a : Answers) {p : Progress}
    (h : P p) : P (visitFile unitTest clock file a p) := by
  obtain ⟨q, hq, hsteps⟩ := bringUp_opens a (checkTimeout unitTest clock file p)
  have hopened : P q := hopens (hchecks h (checkTimeout_checks p)) hq
  rw [visitFile]
  generalize bringUp unitTest clock file a (checkTimeout unitTest clock file p) = r at hsteps
  induction hsteps with
  | refl => exact hopened
  | tail hsteps hlast ih => exact hstep ih hlast

end Steps

section Own

/-- What was done for one file. -/
def own (file : ℕ) (trace : List (ℕ × Deed)) : List Deed :=
  (trace.filter (·.1 = file)).map Prod.snd

@[simp] theorem own_append (file : ℕ) (xs ys : List (ℕ × Deed)) :
    own file (xs ++ ys) = own file xs ++ own file ys := by
  simp [own]

@[simp] theorem own_nil (file : ℕ) : own file [] = [] := rfl

@[simp] theorem own_cons (file : ℕ) (d : Deed) (trace : List (ℕ × Deed)) :
    own file ((file, d) :: trace) = d :: own file trace := by
  simp [own]

@[simp] theorem own_map_self (file : ℕ) (ds : List Deed) : own file (ds.map (file, ·)) = ds := by
  induction ds with
  | nil => rfl
  | cons d ds ih => rw [List.map_cons, own_cons, ih]

theorem own_eq_nil {file : ℕ} {trace : List (ℕ × Deed)} (h : ∀ x ∈ trace, x.1 ≠ file) :
    own file trace = [] := by
  simpa [own] using fun a b hab hfile => h (a, b) hab hfile

end Own

section Extends

variable {unitTest : Bool} {clock : ℕ → ℤ} {file : ℕ} {D : Deed → Prop}

/-- Time goes on, the configuration stays, and the deeds that are done are done for the file. -/
structure Extends (D : Deed → Prop) (file : ℕ) (p q : Progress) : Prop where
  moment : p.moment ≤ q.moment
  config : q.entry.config = p.entry.config
  trace : ∃ ds : List Deed, q.trace = p.trace ++ ds.map (file, ·) ∧ ∀ d ∈ ds, D d

theorem extends_self (p : Progress) : Extends D file p p := ⟨le_rfl, rfl, [], by simp⟩

theorem Extends.trans {p q r : Progress} (h : Extends D file p q) (h' : Extends D file q r) :
    Extends D file p r := by
  obtain ⟨ds, hds, hD⟩ := h.trace
  obtain ⟨es, hes, hD'⟩ := h'.trace
  refine ⟨h.moment.trans h'.moment, h'.config.trans h.config, ds ++ es, ?_, ?_⟩
  · rw [hes, hds, List.map_append, List.append_assoc]
  · simpa [or_imp, forall_and] using And.intro hD hD'

theorem extends_change {p : Progress} {f : Logfile → Logfile}
    (h : (f p.entry).config = p.entry.config) : Extends D file p (p.change f) :=
  ⟨le_rfl, h, [], by simp [Progress.change]⟩

theorem extends_note {d : Deed} (h : D d) (p : Progress) : Extends D file p (p.note file d) :=
  ⟨le_rfl, rfl, [d], by simpa [Progress.note] using h⟩

theorem extends_emplace {p : Progress} {control : Bool} {message : String}
    (h : ∀ time updated, D (.emplace time updated
      (log2Se unitTest time p.entry.path control message))) :
    Extends D file p (p.emplace unitTest clock file control message) :=
  ⟨Nat.le_succ _, rfl, [_], rfl, by simpa using h _ _⟩

theorem extends_updateTime (p : Progress) : Extends D file p (p.updateTime clock) :=
  ⟨Nat.le_succ _, rfl, [], by simp [Progress.updateTime]⟩

theorem Extends.own_self {p q : Progress} (h : Extends D file p q) :
    ∃ ds : List Deed, own file q.trace = own file p.trace ++ ds ∧ ∀ d ∈ ds, D d := by
  obtain ⟨ds, hds, hD⟩ := h.trace
  refine ⟨ds, ?_, hD⟩
  rw [hds, own_append, own_map_self]

theorem Extends.own_other {p q : Progress} (h : Extends D file p q) {other : ℕ}
    (hother : file ≠ other) : own other q.trace = own other p.trace := by
  obtain ⟨ds, hds, -⟩ := h.trace
  have hnone : own other (ds.map (file, ·)) = [] := own_eq_nil (by simpa using fun _ _ => hother)
  rw [hds, own_append, hnone, List.append_nil]

theorem Extends.mem {p q : Progress} (h : Extends D file p q) {x : ℕ × Deed}
    (hx : x ∈ q.trace) : x ∈ p.trace ∨ x.1 = file := by
  obtain ⟨ds, hds, -⟩ := h.trace
  rw [hds, List.mem_append, List.mem_map] at hx
  rcases hx with hx | ⟨d, -, rfl⟩
  · exact .inl hx
  · exact .inr rfl

section Visits

/-- Any deed may be done in a visit. -/
abbrev Any : Deed → Prop := fun _ => True

theorem Checks.extends {p q : Progress} (h : Checks unitTest clock file p q) :
    Extends Any file p q := by
  have hlater : Extends Any file p { p with moment := p.moment + 1 } :=
    ⟨Nat.le_succ _, rfl, [], by simp⟩
  cases h with
  | unasked => exact extends_self p
  | early => exact hlater
  | silent =>
    exact hlater.trans ((extends_change rfl).trans (extends_emplace fun _ _ => trivial))

theorem Opens.extends {p q : Progress} (h : Opens unitTest clock file p q) :
    Extends Any file p q := by
  cases h with
  | usable => exact extends_self p
  | alive =>
    exact (extends_change rfl).trans ((extends_note trivial _).trans
      ((extends_emplace fun _ _ => trivial).trans (extends_change rfl)))
  | still => exact extends_change rfl

theorem extends_replace (inode : UInt64) (fd : ℤ) (p : Progress) :
    Extends Any file p (replace unitTest clock file inode fd p) :=
  (extends_emplace fun _ _ => trivial).trans ((extends_note trivial _).trans (extends_change rfl))

theorem Step.extends {p q : Progress} (h : Step unitTest clock file p q) :
    Extends Any file p q := by
  cases h with
  | quiet => exact extends_change rfl
  | truncated => exact extends_emplace fun _ _ => trivial
  | line =>
    exact (extends_change rfl).trans ((extends_updateTime _).trans
      ((extends_change rfl).trans (extends_emplace fun _ _ => trivial)))
  | replaced => exact (extends_replace _ _ _).trans (extends_note trivial _)
  | lost => exact (extends_replace _ _ _).trans (extends_emplace fun _ _ => trivial)
  | down => exact (extends_emplace fun _ _ => trivial).trans (extends_change rfl)

theorem visitFile_extends (a : Answers) (p : Progress) :
    Extends Any file p (visitFile unitTest clock file a p) :=
  @visitFile_invariant unitTest clock file (Extends Any file p) (fun h h' => h.trans h'.extends)
    (fun h h' => h.trans h'.extends) (fun h h' => h.trans h'.extends) a p (extends_self p)

end Visits

section Starting

/-- The deeds of the set-up: a descriptor is opened, and the file may have been replaced. -/
def SetUp : Deed → Prop
  | .emplace _ _ se => se.controlMessage = true ∧ se.message = "!File got replaced"
  | .opened _ => True
  | .closed _ => False

theorem findStates_extends (inode : UInt64) (found : List (String × UInt64 × ℤ)) (p : Progress) :
    Extends SetUp file p (found.foldl (findState unitTest clock file inode) p) := by
  induction found generalizing p with
  | nil => exact extends_self p
  | cons s found ih =>
    refine Extends.trans ?_ (ih _)
    rw [findState]
    split
    · exact (extends_emplace fun _ _ => ⟨rfl, rfl⟩).trans (extends_change rfl)
    · exact extends_change rfl

theorem startFile_extends (saved : List (String × UInt64 × ℤ)) (opened : ℤ)
    (fstat : Option (UInt64 × ℤ)) (p : Progress) :
    Extends SetUp file p (startFile unitTest clock file saved opened fstat p) := by
  rw [startFile]
  split
  · exact extends_change rfl
  · have hopened : Extends SetUp file p ((p.change fun ls => { ls with fd := opened }).note file
        (.opened opened)) := (extends_change rfl).trans (extends_note trivial _)
    refine hopened.trans ?_
    cases fstat with
    | none => exact extends_change rfl
    | some s =>
      obtain ⟨inode, size⟩ := s
      dsimp only
      refine Extends.trans ?_ (extends_updateTime _)
      split
      · refine Extends.trans (Extends.trans (findStates_extends inode _ _) (extends_change ?_))
          (extends_change ?_)
        · rfl
        · rfl
      · refine Extends.trans (findStates_extends inode _ _) (extends_change ?_)
        rfl

end Starting

end Extends

section Runs

variable {unitTest : Bool} {clock : ℕ → ℤ} {saved : List (String × UInt64 × ℤ)}

/-- Every entry has the property with what was done for it. -/
structure EachFile (I : Logfile → ℕ → List Deed → Prop) (s : Scan) : Prop where
  known : ∀ x ∈ s.trace, x.1 < s.entries.length
  each : ∀ i ls, s.entries[i]? = some ls → I ls s.moment (own i s.trace)

/-- What holds of a file when it has been set up and is preserved by its visits, however late
they come, holds in every run. -/
theorem eachFile_of_run {I : Logfile → ℕ → List Deed → Prop}
    (hlater : ∀ {ls n m ds}, I ls n ds → n ≤ m → I ls m ds)
    (hstart : ∀ file opened fstat lc moment trace, own file trace = [] →
      let q := startFile unitTest clock file saved opened fstat
        { entry := { config := lc }, moment := moment, trace := trace }
      I q.entry q.moment (own file q.trace))
    (hvisit : ∀ file a p, I p.entry p.moment (own file p.trace) →
      let q := visitFile unitTest clock file a p
      I q.entry q.moment (own file q.trace))
    {xs : List Action} {s : Scan} (h : runSteps (step unitTest clock saved) {} xs = some s) :
    EachFile I s := by
  refine runSteps_invariant ?_ ⟨by simp, by simp⟩ h
  intro s x t hs hstep
  cases x with
  | start lc opened fstat =>
    rw [step] at hstep
    split at hstep
    · obtain rfl := Option.some.inj hstep
      set p : Progress := { entry := { config := lc }, moment := s.moment, trace := s.trace }
      have hext := @startFile_extends unitTest clock s.entries.length saved opened fstat p
      have hnone : own s.entries.length s.trace = [] :=
        own_eq_nil fun x hx => (hs.known x hx).ne
      refine ⟨?_, ?_⟩
      · intro x hx
        rw [List.length_append]
        rcases hext.mem hx with hold | hnew
        · exact (hs.known x hold).trans_le (Nat.le_add_right _ _)
        · simp [hnew]
      · intro i ls hi
        simp only [List.getElem?_append] at hi
        by_cases hlt : i < s.entries.length
        · rw [if_pos hlt] at hi
          rw [hext.own_other (Nat.ne_of_gt hlt)]
          exact hlater (hs.each i ls hi) hext.moment
        · rw [if_neg hlt, List.getElem?_singleton] at hi
          split at hi
          · obtain rfl : i = s.entries.length := by omega
            obtain rfl := Option.some.inj hi
            exact hstart s.entries.length opened fstat lc s.moment s.trace hnone
          · cases hi
    · cases hstep
  | visit a =>
    rw [step] at hstep
    split at hstep
    · cases hstep
    · rename_i ls hls
      obtain rfl := Option.some.inj hstep
      set p : Progress := { entry := ls, moment := s.moment, trace := s.trace }
      have hext := @visitFile_extends unitTest clock s.next a p
      have hlt : s.next < s.entries.length := (List.getElem?_eq_some_iff.mp hls).1
      refine ⟨?_, ?_⟩
      · intro x hx
        rw [List.length_set]
        rcases hext.mem hx with hold | hnew
        · exact hs.known x hold
        · rwa [hnew]
      · intro i ls' hi
        simp only [List.getElem?_set] at hi
        by_cases heq : s.next = i
        · subst heq
          rw [if_pos rfl, if_pos hlt] at hi
          obtain rfl := Option.some.inj hi
          exact hvisit s.next a p (hs.each s.next ls hls)
        · rw [if_neg heq] at hi
          rw [hext.own_other heq]
          exact hlater (hs.each i ls' hi) hext.moment

/-- A file that goes down, as it can not be stated for once, and comes alive again. -/
def returningRun : List Action :=
  [.start { path := "/var/log/auth.log" } 3 (some (7, 0)),
    .visit { opened := -1, stat := none, reopened := -1, stream := none },
    .visit { opened := 4, stat := some (7, 0), reopened := -1, stream := none }]

end Runs

end Ctguard.LogfileTrace
