import Ctguard.HandleTrace
import Ctguard.LogfileRuns
import Mathlib.Algebra.Order.Group.Multiset

/-!
# The descriptors of the log file scanner

A descriptor is held by the entry that was given it, until it is closed or overwritten. A file
that goes down because it can not be stated keeps its descriptor, and when it is opened again that
descriptor is overwritten, but was not closed.
-/

namespace Ctguard.LogfileTrace

open LogfileTask
open HandleTrace (Turns turns_nil)

variable {unitTest : Bool} {clock : ℕ → ℤ} {saved : List (String × UInt64 × ℤ)} {file : ℕ}
  {p q r : Progress} {s t : Scan} {l : Multiset ℤ}

def Deed.handle : Deed → Option (HandleTrace.Event ℤ)
  | .emplace .. => none
  | .opened fd => some (.acquire fd)
  | .closed fd => some (.release fd)

def handles (trace : List (ℕ × Deed)) : List (HandleTrace.Event ℤ) := trace.filterMap (·.2.handle)

/-- The descriptors that were opened and not yet closed. -/
def openDescriptors (s : Scan) : Multiset ℤ := HandleTrace.held 0 (handles s.trace)

/-- The descriptor of an entry, unless it is `-1`. -/
def descriptor (ls : Logfile) : Multiset ℤ := if ls.fd = -1 then 0 else {ls.fd}

def descriptors (s : Scan) : Multiset ℤ := (s.entries.map descriptor).sum

/-- The descriptor that a step overwrites: that of a file which is down. -/
def overwritten (s : Scan) : Action → Multiset ℤ
  | .start .. => 0
  | .visit _ =>
    match s.entries[s.next]? with
    | none => 0
    | some ls => if Usable ls then 0 else descriptor ls

section Visits

/-- What was opened and closed turns the descriptor of the entry into its new one, and `l` is
left open besides. -/
def Moves (p q : Progress) (l : Multiset ℤ) : Prop :=
  ∃ es, handles q.trace = handles p.trace ++ es ∧
    Turns (descriptor p.entry) (l + descriptor q.entry) es

theorem Moves.trans {l' : Multiset ℤ} (h : Moves p q l) (h' : Moves q r l') :
    Moves p r (l + l') := by
  obtain ⟨es, hes, hturns⟩ := h
  obtain ⟨fs, hfs, hturns'⟩ := h'
  refine ⟨es ++ fs, by rw [hfs, hes, List.append_assoc], hturns.append ?_⟩
  have hadd := hturns'.add l
  rwa [add_comm _ l, add_comm _ l, ← add_assoc] at hadd

theorem moves_of_eq (htrace : handles q.trace = handles p.trace) (hfd : q.entry.fd = p.entry.fd) :
    Moves p q 0 := by
  refine ⟨[], by rw [htrace, List.append_nil], ?_⟩
  rw [zero_add, descriptor, descriptor, hfd]
  exact turns_nil _

@[simp] theorem handles_append (xs ys : List (ℕ × Deed)) :
    handles (xs ++ ys) = handles xs ++ handles ys := List.filterMap_append

@[simp] theorem handles_nil : handles [] = [] := rfl

@[simp] theorem handles_emplace (time updated : ℤ) (se : SourceEvent) (trace : List (ℕ × Deed)) :
    handles ((file, .emplace time updated se) :: trace) = handles trace := rfl

@[simp] theorem handles_opened (fd : ℤ) (trace : List (ℕ × Deed)) :
    handles ((file, .opened fd) :: trace) = .acquire fd :: handles trace := rfl

@[simp] theorem handles_closed (fd : ℤ) (trace : List (ℕ × Deed)) :
    handles ((file, .closed fd) :: trace) = .release fd :: handles trace := rfl

theorem Usable.descriptor {ls : Logfile} (h : Usable ls) : descriptor ls = {ls.fd} :=
  if_neg h.1

theorem Step.moves (h : Step unitTest clock file p q) : Moves p q 0 := by
  cases h with
  | quiet => exact moves_of_eq rfl rfl
  | truncated => exact moves_of_eq (by simp [Progress.emplace]) rfl
  | line =>
    exact moves_of_eq (by simp [gotLine, Progress.emplace, Progress.change, Progress.updateTime]) rfl
  | replaced inode fd husable hfd =>
    refine ⟨[.release p.entry.fd, .acquire fd], ?_, ?_⟩
    · simp [replace, Progress.emplace, Progress.change, Progress.note]
    · rw [husable.descriptor, zero_add]
      refine Turns.release (m := 0) (Turns.acquire ?_)
      have hnew : descriptor ((replace unitTest clock file inode fd p).note file
          (.opened fd)).entry = fd ::ₘ 0 := if_neg hfd
      rw [hnew]
      exact turns_nil _
  | lost inode husable =>
    refine ⟨[.release p.entry.fd], ?_, ?_⟩
    · simp [replace, Progress.emplace, Progress.change, Progress.note]
    · rw [husable.descriptor, zero_add]
      exact Turns.release (turns_nil 0)
  | down husable => exact moves_of_eq (by simp [goDown, Progress.emplace, Progress.change]) rfl

theorem Steps.moves (h : Steps unitTest clock file p q) : Moves p q 0 := by
  induction h with
  | refl => exact moves_of_eq rfl rfl
  | tail hsteps hlast ih => simpa using ih.trans hlast.moves

theorem Opens.moves (h : Opens unitTest clock file p q) :
    Moves p q (if Usable p.entry then 0 else descriptor p.entry) := by
  cases h with
  | usable husable =>
    rw [if_pos husable]
    exact moves_of_eq rfl rfl
  | alive hnot fd hfd =>
    rw [if_neg hnot]
    refine ⟨[.acquire fd], ?_, Turns.acquire ?_⟩
    · simp [comeAlive, Progress.emplace, Progress.change, Progress.note]
    · have hnew : descriptor (comeAlive unitTest clock file fd p).entry = {fd} := if_neg hfd
      rw [hnew, add_comm, Multiset.singleton_add]
      exact turns_nil _
  | still hnot =>
    rw [if_neg hnot]
    refine ⟨[], by simp [stillDown, Progress.change], ?_⟩
    have hnew : descriptor (stillDown p).entry = 0 := if_pos rfl
    rw [hnew, add_zero]
    exact turns_nil _

theorem Checks.moves (h : Checks unitTest clock file p q) : Moves p q 0 := by
  cases h with
  | unasked => exact moves_of_eq rfl rfl
  | early => exact moves_of_eq rfl rfl
  | silent =>
    exact moves_of_eq (by simp [alertTimeout, Progress.emplace, Progress.change]) rfl

theorem Checks.same (h : Checks unitTest clock file p q) :
    descriptor q.entry = descriptor p.entry ∧ (Usable q.entry ↔ Usable p.entry) := by
  cases h with
  | unasked => exact ⟨rfl, Iff.rfl⟩
  | early => exact ⟨rfl, Iff.rfl⟩
  | silent => exact ⟨rfl, Iff.rfl⟩

theorem visitFile_moves (a : Answers) (p : Progress) :
    Moves p (visitFile unitTest clock file a p)
      (if Usable p.entry then 0 else descriptor p.entry) := by
  have hchecks := @checkTimeout_checks unitTest clock file p
  obtain ⟨q, hopens, hsteps⟩ :=
    @bringUp_opens unitTest clock file a (checkTimeout unitTest clock file p)
  have hmoves := (hchecks.moves.trans hopens.moves).trans (Steps.moves hsteps)
  simp only [hchecks.same.1, hchecks.same.2, zero_add, add_zero] at hmoves
  exact hmoves

theorem findStates_same (inode : UInt64) (found : List (String × UInt64 × ℤ)) (p : Progress) :
    handles (found.foldl (findState unitTest clock file inode) p).trace = handles p.trace ∧
      (found.foldl (findState unitTest clock file inode) p).entry.fd = p.entry.fd := by
  induction found generalizing p with
  | nil => exact ⟨rfl, rfl⟩
  | cons s found ih =>
    obtain ⟨htrace, hfd⟩ := ih (findState unitTest clock file inode p s)
    rw [List.foldl_cons, htrace, hfd, findState]
    split
    · exact ⟨by simp [Progress.emplace, Progress.change], rfl⟩
    · exact ⟨rfl, rfl⟩

/-- The set-up opens the descriptor that the entry gets. -/
theorem startFile_moves (opened : ℤ) (fstat : Option (UInt64 × ℤ)) (h : p.entry.fd = -1) :
    Moves p (startFile unitTest clock file saved opened fstat p) 0 := by
  rw [startFile]
  by_cases hopened : opened = -1
  · rw [if_pos hopened]
    exact moves_of_eq rfl rfl
  · rw [if_neg hopened]
    have hfirst : Moves p ((p.change fun ls => { ls with fd := opened }).note file
        (.opened opened)) 0 := by
      refine ⟨[.acquire opened], by simp [Progress.note, Progress.change], ?_⟩
      have hnone : descriptor p.entry = 0 := if_pos h
      have hnew : descriptor ((p.change fun ls => { ls with fd := opened }).note file
          (.opened opened)).entry = opened ::ₘ 0 := if_neg hopened
      rw [hnone, hnew, zero_add]
      exact Turns.acquire (turns_nil _)
    rw [← add_zero (0 : Multiset ℤ)]
    refine hfirst.trans ?_
    cases fstat with
    | none => exact moves_of_eq rfl rfl
    | some s =>
      obtain ⟨inode, size⟩ := s
      dsimp only
      split
      · exact moves_of_eq (findStates_same inode _ _).1 (findStates_same inode _ _).2
      · exact moves_of_eq (findStates_same inode _ _).1 (findStates_same inode _ _).2

end Visits

section Runs

theorem sum_set {α M : Type*} [AddCommMonoid M] (f : α → M) {xs : List α} {i : ℕ} {a : α}
    (h : xs[i]? = some a) :
    ∃ r, (xs.map f).sum = f a + r ∧ ∀ b, ((xs.set i b).map f).sum = f b + r := by
  induction xs generalizing i with
  | nil => cases h
  | cons x xs ih =>
    cases i with
    | zero =>
      obtain rfl := Option.some.inj h
      exact ⟨(xs.map f).sum, by simp, by simp⟩
    | succ i =>
      obtain ⟨r, hsum, hset⟩ := ih (i := i) (by simpa using h)
      refine ⟨f x + r, ?_, fun b => ?_⟩
      · rw [List.map_cons, List.sum_cons, hsum, add_left_comm]
      · rw [List.set_cons_succ, List.map_cons, List.sum_cons, hset, add_left_comm]

/-- A step leaves open what it overwrites. -/
theorem step_descriptors {x : Action} (hs : openDescriptors s = l + descriptors s)
    (h : step unitTest clock saved s x = some t) :
    openDescriptors t = l + overwritten s x + descriptors t := by
  cases x with
  | start lc opened fstat =>
    rw [step] at h
    split at h
    · obtain rfl := Option.some.inj h
      obtain ⟨es, hes, hturns⟩ := @startFile_moves unitTest clock saved s.entries.length
        { entry := { config := lc }, moment := s.moment, trace := s.trace } opened fstat rfl
      have hnone : descriptor { config := lc } = 0 := if_pos rfl
      have hheld := hturns (l + descriptors s)
      rw [hnone, zero_add, zero_add] at hheld
      rw [openDescriptors] at hs ⊢
      simp only [descriptors, overwritten] at hheld hs ⊢
      rw [hes, HandleTrace.held_append, hs, hheld, List.map_append, List.sum_append, List.map_singleton,
        List.sum_singleton, add_zero, add_comm _ (l + _), add_assoc]
    · cases h
  | visit a =>
    rw [step] at h
    split at h
    · cases h
    · rename_i ls hls
      obtain rfl := Option.some.inj h
      obtain ⟨es, hes, hturns⟩ := @visitFile_moves unitTest clock s.next a
        { entry := ls, moment := s.moment, trace := s.trace }
      obtain ⟨rest, hsum, hset⟩ := sum_set descriptor hls
      have hheld := hturns (l + rest)
      have hbefore : openDescriptors s = descriptor ls + (l + rest) := by
        rw [hs, descriptors, hsum, add_left_comm]
      rw [openDescriptors] at hbefore ⊢
      simp only [descriptors, overwritten, hls] at hheld ⊢
      rw [hes, HandleTrace.held_append, hbefore, hheld, hset, add_add_add_comm, add_comm _ l]

/-- A file that is visited and is down has no descriptor. -/
def Keeps (s : Scan) : Action → Prop
  | .start .. => True
  | .visit _ => ∀ ls, s.entries[s.next]? = some ls → ls.down = true → ls.fd = -1

theorem overwritten_eq_zero_iff {x : Action} : overwritten s x = 0 ↔ Keeps s x := by
  cases x with
  | start lc opened fstat => exact iff_of_true rfl trivial
  | visit a =>
    rw [overwritten, Keeps]
    cases hls : s.entries[s.next]? with
    | none => simp
    | some ls =>
      by_cases hfd : ls.fd = -1
      · simp [descriptor, hfd]
      · simp [descriptor, hfd, Usable]

theorem step_exact_iff {x : Action} (hs : ∃ l, openDescriptors s = l + descriptors s)
    (h : step unitTest clock saved s x = some t) : openDescriptors t = descriptors t ↔
      openDescriptors s = descriptors s ∧ Keeps s x := by
  obtain ⟨l, hl⟩ := hs
  rw [step_descriptors hl h, hl, add_eq_right, add_eq_right,
    add_eq_zero_iff_of_nonneg (Multiset.zero_le _) (Multiset.zero_le _), overwritten_eq_zero_iff]

/-- At every loop head, what has been opened and not closed is what the entries hold, exactly if
no file is visited that is down and still has a descriptor. -/
theorem descriptors_iff {xs : List Action}
    (h : runSteps (step unitTest clock saved) {} xs = some s) :
    (∀ pre post t, xs = pre ++ post → runSteps (step unitTest clock saved) {} pre = some t →
      openDescriptors t = descriptors t) ↔ StepsMeet (step unitTest clock saved) Keeps {} xs := by
  have hiff {ys : List Action} {t : Scan}
      (ht : runSteps (step unitTest clock saved) {} ys = some t) :
      openDescriptors t = descriptors t ↔ StepsMeet (step unitTest clock saved) Keeps {} ys :=
    stepsMeet_iff (I := fun s => ∃ l, openDescriptors s = l + descriptors s)
      (fun ⟨_, hl⟩ hstep => ⟨_, step_descriptors hl hstep⟩) step_exact_iff ⟨0, rfl⟩ rfl ht
  constructor
  · exact fun hall => (hiff h).mp (hall xs [] s (by simp) h)
  · intro hmeet pre post t hxs ht
    refine (hiff ht).mpr fun pre' x post' u hpre hu => ?_
    exact hmeet pre' x (post' ++ post) u (by rw [hxs, hpre, List.append_assoc]; rfl) hu

theorem descriptors_iff_returning : ∃ s,
    runSteps (step false (fun _ => 0) []) {} (returningRun.take 2) = some s ∧
      ((∀ pre post t, returningRun.take 2 = pre ++ post →
        runSteps (step false (fun _ => 0) []) {} pre = some t →
          openDescriptors t = descriptors t) ↔
        StepsMeet (step false (fun _ => 0) []) Keeps {} (returningRun.take 2)) := by
  have h : (runSteps (step false (fun _ => 0) []) {} (returningRun.take 2)).isSome := by
    decide +kernel
  obtain ⟨s, hs⟩ := Option.isSome_iff_exists.mp h
  exact ⟨s, hs, descriptors_iff hs⟩

theorem returningRun_forgets : ∃ s, runSteps (step false (fun _ => 0) []) {} returningRun = some s ∧
    openDescriptors s = {4, 3} ∧ descriptors s = {4} := by
  have h : (runSteps (step false (fun _ => 0) []) {} returningRun).map
      (fun s => (openDescriptors s, descriptors s)) = some ({4, 3}, {4}) := by
    decide +kernel
  obtain ⟨s, hs, heq⟩ := Option.map_eq_some_iff.mp h
  exact ⟨s, hs, Prod.mk.inj heq⟩

end Runs

end Ctguard.LogfileTrace
