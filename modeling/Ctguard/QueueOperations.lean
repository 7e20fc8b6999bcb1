import Ctguard.BlockedQueue

/-!
# The operations of a queue, in some order

On a queue without a mutex, an operation takes effect in one step, and returns what it has found
out. An operation that needs an element has no effect as long as there is none. The threads that
share a `blocked_queue` can see nothing else, for the mutex is held by one thread at most, and this
one finds the queue as it has left it.
-/

namespace Ctguard.BlockedQueue

universe u v

variable {θ : Type u} {α : Type v}

/-- What an operation returns, and what it leaves of the queue. -/
def Op.effect : Op α → List α → Option (Result α × List α)
  | .push value, q => some (.done, q ++ [value])
  | .pop, q => some (.done, q.tail)
  | .size, q => some (.size q.length, q)
  | .empty, q => some (.empty q.isEmpty, q)
  | .front, x :: q => some (.value x, x :: q)
  | .take, x :: q => some (.value x, q)
  | .takeFor, x :: q => some (.optional (some x), q)
  | .takeFor, [] => some (.optional none, [])
  | _, [] => none

namespace Atomic

/-- A thread has called an operation, which may have taken effect. -/
inductive Phase (α : Type v) where
  | outside
  | called (op : Op α)
  | returning (r : Result α)
  deriving DecidableEq

structure State (θ : Type u) (α : Type v) where
  queue : List α
  phase : θ → Phase α

inductive Step (θ : Type u) (α : Type v) where
  | call (t : θ) (op : Op α)
  | run (t : θ)
  | ret (t : θ)

section Steps

variable [DecidableEq θ]

def step (s : State θ α) : Step θ α → Option (State θ α)
  | .call t op => match s.phase t with
    | .outside => some { s with phase := Function.update s.phase t (.called op) }
    | _ => none
  | .run t => match s.phase t with
    | .called op => (op.effect s.queue).map fun r =>
      ⟨r.2, Function.update s.phase t (.returning r.1)⟩
    | _ => none
  | .ret t => match s.phase t with
    | .returning _ => some { s with phase := Function.update s.phase t .outside }
    | _ => none

def see (s : State θ α) : Step θ α → List (Event θ α)
  | .call t op => [.call t op]
  | .run _ => []
  | .ret t => match s.phase t with
    | .returning r => [.ret t r]
    | _ => []

def initial : State θ α where
  queue := []
  phase _ := .outside

end Steps

end Atomic

section Phases

/-- The mutex is held. -/
def Phase.inside : Phase α → Bool
  | .testing _ _ | .accessing _ | .removing _ _ | .notifying | .leaving _ => true
  | _ => false

/-- The operations that test for an empty queue. -/
def Op.tests : Op α → Bool
  | .pop | .front | .take | .takeFor => true
  | _ => false

/-- The operations that wait. -/
def Op.waits : Op α → Bool
  | .front | .take | .takeFor => true
  | _ => false

/-- What a thread knows of the queue. -/
def Fits (q : List α) : Phase α → Prop
  | .testing op _ => op.tests = true
  | .waiting op => op.waits = true
  | .waking op => op.waits = true
  | .accessing op => op.tests = true → q ≠ []
  | .removing op tmp => (op = .take ∨ op = .takeFor) ∧ q.head? = some tmp
  | _ => True

/-- An operation has taken effect when its result is there. -/
def Phase.abs : Phase α → Atomic.Phase α
  | .outside => .outside
  | .locking op | .testing op _ | .waiting op | .waking op | .accessing op | .removing op _ =>
    .called op
  | .notifying => .returning .done
  | .leaving r => .returning r

def State.abs (s : State θ α) : Atomic.State θ α where
  queue := s.queue
  phase t := (s.phase t).abs

/-- The steps that a thread has before it, if nobody notifies it. -/
def Phase.weight : Phase α → ℕ
  | .outside | .waiting _ => 0
  | .leaving _ => 1
  | .notifying | .removing _ _ => 2
  | .accessing _ => 3
  | .testing _ true => 4
  | .testing _ false => 5
  | .locking _ | .waking _ => 6

/-- The thread is going to notify the others. -/
def Phase.owes : Phase α → ℕ
  | .notifying => 1
  | .locking (.push _) | .accessing (.push _) => 1
  | _ => 0

/-- A step of a thread by itself. -/
def Phase.Below (p q : Phase α) : Prop := p.weight < q.weight ∧ p.owes ≤ q.owes

theorem Fits.of_outside {p : Phase α} {q q' : List α} (hp : p.inside = false) (h : Fits q p) :
    Fits q' p := by
  cases p with
  | accessing op => cases hp
  | removing op tmp => cases hp
  | _ => exact h

theorem fits_start (op : Op α) (q : List α) : Fits q op.start := by
  cases op with
  | push value => exact fun h => Bool.noConfusion h
  | size => exact fun h => Bool.noConfusion h
  | empty => exact fun h => Bool.noConfusion h
  | _ => rfl

end Phases

section Guarded

/-- Only the thread that holds the mutex is inside, and every thread is right about the queue. As
long as there is an element, a thread that waits is going to be notified. -/
structure Guarded (s : State θ α) : Prop where
  owner : ∀ t, (s.phase t).inside = true ↔ s.mutex = some t
  fits : ∀ t, Fits s.queue (s.phase t)
  wakes : s.queue = [] ∨ (∀ t op, s.phase t ≠ .waiting op) ∨ ∃ t, s.phase t = .notifying

theorem Guarded.held {s : State θ α} {t : θ} (h : Guarded s) (hinside : (s.phase t).inside = true) :
    s.mutex = some t :=
  (h.owner t).mp hinside

theorem guarded_initial : Guarded (initial : State θ α) where
  owner _ := by simp [initial, Phase.inside]
  fits _ := trivial
  wakes := .inl rfl

variable [DecidableEq θ]

/-- What a thread can do next. -/
inductive Goes (s : State θ α) (t : θ) : State θ α → Prop where
  /-- The mutex is free. -/
  | locks (op : Op α) (p : Phase α) (hfree : s.mutex = none) (hinside : p.inside = true)
      (habs : (s.phase t).abs = .called op) (hnext : p.abs = .called op) (hfits : Fits s.queue p)
      (hbelow : p.Below (s.phase t)) : Goes s t { s.to t p with mutex := some t }
  /-- The queue is left as it is. -/
  | moves (op : Op α) (p : Phase α) (hheld : s.mutex = some t) (hinside : p.inside = true)
      (habs : (s.phase t).abs = .called op) (hnext : p.abs = .called op) (hfits : Fits s.queue p)
      (hbelow : p.Below (s.phase t)) : Goes s t (s.to t p)
  | waits (op : Op α) (hheld : s.mutex = some t) (hnone : s.queue = [])
      (habs : (s.phase t).abs = .called op) (hwaits : op.waits = true)
      (hbelow : Phase.Below (.waiting op) (s.phase t)) :
      Goes s t { s.to t (.waiting op) with mutex := none }
  | runs (op : Op α) (r : Result α) (q : List α) (hheld : s.mutex = some t)
      (habs : (s.phase t).abs = .called op) (heffect : op.effect s.queue = some (r, q))
      (hnone : s.queue = [] → q = []) (hbelow : Phase.Below (.leaving r) (s.phase t)) :
      Goes s t { s.to t (.leaving r) with queue := q }
  | pushes (value : α) (hheld : s.mutex = some t)
      (habs : (s.phase t).abs = .called (.push value))
      (hbelow : Phase.Below .notifying (s.phase t)) :
      Goes s t { s.to t .notifying with queue := s.queue ++ [value] }
  | notifies (hheld : s.mutex = some t) (hphase : s.phase t = .notifying) :
      Goes s t
        { s with phase := Function.update (fun u => (s.phase u).notified) t (.leaving .done) }
  | leaves (r : Result α) (hheld : s.mutex = some t) (hphase : s.phase t = .leaving r) :
      Goes s t { s.to t .outside with mutex := none }

variable {s s' : State θ α} {t : θ}

theorem Guarded.goes_test (h : Guarded s) {op : Op α} {waited : Bool}
    (hphase : s.phase t = .testing op waited) : Goes s t (s.test t op waited) := by
  have hheld := h.held (t := t) (by rw [hphase]; rfl)
  have htests : op.tests = true := by
    have hfits := h.fits t
    rwa [hphase] at hfits
  have habs : (s.phase t).abs = .called op := by rw [hphase]; rfl
  have hbelow : ∀ p : Phase α, p.weight < 4 → p.owes = 0 → p.Below (s.phase t) := by
    intro p hweight howes
    refine ⟨?_, by omega⟩
    rw [hphase]
    cases waited
    · exact Nat.lt_succ_of_lt hweight
    · exact hweight
  cases hqueue : s.queue with
  | nil =>
    have hwait : op.waits = true → Goes s t { s.to t (.waiting op) with mutex := none } :=
      fun hwaits => .waits op hheld hqueue habs hwaits (hbelow _ (by simp [Phase.weight]) rfl)
    have hrun : ∀ r, op.effect s.queue = some (r, s.queue) → Goes s t (s.to t (.leaving r)) :=
      fun r heffect => .runs op r s.queue hheld habs heffect id (hbelow _ (by simp [Phase.weight]) rfl)
    cases op with
    | push value => cases htests
    | size => cases htests
    | empty => cases htests
    | pop =>
      simp only [State.test, hqueue, List.isEmpty_nil]
      exact hrun .done (by rw [hqueue]; rfl)
    | front =>
      simp only [State.test, hqueue, List.isEmpty_nil]
      exact hwait rfl
    | take =>
      simp only [State.test, hqueue, List.isEmpty_nil]
      exact hwait rfl
    | takeFor =>
      simp only [State.test, hqueue, List.isEmpty_nil]
      cases waited with
      | true => exact hrun (.optional none) (by rw [hqueue]; rfl)
      | false => exact hwait rfl
  | cons x rest =>
    have hfind : Goes s t (s.to t (.accessing op)) := by
      refine .moves op (.accessing op) hheld rfl habs rfl (fun _ => ?_)
        (hbelow _ (by simp [Phase.weight]) ?_)
      · rw [hqueue]
        exact List.cons_ne_nil x rest
      · cases op with
        | push value => cases htests
        | _ => rfl
    cases op with
    | push value => cases htests
    | size => cases htests
    | empty => cases htests
    | takeFor =>
      simp only [State.test, hqueue, List.isEmpty_cons]
      cases waited with
      | true => exact hfind
      | false =>
        refine .moves .takeFor (.testing .takeFor true) hheld rfl habs rfl rfl ?_
        rw [hphase]
        exact ⟨by simp [Phase.weight], Nat.le_refl _⟩
    | _ =>
      simp only [State.test, hqueue, List.isEmpty_cons]
      exact hfind

theorem Guarded.goes_use (h : Guarded s) {op : Op α} (hphase : s.phase t = .accessing op)
    (huse : s.use t op = some s') : Goes s t s' := by
  have hheld := h.held (t := t) (by rw [hphase]; rfl)
  have habs : (s.phase t).abs = .called op := by rw [hphase]; rfl
  have hrun : ∀ r q, op.effect s.queue = some (r, q) → (s.queue = [] → q = []) →
      Goes s t { s.to t (.leaving r) with queue := q } := by
    intro r q heffect hnone
    refine .runs op r q hheld habs heffect hnone ⟨?_, Nat.zero_le _⟩
    rw [hphase]
    simp [Phase.weight]
  have hremove : ∀ x, s.queue.head? = some x → (op = .take ∨ op = .takeFor) →
      Goes s t (s.to t (.removing op x)) := by
    intro x hx hop
    refine .moves op (.removing op x) hheld rfl habs rfl ⟨hop, hx⟩ ⟨?_, Nat.zero_le _⟩
    rw [hphase]
    simp [Phase.weight]
  cases op with
  | push value =>
    cases huse
    refine .pushes value hheld habs ?_
    rw [hphase]
    exact ⟨Nat.lt_succ_self _, Nat.le_refl _⟩
  | size =>
    cases huse
    exact hrun (.size s.queue.length) s.queue rfl id
  | empty =>
    cases huse
    exact hrun (.empty s.queue.isEmpty) s.queue rfl id
  | pop =>
    rw [State.use] at huse
    split at huse
    · cases huse
    · rename_i x rest hqueue
      cases huse
      exact hrun .done rest (by rw [hqueue]; rfl) (by simp [hqueue])
  | front =>
    rw [State.use] at huse
    split at huse
    · cases huse
    · rename_i x rest hqueue
      cases huse
      exact hrun (.value x) s.queue (by rw [hqueue]; rfl) id
  | take =>
    rw [State.use] at huse
    split at huse
    · cases huse
    · rename_i x rest hqueue
      cases huse
      exact hremove x (by rw [hqueue]; rfl) (.inl rfl)
    all_goals simp
  | takeFor =>
    rw [State.use] at huse
    split at huse
    · cases huse
    · rename_i x rest hqueue
      cases huse
      exact hremove x (by rw [hqueue]; rfl) (.inr rfl)
    all_goals simp

theorem start_below (op : Op α) : op.start.Below (.locking op) := by
  cases op
  all_goals exact ⟨by simp [Phase.weight, Op.start], by simp [Phase.owes, Op.start]⟩

theorem abs_start (op : Op α) : op.start.abs = .called op := by
  cases op <;> rfl

theorem inside_start (op : Op α) : op.start.inside = true := by
  cases op <;> rfl

/-- A step is one of those. -/
theorem Guarded.goes (h : Guarded s) (hgo : s.go t = some s') : Goes s t s' := by
  have hfits := h.fits t
  rw [State.go] at hgo
  split at hgo
  · rename_i op hphase hfree
    cases hgo
    refine .locks op op.start hfree (inside_start op) ?_ (abs_start op) (fits_start op _) ?_
    · rw [hphase]
      rfl
    · rw [hphase]
      exact start_below op
  · rename_i op hphase hfree
    cases hgo
    rw [hphase] at hfits
    refine .locks op (.testing op true) hfree rfl ?_ rfl ?_ ⟨?_, Nat.zero_le _⟩
    · rw [hphase]
      rfl
    · cases op with
      | push value => cases hfits
      | size => cases hfits
      | empty => cases hfits
      | _ => rfl
    · rw [hphase]
      simp [Phase.weight]
  · rename_i op waited hphase
    cases hgo
    exact h.goes_test hphase
  · rename_i op hphase
    exact h.goes_use hphase hgo
  · rename_i op tmp hphase
    rw [hphase] at hfits
    obtain ⟨hop, hhead⟩ := hfits
    split at hgo
    · cases hgo
    · rename_i x rest hqueue
      cases hgo
      rw [hqueue] at hhead
      cases hhead
      refine .runs op (op.result tmp) rest (h.held (by rw [hphase]; rfl)) ?_ ?_ ?_ ⟨?_, ?_⟩
      · rw [hphase]
        rfl
      · rw [hqueue]
        rcases hop with rfl | rfl <;> rfl
      · simp [hqueue]
      · rw [hphase]
        exact Nat.lt_succ_self _
      · exact Nat.zero_le _
  · rename_i hphase
    cases hgo
    exact .notifies (h.held (by rw [hphase]; rfl)) hphase
  · rename_i r hphase
    cases hgo
    exact .leaves r (h.held (by rw [hphase]; rfl)) hphase
  · cases hgo

theorem update_eq_or (f : θ → Phase α) (p : Phase α) (u : θ) :
    (u = t ∧ Function.update f t p u = p) ∨ (u ≠ t ∧ Function.update f t p u = f u) := by
  by_cases hu : u = t
  · rw [hu, Function.update_self]
    exact .inl ⟨rfl, rfl⟩
  · exact .inr ⟨hu, Function.update_of_ne hu _ _⟩

/-- The thread that has the mutex, or takes it, changes what it likes. -/
theorem Guarded.change (h : Guarded s) {q : List α} {m : Option θ} {p : Phase α}
    (hsole : s.mutex = none ∨ s.mutex = some t)
    (hmutex : (p.inside = true ∧ m = some t) ∨ (p.inside = false ∧ m = none)) (hfits : Fits q p)
    (hwakes : p = .notifying ∨ q = [] ∨
      (s.phase t ≠ .notifying ∧ (∀ op, p ≠ .waiting op) ∧ (s.queue = [] → q = []))) :
    Guarded ⟨q, m, Function.update s.phase t p⟩ := by
  have hothers : ∀ u, u ≠ t → (s.phase u).inside = false := by
    intro u hu
    cases hinside : (s.phase u).inside with
    | false => rfl
    | true =>
      have hheld := h.held hinside
      rcases hsole with hsole | hsole
      · rw [hsole] at hheld
        cases hheld
      · rw [hsole] at hheld
        exact absurd (Option.some.inj hheld).symm hu
  refine ⟨fun u => ?_, fun u => ?_, ?_⟩
  · dsimp only
    rcases update_eq_or (t := t) s.phase p u with ⟨rfl, hp⟩ | ⟨hu, hp⟩
    · rw [hp]
      rcases hmutex with ⟨hinside, rfl⟩ | ⟨hinside, rfl⟩
      · simp [hinside]
      · simp [hinside]
    · rw [hp, hothers u hu]
      rcases hmutex with ⟨-, rfl⟩ | ⟨-, rfl⟩
      · simp [hu.symm]
      · simp
  · dsimp only
    rcases update_eq_or (t := t) s.phase p u with ⟨rfl, hp⟩ | ⟨hu, hp⟩
    · rwa [hp]
    · rw [hp]
      exact (h.fits u).of_outside (hothers u hu)
  · rcases hwakes with rfl | hnone | ⟨hnot, hwait, hnone⟩
    · exact .inr (.inr ⟨t, Function.update_self ..⟩)
    · exact .inl hnone
    · rcases h.wakes with hqueue | hno | ⟨u, hu⟩
      · exact .inl (hnone hqueue)
      · refine .inr (.inl fun u op heq => ?_)
        rcases update_eq_or (t := t) s.phase p u with ⟨rfl, hp⟩ | ⟨hu, hp⟩
        · exact hwait op (hp.symm.trans heq)
        · exact hno u op (hp.symm.trans heq)
      · refine .inr (.inr ⟨u, ?_⟩)
        rcases update_eq_or (t := t) s.phase p u with ⟨rfl, hp⟩ | ⟨-, hp⟩
        · exact absurd hu hnot
        · exact hp.trans hu

/-- So may a thread outside, as to itself. -/
theorem Guarded.aside (h : Guarded s) {p : Phase α} (hout : (s.phase t).inside = false)
    (hinside : p.inside = false) (hfits : Fits s.queue p) (hwait : ∀ op, p ≠ .waiting op) :
    Guarded (s.to t p) := by
  have hinsides : ∀ u, (Function.update s.phase t p u).inside = (s.phase u).inside := by
    intro u
    rcases update_eq_or (t := t) s.phase p u with ⟨rfl, hp⟩ | ⟨-, hp⟩
    · rw [hp, hinside, hout]
    · rw [hp]
  refine ⟨fun u => ?_, fun u => ?_, ?_⟩
  · rw [State.to, hinsides]
    exact h.owner u
  · dsimp only [State.to]
    rcases update_eq_or (t := t) s.phase p u with ⟨rfl, hp⟩ | ⟨-, hp⟩
    · rwa [hp]
    · rw [hp]
      exact h.fits u
  · rcases h.wakes with hqueue | hno | ⟨u, hu⟩
    · exact .inl hqueue
    · refine .inr (.inl fun u op heq => ?_)
      rcases update_eq_or (t := t) s.phase p u with ⟨rfl, hp⟩ | ⟨-, hp⟩
      · exact hwait op (hp.symm.trans heq)
      · exact hno u op (hp.symm.trans heq)
    · refine .inr (.inr ⟨u, ?_⟩)
      rcases update_eq_or (t := t) s.phase p u with ⟨rfl, hp⟩ | ⟨-, hp⟩
      · simp [hu, Phase.inside] at hout
      · exact hp.trans hu

theorem inside_notified (p : Phase α) : p.notified.inside = p.inside := by
  cases p <;> rfl

theorem fits_notified {q : List α} {p : Phase α} (h : Fits q p) : Fits q p.notified := by
  cases p <;> exact h

theorem notified_ne_waiting (p : Phase α) (op : Op α) : p.notified ≠ .waiting op := by
  cases p <;> exact fun h => by cases h

/-- After `notify_all`, nobody waits. -/
theorem Guarded.notify (h : Guarded s) (hheld : s.mutex = some t) : Guarded
    { s with phase := Function.update (fun u => (s.phase u).notified) t (.leaving .done) } := by
  refine ⟨fun u => ?_, fun u => ?_, .inr (.inl fun u op => ?_)⟩
  · dsimp only
    rcases update_eq_or (t := t) (fun u => (s.phase u).notified) (.leaving .done) u with
      ⟨rfl, hp⟩ | ⟨-, hp⟩
    · rw [hp]
      exact ⟨fun _ => hheld, fun _ => rfl⟩
    · rw [hp, inside_notified]
      exact h.owner u
  · dsimp only
    rcases update_eq_or (t := t) (fun u => (s.phase u).notified) (.leaving .done) u with
      ⟨rfl, hp⟩ | ⟨-, hp⟩
    · rw [hp]
      exact trivial
    · rw [hp]
      exact fits_notified (h.fits u)
  · dsimp only
    rcases update_eq_or (t := t) (fun u => (s.phase u).notified) (.leaving .done) u with
      ⟨rfl, hp⟩ | ⟨-, hp⟩
    · rw [hp]
      exact fun heq => by cases heq
    · rw [hp]
      exact notified_ne_waiting _ op

theorem not_notifying_of_abs {op : Op α} {p : Phase α} (h : p.abs = .called op) :
    p ≠ .notifying := by
  rintro rfl
  cases h

theorem not_waiting_of_inside {p : Phase α} (h : p.inside = true) (op : Op α) :
    p ≠ .waiting op := by
  rintro rfl
  cases h

theorem Guarded.of_goes (h : Guarded s) (hgoes : Goes s t s') : Guarded s' := by
  cases hgoes with
  | locks op p hfree hinside habs hnext hfits =>
    exact h.change (.inl hfree) (.inl ⟨hinside, rfl⟩) hfits
      (.inr (.inr ⟨not_notifying_of_abs habs, not_waiting_of_inside hinside, id⟩))
  | moves op p hheld hinside habs hnext hfits =>
    exact h.change (.inr hheld) (.inl ⟨hinside, hheld⟩) hfits
      (.inr (.inr ⟨not_notifying_of_abs habs, not_waiting_of_inside hinside, id⟩))
  | waits op hheld hnone habs hwaits =>
    exact h.change (.inr hheld) (.inr ⟨rfl, rfl⟩) hwaits (.inr (.inl hnone))
  | runs op r q hheld habs heffect hnone =>
    exact h.change (.inr hheld) (.inl ⟨rfl, hheld⟩) trivial
      (.inr (.inr ⟨not_notifying_of_abs habs, not_waiting_of_inside rfl, hnone⟩))
  | pushes value hheld habs =>
    exact h.change (.inr hheld) (.inl ⟨rfl, hheld⟩) trivial (.inl rfl)
  | notifies hheld => exact h.notify hheld
  | leaves r hheld hphase =>
    refine h.change (.inr hheld) (.inr ⟨rfl, rfl⟩) trivial (.inr (.inr ⟨?_, ?_, id⟩))
    · rw [hphase]
      exact fun heq => by cases heq
    · exact fun op heq => by cases heq

/-- Whatever a thread does, the queue stays guarded. -/
theorem Guarded.step (h : Guarded s) {x : Step θ α} (hstep : step s x = some s') : Guarded s' := by
  cases x with
  | call t op =>
    rw [BlockedQueue.step] at hstep
    split at hstep
    · rename_i hphase
      cases hstep
      refine h.aside ?_ rfl trivial (fun _ heq => by cases heq)
      rw [hphase]
      rfl
    · cases hstep
  | go t => exact h.of_goes (h.goes hstep)
  | wake t =>
    rw [BlockedQueue.step] at hstep
    split at hstep
    · rename_i op hphase
      cases hstep
      have hfits := h.fits t
      rw [hphase] at hfits
      refine h.aside ?_ rfl hfits (fun _ heq => by cases heq)
      rw [hphase]
      rfl
    · cases hstep

end Guarded

section Order

variable [DecidableEq θ] {s s' : State θ α} {t : θ}

theorem abs_update (s : State θ α) (t : θ) (q : List α) (m : Option θ) (p : Phase α) :
    (State.mk q m (Function.update s.phase t p)).abs =
      ⟨q, Function.update s.abs.phase t p.abs⟩ := by
  rw [State.abs]
  congr 1
  funext u
  exact Function.apply_update (fun _ => Phase.abs) s.phase t p u

/-- Seen from without, a thread stays where it is. -/
theorem abs_stay (m : Option θ) {p : Phase α} (h : (s.phase t).abs = p.abs) :
    (State.mk s.queue m (Function.update s.phase t p)).abs = s.abs := by
  have hsame : Function.update s.abs.phase t p.abs = s.abs.phase := by
    rw [← h]
    exact Function.update_eq_self t s.abs.phase
  rw [abs_update, hsame]
  rfl

theorem abs_notified (p : Phase α) : p.notified.abs = p.abs := by
  cases p <;> rfl

omit [DecidableEq θ] in
/-- A thread that has not finished returns nothing. -/
theorem see_go {op : Op α} (h : (s.phase t).abs = .called op) : see s (.go t) = [] := by
  rw [see]
  split
  · rename_i r hphase
    rw [hphase] at h
    cases h
  · rfl

/-- An operation takes effect. -/
theorem run_effect {op : Op α} {r : Result α} {q : List α} (m : Option θ) {p : Phase α}
    (h : (s.phase t).abs = .called op) (heffect : op.effect s.queue = some (r, q))
    (hp : p.abs = .returning r) : runSteps Atomic.step s.abs [.run t] =
      some (State.mk q m (Function.update s.phase t p)).abs := by
  have hphase : s.abs.phase t = .called op := h
  have hqueue : s.abs.queue = s.queue := rfl
  rw [abs_update, hp, runSteps_cons, Atomic.step, hphase]
  simp only [hqueue, heffect, Option.map_some, Option.bind_some, runSteps_nil]

theorem trace_run {s₁ s₂ : Atomic.State θ α} (h : runSteps Atomic.step s₁ [.run t] = some s₂) :
    trace Atomic.step Atomic.see s₁ [.run t] = [] := by
  obtain ⟨u, hu, -⟩ := Option.bind_eq_some_iff.mp h
  rw [trace_cons hu]
  rfl

/-- A step is at most one step on the queue without a mutex. -/
theorem Goes.simulated (h : Goes s t s') : ∃ ys,
    runSteps Atomic.step s.abs ys = some s'.abs ∧
      trace Atomic.step Atomic.see s.abs ys = see s (.go t) := by
  cases h with
  | locks op p hfree hinside habs hnext =>
    have hstay := abs_stay (some t) (habs.trans hnext.symm)
    exact ⟨[], congrArg some hstay.symm, (see_go habs).symm⟩
  | moves op p hheld hinside habs hnext =>
    have hstay := abs_stay s.mutex (habs.trans hnext.symm)
    exact ⟨[], congrArg some hstay.symm, (see_go habs).symm⟩
  | waits op hheld hnone habs =>
    have hstay := abs_stay none (p := .waiting op) habs
    exact ⟨[], congrArg some hstay.symm, (see_go habs).symm⟩
  | runs op r q hheld habs heffect =>
    have hrun := run_effect s.mutex habs heffect (p := .leaving r) rfl
    exact ⟨[.run t], hrun, (trace_run hrun).trans (see_go habs).symm⟩
  | pushes value hheld habs =>
    have hrun := run_effect s.mutex habs (q := s.queue ++ [value]) rfl (p := .notifying) rfl
    exact ⟨[.run t], hrun, (trace_run hrun).trans (see_go habs).symm⟩
  | notifies hheld hphase =>
    refine ⟨[], ?_, ?_⟩
    · rw [runSteps_nil, State.abs, State.abs]
      congr 2
      funext u
      dsimp only
      rcases update_eq_or (t := t) (fun u => (s.phase u).notified) (.leaving .done) u with
        ⟨rfl, hp⟩ | ⟨-, hp⟩
      · rw [hp, hphase]
        rfl
      · rw [hp, abs_notified]
    · rw [see, hphase]
      rfl
  | leaves r hheld hphase =>
    have hreturning : s.abs.phase t = .returning r := congrArg Phase.abs hphase
    have hstep : Atomic.step s.abs (.ret t) =
        some (State.mk s.queue none (Function.update s.phase t .outside)).abs := by
      rw [abs_update, Atomic.step, hreturning]
      rfl
    refine ⟨[.ret t], ?_, ?_⟩
    · rw [runSteps_cons, hstep]
      rfl
    · rw [trace_cons hstep, Atomic.see, hreturning, see, hphase]
      rfl

theorem Guarded.simulated (h : Guarded s) {x : Step θ α} (hstep : BlockedQueue.step s x = some s') : ∃ ys,
    runSteps Atomic.step s.abs ys = some s'.abs ∧
      trace Atomic.step Atomic.see s.abs ys = see s x := by
  cases x with
  | call t op =>
    rw [BlockedQueue.step] at hstep
    split at hstep
    · rename_i hphase
      cases hstep
      have houtside : s.abs.phase t = .outside := congrArg Phase.abs hphase
      have hcall : Atomic.step s.abs (.call t op) = some (s.to t (.locking op)).abs := by
        rw [State.to, abs_update, Atomic.step, houtside]
        rfl
      refine ⟨[.call t op], ?_, ?_⟩
      · rw [runSteps_cons, hcall]
        rfl
      · rw [trace_cons hcall]
        rfl
    · cases hstep
  | go t => exact (h.goes hstep).simulated
  | wake t =>
    rw [BlockedQueue.step] at hstep
    split at hstep
    · rename_i op hphase
      cases hstep
      refine ⟨[], ?_, rfl⟩
      rw [State.to, abs_stay, runSteps_nil]
      rw [hphase]
      rfl
    · cases hstep

/-- Whatever the order of the steps is, the threads can see a queue on which one operation is
carried out after the other. -/
theorem operations_atomic {xs : List (Step θ α)} (h : runSteps step initial xs = some s) : ∃ ys,
    runSteps Atomic.step Atomic.initial ys = some s.abs ∧
      trace Atomic.step Atomic.see Atomic.initial ys = trace step see initial xs :=
  runSteps_simulated State.abs (fun h hstep => h.step hstep) (fun h hstep => h.simulated hstep)
    guarded_initial h

/-- One thread waits for an element before the other one puts it. -/
def takeThenPush : List (Step Bool ℕ) :=
  [.call false .take, .go false, .go false, .call true (.push 7), .go true, .go true, .go true,
    .go true, .go false, .go false, .go false, .go false, .go false]

theorem operations_atomic_takeThenPush : ∃ s ys,
    runSteps step initial takeThenPush = some s ∧
      runSteps Atomic.step Atomic.initial ys = some s.abs ∧
      trace Atomic.step Atomic.see Atomic.initial ys =
        [.call false .take, .call true (.push 7), .ret true .done, .ret false (.value 7)] := by
  have hreturns : (runSteps step initial takeThenPush).isSome = true := by decide
  obtain ⟨s, hs⟩ := Option.isSome_iff_exists.mp hreturns
  obtain ⟨ys, hys, hseen⟩ := operations_atomic hs
  exact ⟨s, ys, hs, hys, hseen.trans (by decide)⟩

end Order

end Ctguard.BlockedQueue
