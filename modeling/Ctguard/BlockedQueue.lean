import Ctguard.Simulation
import Mathlib.Data.Fintype.BigOperators

/-!
# The queues between the threads

`blocked_queue` guards a queue with a mutex. A thread that needs an element waits, and every thread
that puts one into the queue wakes all those that wait. Any number of threads may call its
operations, and the thread that runs next may be any of them; a waiting thread may also wake up
for no reason, or since its time is over.

The operations take effect at once, in some order, as on a queue that only one thread uses; and no
thread waits while there is an element, but for the moment until the one that has put it notifies.
-/

namespace Ctguard.BlockedQueue

universe u v

/-- The operations. `emplace` is a `push`; a timed `take` waits once. -/
inductive Op (α : Type v) where
  | push (value : α)
  | pop
  | size
  | empty
  | front
  | take
  | takeFor
  deriving DecidableEq

/-- What an operation returns. -/
inductive Result (α : Type v) where
  | done
  | size (n : ℕ)
  | empty (b : Bool)
  | value (v : α)
  | optional (v : Option α)
  deriving DecidableEq

/-- What can be seen of a thread: it calls an operation, or returns from it. -/
inductive Event (θ : Type u) (α : Type v) where
  | call (t : θ) (op : Op α)
  | ret (t : θ) (r : Result α)
  deriving DecidableEq

/-- Where a thread is in the code of its operation: in front of the guard, in front of the test
for an empty queue (perhaps after it has waited), on the list of the condition variable, about to
leave `wait`, in front of its access to the queue, between `front` and `pop`, in front of
`notify_all`, and behind all that. -/
inductive Phase (α : Type v) where
  | outside
  | locking (op : Op α)
  | testing (op : Op α) (waited : Bool)
  | waiting (op : Op α)
  | waking (op : Op α)
  | accessing (op : Op α)
  | removing (op : Op α) (tmp : α)
  | notifying
  | leaving (r : Result α)
  deriving DecidableEq

structure State (θ : Type u) (α : Type v) where
  queue : List α
  mutex : Option θ
  phase : θ → Phase α

/-- A thread calls an operation, a thread takes its next step in the code, or a thread wakes up
without having been notified. -/
inductive Step (θ : Type u) (α : Type v) where
  | call (t : θ) (op : Op α)
  | go (t : θ)
  | wake (t : θ)

variable {θ : Type u} {α : Type v}

/-- `notify_all`, for one thread. -/
def Phase.notified : Phase α → Phase α
  | .waiting op => .waking op
  | phase => phase

/-- What a thread does first, once it has the mutex. -/
def Op.start : Op α → Phase α
  | .push value => .accessing (.push value)
  | .size => .accessing .size
  | .empty => .accessing .empty
  | .pop => .testing .pop false
  | .front => .testing .front false
  | .take => .testing .take false
  | .takeFor => .testing .takeFor false

/-- What a removed element is returned as. -/
def Op.result (op : Op α) (tmp : α) : Result α :=
  match op with
  | .takeFor => .optional (some tmp)
  | _ => .value tmp

section Steps

variable [DecidableEq θ]

def State.to (s : State θ α) (t : θ) (phase : Phase α) : State θ α :=
  { s with phase := Function.update s.phase t phase }

/-- `m_queue.empty()`, and what depends on it. -/
def State.test (s : State θ α) (t : θ) (op : Op α) (waited : Bool) : State θ α :=
  match op, s.queue.isEmpty with
  | .pop, true => s.to t (.leaving .done)
  | .takeFor, true =>
    if waited then s.to t (.leaving (.optional none))
    else { s.to t (.waiting .takeFor) with mutex := none }
  | .takeFor, false => s.to t (if waited then .accessing .takeFor else .testing .takeFor true)
  | op, true => { s.to t (.waiting op) with mutex := none }
  | op, false => s.to t (.accessing op)

/-- The access to the queue. There is none to the front of an empty queue. -/
def State.use (s : State θ α) (t : θ) : Op α → Option (State θ α)
  | .push value => some { s.to t .notifying with queue := s.queue ++ [value] }
  | .size => some (s.to t (.leaving (.size s.queue.length)))
  | .empty => some (s.to t (.leaving (.empty s.queue.isEmpty)))
  | .pop => match s.queue with
    | [] => none
    | _ :: rest => some { s.to t (.leaving .done) with queue := rest }
  | .front => match s.queue with
    | [] => none
    | x :: _ => some (s.to t (.leaving (.value x)))
  | op => match s.queue with
    | [] => none
    | x :: _ => some (s.to t (.removing op x))

/-- The next step of a thread, if it is not blocked. -/
def State.go (s : State θ α) (t : θ) : Option (State θ α) :=
  match s.phase t, s.mutex with
  | .locking op, none => some { s.to t op.start with mutex := some t }
  | .waking op, none => some { s.to t (.testing op true) with mutex := some t }
  | .testing op waited, _ => some (s.test t op waited)
  | .accessing op, _ => s.use t op
  | .removing op tmp, _ => match s.queue with
    | [] => none
    | _ :: rest => some { s.to t (.leaving (op.result tmp)) with queue := rest }
  | .notifying, _ =>
    some { s with phase := Function.update (fun u => (s.phase u).notified) t (.leaving .done) }
  | .leaving _, _ => some { s.to t .outside with mutex := none }
  | _, _ => none

def step (s : State θ α) : Step θ α → Option (State θ α)
  | .call t op => match s.phase t with
    | .outside => some (s.to t (.locking op))
    | _ => none
  | .go t => s.go t
  | .wake t => match s.phase t with
    | .waiting op => some (s.to t (.waking op))
    | _ => none

def see (s : State θ α) : Step θ α → List (Event θ α)
  | .call t op => [.call t op]
  | .go t => match s.phase t with
    | .leaving r => [.ret t r]
    | _ => []
  | .wake _ => []

/-- Nobody has called anything yet. -/
def initial : State θ α where
  queue := []
  mutex := none
  phase _ := .outside

end Steps

end Ctguard.BlockedQueue
