import Parallax.Library.Transition
import Parallax.Value.Value

/-! `core/waitgroup.c` as a transition system: clients that call `wg_go`, `wg_wait` and
`wg_destroy` on one group, and the worker threads these create. Each section under the mutex is
one step, and so is each access outside of it; allocation is taken to succeed. The worker of a
task is named by the number of the task, because `pthread_create` is called once for each. -/
namespace Parallax.WaitGroup
open Transition
set_option autoImplicit false
set_option maxHeartbeats 250000

/-! ## waitgroup.h -/

/-- What the spawning side sets; `user_data` is NULL or a pointer. -/
structure Inputs (υ : Type) where
  args : Option Value
  userData : Option υ

/-- What a runner leaves in its task. -/
structure Outcome (υ : Type) where
  ok : Bool
  result : Option Value
  error : Option Value
  userData : Option υ

/-- `struct task`, less the thread handle. -/
structure Task (υ : Type) where
  threadJoinable : Bool
  slot : ℕ
  args : Option Value
  userData : Option υ
  ok : Bool
  result : Option Value
  error : Option Value

/-- A `task_runner_t` that is a function of what it is given. -/
abbrev Runner (υ : Type) := Inputs υ → Outcome υ

variable {ι υ : Type}

/-- The task after `calloc` and the two stores of `wg_go`. -/
def Task.spawned (inp : Inputs υ) : Task υ := ⟨false, 0, inp.args, inp.userData, false, none, none⟩

def Task.record (o : Outcome υ) (task : Task υ) : Task υ :=
  { task with ok := o.ok, result := o.result, error := o.error, userData := o.userData }

def Task.outcome (task : Task υ) : Outcome υ := ⟨task.ok, task.result, task.error, task.userData⟩

/-! ## States -/

/-- How far a task and its thread have come. -/
inductive Stage
  /-- Allocated, then in the task array and counted. -/
  | fresh | registered
  /-- `pthread_create` failed, then no longer counted. -/
  | refused | failed
  /-- The thread: before its first step, in the runner, before `wg_signal_done`, after it, ended. -/
  | started | running | ran | signalled | exited
deriving DecidableEq, Repr

/-- A thread exists and has not ended. -/
def Stage.live : Stage → Bool
  | .started | .running | .ran | .signalled => true
  | _ => false

/-- A thread was created. -/
def Stage.created : Stage → Bool
  | .started | .running | .ran | .signalled | .exited => true
  | _ => false

/-- The runner has returned. -/
def Stage.done : Stage → Bool
  | .ran | .signalled | .exited => true
  | _ => false

/-- A started worker that has not been through `wg_signal_done`. -/
def Stage.beforeSignal : Stage → Bool
  | .started | .running | .ran => true
  | _ => false

/-- What `pthread_create` returned, once it has. -/
def Stage.creation : Stage → Option Bool
  | .fresh | .registered => none
  | .refused | .failed => some false
  | _ => some true

/-- A task on the heap, with what only a proof looks at: the call that made it, how often it was
joined and written by its worker, and whether it was freed. -/
structure Cell (υ : Type) where
  task : Task υ
  stage : Stage
  inputs : Inputs υ
  joins : ℕ
  writes : ℕ
  freed : Bool

def Cell.alloc (inp : Inputs υ) : Cell υ := ⟨.spawned inp, .fresh, inp, 0, 0, false⟩

/-- What a call gave back: nothing yet, `wg_go`'s slot or `(size_t)-1`, or `wg_wait`. -/
inductive Ret
  | start | go (slot : Option ℕ) | wait
deriving DecidableEq, Repr

/-- Where a client stands, with the task or the loop index it holds. -/
inductive Pc
  | idle (ret : Ret)
  | goRegister (t : ℕ) | goCreate (t : ℕ) | goMark (t : ℕ) | goUncount (t : ℕ) | goFail (t : ℕ)
  | waitTest | waitBlocked
  | joinTest (i : ℕ) | joining (i : ℕ) | joined (i : ℕ)
  | freeTest (i : ℕ) | freeJoin (i : ℕ) | freeTask (i : ℕ) | freeGroup | gone
deriving DecidableEq, Repr

/-- `wait_group_t`, the heap and the clients. `tasks` are the first `count` slots of the array. -/
structure State (ι υ : Type) where
  remaining : ℤ
  tasks : List ℕ
  cap : ℕ
  heap : List (Cell υ)
  pc : ι → Pc
  groupFreed : Bool

/-- After `wg_create`. -/
def State.init : State ι υ := ⟨0, [], 0, [], fun _ => .idle .start, false⟩

namespace State
variable (s : State ι υ)

def setPc [DecidableEq ι] (c : ι) (p : Pc) : State ι υ := { s with pc := Function.update s.pc c p }

def setCell (t : ℕ) (f : Cell υ → Cell υ) : State ι υ := { s with heap := s.heap.modify t f }

def joinable (t : ℕ) : Bool := (s.heap[t]?).any (·.task.threadJoinable)

def live (t : ℕ) : Bool := (s.heap[t]?).any (·.stage.live)

def slot (t : ℕ) : Option ℕ := (s.heap[t]?).map (·.task.slot)

def stage (t : ℕ) : Option Stage := (s.heap[t]?).map (·.stage)

@[simp] theorem setPc_pc [DecidableEq ι] (c : ι) (p : Pc) : (s.setPc c p).pc c = p :=
  Function.update_self ..

@[simp] theorem setPc_heap [DecidableEq ι] (c : ι) (p : Pc) : (s.setPc c p).heap = s.heap := rfl

@[simp] theorem setPc_tasks [DecidableEq ι] (c : ι) (p : Pc) : (s.setPc c p).tasks = s.tasks := rfl

@[simp] theorem setPc_groupFreed [DecidableEq ι] (c : ι) (p : Pc) :
    (s.setPc c p).groupFreed = s.groupFreed := rfl

@[simp] theorem setCell_heap (t : ℕ) (f : Cell υ → Cell υ) :
    (s.setCell t f).heap = s.heap.modify t f := rfl

@[simp] theorem setCell_tasks (t : ℕ) (f : Cell υ → Cell υ) : (s.setCell t f).tasks = s.tasks := rfl

@[simp] theorem setCell_pc (t : ℕ) (f : Cell υ → Cell υ) : (s.setCell t f).pc = s.pc := rfl

@[simp] theorem setCell_groupFreed (t : ℕ) (f : Cell υ → Cell υ) :
    (s.setCell t f).groupFreed = s.groupFreed := rfl

end State

def Cell.setStage (stage : Stage) (k : Cell υ) : Cell υ := { k with stage := stage }

def Cell.mark (joinable : Bool) (k : Cell υ) : Cell υ :=
  { k with task := { k.task with threadJoinable := joinable } }

def Cell.join (k : Cell υ) : Cell υ := { k with joins := k.joins + 1 }

def Cell.free (k : Cell υ) : Cell υ := { k with freed := true }

def Cell.register (slot : ℕ) (k : Cell υ) : Cell υ :=
  { k with task := { k.task with slot := slot }, stage := .registered }

def Cell.fail (k : Cell υ) : Cell υ :=
  { k with task := { k.task with ok := false, threadJoinable := false } }

/-! ## wg_go -/

def grow (s : State ι υ) : State ι υ :=
  { s with cap := if s.cap = 0 then 8 else s.cap * 2 }

/-- The first section under the lock. -/
def goRegister (s : State ι υ) (t : ℕ) : State ι υ :=
  let s := if s.tasks.length = s.cap then grow s else s
  { s.setCell t (Cell.register s.tasks.length) with
    tasks := s.tasks ++ [t]
    remaining := s.remaining + 1 }

/-- The second one, after `pthread_create` failed. -/
def goUncount (s : State ι υ) (t : ℕ) : State ι υ :=
  { s.setCell t (Cell.setStage .failed) with remaining := s.remaining - 1 }

def goFail (s : State ι υ) (t : ℕ) : State ι υ :=
  s.setCell t Cell.fail

/-! ## worker_thread -/

def Pc.wake : Pc → Pc
  | .waitBlocked => .waitTest
  | p => p

/-- `wg_signal_done`. -/
def signalDone (s : State ι υ) : State ι υ :=
  let remaining := s.remaining - 1
  { s with
    remaining := remaining
    pc := if remaining = 0 then fun c => (s.pc c).wake else s.pc }

def Cell.run (runner : Runner υ) (k : Cell υ) : Cell υ :=
  { k with
    task := k.task.record (runner ⟨k.task.args, k.task.userData⟩)
    stage := .ran
    writes := k.writes + 1 }

/-- The next step of the worker of task `t`. -/
def workerStep (runner : Runner υ) (s : State ι υ) (t : ℕ) : Option (State ι υ) :=
  match s.stage t with
  | some .started => some (s.setCell t (Cell.setStage .running))
  | some .running => some (s.setCell t (Cell.run runner))
  | some .ran => some (signalDone (s.setCell t (Cell.setStage .signalled)))
  | some .signalled => some (s.setCell t (Cell.setStage .exited))
  | _ => none

/-! ## Clients -/

variable [DecidableEq ι]

/-- `pthread_join`: it returns once the thread has ended. -/
def pthreadJoin (s : State ι υ) (c : ι) (i : ℕ) (next : Pc) : Option (State ι υ) :=
  (s.tasks[i]?).bind fun t =>
    if s.live t then none else some ((s.setCell t Cell.join).setPc c next)

/-- The next step of client `c` inside a call. -/
def clientStep (s : State ι υ) (c : ι) : Option (State ι υ) :=
  match s.pc c with
  | .goRegister t => some ((goRegister s t).setPc c (.goCreate t))
  | .goMark t => some ((s.setCell t (Cell.mark true)).setPc c (.idle (.go (s.slot t))))
  | .goUncount t => some ((goUncount s t).setPc c (.goFail t))
  | .goFail t => some ((goFail s t).setPc c (.idle (.go none)))
  | .waitTest => some (s.setPc c (if 0 < s.remaining then .waitBlocked else .joinTest 0))
  | .joinTest i => some (s.setPc c (match s.tasks[i]? with
    | none => .idle .wait
    | some t => if s.joinable t then .joining i else .joinTest (i + 1)))
  | .joining i => pthreadJoin s c i (.joined i)
  | .joined i => (s.tasks[i]?).map fun t =>
    (s.setCell t (Cell.mark false)).setPc c (.joinTest (i + 1))
  | .freeTest i => some (s.setPc c (match s.tasks[i]? with
    | none => .freeGroup
    | some t => if s.joinable t then .freeJoin i else .freeTask i))
  | .freeJoin i => pthreadJoin s c i (.freeTask i)
  | .freeTask i => (s.tasks[i]?).map fun t =>
    (s.setCell t Cell.free).setPc c (.freeTest (i + 1))
  | .freeGroup => some { s.setPc c .gone with groupFreed := true }
  | _ => none

inductive Act (ι υ : Type)
  /-- A client that is in no call makes one. -/
  | go (c : ι) (inp : Inputs υ) | wait (c : ι) | destroy (c : ι)
  /-- `pthread_create` returns. -/
  | create (c : ι) (ok : Bool)
  | step (c : ι)
  /-- `pthread_cond_wait` may return without a signal. -/
  | wake (c : ι)
  | work (t : ℕ)

/-- What an action does where it can happen. -/
def step (runner : Runner υ) (s : State ι υ) : Act ι υ → Option (State ι υ)
  | .go c inp => match s.pc c with
    | .idle _ => some { s.setPc c (.goRegister s.heap.length) with heap := s.heap ++ [.alloc inp] }
    | _ => none
  | .wait c => match s.pc c with
    | .idle _ => some (s.setPc c .waitTest)
    | _ => none
  | .destroy c => match s.pc c with
    | .idle _ => some (s.setPc c (.freeTest 0))
    | _ => none
  | .create c ok => match s.pc c with
    | .goCreate t =>
      if ok then some ((s.setCell t (Cell.setStage .started)).setPc c (.goMark t))
      else some ((s.setCell t (Cell.setStage .refused)).setPc c (.goUncount t))
    | _ => none
  | .step c => clientStep s c
  | .wake c => match s.pc c with
    | .waitBlocked => some (s.setPc c .waitTest)
    | _ => none
  | .work t => workerStep runner s t

/-- A history of the group from `wg_create` on. -/
def Run (runner : Runner υ) (tr : List (Act ι υ)) (s : State ι υ) : Prop :=
  run (step runner) .init tr = some s

/-! ## What a history shows -/

def Act.goCall? : Act ι υ → Option (Inputs υ)
  | .go _ inp => some inp
  | _ => none

def Act.creation? : Act ι υ → Option Bool
  | .create _ ok => some ok
  | _ => none

/-- The inputs of the `wg_go` calls, in call order. -/
def goCalls (tr : List (Act ι υ)) : List (Inputs υ) := tr.filterMap Act.goCall?

/-- What `pthread_create` returned, in call order: `true` for success. -/
def creations (tr : List (Act ι υ)) : List Bool := tr.filterMap Act.creation?

/-! ## Reading the group -/

def wgSize (s : State ι υ) : ℕ := s.tasks.length

def wgGet (s : State ι υ) (slot : ℕ) : Option (Cell υ) :=
  (s.tasks[slot]?).bind fun t => s.heap[t]?

end Parallax.WaitGroup
