import Parallax.Stored.Release
import Parallax.WaitGroup.Outcome

/-! `core/waitgroup.c` on the heap: the group, its array of tasks, the tasks and the contexts of the
threads are blocks. The steps are those of `WaitGroup`, each with what it reads, writes, allocates
and frees. -/
namespace Parallax.Stored.Group
open Memory Separation Separation.Assertion WaitGroup
set_option autoImplicit false
set_option maxHeartbeats 250000

/-! ## What is not on the heap -/

/-- A thread with its local variables; `absent` before `pthread_create` has returned, and if it
failed. -/
inductive Thread
  | absent
  | started (ctx : ℕ)
  | running (wg task : ℕ)
  | ran (wg task : ℕ)
  | signalled | exited
deriving DecidableEq, Repr

def Thread.live : Thread → Bool
  | .started _ | .running .. | .ran .. | .signalled => true
  | _ => false

/-- A call of `wg_go`: its `task`, and the thread it makes. -/
structure Call where
  task : ℕ
  thread : Thread
deriving DecidableEq, Repr

/-- The owner, with the group it has, and the calls it has made. -/
structure Control where
  wg : ℕ
  pc : Pc
  calls : List Call
deriving DecidableEq, Repr

namespace Control
variable (c : Control)

def setPc (p : Pc) : Control := { c with pc := p }

def setThread (t : ℕ) (thread : Thread) : Control :=
  { c with calls := c.calls.modify t fun k => { k with thread := thread } }

/-- The thread has not ended. -/
def live (thread : ℕ) : Bool := (c.calls[thread]?).any fun k => k.thread.live

end Control

/-! ## Blocks of the group -/

def readGroup (p : Option ℕ) : Code WaitGroupT := do
  match ← read p with
  | .group g => return g
  | _ => attempt (.error .wrongType)

def readTask (p : Option ℕ) : Code TaskT := do
  match ← read p with
  | .task t => return t
  | _ => attempt (.error .wrongType)

def readCtx (p : Option ℕ) : Code WorkerCtx := do
  match ← read p with
  | .ctx x => return x
  | _ => attempt (.error .wrongType)

/-- A store into a task. -/
def updateTask (p : ℕ) (f : TaskT → TaskT) : Code Unit := do
  let t ← readTask (some p)
  write (some p) (.task (f t))

section Code
variable [Allocator Block]

def wgCreate : Code ℕ := malloc (.group ⟨0, none, 0, 0⟩)

/-! ## wg_go -/

def grow (wg : ℕ) : Code Unit := do
  let g ← readGroup (some wg)
  let newCap := if g.cap = 0 then 8 else g.cap * 2
  let newTasks ← reallocCells Block.pointers g.tasks newCap
  write (some wg) (.group { g with tasks := some newTasks, cap := newCap })

/-- `if (wg->count == wg->cap) grow(wg)`. -/
def growFull (wg : ℕ) : Code Unit := do
  let g ← readGroup (some wg)
  if g.count = g.cap then grow wg else pure ()

/-- The task that `calloc` gives out. -/
def TaskT.zero : TaskT := ⟨0, false, 0, none, none, false, none, none⟩

def goAlloc (args userData : Option ℕ) : Code ℕ := do
  let task ← malloc (.task TaskT.zero)
  updateTask task fun t => { t with args := args }
  updateTask task fun t => { t with userData := userData }
  return task

/-- The first section under the lock. -/
def goRegister (wg task : ℕ) : Code Unit := do
  growFull wg
  let g ← readGroup (some wg)
  updateTask task fun t => { t with slot := g.count }
  storeCell Block.pointers g.tasks g.count task
  write (some wg) (.group { g with count := g.count + 1, remaining := g.remaining + 1 })

/-- `pthread_create` of the thread with this number, and what comes of its context. -/
def goCreate (wg task thread : ℕ) (ok : Bool) : Code Thread := do
  let ctx ← malloc (.ctx ⟨wg, task⟩)
  if ok then do
    updateTask task fun t => { t with thread := thread }
    return .started ctx
  else do
    free (some ctx)
    return .absent

def addRemaining (wg : ℕ) (d : ℤ) : Code ℤ := do
  let g ← readGroup (some wg)
  write (some wg) (.group { g with remaining := g.remaining + d })
  return g.remaining + d

/-- `task->thread_joinable = true; return task->slot`. -/
def goMark (task : ℕ) : Code ℕ := do
  updateTask task fun t => { t with threadJoinable := true }
  let t ← readTask (some task)
  return t.slot

def goFail (task : ℕ) : Code Unit :=
  updateTask task fun t => { t with ok := false, threadJoinable := false }

/-! ## wg_wait and wg_destroy -/

/-- `wg->tasks[i]`. -/
def taskPtr (wg i : ℕ) : Code ℕ := do
  let g ← readGroup (some wg)
  readCell Block.pointers g.tasks i

/-- `i < wg->count`, and if so whether `wg->tasks[i]->thread_joinable`. -/
def testTask (wg i : ℕ) : Code (Option Bool) := do
  let g ← readGroup (some wg)
  if i < g.count then do
    let p ← readCell Block.pointers g.tasks i
    let t ← readTask (some p)
    return some t.threadJoinable
  else return none

/-- The thread `pthread_join` is called for. -/
def threadOf (wg i : ℕ) : Code ℕ := do
  let p ← taskPtr wg i
  let t ← readTask (some p)
  return t.thread

def unmark (wg i : ℕ) : Code Unit := do
  let p ← taskPtr wg i
  updateTask p fun t => { t with threadJoinable := false }

def freeTask (wg i : ℕ) : Code Unit := do
  let p ← taskPtr wg i
  let t ← readTask (some p)
  valueFree t.args
  let t ← readTask (some p)
  valueFree t.result
  let t ← readTask (some p)
  valueFree t.error
  free (some p)

def freeGroup (wg : ℕ) : Code Unit := do
  let g ← readGroup (some wg)
  free g.tasks
  free (some wg)

/-! ## Steps -/

/-- What the owner calls `wg_go` with is made by `prepare`; a thread runs `runner`. -/
inductive Act (κ : Type)
  | go (k : κ) | wait | destroy
  | create (ok : Bool)
  | step | wake
  | work (t : ℕ)

/-- The next step of the thread of call `t`. -/
def work (runner : ℕ → Code Unit) (c : Control) (t : ℕ) : Code (Option Control) :=
  match (c.calls[t]?).map Call.thread with
  | some (.started ctx) => do
    let x ← readCtx (some ctx)
    free (some ctx)
    return some (c.setThread t (.running x.wg x.task))
  | some (.running wg task) => do
    let _ ← readGroup (some wg)
    runner task
    return some (c.setThread t (.ran wg task))
  | some (.ran wg _) => do
    let remaining ← addRemaining wg (-1)
    let c := c.setThread t .signalled
    return some (c.setPc (if remaining = 0 then c.pc.wake else c.pc))
  | some .signalled => return some (c.setThread t .exited)
  | _ => return none

/-- `pthread_join`: it returns once the thread has ended. -/
def pthreadJoin (c : Control) (i : ℕ) (next : Pc) : Code (Option Control) := do
  let thread ← threadOf c.wg i
  return if c.live thread then none else some (c.setPc next)

/-- The next step of the owner inside a call. -/
def clientStep (c : Control) : Code (Option Control) :=
  match c.pc with
  | .goRegister t =>
    match c.calls[t]? with
    | none => return none
    | some k => do
      goRegister c.wg k.task
      return some (c.setPc (.goCreate t))
  | .goMark t =>
    match c.calls[t]? with
    | none => return none
    | some k => do
      let slot ← goMark k.task
      return some (c.setPc (.idle (.go (some slot))))
  | .goUncount t => do
    let _ ← addRemaining c.wg (-1)
    return some (c.setPc (.goFail t))
  | .goFail t =>
    match c.calls[t]? with
    | none => return none
    | some k => do
      goFail k.task
      return some (c.setPc (.idle (.go none)))
  | .waitTest => do
    let g ← readGroup (some c.wg)
    return some (c.setPc (if 0 < g.remaining then .waitBlocked else .joinTest 0))
  | .joinTest i => do
    let joinable ← testTask c.wg i
    return some (c.setPc (match joinable with
      | none => .idle .wait
      | some joinable => if joinable then .joining i else .joinTest (i + 1)))
  | .joining i => pthreadJoin c i (.joined i)
  | .joined i => do
    unmark c.wg i
    return some (c.setPc (.joinTest (i + 1)))
  | .freeTest i => do
    let joinable ← testTask c.wg i
    return some (c.setPc (match joinable with
      | none => .freeGroup
      | some joinable => if joinable then .freeJoin i else .freeTask i))
  | .freeJoin i => pthreadJoin c i (.freeTask i)
  | .freeTask i => do
    freeTask c.wg i
    return some (c.setPc (.freeTest (i + 1)))
  | .freeGroup => do
    freeGroup c.wg
    return some (c.setPc .gone)
  | _ => return none

section Steps
variable {κ : Type} (prepare : κ → Code (Option ℕ × Option ℕ)) (runner : ℕ → Code Unit)

/-- What an action does where it can happen. -/
def step (c : Control) : Act κ → Code (Option Control)
  | .go k => match c.pc with
    | .idle _ => do
      let inputs ← prepare k
      let task ← goAlloc inputs.1 inputs.2
      return some { c with pc := .goRegister c.calls.length, calls := c.calls ++ [⟨task, .absent⟩] }
    | _ => return none
  | .wait => match c.pc with
    | .idle _ => return some (c.setPc .waitTest)
    | _ => return none
  | .destroy => match c.pc with
    | .idle _ => return some (c.setPc (.freeTest 0))
    | _ => return none
  | .create ok => match c.pc with
    | .goCreate t =>
      match c.calls[t]? with
      | none => return none
      | some k => do
        let thread ← goCreate c.wg k.task t ok
        return some ((c.setThread t thread).setPc (if ok then .goMark t else .goUncount t))
    | _ => return none
  | .step => clientStep c
  | .wake => match c.pc with
    | .waitBlocked => return some (c.setPc .waitTest)
    | _ => return none
  | .work t => work runner c t

def stepAll : Control → List (Act κ) → Code (Option Control)
  | c, [] => return some c
  | c, a :: tr => do
    match ← step prepare runner c a with
    | none => return none
    | some c => stepAll c tr

/-- A history of the group, from `wg_create` on. -/
def history (tr : List (Act κ)) : Code (Option Control) := do
  let wg ← wgCreate
  stepAll prepare runner ⟨wg, .idle .start, []⟩ tr

end Steps

end Code

end Parallax.Stored.Group
