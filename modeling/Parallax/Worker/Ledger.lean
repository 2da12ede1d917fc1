import Parallax.Library.Ownership
import Parallax.Worker.Main

/-! The runner of `bridge_worker.c` with a ledger of its task: which trees were put in the task and
which were passed to `value_free`, and whether `px_callable_free` was called on the callable. Without
the ledger it is the runner of `Worker/Main`, statement by statement. -/
namespace Parallax.Worker
open Memory Unwind Bridge Ownership
set_option autoImplicit false
set_option maxHeartbeats 250000

/-! ## The ledger -/

/-- The callable of a payload, and the three trees of its task. -/
structure Ledger where
  callable : Owner
  args : Owner
  result : Owner
  error : Owner

namespace Ledger

/-- `go()` has made the payload and the arguments, and `wg_go` the task. -/
def handedOver (args : Option Value) : Ledger :=
  ⟨Owner.start.point true, Owner.start.point args.isSome, Owner.start, Owner.start⟩

/-- `task->result = v`. -/
def setResult (v : Option Value) (l : Ledger) : Ledger :=
  { l with result := l.result.point v.isSome }

/-- `task->error = v`. -/
def setError (v : Option Value) (l : Ledger) : Ledger :=
  { l with error := l.error.point v.isSome }

/-- `value_free(task->result)`. -/
def freeResult (l : Ledger) : Ledger := { l with result := l.result.release }

/-- `px_callable_free(&payload->callable)`, and NULL in `task->user_data`. -/
def freeCallable (l : Ledger) : Ledger := { l with callable := l.callable.release.point false }

/-- The three `value_free` of `wg_destroy`. -/
def freeTrees (l : Ledger) : Ledger :=
  { l with args := l.args.release, result := l.result.release, error := l.error.release }

end Ledger

/-! ## The runner -/

namespace Booked

abbrev Work := Unwinding Fault (Thread × Ledger)

def thread : Work Thread := keeping current

def setOk (ok : Bool) : Work Unit := keeping (update (Thread.setOk ok))

def setResult (v : Option Value) : Work Unit := update fun s => (s.1.setResult v, s.2.setResult v)

def setError (v : Option Value) : Work Unit := update fun s => (s.1.setError v, s.2.setError v)

/-- `if (task->result != NULL) { value_free(task->result); task->result = NULL; }`. -/
def dropResult : Work Unit := update fun s =>
  (s.1.setResult none, s.2.freeResult.setResult none)

def freeCallable : Work Unit := update fun s => (s.1.clearUserData, s.2.freeCallable)

def call (c : Effect) : Work Unit := keeping (callEngine c)

def failWith (cls msg : String) : Work Unit := do
  setOk false
  let err ← attempt (valueErr (cstr (ascii cls.toList)) (cstr (ascii msg.toList)) 0 (cstr []))
  setError (some err)

def takeCaptured (err : Value) : Work Unit := do
  setOk false
  setError (some err)
  keeping (update (Thread.setCaptured none))

def takeException (e : Engine) (ex : Exn) : Work Unit := do
  keeping (update (Thread.setPending none))
  setOk false
  call e.readProperties
  let err ← attempt (exceptionToValue ex)
  setError (some err)
  call e.releaseException

def reportFailure (e : Engine) (cls msg : String) : Work Unit := do
  let t ← thread
  match t.captured, t.pending with
  | some err, _ => takeCaptured err
  | none, some ex => takeException e ex
  | none, none => failWith cls msg

def instantiate (e : Engine) (captures : Option Value) (factory : Returned) :
    Work CallableZval := do
  call e.reifyCaptures
  let cap ← attempt (pxValueToZval e.classes captures)
  let ret ← keeping (ask (e.callFactory factory cap))
  call e.dtorCaptures
  call e.dtorFactory
  if ret.1 = false ∨ ret.2.isObject = false then
    reportFailure e "LogicError" "closure factory invocation failed"
    call e.dtorInner
    jump
  else return .closure ret.2

def runWrapper (e : Engine) : Work Returned := do
  let factory ← keeping (ask e.execute)
  call e.destroyOpArray
  let t ← thread
  match t.captured, t.pending with
  | some err, _ =>
    takeCaptured err
    call e.dtorFactory
    jump
  | none, some ex =>
    takeException e ex
    call e.dtorFactory
    jump
  | none, none =>
    if factory.isClosure then return factory
    else
      failWith "LogicError" "closure wrapper did not return a Closure"
      call e.dtorFactory
      jump

def compileWrapper (e : Engine) : Work Unit := do
  call e.initSource
  let opArray ← keeping (ask e.compileString)
  let t ← thread
  if opArray = false ∨ t.pending.isSome then
    reportFailure e "CompileError" "closure source failed to compile"
    keeping (callWhen opArray e.destroyOpArray)
    jump
  else pure ()

def buildCallable (e : Engine) : CallKind → Work CallableZval
  | .function fnName => do
    call e.initName
    return .name fnName
  | .staticMeth className fnName => do
    call e.initName
    return .method className fnName
  | .closure _ captures => do
    compileWrapper e
    let factory ← runWrapper e
    instantiate e captures factory

def rebuildArgs (e : Engine) (args : Option Value) : Work (ℕ × List Php) := do
  call e.reifyArgs
  let args ← attempt (pxValueToZval e.classes args)
  match buildArgv args with
  | none =>
    failWith "LogicError" "task args were not an array"
    jump
  | some argv => return argv

def invoke (e : Engine) (args : Option Value) (kind : CallKind) : Work (Bool × Returned) := do
  let argv ← rebuildArgs e args
  let callable ← buildCallable e kind
  keeping (callWhen (0 < argv.1) e.allocArgv)
  let ret ← keeping (ask (e.callUserFunction callable argv.2))
  keeping (dtorArgv e (List.range argv.1))
  call e.dtorCallable
  return ret

def storeResult (e : Engine) (retval : Returned) : Work Unit :=
  match pxZvalToValue retval.heap retval.zv with
  | .ok v => setResult (some v)
  | .error (.thrown _) => do
    call e.throwCaptureError
    setResult none
  | .error (.fault f) => attempt (.error f)

def recordOutcome (e : Engine) (rc : Bool) (retval : Returned) : Work Unit := do
  let t ← thread
  match t.captured, t.pending with
  | some err, _ =>
    takeCaptured err
    dropResult
  | none, none =>
    if rc then
      setOk true
      storeResult e retval
      call e.dtorRetval
    else failWith "RuntimeException" "call_user_function failed"
  | none, some ex => takeException e ex

def tryBody (e : Engine) (args : Option Value) (kind : CallKind) : Work Unit := do
  let ret ← invoke e args kind
  call e.dtorArgs
  recordOutcome e ret.1 ret.2

def catchBody : Work Unit := do
  setOk false
  let t ← thread
  match t.task.error with
  | none => do
    let err ← attempt (valueErr (cstr (ascii "Error".toList))
      (cstr (ascii "bailout during worker execution".toList)) 0 (cstr []))
    setError (some err)
  | some _ => pure ()

def bootstrap (e : Engine) : Option ZStr → Work Bool
  | none => pure false
  | some _ => do
    call e.streamInit
    catching (call e.executeScripts) (pure ())
    call e.destroyFileHandle
    let t ← thread
    match t.pending with
    | none => return false
    | some ex => do
      takeException e ex
      return true

def shutdown (e : Engine) : Work Unit := do
  call e.requestShutdown
  call e.freeThread
  freeCallable

def workerMainThread (e : Engine) (args : Option Value) (callable : PxCallable) : Work Unit := do
  call e.tsResource
  let started ← keeping (ask e.requestStartup)
  if started then
    let failed ← bootstrap e callable.bootstrap
    if failed then shutdown e
    else
      keeping (installHandler e)
      catching (tryBody e args callable.kind) catchBody
      shutdown e
  else failWith "RuntimeException" "php_request_startup failed"

/-- What a runner that returns leaves in its task and in the ledger. -/
def pxWorkerMain (e : Engine) (args : Option Value) (callable : PxCallable) (l : Ledger) :
    Option (WaitGroup.Outcome PxCallable × Ledger) :=
  match workerMainThread e args callable (Thread.start ⟨args, some callable⟩, l) with
  | .error _ => none
  | .ok (.bailed, _) => none
  | .ok (_, t, l) => some (t.task, l)

/-! ## Without the ledger -/

section Erasure
variable (e : Engine)

theorem setOk_erases (ok : Bool) : Erases (setOk ok) (update (Thread.setOk ok)) := erases_keeping _

theorem setResult_erases (v : Option Value) :
    Erases (setResult v) (update (Thread.setResult v)) := erases_update fun _ => rfl

theorem setError_erases (v : Option Value) :
    Erases (setError v) (update (Thread.setError v)) := erases_update fun _ => rfl

theorem call_erases (c : Effect) : Erases (call c) (callEngine c) := erases_keeping _

theorem attempt_erases {α : Type} (x : Except Fault α) :
    Erases (attempt x : Work α) (attempt x) := by
  intro s
  cases x <;> rfl

theorem failWith_erases (cls msg : String) : Erases (failWith cls msg) (Worker.failWith cls msg) :=
  (setOk_erases false).bind fun _ => (attempt_erases _).bind fun _ => setError_erases _

theorem takeCaptured_erases (err : Value) :
    Erases (takeCaptured err) (Worker.takeCaptured err) :=
  (setOk_erases false).bind fun _ => (setError_erases _).bind fun _ => erases_keeping _

theorem takeException_erases (ex : Exn) :
    Erases (takeException e ex) (Worker.takeException e ex) :=
  (erases_keeping _).bind fun _ => (setOk_erases false).bind fun _ => (call_erases _).bind fun _ =>
    (attempt_erases _).bind fun _ => (setError_erases _).bind fun _ => call_erases _

theorem reportFailure_erases (cls msg : String) :
    Erases (reportFailure e cls msg) (Worker.reportFailure e cls msg) := by
  refine (erases_keeping current).bind fun t => ?_
  obtain ⟨task, pending, _ | err⟩ := t
  · cases pending with
    | none => exact failWith_erases cls msg
    | some ex => exact takeException_erases e ex
  · exact takeCaptured_erases err

theorem instantiate_erases (captures : Option Value) (factory : Returned) :
    Erases (instantiate e captures factory) (Worker.instantiate e captures factory) := by
  refine (call_erases _).bind fun _ => (attempt_erases _).bind fun cap =>
    (erases_keeping (ask (e.callFactory factory cap))).bind fun ret => (call_erases _).bind fun _ =>
      (call_erases _).bind fun _ => ?_
  split
  · exact (reportFailure_erases e _ _).bind fun _ => (call_erases _).bind fun _ => erases_jump
  · exact erases_pure _

theorem runWrapper_erases : Erases (runWrapper e) (Worker.runWrapper e) := by
  refine (erases_keeping (ask e.execute)).bind fun factory => (call_erases _).bind fun _ =>
    (erases_keeping current).bind fun t => ?_
  obtain ⟨task, pending, _ | err⟩ := t
  · cases pending with
    | none =>
      dsimp only
      split
      · exact erases_pure _
      · exact (failWith_erases _ _).bind fun _ => (call_erases _).bind fun _ => erases_jump
    | some ex =>
      exact (takeException_erases e ex).bind fun _ => (call_erases _).bind fun _ => erases_jump
  · exact (takeCaptured_erases err).bind fun _ => (call_erases _).bind fun _ => erases_jump

theorem compileWrapper_erases : Erases (compileWrapper e) (Worker.compileWrapper e) := by
  refine (call_erases _).bind fun _ => (erases_keeping (ask e.compileString)).bind fun opArray =>
    (erases_keeping current).bind fun t => ?_
  split
  · exact (reportFailure_erases e _ _).bind fun _ => (erases_keeping _).bind fun _ => erases_jump
  · exact erases_pure _

theorem buildCallable_erases (kind : CallKind) :
    Erases (buildCallable e kind) (Worker.buildCallable e kind) := by
  cases kind with
  | function fnName => exact (call_erases _).bind fun _ => erases_pure _
  | staticMeth className fnName => exact (call_erases _).bind fun _ => erases_pure _
  | closure wrapper captures =>
    exact (compileWrapper_erases e).bind fun _ => (runWrapper_erases e).bind fun factory =>
      instantiate_erases e captures factory

theorem rebuildArgs_erases (args : Option Value) :
    Erases (rebuildArgs e args) (Worker.rebuildArgs e args) := by
  refine (call_erases _).bind fun _ => (attempt_erases _).bind fun z => ?_
  cases buildArgv z with
  | none => exact (failWith_erases _ _).bind fun _ => erases_jump
  | some argv => exact erases_pure _

theorem invoke_erases (args : Option Value) (kind : CallKind) :
    Erases (invoke e args kind) (Worker.invoke e args kind) :=
  (rebuildArgs_erases e args).bind fun argv => (buildCallable_erases e kind).bind fun callable =>
    (erases_keeping _).bind fun _ => (erases_keeping (ask (e.callUserFunction callable argv.2))).bind
      fun _ => (erases_keeping _).bind fun _ => (call_erases _).bind fun _ => erases_pure _

theorem storeResult_erases (retval : Returned) :
    Erases (storeResult e retval) (Worker.storeResult e retval) := by
  unfold storeResult Worker.storeResult
  rcases pxZvalToValue retval.heap retval.zv with (f | x) | v
  · exact attempt_erases _
  · exact (call_erases _).bind fun _ => setResult_erases _
  · exact setResult_erases _

theorem recordOutcome_erases (rc : Bool) (retval : Returned) :
    Erases (recordOutcome e rc retval) (Worker.recordOutcome e rc retval) := by
  refine (erases_keeping current).bind fun t => ?_
  obtain ⟨task, pending, _ | err⟩ := t
  · cases pending with
    | none =>
      cases rc with
      | true =>
        exact (setOk_erases true).bind fun _ => (storeResult_erases e retval).bind fun _ =>
          call_erases _
      | false => exact failWith_erases _ _
    | some ex => exact takeException_erases e ex
  · exact (takeCaptured_erases err).bind fun _ => erases_update fun _ => rfl

theorem tryBody_erases (args : Option Value) (kind : CallKind) :
    Erases (tryBody e args kind) (Worker.tryBody e args kind) :=
  (invoke_erases e args kind).bind fun ret => (call_erases _).bind fun _ =>
    recordOutcome_erases e ret.1 ret.2

theorem catchBody_erases : Erases catchBody Worker.catchBody := by
  refine (setOk_erases false).bind fun _ => (erases_keeping current).bind fun t => ?_
  cases herror : t.task.error with
  | none => exact (attempt_erases _).bind fun _ => setError_erases _
  | some err => exact erases_pure _

theorem bootstrap_erases (path : Option ZStr) :
    Erases (bootstrap e path) (Worker.bootstrap e path) := by
  cases path with
  | none => exact erases_pure _
  | some file =>
    refine (call_erases _).bind fun _ => ((call_erases _).catching (erases_pure _)).bind fun _ =>
      (call_erases _).bind fun _ => (erases_keeping current).bind fun t => ?_
    obtain ⟨task, _ | ex, captured⟩ := t
    · exact erases_pure _
    · exact (takeException_erases e ex).bind fun _ => erases_pure _

theorem shutdown_erases : Erases (shutdown e) (Worker.shutdown e) :=
  (call_erases _).bind fun _ => (call_erases _).bind fun _ => erases_update fun _ => rfl

theorem workerMainThread_erases (args : Option Value) (callable : PxCallable) :
    Erases (workerMainThread e args callable) (Worker.workerMainThread e args callable) := by
  refine (call_erases _).bind fun _ => (erases_keeping (ask e.requestStartup)).bind fun started => ?_
  split
  · refine (bootstrap_erases e _).bind fun failed => ?_
    split
    · exact shutdown_erases e
    · exact (erases_keeping _).bind fun _ =>
        ((tryBody_erases e args callable.kind).catching catchBody_erases).bind fun _ =>
          shutdown_erases e
  · exact failWith_erases _ _

end Erasure

/-- The runner returns with a ledger when it returns, and with the same task. -/
theorem pxWorkerMain_erases (e : Engine) (args : Option Value) (callable : PxCallable)
    (l : Ledger) : (pxWorkerMain e args callable l).map Prod.fst =
      match Worker.pxWorkerMain e args callable with
      | .returned out => some out
      | _ => none := by
  have herases := workerMainThread_erases e args callable (Thread.start ⟨args, some callable⟩, l)
  unfold pxWorkerMain Worker.pxWorkerMain
  rw [← herases]
  cases workerMainThread e args callable (Thread.start ⟨args, some callable⟩, l) with
  | error f => rfl
  | ok r =>
    obtain ⟨ex, t, l'⟩ := r
    cases ex <;> rfl

end Booked

end Parallax.Worker
