import Parallax.Library.Unwind
import Parallax.WaitGroup.Machine
import Parallax.Bridge.Capture
import Parallax.Bridge.Materialise

/-! `bridge_worker.c`: the runner of the PHP binding. What a call of the engine comes to is given
from outside, call by call; `zend_bailout` is a jump to the handler of the enclosing `zend_try`, and
where there is none the process ends. -/
namespace Parallax.Worker
open Memory Unwind Bridge
set_option autoImplicit false
set_option maxHeartbeats 250000

/-! ## The payload -/

/-- `px_call_kind_t`, each kind with the fields of `px_callable_t` it has. -/
inductive CallKind
  | function (fnName : ZStr)
  | staticMeth (className fnName : ZStr)
  | closure (closureWrapper : ZStr) (closureCaptures : Option Value)

structure PxCallable where
  kind : CallKind
  bootstrap : Option ZStr

/-! ## Exceptions -/

/-- An exception object, as `exception_to_value` reads it: the name of its class, and what
`zend_read_property` returns for `message` and `code`. -/
structure Exn where
  name : Option ZStr
  message : Option Zval
  code : Option Zval

def zstrToCstr : Option ZStr → Ptr
  | none => none
  | some zs => cstr zs

def exceptionToValue (ex : Exn) : Except Fault Value :=
  let msg := match ex.message with
    | some (.string s) => zstrToCstr (some s)
    | _ => none
  let code := match ex.code with
    | some (.long i) => i
    | _ => 0
  valueErr (zstrToCstr ex.name) msg code none

/-! ## The engine -/

/-- What a call leaves: the exception that is pending after it, the one its run handed to the
capture handler, and whether it ends in `zend_bailout`. -/
structure Effect where
  pending : Option Exn
  recorded : Option Exn
  bails : Bool

structure Reply (α : Type) extends Effect where
  value : α

/-- A zval the engine returns, with the heap it points into. -/
structure Returned where
  heap : Heap
  zv : Zval

def Returned.isObject (r : Returned) : Bool :=
  match r.zv with
  | .object _ => true
  | _ => false

/-- `instanceof_function(Z_OBJCE(zv), zend_ce_closure)` of an object. -/
def Returned.isClosure (r : Returned) : Bool :=
  match r.zv with
  | .object o => (r.heap.object o).ce.isClosure
  | _ => false

/-- `callable_zv`. -/
inductive CallableZval
  | name (fnName : ZStr)
  | method (className fnName : ZStr)
  | closure (inner : Returned)

/-- The engine of one thread: what each of the worker's calls comes to, none of which is made twice
in a run. A `zval_ptr_dtor` is a call, for it may run a destructor, and so is an allocation from the
request's memory. -/
structure Engine where
  classes : ClassTable
  tsResource : Effect
  /-- `true` is SUCCESS. -/
  requestStartup : Reply Bool
  streamInit : Effect
  executeScripts : Effect
  destroyFileHandle : Effect
  initHandlerName : Effect
  dtorHandler : Effect
  reifyArgs : Effect
  initName : Effect
  initSource : Effect
  /-- `true` is an op array, and not NULL. -/
  compileString : Reply Bool
  execute : Reply Returned
  destroyOpArray : Effect
  reifyCaptures : Effect
  callFactory : (factory : Returned) → (cap : Php) → Reply (Bool × Returned)
  dtorCaptures : Effect
  dtorFactory : Effect
  dtorInner : Effect
  allocArgv : Effect
  callUserFunction : (callable : CallableZval) → (argv : List Php) → Reply (Bool × Returned)
  dtorArg : ℕ → Effect
  dtorCallable : Effect
  dtorArgs : Effect
  throwCaptureError : Effect
  dtorRetval : Effect
  readProperties : Effect
  releaseException : Effect
  requestShutdown : Effect
  freeThread : Effect

/-! ## The thread -/

/-- The task, `EG(exception)` and `worker_captured_error`. -/
structure Thread where
  task : WaitGroup.Outcome PxCallable
  pending : Option Exn
  captured : Option Value

def Thread.start (inp : WaitGroup.Inputs PxCallable) : Thread :=
  ⟨(WaitGroup.Task.spawned inp).outcome, none, none⟩

def Thread.setOk (ok : Bool) (t : Thread) : Thread := { t with task := { t.task with ok := ok } }

def Thread.setResult (v : Option Value) (t : Thread) : Thread :=
  { t with task := { t.task with result := v } }

def Thread.setError (v : Option Value) (t : Thread) : Thread :=
  { t with task := { t.task with error := v } }

def Thread.clearUserData (t : Thread) : Thread :=
  { t with task := { t.task with userData := none } }

def Thread.setPending (ex : Option Exn) (t : Thread) : Thread := { t with pending := ex }

def Thread.setCaptured (v : Option Value) (t : Thread) : Thread := { t with captured := v }

abbrev Work := Unwinding Fault Thread

/-! ## Calls -/

/-- `parallax_internal_capture_exception`: the first exception stands. -/
def captureException (ex : Exn) (captured : Option Value) : Except Fault (Option Value) :=
  match captured with
  | none => (exceptionToValue ex).map some
  | some err => .ok (some err)

def callEngine (c : Effect) : Work Unit := do
  match c.recorded with
  | none => pure ()
  | some ex =>
    let t ← current
    let err ← attempt (captureException ex t.captured)
    update (Thread.setCaptured err)
  update (Thread.setPending c.pending)
  if c.bails then bail else pure ()

def callWhen (b : Bool) (c : Effect) : Work Unit := if b then callEngine c else pure ()

def ask {α : Type} (c : Reply α) : Work α := do
  callEngine c.toEffect
  return c.value

/-! ## Setting the error -/

/-- `task->ok = false; task->error = value_err(cls, msg, 0, "")`. -/
def failWith (cls msg : String) : Work Unit := do
  update (Thread.setOk false)
  let err ← attempt (valueErr (cstr (ascii cls.toList)) (cstr (ascii msg.toList)) 0 (cstr []))
  update (Thread.setError (some err))

/-- The error the handler has parked becomes the task's. -/
def takeCaptured (err : Value) : Work Unit := do
  update (Thread.setOk false)
  update (Thread.setError (some err))
  update (Thread.setCaptured none)

/-- The pending exception becomes the task's error. -/
def takeException (e : Engine) (ex : Exn) : Work Unit := do
  update (Thread.setPending none)
  update (Thread.setOk false)
  callEngine e.readProperties
  let err ← attempt (exceptionToValue ex)
  update (Thread.setError (some err))
  callEngine e.releaseException

/-- The three-way choice after a step that failed. -/
def reportFailure (e : Engine) (cls msg : String) : Work Unit := do
  let t ← current
  match t.captured, t.pending with
  | some err, _ => takeCaptured err
  | none, some ex => takeException e ex
  | none, none => failWith cls msg

/-! ## The callable -/

/-- The CLOSURE branch, once the wrapper has been run. -/
def instantiate (e : Engine) (captures : Option Value) (factory : Returned) :
    Work CallableZval := do
  callEngine e.reifyCaptures
  let cap ← attempt (pxValueToZval e.classes captures)
  let ret ← ask (e.callFactory factory cap)
  callEngine e.dtorCaptures
  callEngine e.dtorFactory
  if ret.1 = false ∨ ret.2.isObject = false then
    reportFailure e "LogicError" "closure factory invocation failed"
    callEngine e.dtorInner
    jump
  else return .closure ret.2

def runWrapper (e : Engine) : Work Returned := do
  let factory ← ask e.execute
  callEngine e.destroyOpArray
  let t ← current
  match t.captured, t.pending with
  | some err, _ =>
    takeCaptured err
    callEngine e.dtorFactory
    jump
  | none, some ex =>
    takeException e ex
    callEngine e.dtorFactory
    jump
  | none, none =>
    if factory.isClosure then return factory
    else
      failWith "LogicError" "closure wrapper did not return a Closure"
      callEngine e.dtorFactory
      jump

def compileWrapper (e : Engine) : Work Unit := do
  callEngine e.initSource
  let opArray ← ask e.compileString
  let t ← current
  if opArray = false ∨ t.pending.isSome then
    reportFailure e "CompileError" "closure source failed to compile"
    callWhen opArray e.destroyOpArray
    jump
  else pure ()

def buildCallable (e : Engine) : CallKind → Work CallableZval
  | .function fnName => do
    callEngine e.initName
    return .name fnName
  | .staticMeth className fnName => do
    callEngine e.initName
    return .method className fnName
  | .closure _ captures => do
    compileWrapper e
    let factory ← runWrapper e
    instantiate e captures factory

/-! ## The call -/

def dtorArgv (e : Engine) : List ℕ → Work Unit
  | [] => pure ()
  | k :: rest => do
    callEngine (e.dtorArg k)
    dtorArgv e rest

def rebuildArgs (e : Engine) (args : Option Value) : Work (ℕ × List Php) := do
  callEngine e.reifyArgs
  let args ← attempt (pxValueToZval e.classes args)
  match buildArgv args with
  | none =>
    failWith "LogicError" "task args were not an array"
    jump
  | some argv => return argv

def invoke (e : Engine) (args : Option Value) (kind : CallKind) : Work (Bool × Returned) := do
  let argv ← rebuildArgs e args
  let callable ← buildCallable e kind
  callWhen (0 < argv.1) e.allocArgv
  let ret ← ask (e.callUserFunction callable argv.2)
  dtorArgv e (List.range argv.1)
  callEngine e.dtorCallable
  return ret

/-- `task->result = px_zval_to_value(&retval)`; a refusal raises an exception and is NULL. -/
def storeResult (e : Engine) (retval : Returned) : Work Unit :=
  match pxZvalToValue retval.heap retval.zv with
  | .ok v => update (Thread.setResult (some v))
  | .error (.thrown _) => do
    callEngine e.throwCaptureError
    update (Thread.setResult none)
  | .error (.fault f) => attempt (.error f)

def recordOutcome (e : Engine) (rc : Bool) (retval : Returned) : Work Unit := do
  let t ← current
  match t.captured, t.pending with
  | some err, _ =>
    takeCaptured err
    update (Thread.setResult none)
  | none, none =>
    if rc then
      update (Thread.setOk true)
      storeResult e retval
      callEngine e.dtorRetval
    else failWith "RuntimeException" "call_user_function failed"
  | none, some ex => takeException e ex

/-! ## worker_main_thread -/

/-- What stands in the `zend_try`. -/
def tryBody (e : Engine) (args : Option Value) (kind : CallKind) : Work Unit := do
  let ret ← invoke e args kind
  callEngine e.dtorArgs
  recordOutcome e ret.1 ret.2

def catchBody : Work Unit := do
  update (Thread.setOk false)
  let t ← current
  match t.task.error with
  | none => do
    let err ← attempt (valueErr (cstr (ascii "Error".toList))
      (cstr (ascii "bailout during worker execution".toList)) 0 (cstr []))
    update (Thread.setError (some err))
  | some _ => pure ()

/-- The bootstrap file, and whether it has left an exception. -/
def bootstrap (e : Engine) : Option ZStr → Work Bool
  | none => pure false
  | some _ => do
    callEngine e.streamInit
    catching (callEngine e.executeScripts) (pure ())
    callEngine e.destroyFileHandle
    let t ← current
    match t.pending with
    | none => return false
    | some ex => do
      takeException e ex
      return true

def shutdown (e : Engine) : Work Unit := do
  callEngine e.requestShutdown
  callEngine e.freeThread
  update Thread.clearUserData

def installHandler (e : Engine) : Work Unit := do
  update (Thread.setCaptured none)
  callEngine e.initHandlerName
  callEngine e.dtorHandler

def workerMainThread (e : Engine) (args : Option Value) (callable : PxCallable) : Work Unit := do
  callEngine e.tsResource
  let started ← ask e.requestStartup
  if started then
    let failed ← bootstrap e callable.bootstrap
    if failed then shutdown e
    else
      installHandler e
      catching (tryBody e args callable.kind) catchBody
      shutdown e
  else failWith "RuntimeException" "php_request_startup failed"

/-- How the runner ends: on a memory fault, with the process, or by returning to the thread. -/
inductive Ended
  | crashed (f : Fault)
  | exited
  | returned (out : WaitGroup.Outcome PxCallable)

def pxWorkerMain (e : Engine) (args : Option Value) (callable : PxCallable) : Ended :=
  match workerMainThread e args callable (Thread.start ⟨args, some callable⟩) with
  | .error f => .crashed f
  | .ok (.bailed, _) => .exited
  | .ok (_, t) => .returned t.task

end Parallax.Worker
