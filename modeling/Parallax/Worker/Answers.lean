import Parallax.Worker.Recipe

/-! The runner in an engine where nothing is thrown and nothing bails out: what it leaves in the
task is then a function of the engine's answers. -/
namespace Parallax.Worker
open Memory Unwind Bridge
set_option autoImplicit false
set_option maxHeartbeats 250000

/-! ## The engine -/

/-- What the calls of the engine answer that the runner looks at. -/
structure Answers where
  classes : ClassTable
  started : Bool
  compiled : Bool
  factory : Returned
  instantiated : Php → Bool × Returned
  called : CallableZval → List Php → Bool × Returned

def Answers.engine (x : Answers) : Engine where
  classes := x.classes
  tsResource := quietCall
  requestStartup := ⟨quietCall, x.started⟩
  streamInit := quietCall
  executeScripts := quietCall
  destroyFileHandle := quietCall
  initHandlerName := quietCall
  dtorHandler := quietCall
  reifyArgs := quietCall
  initName := quietCall
  initSource := quietCall
  compileString := ⟨quietCall, x.compiled⟩
  execute := ⟨quietCall, x.factory⟩
  destroyOpArray := quietCall
  reifyCaptures := quietCall
  callFactory := fun _ cap => ⟨quietCall, x.instantiated cap⟩
  dtorCaptures := quietCall
  dtorFactory := quietCall
  dtorInner := quietCall
  allocArgv := quietCall
  callUserFunction := fun callable argv => ⟨quietCall, x.called callable argv⟩
  dtorArg := fun _ => quietCall
  dtorCallable := quietCall
  dtorArgs := quietCall
  throwCaptureError := quietCall
  dtorRetval := quietCall
  readProperties := quietCall
  releaseException := quietCall
  requestShutdown := quietCall
  freeThread := quietCall

/-! ## Errors of the runner -/

inductive Failure
  | startup | args | compile | wrapper | factory | call
deriving DecidableEq, Repr

namespace Failure

def cls : Failure → String
  | startup | call => "RuntimeException"
  | compile => "CompileError"
  | args | wrapper | factory => "LogicError"

def msg : Failure → String
  | startup => "php_request_startup failed"
  | args => "task args were not an array"
  | compile => "closure source failed to compile"
  | wrapper => "closure wrapper did not return a Closure"
  | factory => "closure factory invocation failed"
  | call => "call_user_function failed"

def value (e : Failure) : Value :=
  .err (cstr (ascii e.cls.toList)) (cstr (ascii e.msg.toList)) 0 (cstr [])

theorem valueErr_eq (e : Failure) :
    valueErr (cstr (ascii e.cls.toList)) (cstr (ascii e.msg.toList)) 0 (cstr []) = .ok e.value := by
  cases e <;> rfl

end Failure

/-! ## What the runner makes of the answers -/

/-- What the factory has to return. -/
def asCallable (ret : Bool × Returned) : Except Failure CallableZval :=
  if ret.1 = false ∨ ret.2.isObject = false then .error .factory else .ok (.closure ret.2)

def asArgv (args : Php) : Except Failure (ℕ × List Php) :=
  match buildArgv args with
  | none => .error .args
  | some argv => .ok argv

section Course
variable (x : Answers)

def resolved : CallKind → Except Fault (Except Failure CallableZval)
  | .function fnName => .ok (.ok (.name fnName))
  | .staticMeth className fnName => .ok (.ok (.method className fnName))
  | .closure _ captures =>
    if x.compiled = false then .ok (.error .compile)
    else if x.factory.isClosure = false then .ok (.error .wrapper)
    else (pxValueToZval x.classes captures).map fun cap => asCallable (x.instantiated cap)

def invoked (args : Option Value) (kind : CallKind) :
    Except Fault (Except Failure (Bool × Returned)) := do
  match ← (pxValueToZval x.classes args).map asArgv with
  | .error e => return .error e
  | .ok argv =>
    match ← resolved x kind with
    | .error e => return .error e
    | .ok callable => return .ok (x.called callable argv.2)

end Course

abbrev Output := WaitGroup.Outcome PxCallable

def Failure.record (e : Failure) (o : Output) : Output :=
  { o with ok := false, error := some e.value }

def settled (o : Output) : Except Failure (Bool × Returned) → Except Fault Output
  | .error e => .ok (e.record o)
  | .ok (rc, retval) =>
    if rc then
      match pxZvalToValue retval.heap retval.zv with
      | .ok v => .ok { o with ok := true, result := some v }
      | .error (.thrown _) => .ok { o with ok := true, result := none }
      | .error (.fault f) => .error f
    else .ok (Failure.call.record o)

def unset (callable : PxCallable) : Output := ⟨false, none, none, some callable⟩

/-- The task in the end. -/
def answered (x : Answers) (args : Option Value) (callable : PxCallable) : Except Fault Output :=
  if x.started then
    (invoked x args callable.kind >>= settled (unset callable)).map fun o =>
      { o with userData := none }
  else .ok (Failure.startup.record (unset callable))

/-! ## The run -/

section Run
variable {x : Answers} {o : Output}

/-- No exception is pending, and none was handed to the handler. -/
def Thread.calm (o : Output) : Thread := ⟨o, none, none⟩

/-- How code that may jump behind a failure is left. -/
def left {α : Type} (o : Output) : Except Failure α → Exit α × Thread
  | .ok a => (.returned a, .calm o)
  | .error e => (.jumped, .calm (e.record o))

theorem callEngine_quiet : callEngine quietCall (.calm o) = .ok (.returned (), .calm o) := rfl

theorem failWith_calm (e : Failure) :
    failWith e.cls e.msg (.calm o) = .ok (.returned (), .calm (e.record o)) := by
  unfold failWith
  rw [e.valueErr_eq]
  rfl

theorem reportFailure_calm (e : Failure) : reportFailure x.engine e.cls e.msg (.calm o) =
    .ok (.returned (), .calm (e.record o)) :=
  (bind_returned (a := Thread.calm o) rfl).trans (failWith_calm e)

theorem dtorArgv_calm (ks : List ℕ) :
    dtorArgv x.engine ks (.calm o) = .ok (.returned (), .calm o) := by
  induction ks with
  | nil => rfl
  | cons k ks ih => exact (bind_returned callEngine_quiet).trans ih

theorem attempt_bind {α β : Type} (y : Except Fault α) (f : α → Work β) (t : Thread) :
    (attempt y >>= f) t = y >>= fun a => f a t := by
  cases y with
  | error e => rfl
  | ok a => rfl

theorem bind_map_map {α β γ : Type} {y : Except Fault α} {f : α → Except Fault γ} {g : α → β}
    {k : β → γ} (h : ∀ a, f a = .ok (k (g a))) : y >>= f = (y.map g).map k := by
  cases y with
  | error e => rfl
  | ok a => exact h a

/-- Code that is left one of the two ways, and what comes behind it. -/
theorem left_bind {α β : Type} {code : Work α} {f : α → Work β}
    {y : Except Fault (Except Failure α)} (h : code (Thread.calm o) = y.map (left o)) :
    (code >>= f) (Thread.calm o) = y >>= fun r => match r with
      | .ok a => f a (Thread.calm o)
      | .error e => .ok (left o (.error e)) := by
  cases y with
  | error e => exact bind_cut (o := .error e) h
  | ok r =>
    cases r with
    | ok a => exact bind_returned h
    | error e => exact bind_cut (o := .ok (false, Thread.calm (e.record o))) h

theorem instantiate_calm (captures : Option Value) (factory : Returned) :
    instantiate x.engine captures factory (.calm o) = Except.map (left o)
      ((pxValueToZval x.classes captures).map fun cap => asCallable (x.instantiated cap)) := by
  refine (bind_returned callEngine_quiet).trans ((attempt_bind _ _ _).trans ?_)
  refine bind_map_map fun cap => ?_
  refine (bind_returned (a := x.instantiated cap) (t := .calm o) rfl).trans ?_
  refine (bind_returned callEngine_quiet).trans ((bind_returned callEngine_quiet).trans ?_)
  rw [asCallable]
  by_cases hfails : (x.instantiated cap).1 = false ∨ (x.instantiated cap).2.isObject = false
  · rw [if_pos hfails, if_pos hfails]
    exact (bind_returned (reportFailure_calm .factory)).trans (bind_returned callEngine_quiet)
  · rw [if_neg hfails, if_neg hfails]
    rfl

theorem runWrapper_calm : runWrapper x.engine (.calm o) =
    .ok (left o (if x.factory.isClosure then .ok x.factory else .error .wrapper)) := by
  refine (bind_returned (a := x.factory) (t := .calm o) rfl).trans ?_
  refine (bind_returned callEngine_quiet).trans ?_
  refine (bind_returned (a := Thread.calm o) rfl).trans ?_
  refine (apply_ite (fun code : Work Returned => code (.calm o)) _ _ _).trans ?_
  by_cases hclosure : x.factory.isClosure = true
  · rw [if_pos hclosure, if_pos hclosure]
    rfl
  · rw [if_neg hclosure, if_neg hclosure]
    exact (bind_returned (failWith_calm .wrapper)).trans (bind_returned callEngine_quiet)

theorem compileWrapper_calm : compileWrapper x.engine (.calm o) =
    .ok (left o (if x.compiled then .ok () else .error .compile)) := by
  refine (bind_returned callEngine_quiet).trans ?_
  refine (bind_returned (a := x.compiled) (t := .calm o) rfl).trans ?_
  refine (bind_returned (a := Thread.calm o) rfl).trans ?_
  cases x.compiled with
  | true => rfl
  | false => exact (bind_returned (reportFailure_calm .compile)).trans (bind_returned (a := ()) rfl)

theorem buildCallable_calm (kind : CallKind) :
    buildCallable x.engine kind (.calm o) = (resolved x kind).map (left o) := by
  cases kind with
  | function fnName => exact bind_returned callEngine_quiet
  | staticMeth className fnName => exact bind_returned callEngine_quiet
  | closure wrapper captures =>
    have hcompile : compileWrapper x.engine (.calm o) =
        Except.map (left o) (.ok (if x.compiled then .ok () else .error .compile)) :=
      compileWrapper_calm
    have hwrapper : runWrapper x.engine (.calm o) =
        Except.map (left o) (.ok (if x.factory.isClosure then .ok x.factory else .error .wrapper)) :=
      runWrapper_calm
    refine (left_bind hcompile).trans ?_
    rw [ok_bind, resolved]
    cases x.compiled with
    | false => rfl
    | true =>
      refine (left_bind hwrapper).trans ?_
      rw [ok_bind]
      cases x.factory.isClosure with
      | false => rfl
      | true => exact instantiate_calm captures x.factory

theorem rebuildArgs_calm (args : Option Value) : rebuildArgs x.engine args (.calm o) =
    Except.map (left o) ((pxValueToZval x.classes args).map asArgv) := by
  refine (bind_returned callEngine_quiet).trans ((attempt_bind _ _ _).trans ?_)
  refine bind_map_map fun args => ?_
  rw [asArgv]
  cases buildArgv args with
  | none => exact bind_returned (failWith_calm .args)
  | some argv => rfl

/-- What stands behind the resolution of the callable. -/
theorem call_calm (argv : ℕ × List Php) (callable : CallableZval) :
    (do
      callWhen (0 < argv.1) x.engine.allocArgv
      let ret ← ask (x.engine.callUserFunction callable argv.2)
      dtorArgv x.engine (List.range argv.1)
      callEngine x.engine.dtorCallable
      return ret : Work (Bool × Returned)) (.calm o) =
      .ok (.returned (x.called callable argv.2), .calm o) := by
  have halloc : callWhen (0 < argv.1) x.engine.allocArgv (.calm o) = .ok (.returned (), .calm o) := by
    unfold callWhen
    split <;> rfl
  refine (bind_returned halloc).trans ?_
  refine (bind_returned (a := x.called callable argv.2) (t := .calm o) rfl).trans ?_
  exact (bind_returned (dtorArgv_calm _)).trans (bind_returned callEngine_quiet)

theorem invoke_calm (args : Option Value) (kind : CallKind) :
    invoke x.engine args kind (.calm o) = (invoked x args kind).map (left o) := by
  refine (left_bind (rebuildArgs_calm args)).trans ?_
  unfold invoked
  cases (pxValueToZval x.classes args).map asArgv with
  | error f => rfl
  | ok r =>
    cases r with
    | error e => rfl
    | ok argv =>
      refine (left_bind (buildCallable_calm kind)).trans ?_
      rw [ok_bind]
      cases resolved x kind with
      | error f => rfl
      | ok r =>
        cases r with
        | error e => rfl
        | ok callable => exact call_calm argv callable

theorem recordOutcome_calm (ret : Bool × Returned) :
    recordOutcome x.engine ret.1 ret.2 (.calm o) =
      (settled o (.ok ret)).map fun o => (.returned (), .calm o) := by
  obtain ⟨rc, retval⟩ := ret
  cases rc with
  | false => exact failWith_calm .call
  | true =>
    show (storeResult x.engine retval >>= fun _ => callEngine quietCall)
      (Thread.calm { o with ok := true }) = _
    rw [settled, if_pos rfl, storeResult]
    cases pxZvalToValue retval.heap retval.zv with
    | ok v => rfl
    | error stop => cases stop <;> rfl

/-- The whole `zend_try`, left in any way. -/
theorem tryBody_calm (args : Option Value) (kind : CallKind) :
    catching (tryBody x.engine args kind) catchBody (.calm o) =
      (invoked x args kind >>= settled o).map fun o => (.returned (), .calm o) := by
  have hbody : tryBody x.engine args kind (.calm o) = invoked x args kind >>= fun r => match r with
      | .ok ret => (settled o (.ok ret)).map fun o => (.returned (), .calm o)
      | .error e => .ok (left o (.error e : Except Failure Unit)) := by
    refine (left_bind (invoke_calm args kind)).trans (congrArg _ (funext fun r => ?_))
    cases r with
    | error e => rfl
    | ok ret => exact (bind_returned callEngine_quiet).trans (recordOutcome_calm ret)
  rw [catching, hbody]
  cases invoked x args kind with
  | error f => rfl
  | ok r =>
    cases r with
    | error e => rfl
    | ok ret =>
      rw [ok_bind, ok_bind]
      dsimp only
      cases settled o (.ok ret) with
      | error f => rfl
      | ok o => rfl

theorem bootstrap_calm (path : Option ZStr) :
    bootstrap x.engine path (.calm o) = .ok (.returned false, .calm o) := by
  cases path <;> rfl

/-- How the runner ends. -/
def ended : Except Fault Output → Ended
  | .error f => .crashed f
  | .ok o => .returned o

/-- The runner returns with what the answers come to. -/
theorem pxWorkerMain_answers (x : Answers) (args : Option Value) (callable : PxCallable) :
    pxWorkerMain x.engine args callable = ended (answered x args callable) := by
  have hrun : workerMainThread x.engine args callable (.calm (unset callable)) =
      (answered x args callable).map fun o => (.returned (), .calm o) := by
    refine (bind_returned callEngine_quiet).trans ?_
    refine (bind_returned (a := x.started) (t := .calm _) rfl).trans ?_
    unfold answered
    cases x.started with
    | false => exact failWith_calm .startup
    | true =>
      refine (bind_returned (bootstrap_calm callable.bootstrap)).trans ?_
      refine (bind_returned (a := ()) (t := .calm (unset callable)) rfl).trans ?_
      have htry := tryBody_calm (x := x) (o := unset callable) args callable.kind
      show _ = Except.map _ ((invoked x args callable.kind >>= settled (unset callable)).map _)
      cases hend : invoked x args callable.kind >>= settled (unset callable) with
      | error f =>
        rw [hend] at htry
        exact bind_cut (o := .error f) htry
      | ok o =>
        rw [hend] at htry
        exact bind_returned htry
  unfold pxWorkerMain
  rw [show Thread.start ⟨args, some callable⟩ = .calm (unset callable) from rfl, hrun]
  cases answered x args callable with
  | error f => rfl
  | ok o => rfl

end Run

/-! ## The payload -/

/-- `callable.bootstrap`. -/
def readBootstrap (p : Ptr) : Except Fault (Option ZStr) :=
  match p with
  | none => .ok none
  | some _ => (cText p).map some

/-- A `px_callable_t` as the worker reads it. -/
def readCallable (cb : PxCallableT) : Except Fault PxCallable := do
  let kind ← readKind cb
  let bootstrap ← readBootstrap cb.bootstrap
  return ⟨kind, bootstrap⟩

/-- What `px_resolve_callable` leaves in a recipe. -/
inductive Recipe : PxCallableT → Prop
  | function (fnName : List UInt8) : Recipe (.ofFunction (cstr fnName))
  | staticMeth (className fnName : List UInt8) : Recipe (.ofMethod (cstr className) (cstr fnName))
  | closure (wrapper : List UInt8) (captures : Value) : Recipe (.ofClosure (cstr wrapper) captures)

theorem resolveMethod_recipe {className fnName : ZStr} {cb : PxCallableT}
    (h : resolveMethod className fnName = .ok cb) : Recipe cb := by
  rw [resolveMethod_eq] at h
  cases h
  exact .staticMeth className fnName

theorem resolveString_recipe {s : ZStr} {cb : PxCallableT} (h : resolveString s = .ok cb) :
    Recipe cb := by
  rw [resolveString_eq] at h
  cases h
  cases splitName s with
  | none => exact .function s
  | some parts => exact .staticMeth parts.1 parts.2

theorem pxResolveInlineClosure_recipe {w : World} {closure : ZendClosure} {cb : PxCallableT}
    (h : pxResolveInlineClosure w closure = .ok cb) : Recipe cb := by
  unfold pxResolveInlineClosure at h
  split at h
  · cases h
  · split_ifs at h
    · cases h
    · cases h
    · split at h
      · cases h
      · split_ifs at h
        · cases h
        · obtain ⟨extracted, -, h⟩ := bind_ok h
          cases extracted with
          | failed err => cases h
          | text text =>
            obtain ⟨captures, -, h⟩ := bind_ok h
            obtain ⟨text, -, h⟩ := bind_ok h
            cases h
            exact .closure (wrapperText text) captures

theorem resolveArray_recipe {ht : HashTable} {cb : PxCallableT} (h : resolveArray ht = .ok cb) :
    Recipe cb := by
  unfold resolveArray at h
  split_ifs at h
  · cases h
  · split at h
    · exact resolveMethod_recipe h
    · cases h
    · cases h

theorem resolveClosure_recipe {w : World} {closure : ZendClosure} {cb : PxCallableT}
    (h : resolveClosure w closure = .ok cb) : Recipe cb := by
  unfold resolveClosure at h
  split at h
  · cases h
  · split_ifs at h
    · split at h
      · exact resolveMethod_recipe h
      · rw [strdupOrDie_val] at h
        cases h
        exact .function _
    · exact pxResolveInlineClosure_recipe h

theorem pxResolveCallable_recipe {w : World} {callable : Zval} {cb : PxCallableT}
    (h : pxResolveCallable w callable = .ok cb) : Recipe cb := by
  unfold pxResolveCallable at h
  dsimp only at h
  split at h
  · exact resolveString_recipe h
  · exact resolveArray_recipe h
  · split_ifs at h
    · exact resolveClosure_recipe h
    · cases h
  · cases h

theorem Recipe.readKind_ok {cb : PxCallableT} (h : Recipe cb) : ∃ kind, readKind cb = .ok kind := by
  cases h with
  | function fnName =>
    refine ⟨.function (printed fnName), ?_⟩
    show (cText (cstr fnName) >>= fun fnName => .ok (CallKind.function fnName)) = _
    rw [cText_cstr]
    rfl
  | staticMeth className fnName =>
    refine ⟨.staticMeth (printed className) (printed fnName), ?_⟩
    show (cText (cstr className) >>= fun className => cText (cstr fnName) >>= fun fnName =>
      .ok (CallKind.staticMeth className fnName)) = _
    rw [cText_cstr, ok_bind, cText_cstr]
    rfl
  | closure wrapper captures =>
    refine ⟨.closure (printed wrapper) captures, ?_⟩
    show (cText (cstr wrapper) >>= fun wrapper => .ok (CallKind.closure wrapper captures)) = _
    rw [cText_cstr]
    rfl

theorem readBootstrap_copy {path copy : Ptr} (h : dupCstr path = .ok copy) :
    ∃ p, readBootstrap copy = .ok p := by
  cases path with
  | none =>
    cases h
    exact ⟨none, rfl⟩
  | some bs =>
    have hnul : (0 : UInt8) ∈ bs := by
      by_contra hnul
      rw [dupCstr, strlen, if_neg hnul] at h
      cases h
    obtain ⟨pre, post, rfl, hpre⟩ := List.eq_append_cons_of_mem hnul
    rw [dupCstr_cstr hpre] at h
    cases h
    exact ⟨some (printed pre), congrArg (Except.map some) (cText_cstr pre)⟩

/-- The worker can read every recipe, with any bootstrap path that it can read. -/
theorem Recipe.readable {cb : PxCallableT} (h : Recipe cb) {path : Ptr} {p : Option ZStr}
    (hp : readBootstrap path = .ok p) :
    ∃ callable, readCallable { cb with bootstrap := path } = .ok callable := by
  obtain ⟨kind, hkind⟩ := h.readKind_ok
  refine ⟨⟨kind, p⟩, ?_⟩
  show (readKind cb >>= fun kind => readBootstrap path >>= fun bootstrap =>
    .ok (PxCallable.mk kind bootstrap)) = _
  rw [hkind, ok_bind, hp]
  rfl

end Parallax.Worker
