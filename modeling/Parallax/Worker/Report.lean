import Mathlib.Data.List.TakeWhile
import Parallax.Bridge.Callable
import Parallax.Worker.ShortCircuit

/-! The error of a callable that throws: from the exception to the snapshot in the task, and from
there to the object `wait()` puts in the slot. -/
namespace Parallax.Worker
open Memory Unwind Bridge
set_option autoImplicit false
set_option maxHeartbeats 250000

/-! ## Texts -/

theorem nul_not_mem_printed (s : ZStr) : (0 : UInt8) ∉ printed s := by
  intro h
  have hne := List.mem_takeWhile_imp h
  simp at hne

/-- A text is kept by a C string exactly when it has no NUL in it. -/
theorem printed_eq_iff (s : ZStr) : printed s = s ↔ (0 : UInt8) ∉ s := by
  constructor
  · intro h hmem
    rw [← h] at hmem
    exact nul_not_mem_printed s hmem
  · intro h
    refine List.takeWhile_eq_self_iff.mpr fun c hc => decide_eq_true ?_
    rintro rfl
    exact h hc

theorem dupCstr_printed (s : ZStr) : dupCstr (cstr s) = .ok (cstr (printed s)) := by
  obtain ⟨cut, rest, hcut, hnul⟩ := List.eq_append_cons_of_mem
    (show (0 : UInt8) ∈ s ++ [0] from List.mem_append_right _ (List.mem_singleton.mpr rfl))
  have hprinted : printed s = cut := by
    rw [← takeWhile_terminated, hcut, takeWhile_cstr hnul]
  rw [cstr, hcut, dupCstr_cstr hnul, hprinted]

theorem errorText_printed (s : ZStr) : errorText (cstr s) = .ok (printed s) := by
  have hsome : cstr s ≠ none := by simp [cstr]
  unfold errorText
  rw [if_neg hsome]
  exact cText_cstr s

/-! ## Exceptions -/

/-- The text of `message`, when it is a string. -/
def Exn.text? (ex : Exn) : Option ZStr :=
  match ex.message with
  | some (.string s) => some s
  | _ => none

def Exn.number (ex : Exn) : Int64 :=
  match ex.code with
  | some (.long i) => i
  | _ => 0

def copyOf (text : Option ZStr) : Ptr := text.bind fun s => cstr (printed s)

/-- The snapshot of an exception. -/
def Exn.value (ex : Exn) : Value := .err (copyOf ex.name) (copyOf ex.text?) ex.number none

theorem dupCstr_copyOf (text : Option ZStr) : dupCstr (zstrToCstr text) = .ok (copyOf text) := by
  cases text with
  | none => rfl
  | some s => exact dupCstr_printed s

theorem exceptionToValue_eq (ex : Exn) : exceptionToValue ex = .ok ex.value := by
  have hmsg : (match ex.message with
      | some (.string s) => zstrToCstr (some s)
      | _ => none) = zstrToCstr ex.text? := by
    unfold Exn.text?
    split
    · rfl
    · rfl
  have heq : exceptionToValue ex =
      valueErr (zstrToCstr ex.name) (zstrToCstr ex.text?) ex.number none :=
    congrArg (fun p => valueErr (zstrToCstr ex.name) p ex.number none) hmsg
  rw [heq, valueErr, dupCstr_copyOf, dupCstr_copyOf]
  rfl

/-- The `ParallaxWorkerError` with these properties. -/
def workerError (cls message : ZStr) (code : Int64) : Php :=
  .object workerErrorClass.name
    [(ascii "class".toList, .string cls), (ascii "message".toList, .string message),
      (ascii "code".toList, .long code), (ascii "trace".toList, .string [])]

theorem errorText_copyOf (text : Option ZStr) :
    errorText (copyOf text) = .ok (printed (text.getD [])) := by
  cases text with
  | none => rfl
  | some s =>
    refine (errorText_printed (printed s)).trans (congrArg Except.ok ?_)
    exact (printed_eq_iff _).mpr (nul_not_mem_printed s)

theorem pxValueToZval_exn (classes : ClassTable) (ex : Exn) :
    pxValueToZval classes (some ex.value) =
      .ok (workerError (printed (ex.name.getD [])) (printed (ex.text?.getD [])) ex.number) := by
  rw [pxValueToZval, ptrToZval, Exn.value, valueToZval, errorToZval, errorText_copyOf,
    errorText_copyOf]
  rfl

theorem workerError_inj {cls cls' message message' : ZStr} {code code' : Int64}
    (h : workerError cls message code = workerError cls' message' code') :
    cls = cls' ∧ message = message' ∧ code = code' := by
  unfold workerError at h
  simp only [Php.object.injEq, List.cons.injEq, Prod.mk.injEq, Php.string.injEq, Php.long.injEq]
    at h
  exact ⟨h.2.1.2, h.2.2.1.2, h.2.2.2.1.2⟩

/-! ## The calls after the throw -/

/-- The thread as a call leaves it. -/
def Thread.after (c : Effect) (t : Thread) : Thread :=
  { t with pending := c.pending, captured := t.captured.or (c.recorded.map Exn.value) }

theorem callEngine_eq (c : Effect) (t : Thread) :
    callEngine c t = .ok (if c.bails then .bailed else .returned (), t.after c) := by
  have hend : ∀ u : Thread,
      (do update (Thread.setPending c.pending); if c.bails then bail else pure () : Work Unit) u =
        .ok (if c.bails then .bailed else .returned (), u.setPending c.pending) := by
    intro u
    cases hb : c.bails <;> rfl
  unfold callEngine Thread.after
  cases c.recorded with
  | none =>
    refine (hend t).trans ?_
    rw [Option.map_none, Option.or_none]
    rfl
  | some ex =>
    have hcapture : captureException ex t.captured = .ok (t.captured.or (some ex.value)) := by
      cases hcap : t.captured with
      | none => rw [captureException, exceptionToValue_eq]; rfl
      | some err => rfl
    have hrest := hend (t.setCaptured (t.captured.or (some ex.value)))
    change (attempt (captureException ex t.captured) >>= _) t = _
    rw [hcapture]
    exact hrest

/-- Calls in a row. -/
def runCalls : List Effect → Work Unit
  | [] => pure ()
  | c :: rest => do
    callEngine c
    runCalls rest

theorem runCalls_append (cs ds : List Effect) :
    runCalls (cs ++ ds) = runCalls cs >>= fun _ => runCalls ds := by
  induction cs with
  | nil => rfl
  | cons c cs ih =>
    rw [List.cons_append, runCalls, runCalls, ih, bind_assoc]

theorem dtorArgv_runCalls (e : Engine) (ks : List ℕ) : dtorArgv e ks = runCalls (ks.map e.dtorArg) := by
  induction ks with
  | nil => rfl
  | cons k ks ih => rw [dtorArgv, List.map_cons, runCalls, ih]

theorem runCalls_bails {cs : List Effect} (h : ∃ c ∈ cs, c.bails = true) (t : Thread) :
    ∃ u, runCalls cs t = .ok (.bailed, u) ∧ u.task = t.task := by
  induction cs generalizing t with
  | nil =>
    obtain ⟨c, hc, -⟩ := h
    cases hc
  | cons c cs ih =>
    cases hb : c.bails with
    | true =>
      have hcall : callEngine c t = cutTo (.ok (Bool.true, t.after c)) := by
        rw [callEngine_eq, hb]
        rfl
      exact ⟨t.after c, bind_cut hcall, rfl⟩
    | false =>
      have hcall : callEngine c t = .ok (.returned (), t.after c) := by
        rw [callEngine_eq, hb]
        rfl
      have hrest : ∃ c' ∈ cs, c'.bails = true := by
        obtain ⟨c', hc', hbails⟩ := h
        rcases List.mem_cons.mp hc' with rfl | hc'
        · rw [hb] at hbails
          cases hbails
        · exact ⟨c', hc', hbails⟩
      obtain ⟨u, hu, htask⟩ := ih hrest (t.after c)
      exact ⟨u, (bind_returned hcall).trans hu, htask⟩

/-- The first exception that was recorded is parked, and what is pending is what the last call
leaves. -/
theorem runCalls_returns {cs : List Effect} (h : ∀ c ∈ cs, c.bails = false) (last : Effect)
    (hlast : last.bails = false) (t : Thread) :
    runCalls (cs ++ [last]) t = .ok (.returned (),
      { t with
        pending := last.pending
        captured := t.captured.or (((cs ++ [last]).findSome? Effect.recorded).map Exn.value) }) := by
  have hcall (c : Effect) (hb : c.bails = false) (u : Thread) :
      callEngine c u = .ok (.returned (), u.after c) := by
    rw [callEngine_eq, hb]
    rfl
  induction cs generalizing t with
  | nil =>
    refine (bind_returned (hcall last hlast t)).trans ?_
    rw [List.nil_append, List.findSome?_singleton]
    rfl
  | cons c cs ih =>
    obtain ⟨hc, hcs⟩ := List.forall_mem_cons.mp h
    refine (bind_returned (hcall c hc t)).trans ((ih hcs (t.after c)).trans ?_)
    rw [List.cons_append, List.findSome?_cons]
    cases hr : c.recorded with
    | none => simp [Thread.after, hr]
    | some ex => simp [Thread.after, hr]

/-! ## What is reported -/

def textValue (cls msg : String) : Value :=
  .err (cstr (printed (ascii cls.toList))) (cstr (printed (ascii msg.toList))) 0 (cstr [])

theorem textError_eq (cls msg : String) : textError cls msg = .ok (textValue cls msg) := by
  have hempty : dupCstr (cstr []) = .ok (cstr []) := rfl
  rw [textError, valueErr, dupCstr_printed, dupCstr_printed, hempty]
  rfl

def bailoutError : Value := textValue "Error" "bailout during worker execution"

/-- A call in storing or destroying the result bails out. -/
def storeBails (e : Engine) (retval : Returned) : Bool :=
  match pxZvalToValue retval.heap retval.zv with
  | .ok _ => e.dtorRetval.bails
  | .error _ => e.throwCaptureError.bails || e.dtorRetval.bails

/-- The error of the outcome, by what is parked and what is pending. -/
def recordedError (e : Engine) (rc : Bool) (retval : Returned) :
    Option Value → Option Exn → Option Value
  | some err, _ => some err
  | none, some ex => some (if e.readProperties.bails then bailoutError else ex.value)
  | none, none =>
    if rc then if storeBails e retval then some bailoutError else none
    else some (textValue "RuntimeException" "call_user_function failed")

/-- The destructions behind the call of the callable, less the last. -/
def destructions (e : Engine) (argc : ℕ) : List Effect :=
  (List.range argc).map e.dtorArg ++ [e.dtorCallable]

def callsFrom (e : Engine) (p : CallableZval × ℕ × List Php) : List Effect :=
  (e.callUserFunction p.1 p.2.2).toEffect :: destructions e p.2.1

/-- The error that the thread reports when it calls `p` in the state `t`. -/
def report (e : Engine) (p : CallableZval × ℕ × List Php) (t : Thread) : Option Value :=
  let call := e.callUserFunction p.1 p.2.2
  if (callsFrom e p ++ [e.dtorArgs]).any Effect.bails then some bailoutError
  else recordedError e call.value.1 call.value.2
    (t.captured.or (((callsFrom e p ++ [e.dtorArgs]).findSome? Effect.recorded).map Exn.value))
    e.dtorArgs.pending

/-- The error an entry of `wait()` has. -/
def errorOf (out : WaitGroup.Outcome PxCallable) : Option Value := if out.ok then none else out.error

/-- How the block is left that is to report `r`. -/
def Reported (r : Option Value) : Exit Unit → Thread → Prop
  | .bailed, u => (u.task.error = none ∧ r = some bailoutError) ∨
      ∃ err, u.task.error = some err ∧ r = some err
  | _, u => errorOf u.task = r

section Recording
variable {E : Fault → Prop} {e : Engine} {t : Thread}

theorem catchBody_reported {r : Option Value} (h : Reported r .bailed t) :
    Meets catchBody t E fun ex u => ex = .returned () ∧ errorOf u.task = r := by
  unfold catchBody
  rw [← textError, textError_eq]
  apply meets_update_bind
  apply meets_current_bind
  rcases h with ⟨hnone, rfl⟩ | ⟨err, herr, rfl⟩
  · have hset : (t.setOk false).task.error = none := hnone
    rw [hset]
    exact ⟨rfl, rfl⟩
  · have hset : (t.setOk false).task.error = some err := herr
    rw [hset]
    exact ⟨rfl, hset⟩

theorem failWith_reported (cls msg : String) :
    Meets (failWith cls msg) t E (Reported (some (textValue cls msg))) := by
  unfold failWith
  rw [← textError, textError_eq]
  exact rfl

theorem takeException_reported (ex : Exn) (herror : t.task.error = none) :
    Meets (takeException e ex) t E
      (Reported (some (if e.readProperties.bails then bailoutError else ex.value))) := by
  unfold takeException
  rw [exceptionToValue_eq]
  apply meets_update_bind
  apply meets_update_bind
  apply call_bind
  · intro u hu hread
    rw [hread]
    apply meets_ok_bind
    apply meets_update_bind
    have hok : (u.setError (some ex.value)).task.ok = false := by
      show u.task.ok = false
      rw [hu.task]
      rfl
    apply callEngine_meets
    · intro v hv _
      show errorOf v.task = _
      rw [hv.task, errorOf, hok]
      rfl
    · intro v hv _
      refine Or.inr ⟨ex.value, ?_, rfl⟩
      rw [hv.task]
      rfl
  · intro u hu hread
    rw [hread]
    refine Or.inl ⟨?_, rfl⟩
    rw [hu.task]
    exact herror

theorem storeResult_reported (retval : Returned) (herror : t.task.error = none)
    (hok : t.task.ok = true) :
    Meets (do storeResult e retval; callEngine e.dtorRetval) t E
      (Reported (if storeBails e retval then some bailoutError else none)) := by
  -- the value of the result does not matter, the task has no error
  have hdtor : ∀ (u : Thread) (v : Option Value), u.task = t.task →
      Meets (callEngine e.dtorRetval) (u.setResult v) E
        (Reported (if e.dtorRetval.bails then some bailoutError else none)) := by
    intro u v hu
    have htask : ∀ w, Called e.dtorRetval (u.setResult v) w →
        w.task.error = none ∧ w.task.ok = true := by
      intro w hw
      rw [hw.task]
      show u.task.error = none ∧ u.task.ok = true
      rw [hu]
      exact ⟨herror, hok⟩
    apply callEngine_meets
    · intro w hw hb
      rw [hb]
      exact if_pos (htask w hw).2
    · intro w hw hb
      rw [hb]
      exact Or.inl ⟨(htask w hw).1, rfl⟩
  unfold storeResult storeBails
  rcases pxZvalToValue_decides retval.heap retval.zv with ⟨-, v, hv, -⟩ | ⟨-, msg, hmsg⟩
  · rw [hv]
    apply meets_update_bind
    exact hdtor t (some v) rfl
  · rw [hmsg]
    dsimp only
    rw [bind_assoc]
    apply call_bind
    · intro u hu hb
      rw [hb, Bool.false_or]
      apply meets_update_bind
      exact hdtor u none hu.task
    · intro u hu hb
      rw [hb, Bool.true_or]
      refine Or.inl ⟨?_, rfl⟩
      rw [hu.task]
      exact herror

theorem recordOutcome_reported (rc : Bool) (retval : Returned) (herror : t.task.error = none) :
    Meets (recordOutcome e rc retval) t E
      (Reported (recordedError e rc retval t.captured t.pending)) := by
  apply meets_current_bind
  cases t.captured with
  | some err => exact rfl
  | none =>
    cases t.pending with
    | some ex => exact takeException_reported ex herror
    | none =>
      cases rc with
      | true =>
        apply meets_update_bind
        exact storeResult_reported retval herror rfl
      | false => exact failWith_reported _ _

theorem callOn_eq (p : CallableZval × ℕ × List Php) :
    callOn e p = runCalls (callsFrom e p ++ [e.dtorArgs]) >>= fun _ =>
      recordOutcome e (e.callUserFunction p.1 p.2.2).value.1
        (e.callUserFunction p.1 p.2.2).value.2 := by
  unfold callOn callsFrom destructions
  rw [ask_bind, List.cons_append, runCalls, List.append_assoc, runCalls_append, dtorArgv_runCalls]
  simp only [List.singleton_append, runCalls, bind_assoc, pure_bind]

theorem callOn_reported (p : CallableZval × ℕ × List Php) (herror : t.task.error = none) :
    Meets (callOn e p) t E (Reported (report e p t)) := by
  rw [callOn_eq]
  unfold Meets report
  dsimp only
  cases hany : (callsFrom e p ++ [e.dtorArgs]).any Effect.bails with
  | true =>
    obtain ⟨u, hu, htask⟩ := runCalls_bails (List.any_eq_true.mp hany) t
    have hcut : runCalls (callsFrom e p ++ [e.dtorArgs]) t = cutTo (.ok (true, u)) := hu
    rw [bind_cut hcut]
    refine Or.inl ⟨?_, rfl⟩
    rw [htask]
    exact herror
  | false =>
    have hall : ∀ c ∈ callsFrom e p ++ [e.dtorArgs], c.bails = false := by
      intro c hc
      have hnot := List.any_eq_false.mp hany c hc
      exact Bool.eq_false_iff.mpr hnot
    have hreturn := runCalls_returns (fun c hc => hall c (List.mem_append_left _ hc)) e.dtorArgs
      (hall _ (List.mem_append_right _ (List.mem_singleton.mpr rfl))) t
    rw [bind_returned hreturn]
    exact recordOutcome_reported (E := E) _ _ herror

theorem shutdown_errorOf {ex : Exit Unit} {u : Thread} (h : shutdown e t = .ok (ex, u))
    (hex : ex ≠ .bailed) : errorOf u.task = errorOf t.task := by
  have hshutdown : Meets (shutdown e) t (fun _ => True)
      fun ex u => ex ≠ .bailed → errorOf u.task = errorOf t.task := by
    apply call_bind _ fun _ _ _ hne => absurd rfl hne
    intro v hv _
    apply call_bind _ fun _ _ _ hne => absurd rfl hne
    intro w hw _
    apply meets_update
    intro _
    show errorOf w.task = _
    rw [hw.task, hv.task]
  unfold Meets at hshutdown
  rw [h] at hshutdown
  exact hshutdown hex

end Recording

/-! ## The task of a thread that calls -/

section Task
variable {e : Engine} {args : Option Value} {callable : PxCallable} {t u : Thread}

theorem callEngine_task {c : Effect} {a : Unit} (h : callEngine c t = .ok (.returned a, u)) :
    u.task = t.task := by
  rw [callEngine_eq] at h
  obtain ⟨-, rfl⟩ := Prod.mk.inj (Except.ok.inj h)
  rfl

theorem startup_task (h : stage e args callable .startup t = .ok (.returned (), u)) :
    u.task = t.task := by
  obtain ⟨_, v, hv, h⟩ := of_bind_returned h
  obtain ⟨started, w, hw, h⟩ := of_bind_returned h
  obtain ⟨_, x, hx, hend⟩ := of_bind_returned hw
  cases hend
  cases hs : e.requestStartup.value with
  | true =>
    rw [hs] at h
    cases h
    rw [callEngine_task hx, callEngine_task hv]
  | false =>
    rw [hs] at h
    obtain ⟨_, y, -, hjump⟩ := of_bind_returned h
    cases hjump

theorem prepare_error {p : CallableZval × ℕ × List Php}
    (h : prepare e args callable.kind t = .ok (.returned p, u)) (hresult : t.task.result = none)
    (herror : t.task.error = none) : u.task.error = none := by
  obtain ⟨argv, v, hargv, h⟩ := of_bind_returned h
  obtain ⟨c, w, hc, h⟩ := of_bind_returned h
  obtain ⟨_, x, hx, hend⟩ := of_bind_returned h
  cases hend
  have hstart : OnCourse (t.captured = none) t := ⟨hresult, herror, Iff.rfl⟩
  have hargs := ((rebuildArgs_ends (E := fun _ => True) args hstart fun _ _ => trivial).of_returned
    hargv).1
  have hbuilt := ((buildCallable_ends (E := fun _ => True) callable.kind hargs
    fun _ _ _ _ _ => trivial).of_returned hc).1
  have htask : u.task = w.task := by
    unfold callWhen at hx
    split at hx
    · exact callEngine_task hx
    · cases hx
      rfl
  rw [htask]
  exact hbuilt.error

theorem upToCall_error {p : CallableZval × ℕ × List Php}
    (h : upToCall e args callable (Thread.start ⟨args, some callable⟩) = .ok (.returned p, t)) :
    t.task.error = none := by
  obtain ⟨_, u, hstartup, h⟩ := of_bind_returned h
  obtain ⟨_, v, hbootstrap, h⟩ := of_bind_returned h
  have htask := startup_task hstartup
  obtain ⟨failed, w, hw, hinstall⟩ := of_bind_returned hbootstrap
  cases failed with
  | true => cases hinstall
  | false =>
    have hresult : u.task.result = none := by rw [htask]; rfl
    have herror : u.task.error = none := by rw [htask]; rfl
    obtain ⟨hwr, hwe, -⟩ :=
      (bootstrap_meets (E := fun _ => True) callable.bootstrap hresult herror).of_returned hw
    have hcourse := (installHandler_meets (E := fun _ => True) hwr hwe).of_returned hinstall
    exact prepare_error h hcourse.result hcourse.error

/-- A thread that returns has left its report. -/
theorem pxWorkerMain_reports {p : CallableZval × ℕ × List Php}
    (hcall : upToCall e args callable (Thread.start ⟨args, some callable⟩) = .ok (.returned p, t))
    {out : WaitGroup.Outcome PxCallable} (hout : pxWorkerMain e args callable = .returned out) :
    errorOf out = report e p t := by
  have hblock : Meets (catching (callOn e p) catchBody) t (fun _ => True)
      fun ex u => ex = .returned () ∧ errorOf u.task = report e p t :=
    (callOn_reported p (upToCall_error hcall)).catching (fun _ hu => hu) (fun _ hu => hu)
      fun _ hu => catchBody_reported hu
  obtain ⟨_, u, hu⟩ | ⟨o, ho⟩ := returned_or_cut (catching (callOn e p) catchBody t)
  · have herror := (hblock.of_returned hu).2
    unfold pxWorkerMain at hout
    rw [workerMainThread_invoked hcall, bind_returned hu] at hout
    split at hout
    · cases hout
    · cases hout
    · next ex v hex hrun =>
      cases hout
      exact (shutdown_errorOf hrun hex).trans herror
  · unfold Meets at hblock
    rw [ho] at hblock
    unfold pxWorkerMain at hout
    rw [workerMainThread_invoked hcall, bind_cut ho] at hout
    obtain err | ⟨⟨⟩ | ⟨⟩, u⟩ := o
    · cases hout
    · cases hblock.1
    · cases hblock.1

end Task

/-! ## The error in the slot -/

/-- The `error` of the entry `wait()` makes of a task, in the thread that waits. -/
def slotError (classes : ClassTable) (task : WaitGroup.Task PxCallable)
    (out : WaitGroup.Outcome PxCallable) : Option (Except Fault Php) :=
  (task.record out).entry.error.map fun err => pxValueToZval classes (some err)

theorem slotError_eq (classes : ClassTable) (task : WaitGroup.Task PxCallable)
    (out : WaitGroup.Outcome PxCallable) :
    slotError classes task out = (errorOf out).map fun err => pxValueToZval classes (some err) := by
  obtain ⟨ok, result, error, userData⟩ := out
  cases ok with
  | true => rfl
  | false => cases error <;> rfl

/-- An exception with a message that is a string and a code that is an integer. -/
def thrownExn (cls message : ZStr) (code : Int64) : Exn :=
  ⟨some cls, some (.string message), some (.long code)⟩

/-- A call that throws: the exception is handed to the capture handler, or is left pending. -/
structure Throws (c : Effect) (ex : Exn) : Prop where
  returns : c.bails = false
  raised : c.recorded = some ex ∨ (c.recorded = none ∧ c.pending = some ex)

/-- Nothing comes in the place of the exception of the callable: none was parked before, no
destruction behind the call bails out, and if it is left pending none is recorded there, it is
still pending at the end, and its properties can be read. -/
structure Stands (e : Engine) (p : CallableZval × ℕ × List Php) (t : Thread) (ex : Exn) : Prop where
  unparked : t.captured = none
  returned : ∀ c ∈ destructions e p.2.1 ++ [e.dtorArgs], c.bails = false
  kept : (e.callUserFunction p.1 p.2.2).recorded = none →
    (∀ c ∈ destructions e p.2.1 ++ [e.dtorArgs], c.recorded = none) ∧
      e.dtorArgs.pending = some ex ∧ e.readProperties.bails = false

theorem Stands.report {e : Engine} {p : CallableZval × ℕ × List Php} {t : Thread} {ex : Exn}
    (h : Stands e p t ex) (hthrows : Throws (e.callUserFunction p.1 p.2.2).toEffect ex) :
    report e p t = some ex.value := by
  have hany : (callsFrom e p ++ [e.dtorArgs]).any Effect.bails = false := by
    refine List.any_eq_false.mpr fun c hc => ?_
    rcases List.mem_cons.mp hc with rfl | hc
    · rw [hthrows.returns]
      exact Bool.false_ne_true
    · rw [h.returned c hc]
      exact Bool.false_ne_true
  unfold Worker.report
  dsimp only
  rw [hany, if_neg Bool.false_ne_true, h.unparked, Option.none_or, callsFrom, List.cons_append,
    List.findSome?_cons]
  rcases hthrows.raised with hrecorded | ⟨hrecorded, -⟩
  · rw [hrecorded]
    rfl
  · obtain ⟨hnone, hpending, hread⟩ := h.kept hrecorded
    rw [hrecorded, List.findSome?_eq_none_iff.mpr hnone, hpending]
    show some (if e.readProperties.bails then bailoutError else ex.value) = _
    rw [hread]
    rfl

/-- The error in the slot has the message, the code and the class name of the exception exactly
when no NUL cuts a text and nothing comes in its place, or what comes in its place reads the same. -/
theorem slotError_intact_iff {e : Engine} {args : Option Value} {callable : PxCallable}
    {p : CallableZval × ℕ × List Php} {t : Thread} {out : WaitGroup.Outcome PxCallable}
    {cls message : ZStr} {code : Int64}
    (hcall : upToCall e args callable (Thread.start ⟨args, some callable⟩) = .ok (.returned p, t))
    (hthrows : Throws (e.callUserFunction p.1 p.2.2).toEffect (thrownExn cls message code))
    (hout : pxWorkerMain e args callable = .returned out) (classes : ClassTable)
    (task : WaitGroup.Task PxCallable) :
    slotError classes task out = some (.ok (workerError cls message code)) ↔
      (Stands e p t (thrownExn cls message code) ∧ (0 : UInt8) ∉ cls ∧ (0 : UInt8) ∉ message) ∨
      (¬ Stands e p t (thrownExn cls message code) ∧
        ((report e p t).map fun err => pxValueToZval classes (some err)) =
          some (.ok (workerError cls message code))) := by
  rw [slotError_eq, pxWorkerMain_reports hcall hout]
  by_cases hstands : Stands e p t (thrownExn cls message code)
  · rw [hstands.report hthrows, Option.map_some, pxValueToZval_exn]
    refine Iff.trans ?_ (or_iff_left fun h => h.1 hstands).symm
    rw [and_iff_right hstands, ← printed_eq_iff, ← printed_eq_iff]
    constructor
    · intro heq
      obtain ⟨hcls, hmessage, -⟩ := workerError_inj (Except.ok.inj (Option.some.inj heq))
      exact ⟨hcls, hmessage⟩
    · rintro ⟨hcls, hmessage⟩
      exact congrArg (fun z => some (Except.ok z)) (congrArg₂ (workerError · · code) hcls hmessage)
  · exact ((or_iff_right fun h => hstands h.1).trans (and_iff_right hstands)).symm

/-! ### A message with a NUL -/

/-- A thread in which the callable throws and the capture handler is called. -/
def throwingEngine (ex : Exn) : Engine :=
  { returningEngine ⟨plainHeap, .undef⟩ false with
    callUserFunction := fun _ _ => ⟨⟨none, some ex, false⟩, true, ⟨plainHeap, .undef⟩⟩ }

def emptyTask : WaitGroup.Task PxCallable := WaitGroup.Task.spawned ⟨noArgs, some callF⟩

theorem throwingEngine_stands (ex : Exn) (p : CallableZval × ℕ × List Php) {t : Thread}
    (ht : t.captured = none) : Stands (throwingEngine ex) p t ex := by
  refine ⟨ht, fun c hc => ?_, fun hnone => by cases hnone⟩
  rcases List.mem_append.mp hc with hc | hc
  · rcases List.mem_append.mp hc with hc | hc
    · obtain ⟨k, -, rfl⟩ := List.mem_map.mp hc
      rfl
    · rw [List.mem_singleton.mp hc]
      rfl
  · rw [List.mem_singleton.mp hc]
    rfl

theorem slotError_intact_ab : ∃ out,
    pxWorkerMain (throwingEngine (thrownExn (ascii ['E']) (ascii ['a', 'b']) 5)) noArgs callF =
        .returned out ∧
      slotError (fun _ => none) emptyTask out =
        some (.ok (workerError (ascii ['E']) (ascii ['a', 'b']) 5)) := by
  have hrun : pxWorkerMain (throwingEngine (thrownExn (ascii ['E']) (ascii ['a', 'b']) 5)) noArgs
      callF = .returned _ := rfl
  refine ⟨_, hrun, (slotError_intact_iff rfl ⟨rfl, Or.inl rfl⟩ hrun _ _).mpr (Or.inl ⟨?_, ?_, ?_⟩)⟩
  · exact throwingEngine_stands _ _ rfl
  · decide
  · decide

/-- Of the message `"a\0b"` only `"a"` arrives. -/
theorem not_slotError_intact :
    (¬ ∀ (e : Engine) (args : Option Value) (callable : PxCallable)
        (p : CallableZval × ℕ × List Php) (t : Thread) (out : WaitGroup.Outcome PxCallable)
        (cls message : ZStr) (code : Int64),
        upToCall e args callable (Thread.start ⟨args, some callable⟩) = .ok (.returned p, t) →
        Throws (e.callUserFunction p.1 p.2.2).toEffect (thrownExn cls message code) →
        pxWorkerMain e args callable = .returned out → ∀ classes task,
          slotError classes task out = some (.ok (workerError cls message code))) ∧
      ∃ out, pxWorkerMain (throwingEngine (thrownExn (ascii ['E']) [0x61, 0, 0x62] 5)) noArgs
          callF = .returned out ∧
        slotError (fun _ => none) emptyTask out = some (.ok (workerError (ascii ['E']) [0x61] 5)) := by
  have hrun : pxWorkerMain (throwingEngine (thrownExn (ascii ['E']) [0x61, 0, 0x62] 5)) noArgs
      callF = .returned _ := rfl
  refine ⟨fun hall => ?_, _, hrun, rfl⟩
  have heq : some (Except.ok (workerError (ascii ['E']) [0x61] 5)) =
      some (Except.ok (workerError (ascii ['E']) [0x61, 0, 0x62] 5)) :=
    hall _ _ _ _ _ _ _ _ _ rfl ⟨rfl, Or.inl rfl⟩ hrun (fun _ => none) emptyTask
  obtain ⟨-, hmessage, -⟩ := workerError_inj (Except.ok.inj (Option.some.inj heq))
  cases hmessage

end Parallax.Worker
