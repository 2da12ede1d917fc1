import Parallax.Worker.Course
import Parallax.Worker.Ledger

/-! The ledger of a task when its runner has returned, whichever way the runner went: a tree is put
in the task only where there is none, and the callable is freed by whoever shuts the request down. -/
namespace Parallax.Worker.Booked
open Memory Unwind Bridge Ownership
set_option autoImplicit false
set_option maxHeartbeats 250000

/-- Whatever faults there are, the code is left as `Q` says. -/
abbrev Leads {α : Type} (x : Work α) (s : Thread × Ledger)
    (Q : Exit α → Thread × Ledger → Prop) : Prop := Meets x s (fun _ => True) Q

/-! ## Code that does not touch the task -/

/-- However it is left, which is not by a jump, the task is as it was. -/
def KeepsTask {α : Type} (x : Worker.Work α) : Prop :=
  ∀ t, Meets x t (fun _ => True) fun ex u => ex ≠ .jumped ∧ u.task = t.task

section Keeps
variable {α β : Type}

theorem KeepsTask.bind {x : Worker.Work α} {f : α → Worker.Work β} (hx : KeepsTask x)
    (hf : ∀ a, KeepsTask (f a)) : KeepsTask (x >>= f) := by
  refine fun t => (hx t).bind (fun a u hu => ?_) (fun _ hu => absurd rfl hu.1) fun _ hu => ?_
  · exact (hf a u).mono fun _ _ hw => ⟨hw.1, hw.2.trans hu.2⟩
  · exact ⟨(fun h => by cases h), hu.2⟩

theorem keepsTask_pure (a : α) : KeepsTask (pure a : Worker.Work α) := fun _ =>
  meets_pure ⟨(fun h => by cases h), rfl⟩

theorem keepsTask_update {f : Thread → Thread} (h : ∀ t, (f t).task = t.task) :
    KeepsTask (update f) := fun t => meets_update ⟨(fun h => by cases h), h t⟩

theorem keepsTask_call (c : Effect) : KeepsTask (callEngine c) := fun _ =>
  callEngine_meets (fun _ hu _ => ⟨(fun h => by cases h), hu.task⟩)
    fun _ hu _ => ⟨(fun h => by cases h), hu.task⟩

theorem keepsTask_ask (c : Reply α) : KeepsTask (ask c) :=
  (keepsTask_call _).bind fun _ => keepsTask_pure _

theorem keepsTask_callWhen (b : Bool) (c : Effect) : KeepsTask (callWhen b c) := by
  cases b with
  | true => exact keepsTask_call c
  | false => exact keepsTask_pure ()

theorem keepsTask_dtorArgv (e : Engine) (ks : List ℕ) : KeepsTask (dtorArgv e ks) := by
  induction ks with
  | nil => exact keepsTask_pure ()
  | cons k ks ih => exact (keepsTask_call _).bind fun _ => ih

theorem keepsTask_installHandler (e : Engine) : KeepsTask (installHandler e) :=
  (keepsTask_update (f := Thread.setCaptured none) fun _ => rfl).bind fun _ =>
    (keepsTask_call _).bind fun _ => keepsTask_call _

end Keeps

/-! ## How the ledger stands -/

/-- Nothing is recorded. -/
structure Blank (args : Option Value) (s : Thread × Ledger) : Prop where
  result : s.1.task.result = none
  error : s.1.task.error = none
  ledger : s.2 = Ledger.handedOver args

/-- The trees of the ledger are in balance. -/
structure Balanced (args : Option Value) (l : Ledger) : Prop where
  args_eq : l.args = (Ledger.handedOver args).args
  result : l.result.Balanced
  error : l.error.Balanced

/-- Something may be recorded, and there is room for an error as long as there is none. -/
structure Open (args : Option Value) (s : Thread × Ledger) : Prop where
  balanced : Balanced args s.2
  callable : s.2.callable = (Ledger.handedOver args).callable
  error_held : s.1.task.error = none → s.2.error.held = none

section Stand
variable {α β : Type} {args : Option Value} {s u : Thread × Ledger}

theorem Blank.open (h : Blank args s) : Open args s := by
  obtain ⟨-, -, hl⟩ := h
  refine ⟨⟨?_, ?_, ?_⟩, ?_, fun _ => ?_⟩
  · rw [hl]
  · rw [hl]
    exact Owner.start_balanced
  · rw [hl]
    exact Owner.start_balanced
  · rw [hl]
  · rw [hl]
    rfl

/-- The code does not jump, and `P` holds after it. -/
def Stays (P : Thread × Ledger → Prop) : Exit α → Thread × Ledger → Prop
  | .jumped, _ => False
  | _, s => P s

/-- Code that records nothing if it returns. -/
def Before (args : Option Value) : Exit α → Thread × Ledger → Prop
  | .returned _, s => Blank args s
  | _, s => Open args s

/-- Code that does not return. -/
def Leaves (args : Option Value) : Exit α → Thread × Ledger → Prop
  | .returned _, _ => False
  | _, s => Open args s

theorem before_of_leaves {x : Work α} (hx : Leads x s (Leaves args)) : Leads x s (Before args) := by
  refine hx.mono fun ex u hu => ?_
  cases ex with
  | returned a => exact hu.elim
  | jumped => exact hu
  | bailed => exact hu

section Bind
variable {x : Work α} {f : α → Work β} {Q : Exit β → Thread × Ledger → Prop}

theorem blank_bind (hx : Leads x s (Stays (Blank args)))
    (hret : ∀ a u, Blank args u → Leads (f a) u Q) (hbail : ∀ u, Open args u → Q .bailed u) :
    Leads (x >>= f) s Q :=
  hx.bind hret (fun _ hu => hu.elim) fun u hu => hbail u hu.open

theorem open_bind (hx : Leads x s (Stays (Open args)))
    (hret : ∀ a u, Open args u → Leads (f a) u Q) (hbail : ∀ u, Open args u → Q .bailed u) :
    Leads (x >>= f) s Q :=
  hx.bind hret (fun _ hu => hu.elim) hbail

theorem before_bind (hx : Leads x s (Before args))
    (hret : ∀ a u, Blank args u → Leads (f a) u Q) (hjump : ∀ u, Open args u → Q .jumped u)
    (hbail : ∀ u, Open args u → Q .bailed u) : Leads (x >>= f) s Q := hx.bind hret hjump hbail

theorem attempt_bind {y : Except Fault α} (h : ∀ a, Leads (f a) s Q) :
    Leads (attempt y >>= f) s Q :=
  meets_attempt_bind (fun _ _ => trivial) fun a _ => h a

theorem thread_bind {f : Thread → Work β} (h : Leads (f s.1) s Q) : Leads (thread >>= f) s Q := h

theorem setOk_bind {ok : Bool} {f : Unit → Work β} (h : Leads (f ()) (s.1.setOk ok, s.2) Q) :
    Leads (setOk ok >>= f) s Q := h

end Bind

theorem stays_keeping {x : Worker.Work α} {P : Thread × Ledger → Prop} (hx : KeepsTask x)
    (hP : ∀ t : Thread, t.task = s.1.task → P (t, s.2)) : Leads (keeping x) s (Stays P) := by
  refine (hx s.1).keeping fun ex t ht => ?_
  cases ex with
  | returned a => exact hP t ht.2
  | jumped => exact ht.1 rfl
  | bailed => exact hP t ht.2

theorem Blank.of_task {t : Thread} (h : Blank args s) (ht : t.task = s.1.task) :
    Blank args (t, s.2) := by
  refine ⟨?_, ?_, h.ledger⟩
  · rw [ht]
    exact h.result
  · rw [ht]
    exact h.error

theorem blank_keeping {x : Worker.Work α} (hx : KeepsTask x) (h : Blank args s) :
    Leads (keeping x) s (Stays (Blank args)) := stays_keeping hx fun _ ht => h.of_task ht

theorem open_keeping {x : Worker.Work α} (hx : KeepsTask x) (h : Open args s) :
    Leads (keeping x) s (Stays (Open args)) := by
  refine stays_keeping hx fun t ht => ⟨h.balanced, h.callable, fun herror => ?_⟩
  rw [ht] at herror
  exact h.error_held herror

theorem blank_call (c : Effect) (h : Blank args s) : Leads (call c) s (Stays (Blank args)) :=
  blank_keeping (keepsTask_call c) h

theorem open_call (c : Effect) (h : Open args s) : Leads (call c) s (Stays (Open args)) :=
  open_keeping (keepsTask_call c) h

theorem blank_ask (c : Reply α) (h : Blank args s) :
    Leads (keeping (ask c)) s (Stays (Blank args)) := blank_keeping (keepsTask_ask c) h

/-- `task->ok` is not part of it. -/
theorem setOk_blank (h : Blank args s) (ok : Bool) :
    Leads (setOk ok) s (Stays (Blank args)) := by
  show Blank args (s.1.setOk ok, s.2)
  exact ⟨h.result, h.error, h.ledger⟩

/-- The error is set where there is none. -/
theorem setError_open (h : Open args s) (herror : s.1.task.error = none) (v : Value) :
    Leads (setError (some v)) s (Stays (Open args)) := by
  refine meets_update ⟨⟨h.balanced.args_eq, h.balanced.result, ?_⟩, h.callable, fun hnone => ?_⟩
  · exact h.balanced.error.point (h.error_held herror) true
  · cases hnone

end Stand

/-! ## Setting the error -/

section Errors
variable {args : Option Value} {s : Thread × Ledger} (e : Engine)

theorem failWith_open (cls msg : String) (h : Blank args s) :
    Leads (failWith cls msg) s (Stays (Open args)) := by
  refine blank_bind (setOk_blank h false) (fun _ t ht => ?_) fun _ hu => hu
  exact attempt_bind fun err => setError_open ht.open ht.error err

theorem takeCaptured_open (err : Value) (h : Blank args s) :
    Leads (takeCaptured err) s (Stays (Open args)) := by
  refine blank_bind (setOk_blank h false) (fun _ t ht => ?_) fun _ hu => hu
  refine open_bind (setError_open ht.open ht.error err) (fun _ u hu => ?_) fun _ hu => hu
  exact open_keeping (keepsTask_update fun _ => rfl) hu

theorem takeException_open (ex : Exn) (h : Blank args s) :
    Leads (takeException e ex) s (Stays (Open args)) := by
  refine blank_bind (blank_keeping (keepsTask_update fun _ => rfl) h) (fun _ t ht => ?_)
    fun _ hu => hu
  refine blank_bind (setOk_blank ht false) (fun _ u hu => ?_) fun _ hu => hu
  refine blank_bind (blank_call e.readProperties hu) (fun _ w hw => ?_) fun _ hu => hu
  refine attempt_bind fun err => ?_
  refine open_bind (setError_open hw.open hw.error err) (fun _ x hx => ?_) fun _ hu => hu
  exact open_call e.releaseException hx

theorem reportFailure_open (cls msg : String) (h : Blank args s) :
    Leads (reportFailure e cls msg) s (Stays (Open args)) := by
  apply thread_bind
  cases s.1.captured with
  | some err => exact takeCaptured_open err h
  | none =>
    cases s.1.pending with
    | some ex => exact takeException_open e ex h
    | none => exact failWith_open cls msg h

/-- An error is set, and the block is left through a destructor. -/
theorem report_before {α : Type} {report : Work Unit} (c : Effect)
    (h : Leads report s (Stays (Open args))) :
    Leads (do report; call c; jump : Work α) s (Before args) := by
  refine before_of_leaves (open_bind h (fun _ t ht => ?_) fun _ hu => hu)
  exact open_bind (open_call c ht) (fun _ u hu => meets_jump hu) fun _ hu => hu

end Errors

/-! ## Up to the recording -/

section Prefix
variable {args : Option Value} {s : Thread × Ledger} (e : Engine)

theorem compileWrapper_before (h : Blank args s) :
    Leads (compileWrapper e) s (Before args) := by
  refine blank_bind (blank_call e.initSource h) (fun _ t ht => ?_) fun _ hu => hu
  refine blank_bind (blank_ask e.compileString ht) (fun opArray u hu => ?_) fun _ hu => hu
  apply thread_bind
  split
  · refine before_of_leaves (open_bind (reportFailure_open e _ _ hu) (fun _ w hw => ?_)
      fun _ hu => hu)
    exact open_bind (open_keeping (keepsTask_callWhen _ _) hw) (fun _ x hx => meets_jump hx)
      fun _ hu => hu
  · exact meets_pure hu

theorem runWrapper_before (h : Blank args s) : Leads (runWrapper e) s (Before args) := by
  refine blank_bind (blank_ask e.execute h) (fun factory t ht => ?_) fun _ hu => hu
  refine blank_bind (blank_call e.destroyOpArray ht) (fun _ u hu => ?_) fun _ hu => hu
  apply thread_bind
  cases u.1.captured with
  | some err => exact report_before e.dtorFactory (takeCaptured_open err hu)
  | none =>
    cases u.1.pending with
    | some ex => exact report_before e.dtorFactory (takeException_open e ex hu)
    | none =>
      dsimp only
      split
      · exact meets_pure hu
      · refine report_before e.dtorFactory ?_
        exact failWith_open "LogicError" "closure wrapper did not return a Closure" hu

theorem instantiate_before (captures : Option Value) (factory : Returned) (h : Blank args s) :
    Leads (instantiate e captures factory) s (Before args) := by
  refine blank_bind (blank_call e.reifyCaptures h) (fun _ t ht => ?_) fun _ hu => hu
  refine attempt_bind fun cap => ?_
  refine blank_bind (blank_ask (e.callFactory factory cap) ht) (fun ret u hu => ?_) fun _ hu => hu
  refine blank_bind (blank_call e.dtorCaptures hu) (fun _ w hw => ?_) fun _ hu => hu
  refine blank_bind (blank_call e.dtorFactory hw) (fun _ x hx => ?_) fun _ hu => hu
  split
  · exact report_before e.dtorInner (reportFailure_open e _ _ hx)
  · exact meets_pure hx

theorem buildCallable_before (kind : CallKind) (h : Blank args s) :
    Leads (buildCallable e kind) s (Before args) := by
  have hname (callable : CallableZval) :
      Leads (do call e.initName; return callable) s (Before args) :=
    blank_bind (blank_call e.initName h) (fun _ _ hu => meets_pure hu) fun _ hu => hu
  cases kind with
  | function fnName => exact hname _
  | staticMeth className fnName => exact hname _
  | closure wrapper captures =>
    refine before_bind (compileWrapper_before e h) (fun _ t ht => ?_) (fun _ hu => hu)
      fun _ hu => hu
    refine before_bind (runWrapper_before e ht) (fun factory u hu => ?_) (fun _ hu => hu)
      fun _ hu => hu
    exact instantiate_before e captures factory hu

theorem rebuildArgs_before (inp : Option Value) (h : Blank args s) :
    Leads (rebuildArgs e inp) s (Before args) := by
  refine blank_bind (blank_call e.reifyArgs h) (fun _ t ht => ?_) fun _ hu => hu
  refine attempt_bind fun z => ?_
  cases buildArgv z with
  | none =>
    have hfail := failWith_open "LogicError" "task args were not an array" ht
    exact before_of_leaves (open_bind hfail (fun _ u hu => meets_jump hu) fun _ hu => hu)
  | some argv => exact meets_pure ht

theorem invoke_before (inp : Option Value) (kind : CallKind) (h : Blank args s) :
    Leads (invoke e inp kind) s (Before args) := by
  refine before_bind (rebuildArgs_before e inp h) (fun argv t ht => ?_) (fun _ hu => hu)
    fun _ hu => hu
  refine before_bind (buildCallable_before e kind ht) (fun callable u hu => ?_) (fun _ hu => hu)
    fun _ hu => hu
  refine blank_bind (blank_keeping (keepsTask_callWhen _ _) hu) (fun _ w hw => ?_) fun _ hu => hu
  refine blank_bind (blank_ask (e.callUserFunction callable argv.2) hw) (fun ret x hx => ?_)
    fun _ hu => hu
  refine blank_bind (blank_keeping (keepsTask_dtorArgv e _) hx) (fun _ y hy => ?_) fun _ hu => hu
  exact blank_bind (blank_call e.dtorCallable hy) (fun _ z hz => meets_pure hz) fun _ hu => hu

end Prefix

/-! ## The recording -/

section Recording
variable {args : Option Value} {s : Thread × Ledger} (e : Engine)

/-- The result is set where there is none, and the error is not. -/
theorem setResult_open (h : Blank args s) (v : Option Value) :
    Leads (setResult v) s (Stays (Open args)) := by
  have hopen := h.open
  have hnone : s.2.result.held = none := by
    rw [h.ledger]
    rfl
  refine meets_update ⟨⟨hopen.balanced.args_eq, ?_, hopen.balanced.error⟩, hopen.callable,
    hopen.error_held⟩
  exact hopen.balanced.result.point hnone v.isSome

theorem dropResult_open (h : Open args s) : Leads dropResult s (Stays (Open args)) := by
  refine meets_update ⟨⟨h.balanced.args_eq, ?_, h.balanced.error⟩, h.callable, h.error_held⟩
  exact h.balanced.result.drop

theorem storeResult_open (retval : Returned) (h : Blank args s) :
    Leads (storeResult e retval) s (Stays (Open args)) := by
  unfold storeResult
  rcases pxZvalToValue retval.heap retval.zv with (f | x) | v
  · exact trivial
  · refine blank_bind (blank_call e.throwCaptureError h) (fun _ u hu => ?_) fun _ hu => hu
    exact setResult_open hu none
  · exact setResult_open h (some v)

theorem recordOutcome_open (rc : Bool) (retval : Returned) (h : Blank args s) :
    Leads (recordOutcome e rc retval) s (Stays (Open args)) := by
  apply thread_bind
  cases s.1.captured with
  | some err =>
    exact open_bind (takeCaptured_open err h) (fun _ u hu => dropResult_open hu) fun _ hu => hu
  | none =>
    cases s.1.pending with
    | some ex => exact takeException_open e ex h
    | none =>
      cases rc with
      | true =>
        refine blank_bind (setOk_blank h true) (fun _ t ht => ?_) fun _ hu => hu
        refine open_bind (storeResult_open e retval ht) (fun _ u hu => ?_) fun _ hu => hu
        exact open_call e.dtorRetval hu
      | false => exact failWith_open "RuntimeException" "call_user_function failed" h

theorem tryBody_open (inp : Option Value) (kind : CallKind) (h : Blank args s) :
    Leads (tryBody e inp kind) s fun _ => Open args := by
  refine before_bind (invoke_before e inp kind h) (fun ret t ht => ?_) (fun _ hu => hu)
    fun _ hu => hu
  refine blank_bind (blank_call e.dtorArgs ht) (fun _ u hu => ?_) fun _ hu => hu
  refine (recordOutcome_open e ret.1 ret.2 hu).mono fun ex w hw => ?_
  cases ex with
  | returned a => exact hw
  | jumped => exact hw.elim
  | bailed => exact hw

theorem catchBody_open (h : Open args s) :
    Leads catchBody s fun ex u => ex = .returned () ∧ Open args u := by
  have hok : Open args (s.1.setOk false, s.2) := ⟨h.balanced, h.callable, h.error_held⟩
  apply setOk_bind
  apply thread_bind
  cases herror : (s.1.setOk false).task.error with
  | none =>
    refine attempt_bind fun err => meets_update ⟨rfl, ?_⟩
    exact (setError_open hok herror err : Open args _)
  | some err => exact ⟨rfl, hok⟩

end Recording

/-! ## worker_main_thread -/

section Main
variable {args : Option Value} {s : Thread × Ledger} (e : Engine)

/-- Outside of the `zend_try` a bailout ends the process. -/
def Returns {α : Type} (P : α → Thread × Ledger → Prop) : Exit α → Thread × Ledger → Prop
  | .returned a, u => P a u
  | .jumped, _ => False
  | .bailed, _ => True

theorem bootstrap_returns (path : Option ZStr) (h : Blank args s) :
    Leads (bootstrap e path) s
      (Returns fun failed u => if failed then Open args u else Blank args u) := by
  cases path with
  | none => exact meets_pure h
  | some file =>
    refine blank_bind (blank_call e.streamInit h) (fun _ t ht => ?_) fun _ _ => trivial
    have hscripts : Leads (catching (call e.executeScripts) (pure ())) t
        fun ex u => ex = .returned () ∧ Blank args u :=
      (blank_call e.executeScripts ht).catching (fun _ hu => hu) (fun _ hu => hu.elim)
        fun _ hu => meets_pure ⟨rfl, hu⟩
    refine hscripts.bind (fun _ u hu => ?_) (fun _ hu => by cases hu.1) fun _ hu => trivial
    refine blank_bind (blank_call e.destroyFileHandle hu.2) (fun _ w hw => ?_) fun _ _ => trivial
    apply thread_bind
    cases w.1.pending with
    | none => exact meets_pure hw
    | some ex =>
      exact open_bind (takeException_open e ex hw) (fun _ x hx => meets_pure hx)
        fun _ _ => trivial

/-- The trees are in balance, and the callable was freed once. -/
structure Closed (args : Option Value) (l : Ledger) : Prop where
  balanced : Balanced args l
  callable : l.callable.released = [0]

theorem shutdown_returns (h : Open args s) :
    Leads (shutdown e) s (Returns fun _ u => Closed args u.2) := by
  refine open_bind (open_call e.requestShutdown h) (fun _ t ht => ?_) fun _ _ => trivial
  refine open_bind (open_call e.freeThread ht) (fun _ u hu => ?_) fun _ _ => trivial
  refine meets_update ⟨⟨hu.balanced.args_eq, hu.balanced.result, hu.balanced.error⟩, ?_⟩
  show u.2.callable.released ++ u.2.callable.held.toList = [0]
  rw [hu.callable]
  rfl

/-- The ledger when the runner returns: the callable is still to be freed where the request did not
start. -/
def Ending (args : Option Value) (l : Ledger) : Prop :=
  if e.requestStartup.value then Closed args l
  else Balanced args l ∧ l.callable.released = []

theorem Ending.balanced {l : Ledger} (h : Ending e args l) : Balanced args l := by
  unfold Ending at h
  split at h
  · exact h.balanced
  · exact h.1

theorem Ending.callable_iff {l : Ledger} (h : Ending e args l) :
    l.callable.released = [0] ↔ e.requestStartup.value = true := by
  unfold Ending at h
  cases hstarted : e.requestStartup.value with
  | true =>
    rw [hstarted, if_pos rfl] at h
    exact iff_of_true h.callable rfl
  | false =>
    rw [hstarted, if_neg Bool.false_ne_true] at h
    rw [h.2]
    exact iff_of_false (fun hone => by cases hone) Bool.false_ne_true

/-- The answer is the engine's. -/
theorem ask_returns {α : Type} (c : Reply α) (h : Blank args s) :
    Leads (keeping (ask c)) s fun ex u => Stays (Blank args) ex u ∧
      ∀ a, ex = .returned a → a = c.value := by
  have hask : Meets (ask c) s.1 (fun _ => True) fun ex t => (ex ≠ .jumped ∧ t.task = s.1.task) ∧
      ∀ a, ex = .returned a → a = c.value :=
    (keepsTask_call c.toEffect s.1).bind
      (fun _ t ht => meets_pure ⟨⟨(fun h => by cases h), ht.2⟩, fun a ha => by cases ha; rfl⟩)
      (fun _ ht => absurd rfl ht.1) fun _ ht => ⟨⟨(fun h => by cases h), ht.2⟩, fun _ h => by cases h⟩
  refine hask.keeping fun ex t ht => ⟨?_, ht.2⟩
  have hblank := h.of_task ht.1.2
  cases ex with
  | returned a => exact hblank
  | jumped => exact ht.1.1 rfl
  | bailed => exact hblank

theorem workerMainThread_returns (inp : Option Value) (callable : PxCallable)
    (h : Blank args s) : Leads (workerMainThread e inp callable) s
      (Returns fun _ u => Ending e args u.2) := by
  refine blank_bind (blank_call e.tsResource h) (fun _ t ht => ?_) fun _ _ => trivial
  refine (ask_returns e.requestStartup ht).bind (fun started u hu => ?_) (fun _ hu => hu.1.elim)
    fun _ _ => trivial
  have hblank : Blank args u := hu.1
  rw [hu.2 started rfl]
  unfold Ending
  cases e.requestStartup.value with
  | false =>
    have hfail := failWith_open "RuntimeException" "php_request_startup failed" hblank
    refine hfail.mono fun ex w hw => ?_
    cases ex with
    | returned a =>
      refine ⟨Open.balanced hw, ?_⟩
      rw [Open.callable hw]
      rfl
    | jumped => exact hw
    | bailed => trivial
  | true =>
    refine (bootstrap_returns e callable.bootstrap hblank).bind (fun failed w hw => ?_)
      (fun _ hw => hw) fun _ _ => trivial
    cases failed with
    | true => exact shutdown_returns e hw
    | false =>
      refine blank_bind (blank_keeping (keepsTask_installHandler e) hw) (fun _ x hx => ?_)
        fun _ _ => trivial
      have hcatch : Leads (catching (tryBody e inp callable.kind) catchBody) x
          fun ex u => ex = .returned () ∧ Open args u :=
        (tryBody_open e inp callable.kind hx).catching (fun _ hu => hu) (fun _ hu => hu)
          fun _ hu => catchBody_open hu
      refine hcatch.bind (fun _ y hy => shutdown_returns e hy.2) (fun _ hy => by cases hy.1)
        fun _ _ => trivial

end Main

/-- However the runner went, when it returns the trees of the task are in balance, and the callable
was freed once exactly if the request had started. -/
theorem pxWorkerMain_ending {e : Engine} {args : Option Value} {callable : PxCallable}
    {out : WaitGroup.Outcome PxCallable} {l : Ledger}
    (h : pxWorkerMain e args callable (Ledger.handedOver args) = some (out, l)) :
    Ending e args l := by
  have hstart : Blank args (Thread.start ⟨args, some callable⟩, Ledger.handedOver args) :=
    ⟨rfl, rfl, rfl⟩
  have hleads := workerMainThread_returns e args callable hstart
  unfold Leads Meets at hleads
  unfold pxWorkerMain at h
  split at h
  · cases h
  · cases h
  · next ex t l' hne hrun =>
    rw [hrun] at hleads
    cases h
    cases ex with
    | returned a => exact hleads
    | jumped => exact False.elim hleads
    | bailed => exact (hne rfl).elim

end Parallax.Worker.Booked
