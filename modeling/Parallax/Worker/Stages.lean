import Parallax.Worker.Outcome

/-! The stages of the runner up to the call of the user's callable, and when a stage that fails is
the last one. A stage is what the runner does from one point at which it decides whether to go on to
the next. -/
namespace Parallax.Worker
open Memory Unwind Bridge
set_option autoImplicit false
set_option maxHeartbeats 250000

/-! ## The stages -/

inductive Stage
  | startup
  | bootstrap
  | args
  | compile
  | execute
  | factory
deriving DecidableEq

def Stage.before : Stage → List Stage
  | .startup => []
  | .bootstrap => [.startup]
  | .args => [.startup, .bootstrap]
  | .compile => [.startup, .bootstrap, .args]
  | .execute => [.startup, .bootstrap, .args, .compile]
  | .factory => [.startup, .bootstrap, .args, .compile, .execute]

/-- The class and message of the error of a stage whose own check has failed. -/
def Stage.failure : Stage → Option (String × String)
  | .startup => some ("RuntimeException", "php_request_startup failed")
  | .bootstrap => none
  | .args => some ("LogicError", "task args were not an array")
  | .compile => some ("CompileError", "closure source failed to compile")
  | .execute => some ("LogicError", "closure wrapper did not return a Closure")
  | .factory => some ("LogicError", "closure factory invocation failed")

/-- The call returns, with no exception pending and none handed to the capture handler. -/
def Effect.Clean (c : Effect) : Prop := c.bails = false ∧ c.pending = none ∧ c.recorded = none

section Stages
variable (e : Engine) (args : Option Value) (callable : PxCallable)

def stage : Stage → Work Unit
  | .startup => do
    callEngine e.tsResource
    let started ← ask e.requestStartup
    if started then pure ()
    else
      failWith "RuntimeException" "php_request_startup failed"
      jump
  | .bootstrap => do
    let failed ← bootstrap e callable.bootstrap
    if failed then jump else installHandler e
  | .args => do
    let _ ← rebuildArgs e args
    pure ()
  | .compile =>
    match callable.kind with
    | .closure _ _ => compileWrapper e
    | _ => pure ()
  | .execute =>
    match callable.kind with
    | .closure _ _ => do
      let _ ← runWrapper e
      pure ()
    | _ => pure ()
  | .factory =>
    match callable.kind with
    | .closure _ captures => do
      let _ ← instantiate e captures e.execute.value
      pure ()
    | _ => pure ()

def runStages : List Stage → Work Unit
  | [] => pure ()
  | k :: rest => do
    stage e args callable k
    runStages rest

/-- The calls of a stage, in their order. -/
def calls : Stage → List Effect
  | .startup => [e.tsResource, e.requestStartup.toEffect]
  | .bootstrap =>
    (if callable.bootstrap.isSome then [e.streamInit, e.executeScripts, e.destroyFileHandle]
      else []) ++ [e.initHandlerName, e.dtorHandler]
  | .args => [e.reifyArgs]
  | .compile =>
    match callable.kind with
    | .closure _ _ => [e.initSource, e.compileString.toEffect]
    | _ => []
  | .execute =>
    match callable.kind with
    | .closure _ _ => [e.execute.toEffect, e.destroyOpArray]
    | _ => []
  | .factory =>
    match callable.kind with
    | .closure _ captures => e.reifyCaptures ::
      match pxValueToZval e.classes captures with
      | .ok cap => [(e.callFactory e.execute.value cap).toEffect, e.dtorCaptures, e.dtorFactory]
      | .error _ => []
    | _ => []

/-- What a stage must come to, by the return codes and the values of its calls. -/
def Check : Stage → Prop
  | .startup => e.requestStartup.value = true
  | .bootstrap => True
  | .args => ∃ z argv, pxValueToZval e.classes args = .ok z ∧ buildArgv z = some argv
  | .compile => ∀ w captures, callable.kind = .closure w captures → e.compileString.value = true
  | .execute => ∀ w captures, callable.kind = .closure w captures →
      e.execute.value.isClosure = true
  | .factory => ∀ w captures, callable.kind = .closure w captures →
      ∃ cap, pxValueToZval e.classes captures = .ok cap ∧
        (e.callFactory e.execute.value cap).value.1 = true ∧
        (e.callFactory e.execute.value cap).value.2.isObject = true

def Completes (k : Stage) : Prop :=
  (∀ c ∈ calls e callable k, c.Clean) ∧ Check e args callable k

def FirstFailure (k : Stage) : Prop :=
  (∀ j ∈ k.before, Completes e args callable j) ∧ ¬ Completes e args callable k

/-- The run goes on after the stage. -/
def Passes (k : Stage) : Prop :=
  ∃ u, runStages e args callable (k.before ++ [k]) (Thread.start ⟨args, some callable⟩) =
    .ok (.returned (), u)

def textError (cls msg : String) : Except Fault Value :=
  valueErr (cstr (ascii cls.toList)) (cstr (ascii msg.toList)) 0 (cstr [])

/-- The error is an exception that a call of the stage has left, the text for the check that it
fails, or the one for a bailout, of a call of the stage or in reading the exception. -/
inductive CausedBy (k : Stage) (err : Value) : Prop
  | exception {c : Effect} {ex : Exn} (hc : c ∈ calls e callable k)
      (hex : c.pending = some ex ∨ c.recorded = some ex) (herr : exceptionToValue ex = .ok err)
  | check {cls msg : String} (hk : k.failure = some (cls, msg)) (hcheck : ¬ Check e args callable k)
      (herr : textError cls msg = .ok err)
  | bailout {c : Effect} (hc : c ∈ calls e callable k ∨ c = e.readProperties)
      (hb : c.bails = true) (herr : textError "Error" "bailout during worker execution" = .ok err)

/-- The `zend_try` block up to the call of the callable, with what it is called on. -/
def prepare (kind : CallKind) : Work (CallableZval × ℕ × List Php) := do
  let argv ← rebuildArgs e args
  let c ← buildCallable e kind
  callWhen (0 < argv.1) e.allocArgv
  return (c, argv)

def upToCall : Work (CallableZval × ℕ × List Php) := do
  stage e args callable .startup
  stage e args callable .bootstrap
  prepare e args callable.kind

def Invoked : Prop :=
  ∃ p u, upToCall e args callable (Thread.start ⟨args, some callable⟩) = .ok (.returned p, u)

/-- The callable is called only when all stages have completed, and the first one that does not
complete is the last one that is run, and is where the error comes from. -/
structure ShortCircuits : Prop where
  completes : Invoked e args callable → ∀ k, Completes e args callable k
  stops : ∀ k, FirstFailure e args callable k → ¬ Passes e args callable k ∧
    ∃ out err, pxWorkerMain e args callable = .returned out ∧ out.ok = false ∧
      out.error = some err ∧ CausedBy e args callable k err

/-- The runner notices that the stage has failed. -/
def Caught : Stage → Prop
  | .startup => e.tsResource.bails = false ∧ e.requestStartup.bails = false ∧
      e.requestStartup.value = false
  | .bootstrap => callable.bootstrap.isSome ∧ e.streamInit.bails = false ∧
      e.destroyFileHandle.bails = false ∧ e.destroyFileHandle.pending.isSome ∧
      e.readProperties.bails = false ∧ e.releaseException.bails = false
  | .args => e.reifyArgs.bails = true ∨
      ∃ z, pxValueToZval e.classes args = .ok z ∧ buildArgv z = none
  | .compile => ∃ w captures, callable.kind = .closure w captures ∧
      (e.initSource.bails = true ∨ e.compileString.bails = true ∨
        e.compileString.value = false ∨ e.compileString.pending.isSome)
  | .execute => ∃ w captures, callable.kind = .closure w captures ∧
      (e.execute.bails = true ∨ e.destroyOpArray.bails = true ∨ e.execute.recorded.isSome ∨
        e.destroyOpArray.recorded.isSome ∨ e.destroyOpArray.pending.isSome ∨
        e.execute.value.isClosure = false)
  | .factory => ∃ w captures, callable.kind = .closure w captures ∧
      (e.reifyCaptures.bails = true ∨
        ∃ cap, pxValueToZval e.classes captures = .ok cap ∧
          ((e.callFactory e.execute.value cap).bails = true ∨ e.dtorCaptures.bails = true ∨
            e.dtorFactory.bails = true ∨ (e.callFactory e.execute.value cap).value.1 = false ∨
            (e.callFactory e.execute.value cap).value.2.isObject = false))

def Quits : Prop := e.requestShutdown.bails = false ∧ e.freeThread.bails = false

/-- The runner notices that the stage has failed, and its request comes to an end. -/
def Stops (k : Stage) : Prop := Caught e args callable k ∧ (k ≠ .startup → Quits e)

end Stages

/-! ## The calls of a stage -/

section Calls
variable {E : Fault → Prop} {e : Engine} {args : Option Value} {callable : PxCallable}
  {t : Thread} {k : Stage} {cs : List Effect}

/-- The calls `cs` have been made since the thread was last clean, and have returned. -/
structure Made (cs : List Effect) (t : Thread) : Prop where
  error : t.task.error = none
  pending : t.pending = cs.getLast?.bind Effect.pending
  returned : ∀ c ∈ cs, c.bails = false
  unrecorded : t.captured = none → ∀ c ∈ cs, c.recorded = none
  parked : ∀ err, t.captured = some err →
    ∃ c ∈ cs, ∃ ex, c.recorded = some ex ∧ exceptionToValue ex = .ok err

theorem Made.clean (h : Made cs t) (hcs : ∀ c ∈ cs, c.Clean) : Made [] t := by
  have hpending : t.pending = none := by
    rw [h.pending]
    cases hlast : cs.getLast? with
    | none => rfl
    | some c => exact (hcs c (List.mem_of_getLast? hlast)).2.1
  have hcaptured : t.captured = none := by
    cases hcap : t.captured with
    | none => rfl
    | some err =>
      obtain ⟨c, hc, ex, hex, -⟩ := h.parked err hcap
      rw [(hcs c hc).2.2] at hex
      cases hex
  exact ⟨h.error, hpending, by simp, by simp, by simp [hcaptured]⟩

theorem made_call {c : Effect} (h : Made cs t) : Meets (callEngine c) t E fun ex u =>
    u.task = t.task ∧
      match ex with
      | .returned _ => Made (cs ++ [c]) u
      | .jumped => False
      | .bailed => c.bails = true := by
  have hend : ∀ v : Option Value,
      (v = none → ∀ c' ∈ cs ++ [c], c'.recorded = none) →
      (∀ err, v = some err →
        ∃ c' ∈ cs ++ [c], ∃ ex, c'.recorded = some ex ∧ exceptionToValue ex = .ok err) →
      Meets (do update (Thread.setPending c.pending); if c.bails then bail else pure () :
          Work Unit) (t.setCaptured v) E fun ex u => u.task = t.task ∧
        match ex with
        | .returned _ => Made (cs ++ [c]) u
        | .jumped => False
        | .bailed => c.bails = true := by
    intro v hnone hsome
    apply meets_update_bind
    split
    · next hb => exact meets_bail ⟨rfl, hb⟩
    · next hb =>
      refine meets_pure ⟨rfl, h.error, ?_, ?_, hnone, hsome⟩
      · simp [Thread.setPending]
      · simp only [List.mem_append, List.mem_singleton]
        rintro c' (hc' | rfl)
        · exact h.returned c' hc'
        · simpa using hb
  unfold callEngine
  cases hr : c.recorded with
  | none =>
    apply hend t.captured
    · intro hcap
      simp only [List.mem_append, List.mem_singleton]
      rintro c' (hc' | rfl)
      · exact h.unrecorded hcap c' hc'
      · exact hr
    · intro err hcap
      obtain ⟨c', hc', hex⟩ := h.parked err hcap
      exact ⟨c', List.mem_append_left _ hc', hex⟩
  | some ex =>
    apply meets_current_bind
    cases hcap : t.captured with
    | none =>
      obtain ⟨v, hv⟩ := exceptionToValue_ok ex
      rw [captureException, hv]
      refine hend (some v) (by simp) fun err herr => ⟨c, by simp, ex, hr, ?_⟩
      rw [hv, Option.some.inj herr]
    | some err =>
      refine hend (some err) (by simp) fun err' herr => ?_
      obtain ⟨c', hc', hex⟩ := h.parked err' (hcap.trans herr)
      exact ⟨c', List.mem_append_left _ hc', hex⟩

theorem made_call_bind {β : Type} {c : Effect} {f : Unit → Work β} {Q : Exit β → Thread → Prop}
    (h : Made cs t) (hret : ∀ u, Made (cs ++ [c]) u → Meets (f ()) u E Q)
    (hbail : ∀ u, u.task = t.task → c.bails = true → Q .bailed u) :
    Meets (callEngine c >>= f) t E Q :=
  (made_call h).bind (fun _ u hu => hret u hu.2) (fun _ hu => hu.2.elim) fun u hu =>
    hbail u hu.1 hu.2

theorem made_ask_bind {α β : Type} {c : Reply α} {f : α → Work β} {Q : Exit β → Thread → Prop}
    (h : Made cs t) (hret : ∀ u, Made (cs ++ [c.toEffect]) u → Meets (f c.value) u E Q)
    (hbail : ∀ u, u.task = t.task → c.bails = true → Q .bailed u) :
    Meets (ask c >>= f) t E Q := by
  rw [ask_bind]
  exact made_call_bind h hret hbail

end Calls

/-! ## The error of a stage -/

section Blame
variable {E : Fault → Prop} {e : Engine} {args : Option Value} {callable : PxCallable}
  {t : Thread} {k : Stage} {cs : List Effect}

def Blamed (e : Engine) (args : Option Value) (callable : PxCallable) (k : Stage) (t : Thread) :
    Prop :=
  t.task.ok = false ∧ ∃ err, t.task.error = some err ∧ CausedBy e args callable k err

/-- What the handler of the block turns into an error of the stage. -/
def Blames (e : Engine) (args : Option Value) (callable : PxCallable) (k : Stage) (t : Thread) :
    Prop :=
  (t.task.error = none ∧ ∃ c, (c ∈ calls e callable k ∨ c = e.readProperties) ∧ c.bails = true) ∨
    ∃ err, t.task.error = some err ∧ CausedBy e args callable k err

theorem Blamed.blames (h : Blamed e args callable k t) : Blames e args callable k t := .inr h.2

/-- How code that sets the error of the stage is left. -/
def Blaming (e : Engine) (args : Option Value) (callable : PxCallable) (k : Stage) :
    Exit Unit → Thread → Prop
  | .returned _, u => Blamed e args callable k u
  | .jumped, _ => False
  | .bailed, u => Blames e args callable k u

theorem textError_ok (cls msg : String) : ∃ err, textError cls msg = .ok err :=
  valueErr_ok 0 (dupCstr_cstr_ok _) (dupCstr_cstr_ok _) (dupCstr_cstr_ok [])

theorem failWith_blamed {cls msg : String} (hk : k.failure = some (cls, msg))
    (hcheck : ¬ Check e args callable k) :
    Meets (failWith cls msg) t E fun ex u => ex = .returned () ∧ Blamed e args callable k u := by
  obtain ⟨err, herr⟩ := textError_ok cls msg
  unfold failWith
  rw [← textError, herr]
  exact ⟨rfl, rfl, err, rfl, .check hk hcheck herr⟩

theorem failWith_blaming {cls msg : String} (hk : k.failure = some (cls, msg))
    (hcheck : ¬ Check e args callable k) :
    Meets (failWith cls msg) t E (Blaming e args callable k) := by
  apply (failWith_blamed hk hcheck).mono
  rintro _ u ⟨rfl, hu⟩
  exact hu

theorem takeCaptured_blaming (hmade : Made cs t) (hcs : ∀ c ∈ cs, c ∈ calls e callable k)
    {err : Value} (hcap : t.captured = some err) :
    Meets (takeCaptured err) t E (Blaming e args callable k) := by
  obtain ⟨c, hc, ex, hex, herr⟩ := hmade.parked err hcap
  exact ⟨rfl, err, rfl, .exception (hcs c hc) (.inr hex) herr⟩

theorem takeException_blaming {c : Effect} {ex : Exn} (herror : t.task.error = none)
    (hc : c ∈ calls e callable k) (hex : c.pending = some ex) :
    Meets (takeException e ex) t E fun x u => Blaming e args callable k x u ∧
      (x = .returned () ↔ e.readProperties.bails = false ∧ e.releaseException.bails = false) := by
  obtain ⟨err, herr⟩ := exceptionToValue_ok ex
  have hcause : CausedBy e args callable k err := .exception hc (.inl hex) herr
  unfold takeException
  rw [herr]
  apply meets_update_bind
  apply meets_update_bind
  apply call_bind
  · intro u hu hread
    apply meets_ok_bind
    apply meets_update_bind
    have htask : ∀ w, Called e.releaseException (u.setError (some err)) w →
        Blamed e args callable k w := by
      intro w hw
      refine ⟨?_, err, ?_, hcause⟩
      · rw [hw.task]
        change u.task.ok = false
        rw [hu.task]
        rfl
      · rw [hw.task]
        rfl
    apply callEngine_meets
    · exact fun w hw hb => ⟨htask w hw, iff_of_true rfl ⟨hread, hb⟩⟩
    · exact fun w hw hb => ⟨(htask w hw).blames, by simp [hb]⟩
  · intro u hu hb
    refine ⟨.inl ⟨?_, e.readProperties, .inr rfl, hb⟩, by simp [hb]⟩
    rw [hu.task]
    exact herror

theorem takePending_blaming (hmade : Made cs t) (hcs : ∀ c ∈ cs, c ∈ calls e callable k) {ex : Exn}
    (hp : t.pending = some ex) : Meets (takeException e ex) t E (Blaming e args callable k) := by
  rw [hmade.pending, Option.bind_eq_some_iff] at hp
  obtain ⟨c, hc, hex⟩ := hp
  have hcall := hcs c (List.mem_of_getLast? hc)
  exact (takeException_blaming hmade.error hcall hex).mono fun _ _ h => h.1

theorem reportFailure_blaming {cls msg : String} (hmade : Made cs t)
    (hcs : ∀ c ∈ cs, c ∈ calls e callable k) (hk : k.failure = some (cls, msg))
    (hcheck : t.pending = none → ¬ Check e args callable k) :
    Meets (reportFailure e cls msg) t E (Blaming e args callable k) := by
  apply meets_current_bind
  cases hcap : t.captured with
  | some err => exact takeCaptured_blaming hmade hcs hcap
  | none =>
    cases hp : t.pending with
    | some ex => exact takePending_blaming hmade hcs hp
    | none => exact failWith_blaming hk (hcheck hp)

theorem blaming_call (c : Effect) (h : Blamed e args callable k t) :
    Meets (callEngine c) t E (Blaming e args callable k) := by
  have htask : ∀ u, Called c t u → Blamed e args callable k u := by
    intro u hu
    unfold Blamed
    rw [hu.task]
    exact h
  apply callEngine_meets
  · exact fun u hu _ => htask u hu
  · exact fun u hu _ => (htask u hu).blames

theorem blaming_callWhen (b : Bool) (c : Effect) (h : Blamed e args callable k t) :
    Meets (callWhen b c) t E (Blaming e args callable k) := by
  cases b with
  | true => exact blaming_call c h
  | false => exact meets_pure h

end Blame

/-! ## How each stage is left -/

section Leaving
variable {e : Engine} {args : Option Value} {callable : PxCallable} {t : Thread} {k : Stage}

/-- The stages that stand in the `zend_try`. -/
def Stage.guarded : Stage → Bool
  | .startup | .bootstrap => false
  | _ => true

def Leaves {α : Type} (e : Engine) (args : Option Value) (callable : PxCallable) (k : Stage) :
    Exit α → Thread → Prop
  | .returned _, u => ¬ Caught e args callable k ∧ (Completes e args callable k → Made [] u)
  | .jumped, u => ¬ Completes e args callable k ∧ Caught e args callable k ∧
      Blamed e args callable k u
  | .bailed, u => ¬ Completes e args callable k ∧
      if k.guarded then Caught e args callable k ∧ Blames e args callable k u
      else ¬ Caught e args callable k

def Crashes (e : Engine) (args : Option Value) (callable : PxCallable) (k : Stage) (_ : Fault) :
    Prop :=
  ¬ Completes e args callable k ∧ ¬ Caught e args callable k

abbrev MeetsLeaves {α : Type} (e : Engine) (args : Option Value) (callable : PxCallable)
    (k : Stage) (x : Work α) (t : Thread) : Prop :=
  Meets x t (Crashes e args callable k) (Leaves e args callable k)

theorem leaves_pure (h : Made [] t) (hcaught : ¬ Caught e args callable k) :
    MeetsLeaves e args callable k (pure () : Work Unit) t := meets_pure ⟨hcaught, fun _ => h⟩

theorem leaves_discard {α : Type} {x : Work α} (hx : MeetsLeaves e args callable k x t) :
    MeetsLeaves e args callable k (do let _ ← x; pure () : Work Unit) t :=
  hx.bind (fun _ _ hu => meets_pure hu) (fun _ hu => hu) fun _ hu => hu

theorem not_completes_of_bails {c : Effect} (hc : c ∈ calls e callable k) (hb : c.bails = true) :
    ¬ Completes e args callable k := by
  intro h
  have := (h.1 c hc).1
  simp [hb] at this

theorem not_completes_of_pending {c : Effect} (hc : c ∈ calls e callable k)
    (hp : c.pending.isSome) : ¬ Completes e args callable k := by
  intro h
  simp [(h.1 c hc).2.1] at hp

theorem not_completes_of_recorded {c : Effect} (hc : c ∈ calls e callable k)
    (hr : c.recorded.isSome) : ¬ Completes e args callable k := by
  intro h
  simp [(h.1 c hc).2.2] at hr

theorem leaves_of_bails {α : Type} {c : Effect} {cs : List Effect} (hmade : Made cs t)
    (hc : c ∈ calls e callable k) {u : Thread} (hu : u.task = t.task) (hb : c.bails = true)
    (hcaught : Caught e args callable k ↔ k.guarded = true) :
    Leaves e args callable k (.bailed : Exit α) u := by
  refine ⟨not_completes_of_bails hc hb, ?_⟩
  split
  · next hk => exact ⟨hcaught.mpr hk, .inl ⟨hu ▸ hmade.error, c, .inl hc, hb⟩⟩
  · next hk => exact fun h => hk (hcaught.mp h)

/-- The end of a stage that has noticed its failure. -/
theorem leaves_of_blaming {α : Type} {x tail : Work Unit} (hk : k.guarded = true)
    (hnot : ¬ Completes e args callable k) (hcaught : Caught e args callable k)
    (hx : Meets x t (Crashes e args callable k) (Blaming e args callable k))
    (htail : ∀ u, Blamed e args callable k u →
      Meets tail u (Crashes e args callable k) (Blaming e args callable k)) :
    MeetsLeaves e args callable k (do x; tail; jump : Work α) t := by
  have hbailed : ∀ u, Blames e args callable k u →
      Leaves e args callable k (.bailed : Exit α) u := by
    intro u hu
    refine ⟨hnot, ?_⟩
    rw [if_pos hk]
    exact ⟨hcaught, hu⟩
  apply hx.bind
  · intro _ u hu
    apply (htail u hu).bind
    · exact fun _ w hw => meets_jump ⟨hnot, hcaught, hw⟩
    · exact fun _ hw => hw.elim
    · exact hbailed
  · exact fun _ hu => hu.elim
  · exact hbailed

theorem startup_leaves (h : Made [] t) :
    MeetsLeaves e args callable .startup (stage e args callable .startup) t := by
  apply made_call_bind h
  · intro u hu
    apply made_ask_bind hu
    · intro w hw
      have hts : e.tsResource.bails = false := hw.returned _ (by simp)
      have hrs : e.requestStartup.bails = false := hw.returned _ (by simp)
      cases hv : e.requestStartup.value with
      | true => exact meets_pure ⟨by simp [Caught, hv], fun hc => hw.clean hc.1⟩
      | false =>
        have hcheck : ¬ Check e args callable .startup := by simp [Check, hv]
        apply (failWith_blamed rfl hcheck).bind
        · exact fun _ x hx => meets_jump ⟨fun hc => hcheck hc.2, ⟨hts, hrs, hv⟩, hx.2⟩
        · exact fun _ hx => nomatch hx.1
        · exact fun _ hx => nomatch hx.1
    · intro w hw hb
      exact leaves_of_bails (c := e.requestStartup.toEffect) hu (by simp [calls]) hw hb
        (by simp [Stage.guarded, Caught, hb])
  · intro u hu hb
    exact leaves_of_bails (c := e.tsResource) h (by simp [calls]) hu hb
      (by simp [Stage.guarded, Caught, hb])

theorem installHandler_leaves (herror : t.task.error = none)
    (hcaught : ¬ Caught e args callable .bootstrap) :
    MeetsLeaves e args callable .bootstrap (installHandler e) t := by
  have hname : e.initHandlerName ∈ calls e callable .bootstrap := by simp [calls]
  have hdtor : e.dtorHandler ∈ calls e callable .bootstrap := by simp [calls]
  apply meets_update_bind
  apply call_bind
  · intro u hu _
    apply callEngine_meets
    · intro w hw _
      refine ⟨hcaught, fun hc => ⟨?_, ?_, by simp, by simp, ?_⟩⟩
      · rw [hw.task, hu.task]
        exact herror
      · rw [hw.pending]
        exact (hc.1 _ hdtor).2.1
      · have hnone : w.captured = none :=
          hw.captured.mpr ⟨hu.captured.mpr ⟨rfl, (hc.1 _ hname).2.2⟩, (hc.1 _ hdtor).2.2⟩
        simp [hnone]
    · exact fun _ _ hb => ⟨not_completes_of_bails hdtor hb, hcaught⟩
  · exact fun _ _ hb => ⟨not_completes_of_bails hname hb, hcaught⟩

theorem bootstrap_stage (path : Option ZStr) (hpath : callable.bootstrap = path)
    (herror : t.task.error = none) :
    Meets (bootstrap e path) t (Crashes e args callable .bootstrap) fun ex u =>
      match ex with
      | .returned false => u.task.error = none ∧ ¬ Caught e args callable .bootstrap
      | .returned true => ¬ Completes e args callable .bootstrap ∧
          Caught e args callable .bootstrap ∧ Blamed e args callable .bootstrap u
      | .jumped => False
      | .bailed => ¬ Completes e args callable .bootstrap ∧
          ¬ Caught e args callable .bootstrap := by
  cases path with
  | none => exact meets_pure ⟨herror, by simp [Caught, hpath]⟩
  | some file =>
    have hcalls : ∀ c ∈ [e.streamInit, e.executeScripts, e.destroyFileHandle],
        c ∈ calls e callable .bootstrap := by simp [calls, hpath]
    apply call_bind
    · intro u hu hstream
      have hscripts : Meets (catching (callEngine e.executeScripts) (pure ())) u
          (Crashes e args callable .bootstrap)
          fun ex w => ex = .returned () ∧ w.task = u.task := by
        have hcall : Meets (callEngine e.executeScripts) u
            (Crashes e args callable .bootstrap) fun _ w => w.task = u.task :=
          callEngine_meets (fun _ hw _ => hw.task) fun _ hw _ => hw.task
        exact hcall.catching (fun _ hw => hw) (fun _ hw => hw) fun w hw => meets_pure ⟨rfl, hw⟩
      apply hscripts.bind
      · intro _ w hw
        apply call_bind
        · intro x hx hfile
          have hxerror : x.task.error = none := by
            rw [hx.task, hw.2, hu.task]
            exact herror
          apply meets_current_bind
          rw [hx.pending]
          cases hp : e.destroyFileHandle.pending with
          | none => exact meets_pure ⟨hxerror, by simp [Caught, hp]⟩
          | some exn =>
            have hdestroy := hcalls e.destroyFileHandle (by simp)
            have hnot : ¬ Completes e args callable .bootstrap :=
              not_completes_of_pending hdestroy (by simp [hp])
            apply (takeException_blaming hxerror hdestroy hp).bind
            · intro _ y hy
              refine meets_pure ⟨hnot, ?_, hy.1⟩
              exact ⟨by simp [hpath], hstream, hfile, by simp [hp], hy.2.mp rfl⟩
            · exact fun _ hy => hy.1.elim
            · intro y hy
              refine ⟨hnot, fun hc => ?_⟩
              have hend := hy.2.mpr hc.2.2.2.2
              cases hend
        · intro x _ hb
          exact ⟨not_completes_of_bails (hcalls _ (by simp)) hb, by simp [Caught, hb]⟩
      · exact fun _ hw => nomatch hw.1
      · exact fun _ hw => nomatch hw.1
    · intro u _ hb
      exact ⟨not_completes_of_bails (hcalls _ (by simp)) hb, by simp [Caught, hb]⟩

theorem bootstrap_leaves (h : Made [] t) :
    MeetsLeaves e args callable .bootstrap (stage e args callable .bootstrap) t := by
  apply (bootstrap_stage callable.bootstrap rfl h.error).bind
  · intro failed u hu
    cases failed with
    | true => exact meets_jump hu
    | false => exact installHandler_leaves hu.1 hu.2
  · exact fun _ hu => hu.elim
  · exact fun _ hu => hu

theorem args_leaves (h : Made [] t) :
    MeetsLeaves e args callable .args (stage e args callable .args) t := by
  apply leaves_discard
  apply made_call_bind h
  · intro u hu
    have hbails : e.reifyArgs.bails = false := hu.returned _ (by simp)
    apply meets_attempt_bind
    · intro f hf
      exact ⟨by simp [Completes, Check, hf], by simp [Caught, hbails, hf]⟩
    · intro z hz
      cases hargv : buildArgv z with
      | some argv =>
        refine meets_pure ⟨?_, fun hc => hu.clean hc.1⟩
        simp [Caught, hbails, hz, hargv]
      | none =>
        have hcheck : ¬ Check e args callable .args := by simp [Check, hz, hargv]
        apply (failWith_blamed rfl hcheck).bind
        · exact fun _ w hw => meets_jump ⟨fun hc => hcheck hc.2, .inr ⟨z, hz, hargv⟩, hw.2⟩
        · exact fun _ hx => nomatch hx.1
        · exact fun _ hx => nomatch hx.1
  · intro u hu hb
    exact leaves_of_bails (c := e.reifyArgs) h (by simp [calls]) hu hb
      (by simp [Stage.guarded, Caught, hb])

theorem compileWrapper_leaves {w : ZStr} {captures : Option Value}
    (hkind : callable.kind = .closure w captures) (h : Made [] t) :
    MeetsLeaves e args callable .compile (compileWrapper e) t := by
  have hcalls : calls e callable .compile = [e.initSource, e.compileString.toEffect] := by
    simp [calls, hkind]
  have hcaught : Caught e args callable .compile ↔ e.initSource.bails = true ∨
      e.compileString.bails = true ∨ e.compileString.value = false ∨
        e.compileString.pending.isSome := by simp [Caught, hkind]
  apply made_call_bind h
  · intro u hu
    apply made_ask_bind hu
    · intro v hv
      have hsource : e.initSource.bails = false := hv.returned _ (by simp)
      have hcompile : e.compileString.bails = false := hv.returned _ (by simp)
      have hpending : v.pending = e.compileString.pending := by simpa using hv.pending
      apply meets_current_bind
      split
      · next hfail =>
        rw [hpending] at hfail
        have hnot : ¬ Completes e args callable .compile := by
          cases hfail with
          | inl hvalue =>
            intro hc
            have := hc.2 w captures hkind
            rw [hvalue] at this
            cases this
          | inr hp =>
            exact not_completes_of_pending (c := e.compileString.toEffect) (by simp [hcalls]) hp
        apply leaves_of_blaming rfl hnot (hcaught.mpr (.inr (.inr hfail)))
        · apply reportFailure_blaming hv (by simp [hcalls]) rfl
          intro hnone hc
          have := hc w captures hkind
          rw [hpending] at hnone
          simp [this, hnone] at hfail
        · exact fun _ hw => blaming_callWhen _ _ hw
      · next hok =>
        refine meets_pure ⟨?_, fun hc => hv.clean ?_⟩
        · rw [hpending] at hok
          simpa [hcaught, hsource, hcompile] using hok
        · simpa [hcalls] using hc.1
    · intro v hv hb
      exact leaves_of_bails (c := e.compileString.toEffect) hu (by simp [hcalls]) hv hb
        (by simp [Stage.guarded, hcaught, hb])
  · intro u hu hb
    exact leaves_of_bails (c := e.initSource) h (by simp [hcalls]) hu hb
      (by simp [Stage.guarded, hcaught, hb])

theorem runWrapper_leaves {w : ZStr} {captures : Option Value}
    (hkind : callable.kind = .closure w captures) (h : Made [] t) :
    MeetsLeaves e args callable .execute (runWrapper e) t := by
  have hcalls : calls e callable .execute = [e.execute.toEffect, e.destroyOpArray] := by
    simp [calls, hkind]
  have hcaught : Caught e args callable .execute ↔ e.execute.bails = true ∨
      e.destroyOpArray.bails = true ∨ e.execute.recorded.isSome ∨
        e.destroyOpArray.recorded.isSome ∨ e.destroyOpArray.pending.isSome ∨
        e.execute.value.isClosure = false := by simp [Caught, hkind]
  apply made_ask_bind h
  · intro u hu
    apply made_call_bind hu
    · intro v hv
      have hmem : ∀ c ∈ [] ++ [e.execute.toEffect] ++ [e.destroyOpArray],
          c ∈ calls e callable .execute := by simp [hcalls]
      have hleave : ∀ report : Work Unit, Caught e args callable .execute →
          ¬ Completes e args callable .execute →
          Meets report v (Crashes e args callable .execute)
            (Blaming e args callable .execute) →
          MeetsLeaves e args callable .execute
            (do report; callEngine e.dtorFactory; jump : Work Returned) v :=
        fun _ hc hnot hr => leaves_of_blaming rfl hnot hc hr fun _ => blaming_call _
      have hbails : e.execute.bails = false ∧ e.destroyOpArray.bails = false :=
        ⟨hv.returned _ (by simp), hv.returned _ (by simp)⟩
      have hpending : v.pending = e.destroyOpArray.pending := by simpa using hv.pending
      apply meets_current_bind
      cases hcap : v.captured with
      | some err =>
        obtain ⟨c, hc, ex, hex, -⟩ := hv.parked err hcap
        apply hleave _ _ _ (takeCaptured_blaming hv hmem hcap)
        · simp only [List.nil_append, List.cons_append, List.mem_cons, List.not_mem_nil,
            or_false] at hc
          obtain rfl | rfl := hc <;> simp [hcaught, hex]
        · exact not_completes_of_recorded (hmem c hc) (by simp [hex])
      | none =>
        have hrecorded := hv.unrecorded hcap
        cases hp : v.pending with
        | some ex =>
          have hdestroy : e.destroyOpArray.pending.isSome := by simp [← hpending, hp]
          apply hleave _ _ _ (takePending_blaming hv hmem hp)
          · simp [hcaught, hdestroy]
          · exact not_completes_of_pending (hmem _ (by simp)) hdestroy
        | none =>
          dsimp only
          split
          · next hclosure =>
            refine meets_pure ⟨?_, fun hc => hv.clean fun c hmade => hc.1 c (hmem c hmade)⟩
            rw [hp] at hpending
            simp [hcaught, hbails, hrecorded, ← hpending, hclosure]
          · next hclosure =>
            have hcheck : ¬ Check e args callable .execute :=
              fun hc => hclosure (hc w captures hkind)
            apply hleave
            · simp [hcaught, hclosure]
            · exact fun hc => hcheck hc.2
            · apply failWith_blaming _ hcheck
              rfl
    · intro v hv hb
      exact leaves_of_bails (c := e.destroyOpArray) hu (by simp [hcalls]) hv hb
        (by simp [Stage.guarded, hcaught, hb])
  · intro u hu hb
    exact leaves_of_bails (c := e.execute.toEffect) h (by simp [hcalls]) hu hb
      (by simp [Stage.guarded, hcaught, hb])

/-- The call of the factory, whatever it replies, and what follows. -/
theorem callFactory_leaves {r : Reply (Bool × Returned)}
    (hcalls : calls e callable .factory =
      [e.reifyCaptures, r.toEffect, e.dtorCaptures, e.dtorFactory])
    (hcaught : Caught e args callable .factory ↔ e.reifyCaptures.bails = true ∨ r.bails = true ∨
      e.dtorCaptures.bails = true ∨ e.dtorFactory.bails = true ∨ r.value.1 = false ∨
      r.value.2.isObject = false)
    (hcheck : Check e args callable .factory → r.value.1 = true ∧ r.value.2.isObject = true)
    (h : Made [e.reifyCaptures] t) :
    MeetsLeaves e args callable .factory (do
      let ret ← ask r
      callEngine e.dtorCaptures
      callEngine e.dtorFactory
      if ret.1 = false ∨ ret.2.isObject = false then
        reportFailure e "LogicError" "closure factory invocation failed"
        callEngine e.dtorInner
        jump
      else return .closure ret.2 : Work CallableZval) t := by
  have hmem : ∀ c ∈ [e.reifyCaptures, r.toEffect, e.dtorCaptures, e.dtorFactory],
      c ∈ calls e callable .factory := by
    rw [hcalls]
    exact fun _ hc => hc
  apply made_ask_bind h
  · intro u hu
    apply made_call_bind hu
    · intro v hv
      apply made_call_bind hv
      · intro w hw
        have hbails := hw.returned
        simp only [List.cons_append, List.nil_append, List.forall_mem_cons] at hbails
        split
        · next hfail =>
          have hnot : ¬ Check e args callable .factory := by
            intro hc
            simp [hcheck hc] at hfail
          apply leaves_of_blaming rfl (fun hc => hnot hc.2)
          · exact hcaught.mpr (.inr (.inr (.inr (.inr hfail))))
          · exact reportFailure_blaming hw hmem rfl fun _ => hnot
          · exact fun _ => blaming_call _
        · next hok =>
          refine meets_pure ⟨?_, fun hc => hw.clean fun c hmade => hc.1 c (hmem c hmade)⟩
          rw [hcaught]
          simpa [hbails] using hok
      · intro w hw hb
        exact leaves_of_bails (c := e.dtorFactory) hv (hmem _ (by simp)) hw hb
          (by simp [Stage.guarded, hcaught, hb])
    · intro v hv hb
      exact leaves_of_bails (c := e.dtorCaptures) hu (hmem _ (by simp)) hv hb
        (by simp [Stage.guarded, hcaught, hb])
  · intro u hu hb
    exact leaves_of_bails (c := r.toEffect) h (hmem _ (by simp)) hu hb
      (by simp [Stage.guarded, hcaught, hb])

theorem instantiate_leaves {w : ZStr} {captures : Option Value}
    (hkind : callable.kind = .closure w captures) (h : Made [] t) :
    MeetsLeaves e args callable .factory (instantiate e captures e.execute.value) t := by
  apply made_call_bind h
  · intro u hu
    have hreify : e.reifyCaptures.bails = false := hu.returned _ (by simp)
    apply meets_attempt_bind
    · intro f hf
      exact ⟨by simp [Completes, Check, hkind, hf], by simp [Caught, hkind, hreify, hf]⟩
    · intro cap hcap
      apply callFactory_leaves _ _ _ hu
      · simp [calls, hkind, hcap]
      · simp [Caught, hkind, hcap]
      · intro hc
        obtain ⟨cap', hcap', hvalue⟩ := hc w captures hkind
        cases hcap.symm.trans hcap'
        exact hvalue
  · intro u hu hb
    exact leaves_of_bails (c := e.reifyCaptures) h (by simp [calls, hkind]) hu hb
      (by simp [Stage.guarded, Caught, hkind, hb])

theorem stage_leaves (k : Stage) (h : Made [] t) :
    MeetsLeaves e args callable k (stage e args callable k) t := by
  cases k with
  | startup => exact startup_leaves h
  | bootstrap => exact bootstrap_leaves h
  | args => exact args_leaves h
  | compile =>
    cases hkind : callable.kind with
    | closure w captures =>
      simp only [stage, hkind]
      exact compileWrapper_leaves hkind h
    | _ =>
      simp only [stage, hkind]
      exact leaves_pure h (by simp [Caught, hkind])
  | execute =>
    cases hkind : callable.kind with
    | closure w captures =>
      simp only [stage, hkind]
      exact leaves_discard (runWrapper_leaves hkind h)
    | _ =>
      simp only [stage, hkind]
      exact leaves_pure h (by simp [Caught, hkind])
  | factory =>
    cases hkind : callable.kind with
    | closure w captures =>
      simp only [stage, hkind]
      exact leaves_discard (instantiate_leaves hkind h)
    | _ =>
      simp only [stage, hkind]
      exact leaves_pure h (by simp [Caught, hkind])

end Leaving

end Parallax.Worker
