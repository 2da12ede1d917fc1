import Parallax.WaitGroup.Outcome
import Parallax.Bridge.CaptureExact
import Parallax.Worker.Course

/-! What the runner leaves in its task, whatever the calls of the engine come to, against the rule
of `task_runner_t`. -/
namespace Parallax.Worker
open Memory Unwind Bridge
set_option autoImplicit false
set_option maxHeartbeats 250000

/-! ## When the call of the callable goes through -/

section Conditions
variable (e : Engine)

structure Compiles : Prop where
  initSource : e.initSource.Quiet
  compileString : e.compileString.Quiet
  opArray : e.compileString.value = true
  pending : e.compileString.pending = none

structure Runs : Prop where
  execute : e.execute.Quiet
  destroyOpArray : e.destroyOpArray.Quiet
  pending : e.destroyOpArray.pending = none
  isClosure : e.execute.value.isClosure = true

structure Instantiates (captures : Option Value) (factory inner : Returned) (cap : Php) : Prop where
  reifyCaptures : e.reifyCaptures.Quiet
  rebuilt : pxValueToZval e.classes captures = .ok cap
  callFactory : (e.callFactory factory cap).Quiet
  dtorCaptures : e.dtorCaptures.Quiet
  dtorFactory : e.dtorFactory.Quiet
  returned : (e.callFactory factory cap).value = (true, inner)
  isObject : inner.isObject = true

def Builds : CallKind → CallableZval → Prop
  | .function fnName, c => e.initName.Quiet ∧ c = .name fnName
  | .staticMeth className fnName, c => e.initName.Quiet ∧ c = .method className fnName
  | .closure _ captures, c => Compiles e ∧ Runs e ∧
      ∃ inner cap, Instantiates e captures e.execute.value inner cap ∧ c = .closure inner

def Rebuilds (args : Option Value) (argv : ℕ × List Php) : Prop :=
  e.reifyArgs.Quiet ∧ ∃ z, pxValueToZval e.classes args = .ok z ∧ buildArgv z = some argv

/-- `call_user_function` is reached and returns `ret`, and the arguments are destroyed. -/
def Invokes (args : Option Value) (kind : CallKind) (ret : Bool × Returned) : Prop :=
  ∃ argv, Rebuilds e args argv ∧ ∃ c, Builds e kind c ∧
    (0 < argv.1 → e.allocArgv.Quiet) ∧ (e.callUserFunction c argv.2).Quiet ∧
    (∀ k ∈ List.range argv.1, (e.dtorArg k).Quiet) ∧ e.dtorCallable.Quiet ∧
    ret = (e.callUserFunction c argv.2).value

/-- The call of the callable goes through: the runner goes on to record `retval` as the result. -/
structure Succeeds (args : Option Value) (callable : PxCallable) (retval : Returned) : Prop where
  started : e.requestStartup.value = true
  bootstrapped : callable.bootstrap = none ∨ e.destroyFileHandle.pending = none
  initHandlerName : e.initHandlerName.Quiet
  dtorHandler : e.dtorHandler.Quiet
  invokes : Invokes e args callable.kind (true, retval)
  dtorArgs : e.dtorArgs.Quiet
  pending : e.dtorArgs.pending = none

/-- A value that is accepted and bails out while it is destroyed, or one that is refused without
any bailout. -/
def Spoils (retval : Returned) : Prop :=
  (Admissible retval.heap retval.zv ∧ e.dtorRetval.bails = true) ∨
    (¬ Admissible retval.heap retval.zv ∧ e.throwCaptureError.bails = false ∧
      e.dtorRetval.bails = false)

def Spoiled (args : Option Value) (callable : PxCallable) : Prop :=
  ∃ retval, Succeeds e args callable retval ∧ Spoils e retval

end Conditions

/-! ## Up to the recording -/

section Prefix
variable {E : Fault → Prop} {e : Engine} {t : Thread} {C : Prop}

theorem compileWrapper_ends (h : OnCourse C t) :
    Meets (compileWrapper e) t E (Ends fun _ => C ∧ Compiles e) := by
  apply ends_call_bind h (fun _ hb => hb.1) fun _ hb => hb.2.initSource
  intro u hu hneed _
  apply ends_ask_bind hu hneed fun _ hb => hb.2.compileString
  intro w hw hneed hpending
  apply meets_current_bind
  split
  · next hfail =>
    apply ends_of_aborts
    · apply aborts_of_reports (reportFailure_reports e _ _ hw.result)
      exact fun _ => reports_callWhen _ _
    · rintro _ ⟨-, hc⟩
      rw [hpending, hc.opArray, hc.pending] at hfail
      simp at hfail
  · next hok =>
    rw [hpending] at hok
    apply ends_pure hw _ hneed fun _ _ => rfl
    rintro ⟨⟨hC, hsource⟩, hcompile⟩
    exact ⟨hC, hsource, hcompile, by simpa using fun hv => hok (.inl hv),
      by simpa using fun hp => hok (.inr hp)⟩

theorem runWrapper_ends (h : OnCourse C t) :
    Meets (runWrapper e) t E (Ends fun r => (C ∧ Runs e) ∧ r = e.execute.value) := by
  apply ends_ask_bind h (fun _ hb => hb.1.1) fun _ hb => hb.1.2.execute
  intro u hu hneed _
  apply ends_call_bind hu hneed fun _ hb => hb.1.2.destroyOpArray
  intro w hw hneed hpending
  have hleave : ∀ report : Work Unit, Meets report w E Reports →
      Meets (do report; callEngine e.dtorFactory; jump : Work Returned) w E Aborts :=
    fun report hr => aborts_of_reports hr fun _ => reports_call _
  apply meets_current_bind
  cases hcap : w.captured with
  | some err =>
    apply ends_of_aborts (hleave _ (takeCaptured_reports err hw.result))
    intro r hr
    have := hw.captured.mpr (hneed r hr)
    rw [hcap] at this
    cases this
  | none =>
    cases hp : w.pending with
    | some ex =>
      apply ends_of_aborts (hleave _ (takeException_reports e ex hw.result))
      rintro r ⟨⟨-, hr⟩, -⟩
      rw [hp, hr.pending] at hpending
      cases hpending
    | none =>
      dsimp only
      split
      · next hclosure =>
        apply ends_pure hw _ hneed fun _ hb => hb.2
        rintro ⟨⟨hC, hexecute⟩, hdestroy⟩
        exact ⟨⟨hC, hexecute, hdestroy, hpending.symm.trans hp, hclosure⟩, rfl⟩
      · next hclosure =>
        apply ends_of_aborts (hleave _ (failWith_reports _ _ hw.result))
        rintro r ⟨⟨-, hr⟩, -⟩
        exact hclosure hr.isClosure

theorem instantiate_ends (captures : Option Value) (factory : Returned) (h : OnCourse C t)
    (hE : ∀ f, pxValueToZval e.classes captures = .error f → E f) :
    Meets (instantiate e captures factory) t E
      (Ends fun c => C ∧ ∃ inner cap, Instantiates e captures factory inner cap ∧
        c = .closure inner) := by
  apply ends_call_bind h (fun _ hb => hb.1) fun _ ⟨_, _, _, hi, _⟩ => hi.reifyCaptures
  intro u hu hneed _
  apply meets_attempt_bind hE
  intro cap hcap
  -- there is one rebuilt array and one closure, so what goes through does so with these
  have hparts : ∀ c : CallableZval, (C ∧ ∃ inner cap', Instantiates e captures factory inner cap' ∧
      c = .closure inner) →
      Instantiates e captures factory (e.callFactory factory cap).value.2 cap ∧
        c = .closure (e.callFactory factory cap).value.2 := by
    rintro c ⟨-, inner, cap', hi, rfl⟩
    have hsame := hi.rebuilt
    rw [hcap] at hsame
    cases hsame
    rw [hi.returned]
    exact ⟨hi, rfl⟩
  apply ends_ask_bind hu hneed fun c hc => (hparts c hc).1.callFactory
  intro v hv hneed _
  apply ends_call_bind hv hneed fun c hc => (hparts c hc).1.dtorCaptures
  intro w hw hneed _
  apply ends_call_bind hw hneed fun c hc => (hparts c hc).1.dtorFactory
  intro x hx hneed _
  split
  · next hfail =>
    apply ends_of_aborts
    · apply aborts_of_reports (reportFailure_reports e _ _ hx.result)
      exact fun _ => reports_call _
    · intro c hc
      have hi := (hparts c hc).1
      rw [hi.returned, hi.isObject] at hfail
      simp at hfail
  · next hok =>
    simp only [not_or, Bool.not_eq_false] at hok
    apply ends_pure hx _ hneed fun c hc => (hparts c hc).2
    rintro ⟨⟨⟨⟨hC, hreify⟩, hcall⟩, hcaptures⟩, hfactory⟩
    exact ⟨hC, _, cap, ⟨hreify, hcap, hcall, hcaptures, hfactory, Prod.ext hok.1 rfl, hok.2⟩, rfl⟩

theorem buildCallable_ends (kind : CallKind) (h : OnCourse C t)
    (hE : ∀ w captures f, kind = .closure w captures →
      pxValueToZval e.classes captures = .error f → E f) :
    Meets (buildCallable e kind) t E (Ends fun c => C ∧ Builds e kind c) := by
  cases kind with
  | function fnName =>
    apply ends_call_bind h (fun _ hb => hb.1) fun _ hb => hb.2.1
    intro u hu hneed _
    exact ends_pure hu (fun hc => ⟨hc.1, hc.2, rfl⟩) hneed fun _ hb => hb.2.2
  | staticMeth className fnName =>
    apply ends_call_bind h (fun _ hb => hb.1) fun _ hb => hb.2.1
    intro u hu hneed _
    exact ends_pure hu (fun hc => ⟨hc.1, hc.2, rfl⟩) hneed fun _ hb => hb.2.2
  | closure wrapper captures =>
    apply ends_bind (compileWrapper_ends h) fun _ hb => ⟨(), hb.1, hb.2.1⟩
    intro _ u hu _ _
    apply ends_bind (runWrapper_ends hu) fun _ hb => ⟨_, ⟨⟨hb.1, hb.2.1⟩, hb.2.2.1⟩, rfl⟩
    intro factory w hw hneed _
    have hE' : ∀ f, pxValueToZval e.classes captures = .error f → E f := fun f => hE _ _ f rfl
    apply ends_congr (instantiate_ends captures factory hw hE')
    intro c
    constructor
    · rintro ⟨⟨⟨⟨hC, hcompile⟩, hruns⟩, rfl⟩, hinner⟩
      exact ⟨hC, hcompile, hruns, hinner⟩
    · intro hc
      have hcourse := hneed c hc
      exact ⟨hcourse, hcourse.2 ▸ hc.2.2.2⟩

theorem rebuildArgs_ends (args : Option Value) (h : OnCourse C t)
    (hE : ∀ f, pxValueToZval e.classes args = .error f → E f) :
    Meets (rebuildArgs e args) t E (Ends fun argv => C ∧ Rebuilds e args argv) := by
  apply ends_call_bind h (fun _ hb => hb.1) fun _ hb => hb.2.1
  intro u hu hneed _
  apply meets_attempt_bind hE
  intro z hz
  have hbuilds : ∀ argv, C ∧ Rebuilds e args argv → buildArgv z = some argv := by
    rintro argv ⟨-, -, z', hz', hb⟩
    rw [hz] at hz'
    cases hz'
    exact hb
  cases hargv : buildArgv z with
  | none =>
    apply ends_of_aborts
    · apply reports_bind (failWith_reports _ _ hu.result)
      · exact fun _ hw => meets_jump hw
      · exact fun _ hw => hw
    · intro argv hr
      have := hbuilds argv hr
      rw [hargv] at this
      cases this
  | some argv =>
    apply ends_pure hu _ hneed
    · intro b hr
      exact Option.some.inj ((hbuilds b hr).symm.trans hargv)
    · exact fun hc => ⟨hc.1, hc.2, z, hz, hargv⟩

theorem dtorArgv_ends (ks : List ℕ) (h : OnCourse C t) :
    Meets (dtorArgv e ks) t E (Ends fun _ => C ∧ ∀ k ∈ ks, (e.dtorArg k).Quiet) := by
  induction ks generalizing t C with
  | nil => exact ends_pure h (by simp) (fun _ hb => hb.1) fun _ _ => rfl
  | cons k rest ih =>
    apply ends_call_bind h (fun _ hb => hb.1) fun _ hb => hb.2 k (by simp)
    intro u hu _ _
    apply ends_congr (ih hu)
    intro _
    rw [List.forall_mem_cons, and_assoc]

theorem invoke_ends (args : Option Value) (kind : CallKind) (h : OnCourse C t)
    (hargs : ∀ f, pxValueToZval e.classes args = .error f → E f)
    (hcaptures : ∀ w captures f, kind = .closure w captures →
      pxValueToZval e.classes captures = .error f → E f) :
    Meets (invoke e args kind) t E (Ends fun ret => C ∧ Invokes e args kind ret) := by
  apply ends_bind (rebuildArgs_ends args h hargs)
  · rintro ret ⟨hC, argv, hr, -⟩
    exact ⟨argv, hC, hr⟩
  intro argv u hu _ hargv
  apply ends_bind (buildCallable_ends kind hu hcaptures)
  · rintro ret ⟨hC, argv', hr, c, hc, -⟩
    cases hargv argv' ⟨hC, hr⟩
    exact ⟨c, ⟨hC, hr⟩, hc⟩
  intro c v hv hneed hcallable
  -- the arguments and the callable are the ones that were built
  have hparts : ∀ ret, C ∧ Invokes e args kind ret →
      (0 < argv.1 → e.allocArgv.Quiet) ∧ (e.callUserFunction c argv.2).Quiet ∧
      (∀ k ∈ List.range argv.1, (e.dtorArg k).Quiet) ∧ e.dtorCallable.Quiet ∧
      ret = (e.callUserFunction c argv.2).value := by
    rintro ret ⟨hC, argv', hr, c', hc, hrest⟩
    cases hargv argv' ⟨hC, hr⟩
    cases hcallable c' ⟨⟨hC, hr⟩, hc⟩
    exact hrest
  apply ends_callWhen_bind hv hneed fun ret hb => by simpa using (hparts ret hb).1
  intro w hw hneed
  apply ends_ask_bind hw hneed fun ret hb => (hparts ret hb).2.1
  intro x hx hneed _
  apply ends_bind (dtorArgv_ends (List.range argv.1) hx)
  · exact fun ret hb => ⟨(), hneed ret hb, (hparts ret hb).2.2.1⟩
  intro _ y hy hneed _
  apply ends_call_bind hy hneed fun ret hb => (hparts ret hb).2.2.2.1
  intro z hz hneed _
  apply ends_pure hz _ hneed fun ret hb => (hparts ret hb).2.2.2.2
  rintro ⟨⟨⟨⟨⟨⟨hC, hr⟩, hc⟩, halloc⟩, hcall⟩, hdtor⟩, hend⟩
  exact ⟨hC, argv, hr, c, hc, by simpa using halloc, hcall, hdtor, hend, rfl⟩

end Prefix

/-! ## The recording -/

theorem Failed.rule {out : WaitGroup.Outcome PxCallable} (h : Failed out) : out.Rule := by
  obtain ⟨hok, hresult, herror⟩ := h
  exact ⟨by rw [hresult, herror]; rfl, by rw [hok, hresult]; rfl⟩

section Recording
variable {E : Fault → Prop} {e : Engine} {t : Thread} {C S : Prop}

/-- How the `zend_try` block is left: after a bailout the handler still has to set the error. -/
def Recorded (S : Prop) : Exit Unit → Thread → Prop
  | .bailed, u => u.task.result = none ↔ ¬ S
  | _, u => u.task.Rule ↔ ¬ S

theorem recorded_of_reports {x : Work Unit} (hx : Meets x t E Reports) (hS : ¬ S) :
    Meets x t E (Recorded S) := by
  apply hx.mono
  intro ex u h
  cases ex with
  | returned _ => exact iff_of_true h.rule hS
  | jumped => exact h.elim
  | bailed => exact iff_of_true h hS

theorem storeAccepted_recorded {retval : Returned} {v : Value}
    (ha : Admissible retval.heap retval.zv) (hv : pxZvalToValue retval.heap retval.zv = .ok v)
    (h : OnCourse C t) :
    Meets (do storeResult e retval; callEngine e.dtorRetval) (t.setOk true) E
      (Recorded (Spoils e retval)) := by
  unfold storeResult
  rw [hv]
  apply meets_update_bind
  apply callEngine_meets
  · intro u hu hb
    apply iff_of_true
    · rw [hu.task]
      exact ⟨by simp [Thread.setResult, Thread.setOk, h.error], rfl⟩
    · rintro (⟨-, hbails⟩ | ⟨hna, -⟩)
      · rw [hb] at hbails
        cases hbails
      · exact hna ha
  · intro u hu hb
    apply iff_of_false
    · rw [hu.task]
      exact Option.some_ne_none v
    · exact not_not_intro (.inl ⟨ha, hb⟩)

theorem storeRefused_recorded {retval : Returned} {x : Thrown}
    (hna : ¬ Admissible retval.heap retval.zv)
    (hx : pxZvalToValue retval.heap retval.zv = .error (.thrown x)) (h : OnCourse C t) :
    Meets (do storeResult e retval; callEngine e.dtorRetval) (t.setOk true) E
      (Recorded (Spoils e retval)) := by
  have hspoils : Spoils e retval ↔ e.throwCaptureError.bails = false ∧ e.dtorRetval.bails = false :=
    ⟨fun hs => (hs.resolve_left fun ha => hna ha.1).2, fun hs => .inr ⟨hna, hs⟩⟩
  unfold storeResult
  rw [hx, hspoils, bind_assoc]
  apply call_bind
  · intro u hu hthrow
    apply meets_update_bind
    apply callEngine_meets
    · intro w hw hdtor
      apply iff_of_false
      · rw [hw.task]
        intro hrule
        have hok := hrule.ok_iff
        simp [Thread.setResult, Thread.setOk, hu.task] at hok
      · exact not_not_intro ⟨hthrow, hdtor⟩
    · intro w hw hdtor
      apply iff_of_true
      · rw [hw.task]
        rfl
      · simp [hdtor]
  · intro u hu hthrow
    apply iff_of_true
    · rw [hu.task]
      exact h.result
    · simp [hthrow]

theorem storeResult_recorded (retval : Returned) (h : OnCourse C t) :
    Meets (do storeResult e retval; callEngine e.dtorRetval) (t.setOk true) E
      (Recorded (Spoils e retval)) := by
  rcases pxZvalToValue_decides retval.heap retval.zv with ⟨ha, v, hv, -⟩ | ⟨hna, msg, hmsg⟩
  · exact storeAccepted_recorded ha hv h
  · exact storeRefused_recorded hna hmsg h

theorem recordOutcome_recorded (rc : Bool) (retval : Returned) (h : OnCourse C t) :
    Meets (recordOutcome e rc retval) t E
      (Recorded ((C ∧ t.pending = none ∧ rc = true) ∧ Spoils e retval)) := by
  apply meets_current_bind
  cases hcap : t.captured with
  | some err =>
    have hC : ¬ C := fun hC => by simp [h.captured.mpr hC] at hcap
    refine iff_of_true (Failed.rule ⟨rfl, rfl, rfl⟩) fun hs => hC hs.1.1
  | none =>
    cases hp : t.pending with
    | some ex =>
      apply recorded_of_reports (takeException_reports e ex h.result)
      rintro ⟨⟨-, hpending, -⟩, -⟩
      cases hpending
    | none =>
      cases rc with
      | true =>
        have hS : ((C ∧ (none : Option Exn) = none ∧ true = true) ∧ Spoils e retval) =
            Spoils e retval := by simp [h.captured.mp hcap]
        rw [hS]
        exact meets_update_bind (storeResult_recorded retval h)
      | false =>
        apply recorded_of_reports (failWith_reports _ _ h.result)
        rintro ⟨⟨-, -, hrc⟩, -⟩
        cases hrc

theorem tryBody_recorded (args : Option Value) (kind : CallKind) (h : OnCourse C t)
    (hargs : ∀ f, pxValueToZval e.classes args = .error f → E f)
    (hcaptures : ∀ w captures f, kind = .closure w captures →
      pxValueToZval e.classes captures = .error f → E f) :
    Meets (tryBody e args kind) t E (Recorded (∃ retval, C ∧ Invokes e args kind (true, retval) ∧
      e.dtorArgs.Quiet ∧ e.dtorArgs.pending = none ∧ Spoils e retval)) := by
  apply (invoke_ends args kind h hargs hcaptures).bind
  · rintro ⟨rc, retval⟩ u ⟨hu, hone⟩
    have hsame : (∃ r, C ∧ Invokes e args kind (true, r) ∧ e.dtorArgs.Quiet ∧
        e.dtorArgs.pending = none ∧ Spoils e r) ↔
        ((((C ∧ Invokes e args kind (rc, retval)) ∧ e.dtorArgs.Quiet) ∧
          e.dtorArgs.pending = none ∧ rc = true) ∧ Spoils e retval) := by
      constructor
      · rintro ⟨r, hC, hi, hquiet, hpending, hs⟩
        cases hone _ ⟨hC, hi⟩
        exact ⟨⟨⟨⟨hC, hi⟩, hquiet⟩, hpending, rfl⟩, hs⟩
      · rintro ⟨⟨⟨⟨hC, hi⟩, hquiet⟩, hpending, rfl⟩, hs⟩
        exact ⟨retval, hC, hi, hquiet, hpending, hs⟩
    rw [hsame]
    apply call_bind
    · intro w hw hb
      have hrec := recordOutcome_recorded (E := E) (e := e) rc retval (hu.called hw hb)
      rw [hw.pending] at hrec
      exact hrec
    · intro w hw hb
      apply iff_of_true
      · rw [hw.task]
        exact hu.result
      · rintro ⟨⟨⟨-, hquiet⟩, -⟩, -⟩
        rw [hquiet.1] at hb
        cases hb
  · rintro u ⟨hu, hno⟩
    refine iff_of_true hu.rule ?_
    rintro ⟨r, hC, hi, -⟩
    exact hno _ ⟨hC, hi⟩
  · rintro u ⟨hu, hno⟩
    refine iff_of_true hu ?_
    rintro ⟨r, hC, hi, -⟩
    exact hno _ ⟨hC, hi⟩

theorem catchBody_meets (t : Thread) : Meets catchBody t E fun ex u => ex = .returned () ∧
    (u.task.Rule ↔ t.task.result = none) := by
  have hrule : ∀ err : Value, (⟨false, t.task.result, some err, t.task.userData⟩ :
      WaitGroup.Outcome PxCallable).Rule ↔ t.task.result = none := by
    intro err
    cases hr : t.task.result with
    | none => exact iff_of_true ⟨rfl, rfl⟩ rfl
    | some v => exact iff_of_false (fun h => by cases h.one) fun h => by cases h
  obtain ⟨v, hv⟩ := valueErr_ok 0 (dupCstr_cstr_ok (ascii "Error".toList))
    (dupCstr_cstr_ok (ascii "bailout during worker execution".toList)) (dupCstr_cstr_ok [])
  unfold catchBody
  rw [hv]
  apply meets_update_bind
  apply meets_current_bind
  cases herror : (t.setOk false).task.error with
  | none => exact ⟨rfl, hrule v⟩
  | some err =>
    have he : t.task.error = some err := herror
    refine ⟨rfl, ?_⟩
    change (⟨false, t.task.result, t.task.error, t.task.userData⟩ :
      WaitGroup.Outcome PxCallable).Rule ↔ _
    rw [he]
    exact hrule err

end Recording

/-! ## worker_main_thread -/

section Main
variable {E : Fault → Prop} {e : Engine} {t : Thread}

theorem bootstrap_meets (path : Option ZStr) (hresult : t.task.result = none)
    (herror : t.task.error = none) :
    Meets (bootstrap e path) t E fun ex u =>
      match ex with
      | .returned false => u.task.result = none ∧ u.task.error = none ∧
          (path = none ∨ e.destroyFileHandle.pending = none)
      | .returned true => Failed u.task ∧ ¬ (path = none ∨ e.destroyFileHandle.pending = none)
      | .jumped => False
      | .bailed => True := by
  cases path with
  | none => exact meets_pure ⟨hresult, herror, .inl rfl⟩
  | some file =>
    apply call_bind _ fun _ _ _ => trivial
    intro u hu _
    have hscripts : Meets (catching (callEngine e.executeScripts) (pure ())) u E
        fun ex w => ex = .returned () ∧ w.task = u.task := by
      have hcall : Meets (callEngine e.executeScripts) u E fun _ w => w.task = u.task :=
        callEngine_meets (fun _ hw _ => hw.task) fun _ hw _ => hw.task
      exact hcall.catching (fun _ hw => hw) (fun _ hw => hw) fun w hw => meets_pure ⟨rfl, hw⟩
    apply hscripts.bind
    · rintro _ w ⟨-, hw⟩
      apply call_bind _ fun _ _ _ => trivial
      intro x hx _
      have htask : x.task = t.task := hx.task.trans (hw.trans hu.task)
      apply meets_current_bind
      rw [hx.pending]
      cases hp : e.destroyFileHandle.pending with
      | none => exact meets_pure ⟨htask ▸ hresult, htask ▸ herror, .inr rfl⟩
      | some exn =>
        apply reports_bind (takeException_reports e exn (htask ▸ hresult))
        · exact fun y hy => meets_pure ⟨hy, by simp⟩
        · exact fun _ _ => trivial
    · rintro w ⟨hw, -⟩
      cases hw
    · rintro w ⟨hw, -⟩
      cases hw

theorem shutdown_meets (t : Thread) : Meets (shutdown e) t E fun ex u =>
    ex ≠ .bailed → (u.task.Rule ↔ t.task.Rule) := by
  apply call_bind _ fun _ _ _ h => absurd rfl h
  intro u hu _
  apply call_bind _ fun _ _ _ h => absurd rfl h
  intro w hw _
  apply meets_update
  intro _
  have htask : w.task = t.task := hw.task.trans hu.task
  rw [← htask]
  exact ⟨fun h => ⟨h.one, h.ok_iff⟩, fun h => ⟨h.one, h.ok_iff⟩⟩

theorem installHandler_meets (hresult : t.task.result = none) (herror : t.task.error = none) :
    Meets (installHandler e) t E fun ex u =>
      match ex with
      | .returned _ => OnCourse (e.initHandlerName.Quiet ∧ e.dtorHandler.Quiet) u
      | .jumped => False
      | .bailed => True := by
  have hstart : OnCourse True (t.setCaptured none) := ⟨hresult, herror, iff_of_true rfl trivial⟩
  apply meets_update_bind
  apply call_bind _ fun _ _ _ => trivial
  intro u hu hb
  apply callEngine_meets
  · intro w hw hb'
    exact ((hstart.called hu hb).called hw hb').congr (by rw [true_and])
  · exact fun _ _ _ => trivial

theorem catching_meets (args : Option Value) (kind : CallKind) {C : Prop} (h : OnCourse C t)
    (hargs : ∀ f, pxValueToZval e.classes args = .error f → E f)
    (hcaptures : ∀ w captures f, kind = .closure w captures →
      pxValueToZval e.classes captures = .error f → E f) :
    Meets (catching (tryBody e args kind) catchBody) t E fun ex u => ex = .returned () ∧
      (u.task.Rule ↔ ¬ ∃ retval, C ∧ Invokes e args kind (true, retval) ∧
        e.dtorArgs.Quiet ∧ e.dtorArgs.pending = none ∧ Spoils e retval) := by
  apply (tryBody_recorded args kind h hargs hcaptures).catching
  · exact fun _ hu => hu
  · exact fun _ hu => hu
  · intro u hu
    apply (catchBody_meets u).mono
    rintro ex w ⟨hex, hw⟩
    exact ⟨hex, hw.trans hu⟩

theorem runTask_meets (args : Option Value) (callable : PxCallable)
    (hstarted : e.requestStartup.value = true)
    (hbootstrapped : callable.bootstrap = none ∨ e.destroyFileHandle.pending = none)
    (hresult : t.task.result = none) (herror : t.task.error = none)
    (hargs : ∀ f, pxValueToZval e.classes args = .error f → E f)
    (hcaptures : ∀ w captures f, callable.kind = .closure w captures →
      pxValueToZval e.classes captures = .error f → E f) :
    Meets (do installHandler e; catching (tryBody e args callable.kind) catchBody; shutdown e) t E
      fun ex u => ex ≠ .bailed → (u.task.Rule ↔ ¬ Spoiled e args callable) := by
  apply (installHandler_meets hresult herror).bind
  · intro _ u hu
    apply (catching_meets args callable.kind hu hargs hcaptures).bind
    · rintro _ w ⟨-, hw⟩
      apply (shutdown_meets w).mono
      intro ex x hx hb
      refine (hx hb).trans (hw.trans (not_congr ⟨?_, ?_⟩))
      · rintro ⟨r, ⟨hname, hdtor⟩, hinvokes, hquiet, hpending, hs⟩
        exact ⟨r, ⟨hstarted, hbootstrapped, hname, hdtor, hinvokes, hquiet, hpending⟩, hs⟩
      · rintro ⟨r, hr, hs⟩
        exact ⟨r, ⟨hr.initHandlerName, hr.dtorHandler⟩, hr.invokes, hr.dtorArgs, hr.pending, hs⟩
    · rintro w ⟨hw, -⟩
      cases hw
    · exact fun _ _ h => absurd rfl h
  · exact fun _ hu => hu.elim
  · exact fun _ _ h => absurd rfl h

theorem workerMainThread_meets (args : Option Value) (callable : PxCallable)
    (hresult : t.task.result = none) (herror : t.task.error = none)
    (hargs : ∀ f, pxValueToZval e.classes args = .error f → E f)
    (hcaptures : ∀ w captures f, callable.kind = .closure w captures →
      pxValueToZval e.classes captures = .error f → E f) :
    Meets (workerMainThread e args callable) t E fun ex u =>
      ex ≠ .bailed → (u.task.Rule ↔ ¬ Spoiled e args callable) := by
  apply call_bind _ fun _ _ _ h => absurd rfl h
  intro u hu _
  rw [ask_bind]
  apply call_bind _ fun _ _ _ h => absurd rfl h
  intro v hv _
  have htask : v.task = t.task := hv.task.trans hu.task
  rw [← htask] at hresult herror
  cases hstarted : e.requestStartup.value with
  | false =>
    have hno : ¬ Spoiled e args callable := by
      rintro ⟨r, hs, -⟩
      have := hs.started
      rw [hstarted] at this
      cases this
    apply (failWith_reports _ _ hresult).mono
    intro ex w hw hb
    cases ex with
    | returned _ => exact iff_of_true hw.rule hno
    | jumped => exact hw.elim
    | bailed => exact absurd rfl hb
  | true =>
    apply (bootstrap_meets callable.bootstrap hresult herror).bind
    · rintro failed w hw
      cases failed with
      | true =>
        have hno : ¬ Spoiled e args callable := fun ⟨r, hs, _⟩ => hw.2 hs.bootstrapped
        apply (shutdown_meets w).mono
        exact fun _ _ hx hb => (hx hb).trans (iff_of_true hw.1.rule hno)
      | false => exact runTask_meets args callable hstarted hw.2.2 hw.1 hw.2.1 hargs hcaptures
    · exact fun _ hw => hw.elim
    · exact fun _ _ h => absurd rfl h

/-- A runner that returns has obeyed the rule of `task_runner_t` unless the value of a call that
went through was accepted and bailed out while it was destroyed, or was refused and nothing bailed
out. -/
theorem pxWorkerMain_rule_iff {e : Engine} {args : Option Value} {callable : PxCallable}
    {out : WaitGroup.Outcome PxCallable} (h : pxWorkerMain e args callable = .returned out) :
    out.Rule ↔ ¬ Spoiled e args callable := by
  have hmeets := workerMainThread_meets (E := fun _ => True) (e := e)
    (t := Thread.start ⟨args, some callable⟩) args callable rfl rfl (fun _ _ => trivial)
    fun _ _ _ _ _ => trivial
  unfold pxWorkerMain at h
  unfold Meets at hmeets
  split at h
  · cases h
  · cases h
  · next ex u hex hrun =>
    rw [hrun] at hmeets
    cases h
    exact hmeets hex

/-- A call that leaves nothing behind. -/
def quietCall : Effect := ⟨none, none, false⟩

/-- A thread in which only the destruction of `retval`, the value returned, may bail out. -/
def returningEngine (retval : Returned) (dtorBails : Bool) : Engine where
  classes := fun _ => none
  tsResource := quietCall
  requestStartup := ⟨quietCall, true⟩
  streamInit := quietCall
  executeScripts := quietCall
  destroyFileHandle := quietCall
  initHandlerName := quietCall
  dtorHandler := quietCall
  reifyArgs := quietCall
  initName := quietCall
  initSource := quietCall
  compileString := ⟨quietCall, true⟩
  execute := ⟨quietCall, retval⟩
  destroyOpArray := quietCall
  reifyCaptures := quietCall
  callFactory := fun _ _ => ⟨quietCall, true, retval⟩
  dtorCaptures := quietCall
  dtorFactory := quietCall
  dtorInner := quietCall
  allocArgv := quietCall
  callUserFunction := fun _ _ => ⟨quietCall, true, retval⟩
  dtorArg := fun _ => quietCall
  dtorCallable := quietCall
  dtorArgs := quietCall
  throwCaptureError := quietCall
  dtorRetval := ⟨none, none, dtorBails⟩
  readProperties := quietCall
  releaseException := quietCall
  requestShutdown := quietCall
  freeThread := quietCall

def noArgs : Option Value := some (.arr ⟨0, [], 0⟩)

/-- `"f"`, with no bootstrap file. -/
def callF : PxCallable := ⟨.function (ascii ['f']), none⟩

theorem names_none : ∀ name ∈ declaredNames [], name ∉ names ((none : Option HashTable).getD []) :=
  List.forall_mem_nil _

/-- Every object is an instance of a user class with no properties. -/
def plainHeap : Heap where
  array := fun _ => []
  object := fun _ => ⟨⟨ascii ['D'], false, .zendObjectsNew, [], List.nodup_nil⟩, fun _ => .undef,
    none, List.nodup_nil, names_none⟩
  reference := fun _ => .null

theorem pxWorkerMain_rule_iff_long : ∃ out,
    pxWorkerMain (returningEngine ⟨plainHeap, .long 7⟩ false) noArgs callF = .returned out ∧
      ¬ Spoiled (returningEngine ⟨plainHeap, .long 7⟩ false) noArgs callF := by
  have hrun : pxWorkerMain (returningEngine ⟨plainHeap, .long 7⟩ false) noArgs callF =
    .returned _ := rfl
  exact ⟨_, hrun, (pxWorkerMain_rule_iff hrun).mp ⟨rfl, rfl⟩⟩

/-- `function f() { return new D; }` where the destructor of `D` ends in a fatal error leaves a
result and an error; a returned resource, refused, leaves neither. -/
theorem pxWorkerMain_rule_broken :
    (∃ out, pxWorkerMain (returningEngine ⟨plainHeap, .object 0⟩ true) noArgs callF =
        .returned out ∧ out.result.isSome ∧ out.error.isSome ∧ ¬ out.Rule) ∧
    (∃ out, pxWorkerMain (returningEngine ⟨plainHeap, .resource⟩ false) noArgs callF =
        .returned out ∧ out.ok = true ∧ out.result = none ∧ out.error = none ∧ ¬ out.Rule) :=
  ⟨⟨_, rfl, rfl, rfl, fun h => by cases h.one⟩, ⟨_, rfl, rfl, rfl, rfl, fun h => by cases h.one⟩⟩

/-- The runner commits no memory fault of its own: it crashes in `px_value_to_zval` only. -/
theorem pxWorkerMain_crashed {e : Engine} {args : Option Value} {callable : PxCallable} {f : Fault}
    (h : pxWorkerMain e args callable = .crashed f) :
    pxValueToZval e.classes args = .error f ∨ ∃ w captures,
      callable.kind = .closure w captures ∧ pxValueToZval e.classes captures = .error f := by
  have hmeets := workerMainThread_meets (e := e) (t := Thread.start ⟨args, some callable⟩)
    (E := fun f => pxValueToZval e.classes args = .error f ∨ ∃ w captures,
      callable.kind = .closure w captures ∧ pxValueToZval e.classes captures = .error f)
    args callable rfl rfl (fun _ hf => .inl hf) fun w captures _ hk hf => .inr ⟨w, captures, hk, hf⟩
  unfold pxWorkerMain at h
  unfold Meets at hmeets
  split at h
  · next hrun =>
    rw [hrun] at hmeets
    cases h
    exact hmeets
  · cases h
  · cases h

end Main
end Parallax.Worker
