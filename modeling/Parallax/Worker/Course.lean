import Parallax.Value.Invariant
import Parallax.Worker.Main

/-! How the parts of the runner are left. Up to the point where the outcome is recorded the task has
no result, and `worker_captured_error` is NULL exactly as long as every call has gone through; code
that sets the error leaves no result. -/
namespace Parallax.Worker
open Memory Unwind Bridge
set_option autoImplicit false
set_option maxHeartbeats 250000

/-! ## The copies of a text -/

theorem dupCstr_cstr_ok (s : List UInt8) : ∃ p, dupCstr (cstr s) = .ok p := by
  obtain ⟨cut, hdup, -⟩ := dupCstr_terminated s
  exact ⟨_, hdup⟩

theorem dupCstr_zstrToCstr (z : Option ZStr) : ∃ p, dupCstr (zstrToCstr z) = .ok p := by
  cases z with
  | none => exact ⟨none, rfl⟩
  | some zs => exact dupCstr_cstr_ok zs

theorem valueErr_ok {cls msg trace : Ptr} (code : Int64) (hc : ∃ p, dupCstr cls = .ok p)
    (hm : ∃ p, dupCstr msg = .ok p) (ht : ∃ p, dupCstr trace = .ok p) :
    ∃ v, valueErr cls msg code trace = .ok v := by
  obtain ⟨c, hc⟩ := hc
  obtain ⟨m, hm⟩ := hm
  obtain ⟨t, ht⟩ := ht
  exact ⟨.err c m code t, by simp only [valueErr, hc, hm, ht, ok_bind]; rfl⟩

theorem exceptionToValue_ok (ex : Exn) : ∃ v, exceptionToValue ex = .ok v := by
  unfold exceptionToValue
  refine valueErr_ok _ (dupCstr_zstrToCstr _) ?_ ⟨none, rfl⟩
  split
  · exact dupCstr_zstrToCstr _
  · exact ⟨none, rfl⟩

theorem captureException_ok (ex : Exn) (captured : Option Value) :
    ∃ v, captureException ex captured = .ok (some v) := by
  cases captured with
  | none =>
    obtain ⟨v, hv⟩ := exceptionToValue_ok ex
    exact ⟨v, by rw [captureException, hv]; rfl⟩
  | some err => exact ⟨err, rfl⟩

/-! ## Calls -/

/-- The call returns, and its run hands no exception to the capture handler. -/
def Effect.Quiet (c : Effect) : Prop := c.bails = false ∧ c.recorded = none

section Calls
variable {E : Fault → Prop} {t : Thread}

/-- What a call changes: nothing of the task. -/
structure Called (c : Effect) (t u : Thread) : Prop where
  task : u.task = t.task
  pending : u.pending = c.pending
  captured : u.captured = none ↔ t.captured = none ∧ c.recorded = none

theorem callEngine_meets {c : Effect} {Q : Exit Unit → Thread → Prop}
    (hret : ∀ u, Called c t u → c.bails = false → Q (.returned ()) u)
    (hbail : ∀ u, Called c t u → c.bails = true → Q .bailed u) : Meets (callEngine c) t E Q := by
  have hend : ∀ v : Option Value, (v = none ↔ t.captured = none ∧ c.recorded = none) →
      Meets (do update (Thread.setPending c.pending); if c.bails then bail else pure () : Work Unit)
        (t.setCaptured v) E Q := by
    intro v hv
    apply meets_update_bind
    split
    · next hb => exact meets_bail (hbail _ ⟨rfl, rfl, hv⟩ hb)
    · next hb => exact meets_pure (hret _ ⟨rfl, rfl, hv⟩ (Bool.not_eq_true _ ▸ hb))
  unfold callEngine
  cases hr : c.recorded with
  | none => exact hend t.captured (by simp [hr])
  | some ex =>
    obtain ⟨v, hv⟩ := captureException_ok ex t.captured
    apply meets_current_bind
    rw [hv]
    exact hend (some v) (by simp [hr])

theorem call_bind {β : Type} {c : Effect} {f : Unit → Work β} {Q : Exit β → Thread → Prop}
    (hret : ∀ u, Called c t u → c.bails = false → Meets (f ()) u E Q)
    (hbail : ∀ u, Called c t u → c.bails = true → Q .bailed u) :
    Meets (callEngine c >>= f) t E Q := by
  have hcall : Meets (callEngine c) t E fun e u => Called c t u ∧
      match e with
      | .returned _ => c.bails = false
      | .jumped => False
      | .bailed => c.bails = true :=
    callEngine_meets (fun _ hu hb => ⟨hu, hb⟩) fun _ hu hb => ⟨hu, hb⟩
  exact hcall.bind (fun _ u h => hret u h.1 h.2) (fun _ h => h.2.elim) fun u h => hbail u h.1 h.2

theorem ask_bind {α β : Type} (c : Reply α) (f : α → Work β) :
    ask c >>= f = callEngine c.toEffect >>= fun _ => f c.value := by
  simp only [ask, bind_assoc, pure_bind]

end Calls

/-! ## Where the task stands -/

def Failed (out : WaitGroup.Outcome PxCallable) : Prop :=
  out.ok = false ∧ out.result = none ∧ out.error.isSome

/-- Nothing is recorded, and no exception has been handed to the capture handler exactly when all
calls so far have gone through as `C` says. -/
structure OnCourse (C : Prop) (t : Thread) : Prop where
  result : t.task.result = none
  error : t.task.error = none
  captured : t.captured = none ↔ C

theorem OnCourse.congr {C D : Prop} {t : Thread} (h : OnCourse C t) (hcd : C ↔ D) :
    OnCourse D t := ⟨h.result, h.error, h.captured.trans hcd⟩

theorem OnCourse.called {C : Prop} {t u : Thread} {c : Effect} (h : OnCourse C t)
    (hu : Called c t u) (hb : c.bails = false) : OnCourse (C ∧ c.Quiet) u := by
  refine ⟨hu.task ▸ h.result, hu.task ▸ h.error, ?_⟩
  rw [hu.captured, h.captured, Effect.Quiet]
  simp [hb]

section Ends
variable {α β : Type} {E : Fault → Prop} {t : Thread} {C : Prop} {D : α → Prop} {F : β → Prop}

/-- How code before the recording is left, where `D a` says that it went through with `a`. -/
def Ends (D : α → Prop) : Exit α → Thread → Prop
  | .returned a, u => OnCourse (D a) u ∧ ∀ b, D b → b = a
  | .jumped, u => Failed u.task ∧ ∀ a, ¬ D a
  | .bailed, u => u.task.result = none ∧ ∀ a, ¬ D a

/-- How code that sets the error is left. -/
def Reports : Exit Unit → Thread → Prop
  | .returned _, u => Failed u.task
  | .jumped, _ => False
  | .bailed, u => u.task.result = none

/-- How code that sets the error and leaves the block is left. -/
def Aborts : Exit α → Thread → Prop
  | .returned _, _ => False
  | .jumped, u => Failed u.task
  | .bailed, u => u.task.result = none

theorem ends_pure {a : α} (h : OnCourse C t) (hD : C → D a) (hneed : ∀ b, D b → C)
    (hone : ∀ b, D b → b = a) : Meets (pure a) t E (Ends D) :=
  meets_pure ⟨h.congr ⟨hD, hneed a⟩, hone⟩

theorem ends_congr {x : Work α} {D' : α → Prop} (hx : Meets x t E (Ends D))
    (hD : ∀ a, D a ↔ D' a) : Meets x t E (Ends D') := by
  have hsame : D = D' := funext fun a => propext (hD a)
  exact hsame ▸ hx

theorem ends_of_aborts {x : Work α} (hx : Meets x t E Aborts) (hD : ∀ a, ¬ D a) :
    Meets x t E (Ends D) := by
  apply hx.mono
  intro e u h
  cases e with
  | returned a => exact h.elim
  | jumped => exact ⟨h, hD⟩
  | bailed => exact ⟨h, hD⟩

theorem ends_bind {x : Work α} {f : α → Work β} (hx : Meets x t E (Ends D))
    (hneed : ∀ b, F b → ∃ a, D a)
    (hret : ∀ a u, OnCourse (D a) u → (∀ b, F b → D a) → (∀ b, D b → b = a) →
      Meets (f a) u E (Ends F)) :
    Meets (x >>= f) t E (Ends F) := by
  have hnot : (∀ a, ¬ D a) → ∀ b, ¬ F b := by
    intro hD b hb
    obtain ⟨a, ha⟩ := hneed b hb
    exact hD a ha
  apply hx.bind
  · intro a u h
    apply hret a u h.1 _ h.2
    intro b hb
    obtain ⟨a', ha'⟩ := hneed b hb
    exact h.2 a' ha' ▸ ha'
  · intro u h
    exact ⟨h.1, hnot h.2⟩
  · intro u h
    exact ⟨h.1, hnot h.2⟩

/-- A call on the way: `hneed` says that going through takes all that has been met so far. -/
theorem ends_call_bind {c : Effect} {f : Unit → Work β} (h : OnCourse C t) (hneed : ∀ b, F b → C)
    (hquiet : ∀ b, F b → c.Quiet)
    (hret : ∀ u, OnCourse (C ∧ c.Quiet) u → (∀ b, F b → C ∧ c.Quiet) → u.pending = c.pending →
      Meets (f ()) u E (Ends F)) :
    Meets (callEngine c >>= f) t E (Ends F) := by
  apply call_bind
  · intro u hu hb
    exact hret u (h.called hu hb) (fun b hF => ⟨hneed b hF, hquiet b hF⟩) hu.pending
  · intro u hu hb
    refine ⟨hu.task ▸ h.result, fun b hF => ?_⟩
    have := (hquiet b hF).1
    simp [hb] at this

theorem ends_ask_bind {c : Reply α} {f : α → Work β} (h : OnCourse C t) (hneed : ∀ b, F b → C)
    (hquiet : ∀ b, F b → c.Quiet)
    (hret : ∀ u, OnCourse (C ∧ c.Quiet) u → (∀ b, F b → C ∧ c.Quiet) → u.pending = c.pending →
      Meets (f c.value) u E (Ends F)) :
    Meets (ask c >>= f) t E (Ends F) := by
  rw [ask_bind]
  exact ends_call_bind h hneed hquiet hret

theorem ends_callWhen_bind {b : Bool} {c : Effect} {f : Unit → Work β} (h : OnCourse C t)
    (hneed : ∀ y, F y → C) (hquiet : ∀ y, F y → b = true → c.Quiet)
    (hret : ∀ u, OnCourse (C ∧ (b = true → c.Quiet)) u → (∀ y, F y → C ∧ (b = true → c.Quiet)) →
      Meets (f ()) u E (Ends F)) :
    Meets (callWhen b c >>= f) t E (Ends F) := by
  have hneed' : ∀ y, F y → C ∧ (b = true → c.Quiet) := fun y hy => ⟨hneed y hy, hquiet y hy⟩
  cases b with
  | true =>
    apply ends_call_bind h hneed fun y hy => hquiet y hy rfl
    intro u hu _ _
    exact hret u (hu.congr (by simp)) hneed'
  | false => exact hret t (h.congr (by simp)) hneed'

theorem reports_call (c : Effect) (h : Failed t.task) : Meets (callEngine c) t E Reports := by
  apply callEngine_meets
  · intro u hu _
    change Failed u.task
    rw [hu.task]
    exact h
  · intro u hu _
    change u.task.result = none
    rw [hu.task]
    exact h.2.1

theorem reports_callWhen (b : Bool) (c : Effect) (h : Failed t.task) :
    Meets (callWhen b c) t E Reports := by
  cases b with
  | true => exact reports_call c h
  | false => exact meets_pure h

theorem reports_bind {x : Work Unit} {f : Unit → Work α} {Q : Exit α → Thread → Prop}
    (hx : Meets x t E Reports) (hret : ∀ u, Failed u.task → Meets (f ()) u E Q)
    (hbail : ∀ u, u.task.result = none → Q .bailed u) : Meets (x >>= f) t E Q :=
  hx.bind (fun _ => hret) (fun _ h => h.elim) hbail

theorem aborts_of_reports {x tail : Work Unit} (hx : Meets x t E Reports)
    (htail : ∀ u, Failed u.task → Meets tail u E Reports) :
    Meets (do x; tail; jump : Work α) t E Aborts := by
  apply reports_bind hx _ fun _ h => h
  intro u hu
  apply reports_bind (htail u hu) _ fun _ h => h
  intro w hw
  exact meets_jump hw

end Ends

/-! ## Setting the error -/

section Errors
variable {E : Fault → Prop} {t : Thread} (e : Engine)

theorem failWith_reports (cls msg : String) (h : t.task.result = none) :
    Meets (failWith cls msg) t E Reports := by
  obtain ⟨v, hv⟩ := valueErr_ok 0 (dupCstr_cstr_ok (ascii cls.toList))
    (dupCstr_cstr_ok (ascii msg.toList)) (dupCstr_cstr_ok [])
  unfold failWith
  rw [hv]
  exact ⟨rfl, h, rfl⟩

theorem takeCaptured_reports (err : Value) (h : t.task.result = none) :
    Meets (takeCaptured err) t E Reports := ⟨rfl, h, rfl⟩

theorem takeException_reports (ex : Exn) (h : t.task.result = none) :
    Meets (takeException e ex) t E Reports := by
  obtain ⟨v, hv⟩ := exceptionToValue_ok ex
  unfold takeException
  rw [hv]
  apply meets_update_bind
  apply meets_update_bind
  apply call_bind
  · intro u hu _
    apply meets_ok_bind
    apply meets_update_bind
    apply reports_call
    refine ⟨?_, ?_, rfl⟩
    · change u.task.ok = false
      rw [hu.task]
      rfl
    · change u.task.result = none
      rw [hu.task]
      exact h
  · intro u hu _
    change u.task.result = none
    rw [hu.task]
    exact h

theorem reportFailure_reports (cls msg : String) (h : t.task.result = none) :
    Meets (reportFailure e cls msg) t E Reports := by
  apply meets_current_bind
  cases t.captured with
  | some err => exact takeCaptured_reports err h
  | none =>
    cases t.pending with
    | some ex => exact takeException_reports e ex h
    | none => exact failWith_reports cls msg h

end Errors
end Parallax.Worker
