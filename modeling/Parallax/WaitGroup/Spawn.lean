import Parallax.WaitGroup.Invariant

/-! What one `wg_go` changes in a group, whatever the workers do meanwhile: it appends the slot of
its own task, and leaves every other task to the worker that has it. -/
namespace Parallax.WaitGroup
open Transition
set_option autoImplicit false
set_option maxHeartbeats 250000

variable {υ : Type} {runner : Runner υ}

/-! ## What a worker does to its task -/

/-- The step of a worker, on its own task. -/
def Cell.work (runner : Runner υ) (k : Cell υ) : Option (Cell υ) :=
  match k.stage with
  | .started => some (k.setStage .running)
  | .running => some (k.run runner)
  | .ran => some (k.setStage .signalled)
  | .signalled => some (k.setStage .exited)
  | _ => none

/-- What becomes of a task through its worker alone. -/
def Worked (runner : Runner υ) : Cell υ → Cell υ → Prop :=
  Relation.ReflTransGen fun k k' => k.work runner = some k'

/-- A worker writes to its own task; the owner it may wake. -/
structure WorkerStep (runner : Runner υ) (s s' : State Unit υ) (t : ℕ) (f : Cell υ → Cell υ) :
    Prop where
  heap : s'.heap = s.heap.modify t f
  work : ∀ k, s.heap[t]? = some k → k.work runner = some (f k)
  tasks : s'.tasks = s.tasks
  pc : s'.pc () = s.pc () ∨ s'.pc () = (s.pc ()).wake

theorem workerStep_spec {s s' : State Unit υ} {t : ℕ} (h : workerStep runner s t = some s') :
    ∃ f, WorkerStep runner s s' t f := by
  have hstage {stage : Stage} (hs : s.stage t = some stage) (k : Cell υ)
      (hk : s.heap[t]? = some k) : k.stage = stage := by
    rw [State.stage, hk] at hs
    exact Option.some.inj hs
  unfold workerStep at h
  split at h
  · next hs =>
    cases h
    exact ⟨_, rfl, fun k hk => by rw [Cell.work, hstage hs k hk], rfl, .inl rfl⟩
  · next hs =>
    cases h
    exact ⟨_, rfl, fun k hk => by rw [Cell.work, hstage hs k hk], rfl, .inl rfl⟩
  · next hs =>
    cases h
    refine ⟨Cell.setStage .signalled, rfl, fun k hk => ?_, rfl, ?_⟩
    · rw [Cell.work, hstage hs k hk]
    · unfold signalDone
      dsimp only
      split
      · exact .inr rfl
      · exact .inl rfl
  · next hs =>
    cases h
    exact ⟨_, rfl, fun k hk => by rw [Cell.work, hstage hs k hk], rfl, .inl rfl⟩
  · cases h

theorem Cell.work_keeps {k k' : Cell υ} (h : k.work runner = some k') :
    k'.inputs = k.inputs ∧ k'.task.args = k.task.args ∧ k'.task.slot = k.task.slot := by
  unfold Cell.work at h
  split at h <;> cases h <;> exact ⟨rfl, rfl, rfl⟩

/-! ## In the middle of wg_go -/

/-- Past the first section under the lock, for task `t`, or returned. -/
def Pc.pastRegister (t : ℕ) : Pc → Prop
  | .goCreate u | .goMark u | .goUncount u | .goFail u => u = t
  | .idle (.go _) => True
  | _ => False

/-- The task of the call in its slot, and the owner on the way to the return. -/
structure Registered (g g' : State Unit υ) : Prop where
  pc : (g'.pc ()).pastRegister g.heap.length
  tasks : g'.tasks = g.tasks ++ [g.heap.length]
  slot : ∀ k, g'.heap[g.heap.length]? = some k → k.task.slot = g.tasks.length

/-- Where a group stands once `wg_go` was called with `inp` in `g`. -/
structure Spawning (runner : Runner υ) (inp : Inputs υ) (g g' : State Unit υ) : Prop where
  length : g'.heap.length = g.heap.length + 1
  old : ∀ (i : ℕ) (k : Cell υ), g.heap[i]? = some k →
    ∃ k', g'.heap[i]? = some k' ∧ Worked runner k k'
  own : ∀ k, g'.heap[g.heap.length]? = some k → k.inputs = inp ∧ k.task.args = inp.args
  place : (g'.pc () = .goRegister g.heap.length ∧ g'.tasks = g.tasks) ∨ Registered g g'

section Steps
variable {inp : Inputs υ} {g g' g'' : State Unit υ}

theorem Spawning.start {c : Unit} (h : step runner g (.go c inp) = some g') :
    Spawning runner inp g g' := by
  cases hpc : g.pc c with
  | idle ret =>
    simp only [step, hpc, Option.some.injEq] at h
    subst h
    refine ⟨List.length_append, fun i k hk => ⟨k, ?_, .refl⟩, fun k hk => ?_, .inl ⟨?_, rfl⟩⟩
    · show (g.heap ++ [Cell.alloc inp])[i]? = some k
      rw [List.getElem?_append_left (List.getElem?_eq_some_iff.mp hk).1]
      exact hk
    · change (g.heap ++ [Cell.alloc inp])[g.heap.length]? = some k at hk
      rw [List.getElem?_append_right le_rfl, Nat.sub_self] at hk
      cases hk
      exact ⟨rfl, rfl⟩
    · exact State.setPc_pc g () _
  | _ => simp only [step, hpc] at h; cases h

/-- A write of the owner, to the task of the call. -/
theorem Spawning.write {f : Cell υ → Cell υ} (h : Spawning runner inp g g')
    (hheap : g''.heap = g'.heap.modify g.heap.length f) (hin : ∀ k, (f k).inputs = k.inputs)
    (hargs : ∀ k, (f k).task.args = k.task.args) (hplace : Registered g g'') :
    Spawning runner inp g g'' := by
  refine ⟨by rw [hheap, List.length_modify, h.length], fun i k hk => ?_, fun k hk => ?_,
    .inr hplace⟩
  · have hi : g.heap.length ≠ i := Nat.ne_of_gt (List.getElem?_eq_some_iff.mp hk).1
    obtain ⟨k', hk', hw⟩ := h.old i k hk
    refine ⟨k', ?_, hw⟩
    rw [hheap, List.getElem?_modify_ne _ _ hi, hk']
  · rw [hheap, List.getElem?_modify_eq] at hk
    obtain ⟨k', hk', rfl⟩ := Option.map_eq_some_iff.mp hk
    rw [hin, hargs]
    exact h.own k' hk'

theorem Registered.write {f : Cell υ → Cell υ} (h : Registered g g')
    (hheap : g''.heap = g'.heap.modify g.heap.length f) (htasks : g''.tasks = g'.tasks)
    (hslot : ∀ k, (f k).task.slot = k.task.slot) (hpc : (g''.pc ()).pastRegister g.heap.length) :
    Registered g g'' := by
  refine ⟨hpc, htasks.trans h.tasks, fun k hk => ?_⟩
  rw [hheap, List.getElem?_modify_eq] at hk
  obtain ⟨k', hk', rfl⟩ := Option.map_eq_some_iff.mp hk
  rw [hslot]
  exact h.slot k' hk'

theorem Pc.pastRegister_wake {t : ℕ} {p : Pc} (h : p.pastRegister t) : p.wake = p := by
  cases p <;> first | rfl | exact h.elim

/-- A step of any worker, the one of the call among them. -/
theorem Spawning.work {t : ℕ} {f : Cell υ → Cell υ} (h : Spawning runner inp g g')
    (hw : WorkerStep runner g' g'' t f) : Spawning runner inp g g'' := by
  have hkeep {i : ℕ} {k : Cell υ} (hk : g''.heap[i]? = some k) :
      ∃ k', g'.heap[i]? = some k' ∧ k.inputs = k'.inputs ∧ k.task.args = k'.task.args ∧
        k.task.slot = k'.task.slot := by
    rw [hw.heap, List.getElem?_modify] at hk
    obtain ⟨k', hk', rfl⟩ := Option.map_eq_some_iff.mp hk
    refine ⟨k', hk', ?_⟩
    split
    · next ht =>
      subst ht
      exact Cell.work_keeps (hw.work k' hk')
    · exact ⟨rfl, rfl, rfl⟩
  refine ⟨by rw [hw.heap, List.length_modify, h.length], fun i k hk => ?_, fun k hk => ?_, ?_⟩
  · obtain ⟨k', hk', hworked⟩ := h.old i k hk
    by_cases ht : t = i
    · subst ht
      refine ⟨f k', ?_, hworked.tail (hw.work k' hk')⟩
      rw [hw.heap, List.getElem?_modify_eq, hk']
      rfl
    · exact ⟨k', by rw [hw.heap, List.getElem?_modify_ne _ _ ht, hk'], hworked⟩
  · obtain ⟨k', hk', hin, hargs, -⟩ := hkeep hk
    rw [hin, hargs]
    exact h.own k' hk'
  · rcases h.place with ⟨hpc, htasks⟩ | hreg
    · refine .inl ⟨?_, hw.tasks.trans htasks⟩
      rcases hw.pc with hp | hp
      · rw [hp, hpc]
      · rw [hp, hpc]
        rfl
    · refine .inr ⟨?_, hw.tasks.trans hreg.tasks, fun k hk => ?_⟩
      · rcases hw.pc with hp | hp
        · rw [hp]
          exact hreg.pc
        · rw [hp, Pc.pastRegister_wake hreg.pc]
          exact hreg.pc
      · obtain ⟨k', hk', -, -, hslot⟩ := hkeep hk
        rw [hslot]
        exact hreg.slot k' hk'

/-- The actions that go on with a call, and those of the workers. -/
def Act.goesOn : Act Unit υ → Bool
  | .create _ _ | .step _ | .wake _ | .work _ => true
  | _ => false

theorem Spawning.clientStep (h : Spawning runner inp g g')
    (hstep : clientStep g' () = some g'') : Spawning runner inp g g'' := by
  unfold WaitGroup.clientStep at hstep
  rcases h.place with ⟨hpc, htasks⟩ | hreg
  · simp only [hpc, Option.some.injEq] at hstep
    subst hstep
    -- growing the array changes its capacity only
    have hgrow : goRegister g' g.heap.length = { g' with
        remaining := g'.remaining + 1
        tasks := g'.tasks ++ [g.heap.length]
        cap := (goRegister g' g.heap.length).cap
        heap := g'.heap.modify g.heap.length (Cell.register g'.tasks.length) } := by
      unfold goRegister
      dsimp only
      split <;> rfl
    rw [hgrow]
    refine h.write (f := Cell.register g'.tasks.length) rfl (fun _ => rfl) (fun _ => rfl)
      ⟨?_, ?_, fun k hk => ?_⟩
    · rw [State.setPc_pc]
      rfl
    · show g'.tasks ++ _ = _
      rw [htasks]
    · change (g'.heap.modify g.heap.length (Cell.register g'.tasks.length))[g.heap.length]? =
        some k at hk
      rw [List.getElem?_modify_eq] at hk
      obtain ⟨k', -, rfl⟩ := Option.map_eq_some_iff.mp hk
      exact congrArg List.length htasks
  · have hpast := hreg.pc
    cases hpc : g'.pc () with
    | goMark u =>
      rw [hpc] at hpast
      obtain rfl : u = _ := hpast
      simp only [hpc, Option.some.injEq] at hstep
      subst hstep
      refine h.write (f := Cell.mark true) rfl (fun _ => rfl) (fun _ => rfl)
        (hreg.write (f := Cell.mark true) rfl rfl (fun _ => rfl) ?_)
      rw [State.setPc_pc]
      trivial
    | goUncount u =>
      rw [hpc] at hpast
      obtain rfl : u = _ := hpast
      simp only [hpc, Option.some.injEq] at hstep
      subst hstep
      refine h.write (f := Cell.setStage .failed) rfl (fun _ => rfl) (fun _ => rfl)
        (hreg.write (f := Cell.setStage .failed) rfl rfl (fun _ => rfl) ?_)
      rw [State.setPc_pc]
      rfl
    | goFail u =>
      rw [hpc] at hpast
      obtain rfl : u = _ := hpast
      simp only [hpc, Option.some.injEq] at hstep
      subst hstep
      refine h.write (f := Cell.fail) rfl (fun _ => rfl) (fun _ => rfl)
        (hreg.write (f := Cell.fail) rfl rfl (fun _ => rfl) ?_)
      rw [State.setPc_pc]
      trivial
    | goCreate u => simp only [hpc] at hstep; cases hstep
    | idle ret => simp only [hpc] at hstep; cases hstep
    | _ => rw [hpc] at hpast; exact hpast.elim

theorem Spawning.create {ok : Bool} (h : Spawning runner inp g g')
    (hstep : step runner g' (.create () ok) = some g'') : Spawning runner inp g g'' := by
  cases hpc : g'.pc () with
  | goCreate u =>
    rcases h.place with ⟨hp, -⟩ | hreg
    · rw [hpc] at hp
      cases hp
    · have hpast := hreg.pc
      rw [hpc] at hpast
      obtain rfl : u = _ := hpast
      cases ok with
      | true =>
        simp only [step, hpc, if_true, Option.some.injEq] at hstep
        subst hstep
        refine h.write (f := Cell.setStage .started) rfl (fun _ => rfl) (fun _ => rfl)
          (hreg.write (f := Cell.setStage .started) rfl rfl (fun _ => rfl) ?_)
        rw [State.setPc_pc]
        rfl
      | false =>
        simp only [step, hpc, Bool.false_eq_true, if_false, Option.some.injEq] at hstep
        subst hstep
        refine h.write (f := Cell.setStage .refused) rfl (fun _ => rfl) (fun _ => rfl)
          (hreg.write (f := Cell.setStage .refused) rfl rfl (fun _ => rfl) ?_)
        rw [State.setPc_pc]
        rfl
  | _ => simp only [step, hpc] at hstep; cases hstep

/-- Every action that goes on with the call, or with a worker, keeps it. -/
theorem Spawning.step {a : Act Unit υ} (h : Spawning runner inp g g') (ha : a.goesOn = true)
    (hstep : step runner g' a = some g'') : Spawning runner inp g g'' := by
  cases a with
  | create c ok => exact h.create hstep
  | step c => exact h.clientStep hstep
  | wake c =>
    -- nobody who is in `wg_go` is blocked
    cases hpc : g'.pc c with
    | waitBlocked =>
      rcases h.place with ⟨hp, -⟩ | hreg
      · rw [hpc] at hp
        cases hp
      · have hpast := hreg.pc
        rw [hpc] at hpast
        exact hpast.elim
    | _ => simp only [WaitGroup.step, hpc] at hstep; cases hstep
  | work t =>
    obtain ⟨f, hf⟩ := workerStep_spec hstep
    exact h.work hf
  | _ => cases ha

end Steps

/-! ## When it returns -/

/-- A group with one slot more than another, made of `inp`; the other slots are as their own
workers have left them. -/
structure AppendsSlot (runner : Runner υ) (inp : Inputs υ) (g g' : State Unit υ) : Prop where
  size : wgSize g' = wgSize g + 1
  new : ∃ k, wgGet g' (wgSize g) = some k ∧ k.inputs = inp ∧ k.task.args = inp.args ∧
    k.task.slot = wgSize g
  old : ∀ i k, wgGet g i = some k → ∃ k', wgGet g' i = some k' ∧ Worked runner k k'

theorem Spawning.appends {inp : Inputs υ} {g g' : State Unit υ} {tr : List (Act Unit υ)} {ret : Ret}
    {ret' : Ret} (h : Spawning runner inp g g') (hinv : Inv runner tr g)
    (hg : g.pc () = .idle ret) (hg' : g'.pc () = .idle ret') : AppendsSlot runner inp g g' := by
  have hreg : Registered g g' := by
    rcases h.place with ⟨hp, -⟩ | hreg
    · rw [hg'] at hp
      cases hp
    · exact hreg
  have hlen := hinv.length
  rw [hg] at hlen
  have hsize : g.heap.length = wgSize g := hlen
  have hlt : g.heap.length < g'.heap.length := by
    rw [h.length]
    exact Nat.lt_succ_self _
  have hnew : g'.heap[g.heap.length]? = some g'.heap[g.heap.length] := List.getElem?_eq_getElem hlt
  refine ⟨?_, ⟨_, ?_, (h.own _ hnew).1, (h.own _ hnew).2, hreg.slot _ hnew⟩, fun i k hk => ?_⟩
  · rw [wgSize, hreg.tasks, List.length_append]
    rfl
  · rw [wgGet, hreg.tasks, wgSize, List.getElem?_append_right le_rfl, Nat.sub_self]
    exact hnew
  · obtain ⟨t, ht, hk⟩ := Option.bind_eq_some_iff.mp hk
    obtain ⟨k', hk', hw⟩ := h.old t k hk
    refine ⟨k', ?_, hw⟩
    rw [wgGet, hreg.tasks, List.getElem?_append_left (List.getElem?_eq_some_iff.mp ht).1, ht]
    exact hk'

end Parallax.WaitGroup
