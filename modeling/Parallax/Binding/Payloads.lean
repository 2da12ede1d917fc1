import Parallax.WaitGroup.Outcome
import Parallax.Worker.Books
import Parallax.Worker.Outcome

/-! Who releases what `go()` hands to a group: a history of the group in which every task has the
ledger of `Worker/Ledger`, from the payload made in `go()` over the runner to `wg_destroy`. -/
namespace Parallax.Payloads
open WaitGroup Transition Worker
set_option autoImplicit false
set_option maxHeartbeats 250000

/-- `px_task_payload_t`, and the engine that the worker of the task will find. -/
structure Payload where
  callable : PxCallable
  engine : Engine

/-- `px_worker_main`; what stands for a run that does not return is never looked at. -/
def runner : Runner Payload := fun inp =>
  match inp.userData with
  | none => (Task.spawned inp).outcome
  | some p =>
    match pxWorkerMain p.engine inp.args p.callable with
    | .returned out =>
      ⟨out.ok, out.result, out.error, out.userData.map fun callable => ⟨callable, p.engine⟩⟩
    | _ => (Task.spawned inp).outcome

/-! ## States and steps -/

/-- A group, and the ledgers of its tasks. -/
structure State where
  group : WaitGroup.State Unit Payload
  ledgers : List Ledger

def State.init : State := ⟨WaitGroup.State.init, []⟩

inductive Act
  /-- `go()` has made the arguments and the payload, and calls `wg_go`. -/
  | go (args : Value) (payload : Payload)
  | wait | destroy
  | create (ok : Bool)
  | step | wake
  | work (t : ℕ)

def Act.onGroup : Act → WaitGroup.Act Unit Payload
  | .go args payload => .go () ⟨some args, some payload⟩
  | .wait => .wait ()
  | .destroy => .destroy ()
  | .create ok => .create () ok
  | .step => .step ()
  | .wake => .wake ()
  | .work t => .work t

/-- The ledger of a task when its runner has returned; there is none where the runner crashes or
ends the process. -/
def workLedger (s : State) (t : ℕ) : Option Ledger := do
  let k ← s.group.heap[t]?
  let l ← s.ledgers[t]?
  let p ← k.task.userData
  let r ← Booked.pxWorkerMain p.engine k.task.args p.callable l
  return r.2

/-- The run that leaves the ledger is the one whose outcome the group records. -/
theorem runner_booked {p : Payload} {args : Option Value} {l l' : Ledger}
    {out : Outcome PxCallable}
    (h : Booked.pxWorkerMain p.engine args p.callable l = some (out, l')) :
    runner ⟨args, some p⟩ =
      ⟨out.ok, out.result, out.error, out.userData.map fun callable => ⟨callable, p.engine⟩⟩ := by
  have herases := Booked.pxWorkerMain_erases p.engine args p.callable l
  rw [h] at herases
  cases hrun : pxWorkerMain p.engine args p.callable with
  | returned out' =>
    rw [hrun] at herases
    obtain rfl : out = out' := Option.some.inj herases
    simp only [runner, hrun]
  | _ =>
    rw [hrun] at herases
    cases herases

/-- What an action does to the ledgers. -/
def book (s : State) : Act → Option (List Ledger)
  | .go args _ => some (s.ledgers ++ [Ledger.handedOver (some args)])
  | .step => match s.group.pc () with
    | .freeTask i => (s.group.tasks[i]?).map fun t => s.ledgers.modify t Ledger.freeTrees
    | _ => some s.ledgers
  | .work t =>
    if s.group.stage t = some .running then (workLedger s t).map (s.ledgers.set t)
    else some s.ledgers
  | _ => some s.ledgers

def step (s : State) (a : Act) : Option State := do
  let ledgers ← book s a
  let group ← WaitGroup.step runner s.group a.onGroup
  return ⟨group, ledgers⟩

/-- A history from `wg_create` on in which no runner crashes or ends the process. -/
def Run (tr : List Act) (s : State) : Prop := run step State.init tr = some s

/-! ## What a history shows -/

def Act.payload? : Act → Option Payload
  | .go _ payload => some payload
  | _ => none

def Act.created? : Act → Option Bool
  | .create ok => some ok
  | _ => none

/-- The payloads of the `go()` calls. -/
def payloads (tr : List Act) : List Payload := tr.filterMap Act.payload?

/-- What `pthread_create` returned, call by call. -/
def created (tr : List Act) : List Bool := tr.filterMap Act.created?

/-- The callable and the arguments were released once, and so was every tree that was ever the
result or the error of the task. -/
structure ReleasedOnce (l : Ledger) : Prop where
  callable : l.callable.released = [0]
  args : l.args.released = [0]
  result : l.result.ReleasedOnce
  error : l.error.ReleasedOnce

/-- There is a ledger for each `go()`, and what it handed over was released once. -/
def AllReleased (tr : List Act) (s : State) : Prop :=
  s.ledgers.length = (payloads tr).length ∧ ∀ l ∈ s.ledgers, ReleasedOnce l

/-- Each `pthread_create` succeeds, and each `php_request_startup`. -/
def AllStarted (tr : List Act) : Prop :=
  (∀ ok ∈ created tr, ok = true) ∧ ∀ p ∈ payloads tr, p.engine.requestStartup.value = true

/-! ## A step of the group, cell by cell -/

section View
variable {ι υ : Type} {runner : Runner υ} {s s' : WaitGroup.State ι υ}

/-- What the ledger of a task goes by. -/
def view (k : Cell υ) : Inputs υ × ℕ × Bool := (k.inputs, k.writes, k.freed)

theorem goRegister_heap (s : WaitGroup.State ι υ) (t : ℕ) :
    (goRegister s t).heap = s.heap.modify t (Cell.register s.tasks.length) := by
  unfold goRegister
  split <;> rfl

variable [DecidableEq ι]

theorem pthreadJoin_view {c : ι} {i : ℕ} {next : Pc} (h : pthreadJoin s c i next = some s') :
    s'.heap.map view = s.heap.map view := by
  obtain ⟨t, -, h⟩ := Option.bind_eq_some_iff.mp h
  split at h
  · cases h
  · cases h
    exact map_modify_of_eq fun _ _ => rfl

theorem clientStep_view {c : ι} (h : clientStep s c = some s') (hfree : ∀ i, s.pc c ≠ .freeTask i) :
    s'.heap.map view = s.heap.map view := by
  unfold clientStep at h
  split at h
  case h_1 t _ =>
    cases h
    show (goRegister s t).heap.map view = _
    rw [goRegister_heap]
    exact map_modify_of_eq fun _ _ => rfl
  case h_7 => exact pthreadJoin_view h
  case h_8 =>
    obtain ⟨t, -, rfl⟩ := Option.map_eq_some_iff.mp h
    exact map_modify_of_eq fun _ _ => rfl
  case h_10 => exact pthreadJoin_view h
  case h_11 i hpc => exact absurd hpc (hfree i)
  case h_13 => cases h
  all_goals
    cases h
    first | rfl | exact map_modify_of_eq fun _ _ => rfl

/-- Only `wg_go` makes a cell, only a runner writes to one, and only `wg_destroy` frees one. -/
theorem step_view {a : WaitGroup.Act ι υ} (h : WaitGroup.step runner s a = some s')
    (hgo : a.goCall? = none) (hrun : ∀ t, a = .work t → s.stage t ≠ some .running)
    (hfree : ∀ c i, a = .step c → s.pc c ≠ .freeTask i) :
    s'.heap.map view = s.heap.map view := by
  cases a with
  | go c inp => cases hgo
  | create c ok =>
    unfold WaitGroup.step at h
    dsimp only at h
    split at h
    · split at h <;> cases h <;> exact map_modify_of_eq fun _ _ => rfl
    · cases h
  | step c => exact clientStep_view h fun i => hfree c i rfl
  | work t =>
    have hstep : workerStep runner s t = some s' := h
    unfold workerStep at hstep
    split at hstep
    case h_2 hs => exact absurd hs (hrun t rfl)
    case h_5 => cases hstep
    all_goals
      cases hstep
      exact map_modify_of_eq fun _ _ => rfl
  | _ =>
    unfold WaitGroup.step at h
    dsimp only at h
    split at h
    · cases h
      rfl
    · cases h

end View

/-! ## The ledger of each task -/

/-- The ledger of a cell: as it was handed over until the runner has written, and then as a runner
leaves it; and `wg_destroy` has been through it where the task is freed. -/
def Keeps (k : Cell Payload) (l : Ledger) : Prop :=
  ∃ args p l₀, k.inputs = ⟨some args, some p⟩ ∧
    (if k.writes = 0 then l₀ = Ledger.handedOver (some args)
      else Booked.Ending p.engine (some args) l₀) ∧
    l = if k.freed then l₀.freeTrees else l₀

structure Books (s : State) : Prop where
  length : s.ledgers.length = s.group.heap.length
  each : ∀ (t : ℕ) (k : Cell Payload) (l : Ledger), s.group.heap[t]? = some k →
    s.ledgers[t]? = some l → Keeps k l

section Steps
variable {s s' : State} {tr : List (WaitGroup.Act Unit Payload)}

theorem Keeps.of_view {k k' : Cell Payload} {l : Ledger} (h : Keeps k l) (hv : view k' = view k) :
    Keeps k' l := by
  obtain ⟨hin, hrest⟩ := Prod.mk.inj hv
  obtain ⟨hwrites, hfreed⟩ := Prod.mk.inj hrest
  unfold Keeps
  rw [hin, hwrites, hfreed]
  exact h

theorem Books.of_view (h : Books s) (hl : s'.ledgers = s.ledgers)
    (hv : s'.group.heap.map view = s.group.heap.map view) : Books s' := by
  refine ⟨?_, fun t k l hk hl' => ?_⟩
  · have hlen := congrArg List.length hv
    rw [List.length_map, List.length_map] at hlen
    rw [hl, hlen]
    exact h.length
  · have hk' : (s.group.heap.map view)[t]? = some (view k) := by
      rw [← hv, List.getElem?_map, hk]
      rfl
    rw [List.getElem?_map] at hk'
    obtain ⟨k₀, hk₀, hview⟩ := Option.map_eq_some_iff.mp hk'
    rw [hl] at hl'
    exact (h.each t k₀ l hk₀ hl').of_view hview.symm

/-- One task and its ledger change. -/
theorem Books.write {t : ℕ} {f : Cell Payload → Cell Payload} (h : Books s)
    (hheap : s'.group.heap = s.group.heap.modify t f)
    (hlen : s'.ledgers.length = s.ledgers.length)
    (hother : ∀ u, u ≠ t → s'.ledgers[u]? = s.ledgers[u]?)
    (hself : ∀ k l l', s.group.heap[t]? = some k → s.ledgers[t]? = some l →
      s'.ledgers[t]? = some l' → Keeps k l → Keeps (f k) l') : Books s' := by
  refine ⟨?_, fun u k l' hk hl' => ?_⟩
  · rw [hlen, hheap, List.length_modify]
    exact h.length
  · rw [hheap, List.getElem?_modify] at hk
    obtain ⟨k₀, hk₀, rfl⟩ := Option.map_eq_some_iff.mp hk
    by_cases hu : t = u
    · subst hu
      rw [if_pos rfl]
      obtain ⟨hlt, -⟩ := List.getElem?_eq_some_iff.mp hl'
      rw [hlen] at hlt
      have hl := List.getElem?_eq_getElem hlt
      exact hself k₀ _ l' hk₀ hl hl' (h.each t k₀ _ hk₀ hl)
    · rw [if_neg hu]
      rw [hother u (Ne.symm hu)] at hl'
      exact h.each u k₀ l' hk₀ hl'

theorem Books.go {args : Value} {payload : Payload} (h : Books s)
    (hstep : WaitGroup.step runner s.group (.go () ⟨some args, some payload⟩) = some s'.group)
    (hl : s'.ledgers = s.ledgers ++ [Ledger.handedOver (some args)]) : Books s' := by
  cases hpc : s.group.pc () with
  | idle ret =>
    simp only [WaitGroup.step, hpc, Option.some.injEq] at hstep
    have hheap : s'.group.heap = s.group.heap ++ [.alloc ⟨some args, some payload⟩] := by
      rw [← hstep]
    refine ⟨?_, fun t k l hk hl' => ?_⟩
    · rw [hl, hheap, List.length_append, List.length_append, h.length]
      rfl
    · rw [hheap] at hk
      rw [hl] at hl'
      by_cases ht : t < s.group.heap.length
      · rw [List.getElem?_append_left ht] at hk
        rw [List.getElem?_append_left (h.length ▸ ht)] at hl'
        exact h.each t k l hk hl'
      · have hle := Nat.le_of_not_lt ht
        rw [List.getElem?_append_right hle] at hk
        rw [List.getElem?_append_right (h.length ▸ hle), h.length] at hl'
        obtain ⟨hlt, rfl⟩ := List.getElem?_eq_some_iff.mp hk
        obtain ⟨-, rfl⟩ := List.getElem?_eq_some_iff.mp hl'
        have hzero : t - s.group.heap.length = 0 := Nat.lt_one_iff.mp hlt
        simp only [hzero]
        exact ⟨args, payload, _, rfl, rfl, rfl⟩
  | _ => simp only [WaitGroup.step, hpc] at hstep; cases hstep

/-- A task in its runner is not freed. -/
theorem unfreed_of_running {st : Standing} {k : Cell Payload} (h : st.Holds k)
    (hs : k.stage = .running) : k.freed = false := by
  have hset : ¬ Settled k := by
    rintro (⟨hk, -⟩ | ⟨hk, -⟩) <;> rw [hs] at hk <;> cases hk
  cases st with
  | resting =>
    rcases h with h | h
    · exact h.1
    · exact h.1
  | freed => exact absurd h.2 hset
  | _ => exact h.1

/-- The runner finds the ledger that was handed over, and leaves it as `pxWorkerMain_ending` says. -/
theorem Books.work {t : ℕ} {l' : Ledger} (h : Books s) (hg : WaitGroup.Inv runner tr s.group)
    (hs : s.group.stage t = some .running) (hwork : workLedger s t = some l')
    (hheap : s'.group.heap = s.group.heap.modify t (Cell.run runner))
    (hl : s'.ledgers = s.ledgers.set t l') : Books s' := by
  refine h.write hheap ?_ ?_ fun k l l'' hk hlt hl'' hkeeps => ?_
  · rw [hl, List.length_set]
  · intro u hu
    rw [hl, List.getElem?_set_ne (Ne.symm hu)]
  · obtain rfl : l' = l'' := by
      obtain ⟨hlen, -⟩ := List.getElem?_eq_some_iff.mp hlt
      rw [hl, List.getElem?_set, if_pos rfl, if_pos hlen] at hl''
      exact Option.some.inj hl''
    have hstage : k.stage = .running := by
      rw [WaitGroup.State.stage, hk] at hs
      exact Option.some.inj hs
    obtain ⟨hst, htask, hwrites⟩ := hg.each t k hk
    have hfreed := unfreed_of_running hst hstage
    obtain ⟨args, p, l₀, hin, hl₀, hlk⟩ := hkeeps
    rw [hstage] at htask hwrites
    have hzero : k.writes = 0 := hwrites
    rw [if_pos hzero] at hl₀
    rw [hfreed, if_neg Bool.false_ne_true] at hlk
    have hargs : k.task.args = some args := by
      rw [htask, hin]
      rfl
    have hdata : k.task.userData = some p := by
      rw [htask, hin]
      rfl
    unfold workLedger at hwork
    simp only [hk, hlt, hargs, hdata, Option.bind_eq_bind, Option.bind_some] at hwork
    obtain ⟨⟨out, l₁⟩, hrun, hsame⟩ := Option.bind_eq_some_iff.mp hwork
    cases hsame
    rw [hlk, hl₀] at hrun
    refine ⟨args, p, l₁, hin, ?_, ?_⟩
    · have hwritten : ¬ (k.run runner).writes = 0 := Nat.succ_ne_zero k.writes
      rw [if_neg hwritten]
      exact Booked.pxWorkerMain_ending hrun
    · have hrunfreed : (k.run runner).freed = false := hfreed
      rw [hrunfreed, if_neg Bool.false_ne_true]

theorem Books.free {i : ℕ} (h : Books s) (hg : WaitGroup.Inv runner tr s.group)
    (hpc : s.group.pc () = .freeTask i)
    (hheap : s'.group.heap = s.group.heap.modify i Cell.free)
    (hl : s'.ledgers = s.ledgers.modify i Ledger.freeTrees) : Books s' := by
  refine h.write hheap ?_ ?_ fun k l l' hk hlt hl' hkeeps => ?_
  · rw [hl, List.length_modify]
  · intro u hu
    rw [hl]
    exact List.getElem?_modify_ne _ _ (Ne.symm hu)
  · rw [hl, List.getElem?_modify_eq, hlt] at hl'
    obtain rfl : l.freeTrees = l' := Option.some.inj hl'
    have hst := (hg.each i k hk).1
    rw [hpc, standing, loopStanding_at] at hst
    obtain ⟨args, p, l₀, hin, hl₀, hlk⟩ := hkeeps
    rw [hst.1, if_neg Bool.false_ne_true] at hlk
    exact ⟨args, p, l₀, hin, hl₀, congrArg Ledger.freeTrees hlk⟩

/-- Any other action of the group. -/
theorem Books.other {a : WaitGroup.Act Unit Payload} (h : Books s)
    (hstep : WaitGroup.step runner s.group a = some s'.group) (hl : s'.ledgers = s.ledgers)
    (hgo : a.goCall? = none) (hrun : ∀ t, a = .work t → s.group.stage t ≠ some .running)
    (hfree : ∀ c i, a = .step c → s.group.pc c ≠ .freeTask i) : Books s' :=
  h.of_view hl (step_view hstep hgo hrun hfree)

theorem step_eq {a : Act} (h : step s a = some s') : book s a = some s'.ledgers ∧
    WaitGroup.step runner s.group a.onGroup = some s'.group := by
  obtain ⟨ledgers, hbook, h⟩ := Option.bind_eq_some_iff.mp h
  obtain ⟨group, hgroup, h⟩ := Option.bind_eq_some_iff.mp h
  cases h
  exact ⟨hbook, hgroup⟩

theorem Books.step {a : Act} (h : Books s) (hg : WaitGroup.Inv runner tr s.group)
    (hstep : step s a = some s') : Books s' := by
  obtain ⟨hbook, hgroup⟩ := step_eq hstep
  cases a with
  | go args payload => exact h.go hgroup (Option.some.inj hbook).symm
  | step =>
    by_cases hpc : ∃ i, s.group.pc () = .freeTask i
    · obtain ⟨i, hpc⟩ := hpc
      simp only [book, hpc] at hbook
      have hclient : clientStep s.group () = some s'.group := hgroup
      simp only [clientStep, hpc] at hclient
      obtain ⟨t, ht, hl⟩ := Option.map_eq_some_iff.mp hbook
      obtain ⟨u, hu, hs'⟩ := Option.map_eq_some_iff.mp hclient
      obtain rfl : t = u := Option.some.inj (ht.symm.trans hu)
      obtain ⟨rfl, -⟩ := hg.get ht
      exact h.free hg hpc (congrArg WaitGroup.State.heap hs').symm hl.symm
    · have hsame : book s .step = some s.ledgers := by
        unfold book
        dsimp only
        split
        · next i hi => exact absurd ⟨i, hi⟩ hpc
        · rfl
      have hl : s'.ledgers = s.ledgers := Option.some.inj (hbook.symm.trans hsame)
      refine h.other hgroup hl rfl (fun _ h => by cases h) fun _ i ha hi => ?_
      cases ha
      exact hpc ⟨i, hi⟩
  | work t =>
    by_cases hs : s.group.stage t = some .running
    · have hwork : (workLedger s t).map (s.ledgers.set t) = some s'.ledgers :=
        (if_pos hs).symm.trans hbook
      obtain ⟨l', hl', hset⟩ := Option.map_eq_some_iff.mp hwork
      have hworker : workerStep runner s.group t = some s'.group := hgroup
      simp only [workerStep, hs, Option.some.injEq] at hworker
      exact h.work hg hs hl' (congrArg WaitGroup.State.heap hworker).symm hset.symm
    · have hsame : s.ledgers = s'.ledgers := Option.some.inj ((if_neg hs).symm.trans hbook)
      refine h.other hgroup hsame.symm rfl (fun u hu => ?_) fun _ _ h => by cases h
      cases hu
      exact hs
  | wait =>
    exact h.other hgroup (Option.some.inj hbook).symm rfl (fun _ h => by cases h)
      fun _ _ h => by cases h
  | destroy =>
    exact h.other hgroup (Option.some.inj hbook).symm rfl (fun _ h => by cases h)
      fun _ _ h => by cases h
  | create ok =>
    exact h.other hgroup (Option.some.inj hbook).symm rfl (fun _ h => by cases h)
      fun _ _ h => by cases h
  | wake =>
    exact h.other hgroup (Option.some.inj hbook).symm rfl (fun _ h => by cases h)
      fun _ _ h => by cases h

end Steps

/-! ## Runs -/

/-- Without the ledgers, a history of the group, and the books are right all along. -/
theorem Run.sound {tr : List Act} {s : State} (h : Run tr s) :
    WaitGroup.Run runner (tr.map Act.onGroup) s.group ∧ Books s := by
  have hinit : WaitGroup.Run runner [] State.init.group := rfl
  have hbooks : Books State.init := ⟨rfl, fun t k l hk _ => by cases hk⟩
  refine run_invariant (P := fun (tr : List Act) (s : State) =>
    WaitGroup.Run runner (tr.map Act.onGroup) s.group ∧ Books s) ⟨hinit, hbooks⟩ ?_ h
  rintro tr s a s' ⟨hrun, hbooks⟩ hstep
  refine ⟨?_, hbooks.step hrun.inv hstep⟩
  have hall : run (WaitGroup.step runner) .init (tr.map Act.onGroup) = some s.group := hrun
  show run _ _ _ = _
  rw [List.map_append, run_append, hall, Option.bind_some]
  show (WaitGroup.step runner s.group a.onGroup).bind _ = _
  rw [(step_eq hstep).2]
  rfl

/-! ## When wg_destroy has returned -/

theorem freeTrees_released {args : Value} {l : Ledger} (h : Booked.Balanced (some args) l) :
    l.freeTrees.args.released = [0] ∧ l.freeTrees.result.ReleasedOnce ∧
      l.freeTrees.error.ReleasedOnce := by
  refine ⟨?_, h.result.released, h.error.released⟩
  show l.args.release.released = [0]
  rw [h.args_eq]
  rfl

theorem handedOver_balanced (args : Option Value) :
    Booked.Balanced args (Ledger.handedOver args) :=
  ⟨rfl, Ownership.Owner.start_balanced, Ownership.Owner.start_balanced⟩

section Freed
variable {k : Cell Payload} {l : Ledger}

/-- The trees of a task that was freed were released once, whether it had a thread or not. -/
theorem Keeps.trees_released (h : Keeps k l) (hfreed : k.freed = true) :
    l.args.released = [0] ∧ l.result.ReleasedOnce ∧ l.error.ReleasedOnce := by
  obtain ⟨args, p, l₀, -, hl₀, rfl⟩ := h
  rw [if_pos hfreed]
  split at hl₀
  · rw [hl₀]
    exact freeTrees_released (handedOver_balanced (some args))
  · exact freeTrees_released hl₀.balanced

/-- A task whose thread was created and whose request has started. -/
def Started (k : Cell Payload) : Prop := k.stage.creation = some true ∧
  ∀ p, k.inputs.userData = some p → p.engine.requestStartup.value = true

/-- The callable is released by the runner, if by anyone. -/
theorem Keeps.callable_iff {t : ℕ} (h : Keeps k l) (hfreed : k.freed = true) (hset : Settled k)
    (hkeeps : k.Keeps runner t) : l.callable.released = [0] ↔ Started k := by
  obtain ⟨args, p, l₀, hin, hl₀, rfl⟩ := h
  have hwrites := hkeeps.2
  have hdata : (∀ q, k.inputs.userData = some q → q.engine.requestStartup.value = true) ↔
      p.engine.requestStartup.value = true := by
    rw [hin]
    exact ⟨fun h => h p rfl, fun h q hq => by cases hq; exact h⟩
  rw [if_pos hfreed, Started, hdata]
  rcases hset with ⟨hstage, -⟩ | ⟨hstage, -⟩
  · -- the thread has ended, so its runner has returned
    rw [hstage] at hwrites ⊢
    have hwritten : k.writes = 1 := hwrites
    rw [hwritten, if_neg Nat.one_ne_zero] at hl₀
    exact hl₀.callable_iff.trans (and_iff_right rfl).symm
  · -- there never was a thread
    rw [hstage] at hwrites ⊢
    have hzero : k.writes = 0 := hwrites
    rw [if_pos hzero] at hl₀
    rw [hl₀]
    exact iff_of_false (fun hone => by cases hone) fun hstarted => by cases hstarted.1

theorem Keeps.released_iff {t : ℕ} (h : Keeps k l) (hfreed : k.freed = true) (hset : Settled k)
    (hkeeps : k.Keeps runner t) : ReleasedOnce l ↔ Started k := by
  rw [← h.callable_iff hfreed hset hkeeps]
  obtain ⟨hargs, hresult, herror⟩ := h.trees_released hfreed
  exact ⟨fun hl => hl.callable, fun hcallable => ⟨hcallable, hargs, hresult, herror⟩⟩

end Freed

theorem goCalls_onGroup (tr : List Act) :
    payloads tr = (goCalls (tr.map Act.onGroup)).filterMap (·.userData) ∧
      (payloads tr).length = (goCalls (tr.map Act.onGroup)).length ∧
      created tr = creations (tr.map Act.onGroup) := by
  induction tr with
  | nil => exact ⟨rfl, rfl, rfl⟩
  | cons a tr ih =>
    obtain ⟨hpayloads, hlen, hcreated⟩ := ih
    unfold payloads created goCalls creations at *
    cases a with
    | go args payload =>
      exact ⟨congrArg (payload :: ·) hpayloads, congrArg Nat.succ hlen, hcreated⟩
    | create ok => exact ⟨hpayloads, hlen, congrArg (ok :: ·) hcreated⟩
    | _ => exact ⟨hpayloads, hlen, hcreated⟩

section Gone
variable {tr : List Act} {s : State}

theorem freed_of_gone (h : WaitGroup.Inv runner (tr.map Act.onGroup) s.group)
    (hgone : s.group.pc () = .gone) {t : ℕ} {k : Cell Payload} (hk : s.group.heap[t]? = some k) :
    k.freed = true ∧ Settled k ∧ k.Keeps runner t := by
  have hcell := h.each t k hk
  rw [hgone] at hcell
  exact ⟨hcell.1.1, hcell.1.2, hcell.2⟩

theorem Books.of_mem (h : Books s) {l : Ledger} (hl : l ∈ s.ledgers) :
    ∃ (t : ℕ) (k : Cell Payload), s.group.heap[t]? = some k ∧ Keeps k l := by
  obtain ⟨t, ht⟩ := List.getElem?_of_mem hl
  obtain ⟨hlt, -⟩ := List.getElem?_eq_some_iff.mp ht
  rw [h.length] at hlt
  exact ⟨t, _, List.getElem?_eq_getElem hlt, h.each t _ l (List.getElem?_eq_getElem hlt) ht⟩

theorem Books.of_cell (h : Books s) {t : ℕ} {k : Cell Payload} (hk : s.group.heap[t]? = some k) :
    ∃ l ∈ s.ledgers, Keeps k l := by
  obtain ⟨hlt, -⟩ := List.getElem?_eq_some_iff.mp hk
  rw [← h.length] at hlt
  exact ⟨_, List.getElem_mem hlt, h.each t k _ hk (List.getElem?_eq_getElem hlt)⟩

/-- Whichever threads and requests start, the trees of every task were released once. -/
theorem trees_released (h : Run tr s) (hgone : s.group.pc () = .gone) :
    ∀ l ∈ s.ledgers, l.args.released = [0] ∧ l.result.ReleasedOnce ∧ l.error.ReleasedOnce := by
  intro l hl
  obtain ⟨hrun, hbooks⟩ := h.sound
  obtain ⟨t, k, hk, hkeeps⟩ := hbooks.of_mem hl
  exact hkeeps.trees_released (freed_of_gone hrun.inv hgone hk).1

theorem released_iff_started (h : WaitGroup.Inv runner (tr.map Act.onGroup) s.group)
    (hbooks : Books s) (hgone : s.group.pc () = .gone) :
    (∀ l ∈ s.ledgers, ReleasedOnce l) ↔ ∀ k ∈ s.group.heap, Started k := by
  have heach {t : ℕ} {k : Cell Payload} {l : Ledger} (hk : s.group.heap[t]? = some k)
      (hl : Keeps k l) : ReleasedOnce l ↔ Started k := by
    obtain ⟨hfreed, hset, hkeeps⟩ := freed_of_gone h hgone hk
    exact hl.released_iff hfreed hset hkeeps
  constructor
  · intro hall k hk
    obtain ⟨t, ht⟩ := List.getElem?_of_mem hk
    obtain ⟨l, hl, hkeeps⟩ := hbooks.of_cell ht
    exact (heach ht hkeeps).mp (hall l hl)
  · intro hall l hl
    obtain ⟨t, k, hk, hkeeps⟩ := hbooks.of_mem hl
    exact (heach hk hkeeps).mpr (hall k (List.mem_of_getElem? hk))

theorem started_iff (h : WaitGroup.Inv runner (tr.map Act.onGroup) s.group)
    (hgone : s.group.pc () = .gone) : (∀ k ∈ s.group.heap, Started k) ↔ AllStarted tr := by
  obtain ⟨hpayloads, -, hcreated⟩ := goCalls_onGroup tr
  rw [h.calls] at hpayloads
  rw [h.created] at hcreated
  constructor
  · refine fun hall => ⟨fun ok hok => ?_, fun p hp => ?_⟩
    · rw [hcreated] at hok
      obtain ⟨k, hk, hstage⟩ := List.mem_filterMap.mp hok
      exact Option.some.inj (hstage.symm.trans (hall k hk).1)
    · rw [hpayloads] at hp
      obtain ⟨inp, hinp, hdata⟩ := List.mem_filterMap.mp hp
      obtain ⟨k, hk, rfl⟩ := List.mem_map.mp hinp
      exact (hall k hk).2 p hdata
  · rintro ⟨hok, hp⟩ k hk
    obtain ⟨t, ht⟩ := List.getElem?_of_mem hk
    have hcreation := (freed_of_gone h hgone ht).2.1.creation
    refine ⟨?_, fun p hdata => hp p ?_⟩
    · have hmem : decide (k.joins = 1) ∈ s.group.heap.filterMap (·.stage.creation) :=
        List.mem_filterMap.mpr ⟨k, hk, hcreation⟩
      rw [← hcreated] at hmem
      rw [hcreation, hok _ hmem]
    · rw [hpayloads]
      exact List.mem_filterMap.mpr ⟨_, List.mem_map_of_mem hk, hdata⟩

/-- When `wg_destroy` has returned, everything that was handed over was released once if and only if
every thread was created and every request had started: the callable of any other task never is. -/
theorem all_released_iff (h : Run tr s) (hgone : s.group.pc () = .gone) :
    AllReleased tr s ↔ AllStarted tr := by
  obtain ⟨hrun, hbooks⟩ := h.sound
  have hinv := hrun.inv
  have hlen : s.ledgers.length = (payloads tr).length := by
    rw [(goCalls_onGroup tr).2.1, hinv.calls, List.length_map, hbooks.length]
  rw [AllReleased, and_iff_right hlen, released_iff_started hinv hbooks hgone,
    started_iff hinv hgone]

end Gone

/-- `go('f', [])` with an engine in which the call returns 7, if the request starts. -/
def goF (started : Bool) : Payload :=
  ⟨callF, { returningEngine ⟨plainHeap, .long 7⟩ false with
    requestStartup := ⟨quietCall, started⟩ }⟩

/-- The thread is created and runs to its end, and `wg_destroy` joins it. -/
def servedHistory (p : Payload) : List Act :=
  [.go (.arr ⟨0, [], 0⟩) p, .step, .create true, .step, .work 0, .work 0, .work 0, .work 0,
    .destroy, .step, .step, .step, .step, .step]

/-- `pthread_create` fails. -/
def refusedHistory (p : Payload) : List Act :=
  [.go (.arr ⟨0, [], 0⟩) p, .step, .create false, .step, .step, .destroy, .step, .step, .step, .step]

theorem all_released_served : ∃ s, Run (servedHistory (goF true)) s ∧ s.group.pc () = .gone ∧
    AllReleased (servedHistory (goF true)) s := by
  have hrun : Run (servedHistory (goF true)) _ := rfl
  refine ⟨_, hrun, rfl, (all_released_iff hrun rfl).mpr ⟨?_, ?_⟩⟩
  · intro ok hok
    exact List.mem_singleton.mp hok
  · intro p hp
    rw [List.mem_singleton.mp hp]
    rfl

/-- The callable of a task whose thread is refused is never freed, nor is that of a task whose
request does not start. -/
theorem not_all_released :
    (∃ s, Run (refusedHistory (goF true)) s ∧ s.group.pc () = .gone ∧
      ¬ AllReleased (refusedHistory (goF true)) s) ∧
    ∃ s, Run (servedHistory (goF false)) s ∧ s.group.pc () = .gone ∧
      ¬ AllReleased (servedHistory (goF false)) s := by
  refine ⟨⟨_, rfl, rfl, fun h => ?_⟩, ⟨_, rfl, rfl, fun h => ?_⟩⟩
  · cases (h.2 _ (List.mem_singleton_self _)).callable
  · cases (h.2 _ (List.mem_singleton_self _)).callable

end Parallax.Payloads
