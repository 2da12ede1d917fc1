import Parallax.WaitGroup.Invariant

/-! What the owner of a group finds in it: the results when `wg_wait` returns, the entries that
`WaitGroup::wait` makes of them, and the ends of the threads. -/
namespace Parallax.WaitGroup
open Transition
set_option autoImplicit false
set_option maxHeartbeats 250000

variable {υ : Type} {runner : Runner υ} {tr : List (Act Unit υ)} {s : State Unit υ}

/-! ## When wg_wait returns -/

theorem Inv.returned (h : Inv runner tr s) (hw : s.pc () = .idle .wait) :
    Each (fun t k => Cleared k ∧ k.Keeps runner t) s.heap := by
  have := h.each
  rw [hw] at this
  exact this

theorem Inv.tasks_getElem? (h : Inv runner tr s) (hw : s.pc () = .idle .wait) (i : ℕ) :
    wgGet s i = s.heap[i]? := by
  have hlen := h.length
  rw [hw] at hlen
  by_cases hi : i < s.tasks.length
  · have ht : s.tasks[i]? = some i := by
      rw [h.tasks, List.getElem?_range hi]
    rw [wgGet, ht]
    rfl
  · have ht : s.tasks[i]? = none := List.getElem?_eq_none (by omega)
    have hk : s.heap[i]? = none := List.getElem?_eq_none (by simp only [Pc.pending] at hlen; omega)
    rw [wgGet, ht, hk]
    rfl

theorem Settled.creation {k : Cell υ} (h : Settled k) :
    k.stage.creation = some (decide (k.joins = 1)) := by
  rcases h with ⟨hs, hj⟩ | ⟨hs, hj⟩
  · rw [hs, hj]
    rfl
  · rw [hs, hj]
    rfl

theorem Inv.creations_eq (h : Inv runner tr s) (hs : ∀ k ∈ s.heap, Settled k) :
    creations tr = s.heap.map fun k => decide (k.joins = 1) := by
  rw [h.created, List.filterMap_congr fun k hk => (hs k hk).creation, List.filterMap_eq_map']

theorem Each.forall_mem {P : Cell υ → Prop} (h : Each (fun _ k => P k) s.heap) :
    ∀ k ∈ s.heap, P k := by
  intro k hk
  obtain ⟨t, ht⟩ := List.getElem?_of_mem hk
  exact h t k ht

/-- The task of the `i`-th call once it is settled, by whether its thread was created. -/
def settledTask (runner : Runner υ) (i : ℕ) (inp : Inputs υ) (ok : Bool) : Task υ :=
  let task := { Task.spawned inp with slot := i }
  if ok then task.record (runner inp) else task

theorem Cell.Keeps.settled {t : ℕ} {k : Cell υ} (h : k.Keeps runner t) (hc : Cleared k) :
    k.task = settledTask runner t k.inputs (decide (k.joins = 1)) := by
  obtain ⟨-, hs, hm⟩ := hc
  have ht := h.1
  rw [hm] at ht
  rcases hs with ⟨hs, hj⟩ | ⟨hs, hj⟩
  · rw [ht, hs, hj]
    rfl
  · rw [ht, hs, hj]
    rfl

/-- The tasks in slot order. -/
def contents (s : State Unit υ) : List (Option (Task υ)) :=
  (List.range (wgSize s)).map fun i => (wgGet s i).map (·.task)

/-- The slots a returned wait leaves, from the calls and the creations alone. -/
def expected (runner : Runner υ) (calls : List (Inputs υ)) (created : List Bool) :
    List (Option (Task υ)) :=
  (List.range calls.length).map fun i =>
    (calls[i]?).bind fun inp => (created[i]?).map fun ok => settledTask runner i inp ok

theorem wgSize_eq (h : Inv runner tr s) (hw : s.pc () = .idle .wait) :
    wgSize s = (goCalls tr).length := by
  have := h.length
  rw [hw] at this
  rw [h.calls, List.length_map, this]
  rfl

theorem contents_eq (h : Inv runner tr s) (hw : s.pc () = .idle .wait) :
    contents s = expected runner (goCalls tr) (creations tr) := by
  have hret := h.returned hw
  have hset : ∀ k ∈ s.heap, Settled k := Each.forall_mem (hret.mono fun _ _ hk => hk.1.2.1)
  rw [contents, expected, wgSize_eq h hw]
  apply List.map_congr_left
  intro i hi
  rw [h.tasks_getElem? hw, h.calls, h.creations_eq hset, List.getElem?_map, List.getElem?_map]
  cases hk : s.heap[i]? with
  | none => rfl
  | some k =>
    obtain ⟨hc, hkeep⟩ := hret i k hk
    exact congrArg some (hkeep.settled hc)

/-- The slot of a call, once `wg_wait` has returned. -/
theorem Inv.slot_of_call (h : Inv runner tr s) (hw : s.pc () = .idle .wait) {i : ℕ}
    {inp : Inputs υ} (hi : (goCalls tr)[i]? = some inp) :
    ∃ k, wgGet s i = some k ∧ s.heap[i]? = some k ∧ k.inputs = inp ∧ k.task.slot = i ∧
      k.task.args = inp.args ∧
      ((creations tr)[i]? = some true → k.task.outcome = runner inp ∧ k.writes = 1) := by
  have hret := h.returned hw
  have hset : ∀ k ∈ s.heap, Settled k := Each.forall_mem (hret.mono fun _ _ hk => hk.1.2.1)
  rw [h.calls, List.getElem?_map] at hi
  obtain ⟨k, hk, rfl⟩ := Option.map_eq_some_iff.mp hi
  obtain ⟨hc, hkeep⟩ := hret i k hk
  have htask := hkeep.settled hc
  refine ⟨k, by rw [h.tasks_getElem? hw, hk], hk, rfl, ?_, ?_, fun hcr => ?_⟩
  · rw [htask, settledTask]
    split <;> rfl
  · rw [htask, settledTask]
    split <;> rfl
  · rw [h.creations_eq hset, List.getElem?_map, hk] at hcr
    have hj : decide (k.joins = 1) = true := Option.some.inj hcr
    have hs : k.stage = .exited := by
      rcases hc.2.1 with ⟨hs, -⟩ | ⟨-, h0⟩
      · exact hs
      · rw [h0] at hj
        cases hj
    refine ⟨?_, ?_⟩
    · rw [htask, hj]
      rfl
    · rw [hkeep.2, hs]
      rfl

/-- Whenever `wg_wait` returns: one slot for each `wg_go`, in call order; in each slot whose
thread was created the runner's outcome for that call, written once by its own worker; no worker
before its `wg_signal_done`; and nothing in the slots that depends on the schedule. -/
theorem wait_results {runner : Runner υ} {tr : List (Act Unit υ)} {s : State Unit υ}
    (h : Run runner tr s) (hw : s.pc () = .idle .wait) :
    wgSize s = (goCalls tr).length ∧
    (∀ i inp, (goCalls tr)[i]? = some inp → ∃ k, wgGet s i = some k ∧ s.heap[i]? = some k ∧
      k.inputs = inp ∧ k.task.slot = i ∧ k.task.args = inp.args ∧
      ((creations tr)[i]? = some true → k.task.outcome = runner inp ∧ k.writes = 1)) ∧
    (∀ (t : ℕ) (k : Cell υ), s.heap[t]? = some k → k.stage.beforeSignal = false) ∧
    ∀ tr' s', Run runner tr' s' → s'.pc () = .idle .wait → goCalls tr' = goCalls tr →
      creations tr' = creations tr → contents s' = contents s := by
  have hinv := h.inv
  have hret := hinv.returned hw
  refine ⟨wgSize_eq hinv hw, fun i inp hi => hinv.slot_of_call hw hi, ?_, ?_⟩
  · intro t k hk
    rcases (hret t k hk).1.2.1 with ⟨hs, -⟩ | ⟨hs, -⟩
    · rw [hs]
      rfl
    · rw [hs]
      rfl
  · intro tr' s' h' hw' hcalls hcreated
    rw [contents_eq hinv hw, contents_eq h'.inv hw', hcalls, hcreated]

/-- A runner that hands its arguments back. -/
def echoRunner : Runner Unit := fun inp => ⟨true, some (inp.args.getD .null), none, inp.userData⟩

/-- Two tasks, of whose workers the first is in its runner when the second is created. -/
def twoSpawned : List (Act Unit Unit) :=
  [.go () ⟨some (.long 7), none⟩, .step (), .create () true, .step (),
    .go () ⟨some (.bool true), none⟩, .step (), .work 0, .create () true, .step (), .work 1]

/-- A third task, whose thread cannot be created. -/
def thirdRefused : List (Act Unit Unit) :=
  [.go () ⟨some (.long 9), none⟩, .step (), .create () false, .step (), .step ()]

/-- `wg_wait` blocks, the second worker is done before the first, and both are joined. -/
def bothJoined : List (Act Unit Unit) :=
  [.wait (), .step (), .work 1, .work 1, .work 0, .work 0, .step (), .step (), .work 0, .step (),
    .step (), .step (), .work 1, .step (), .step ()]

def twoWaited : List (Act Unit Unit) := twoSpawned ++ bothJoined ++ [.step ()]

def threeWaited : List (Act Unit Unit) :=
  twoSpawned ++ thirdRefused ++ bothJoined ++ [.step (), .step ()]

/-- The same calls, each worker done before the next step of its client. -/
def threeInTurn : List (Act Unit Unit) :=
  [.go () ⟨some (.long 7), none⟩, .step (), .create () true, .work 0, .work 0, .work 0, .work 0,
    .step (), .go () ⟨some (.bool true), none⟩, .step (), .create () true, .work 1, .work 1, .work 1,
    .work 1, .step ()] ++ thirdRefused ++ [.wait (), .step (), .step (), .step (), .step (), .step (),
    .step (), .step (), .step (), .step ()]

theorem wait_results_three : ∃ s, Run echoRunner threeWaited s ∧ s.pc () = .idle .wait ∧
    wgSize s = 3 ∧
    (∃ k, wgGet s 0 = some k ∧ k.task.outcome = ⟨true, some (.long 7), none, none⟩) ∧
    (∃ k, wgGet s 1 = some k ∧ k.task.outcome = ⟨true, some (.bool true), none, none⟩) ∧
    (∃ k, wgGet s 2 = some k ∧ k.task.args = some (.long 9)) ∧
    ∃ s', Run echoRunner threeInTurn s' ∧ contents s' = contents s := by
  have hrun : Run echoRunner threeWaited _ := rfl
  have hturn : Run echoRunner threeInTurn _ := rfl
  obtain ⟨hsize, hslots, -, hsame⟩ := wait_results hrun rfl
  obtain ⟨k₀, hk₀, -, -, -, -, hout₀⟩ := hslots 0 ⟨some (.long 7), none⟩ rfl
  obtain ⟨k₁, hk₁, -, -, -, -, hout₁⟩ := hslots 1 ⟨some (.bool true), none⟩ rfl
  obtain ⟨k₂, hk₂, -, -, -, hargs, -⟩ := hslots 2 ⟨some (.long 9), none⟩ rfl
  exact ⟨_, hrun, rfl, hsize, ⟨k₀, hk₀, (hout₀ rfl).1⟩, ⟨k₁, hk₁, (hout₁ rfl).1⟩, ⟨k₂, hk₂, hargs⟩,
    _, hturn, hsame _ _ hturn rfl rfl rfl⟩

/-! ## What WaitGroup::wait makes of the slots -/

/-- The rule of `task_runner_t`: one of `result` and `error`, and `ok` says which. -/
structure Outcome.Rule (o : Outcome υ) : Prop where
  one : o.result.isSome = !o.error.isSome
  ok_iff : o.ok = o.result.isSome

/-- A `ParallaxResult`: the snapshots its properties are made of. -/
structure ParallaxResult where
  ok : Bool
  value : Option Value
  error : Option Value

/-- The body of the loop of `WaitGroup::wait`. -/
def Task.entry (t : Task υ) : ParallaxResult :=
  { ok := t.ok
    value := if t.ok ∧ t.result.isSome then t.result else none
    error := if ¬ t.ok ∧ t.error.isSome then t.error else none }

/-- Every slot obeys the rule, and its entry carries a value or an error. -/
def SlotsObey (s : State Unit υ) : Prop :=
  ∀ i, i < wgSize s → ∃ k, wgGet s i = some k ∧ k.task.outcome.Rule ∧
    (k.task.entry.value.isSome ∨ k.task.entry.error.isSome)

theorem Outcome.Rule.entry {t : Task υ} (h : t.outcome.Rule) :
    t.entry.value.isSome ∨ t.entry.error.isSome := by
  have hone : t.result.isSome = !t.error.isSome := h.one
  have hok : t.ok = t.result.isSome := h.ok_iff
  cases hr : t.result with
  | some v =>
    rw [hr] at hok
    exact Or.inl (by simp [Task.entry, hok, hr])
  | none =>
    rw [hr] at hok hone
    have he : t.error.isSome = true := by simpa using hone.symm
    exact Or.inr (by simp [Task.entry, hok, he])

/-- With a runner that obeys the rule, the slots of a returned wait do so exactly when no
`pthread_create` of the history failed. -/
theorem slotsObey_iff {runner : Runner υ} (hrule : ∀ inp, (runner inp).Rule)
    {tr : List (Act Unit υ)} {s : State Unit υ} (h : Run runner tr s)
    (hw : s.pc () = .idle .wait) : SlotsObey s ↔ ∀ ok ∈ creations tr, ok = true := by
  have hinv := h.inv
  have hret := hinv.returned hw
  have hset : ∀ k ∈ s.heap, Settled k := Each.forall_mem (hret.mono fun _ _ hk => hk.1.2.1)
  have hsize : wgSize s = s.heap.length := by rw [wgSize_eq hinv hw, hinv.calls, List.length_map]
  rw [hinv.creations_eq hset]
  constructor
  · intro hobey ok hok
    obtain ⟨k, hk, rfl⟩ := List.mem_map.mp hok
    obtain ⟨i, hi⟩ := List.getElem?_of_mem hk
    obtain ⟨k', hk', hr, -⟩ := hobey i (by
      rw [hsize]
      exact (List.getElem?_eq_some_iff.mp hi).1)
    rw [hinv.tasks_getElem? hw, hi] at hk'
    cases hk'
    obtain ⟨hc, hkeep⟩ := hret i k hi
    -- a slot whose thread was refused has neither a result nor an error
    by_contra hj
    rw [hkeep.settled hc, Bool.eq_false_iff.mpr hj] at hr
    exact Bool.noConfusion hr.one
  · intro hall i hi
    rw [hsize] at hi
    have hk : s.heap[i]? = some s.heap[i] := List.getElem?_eq_getElem hi
    obtain ⟨hc, hkeep⟩ := hret i _ hk
    have hj := hall _ (List.mem_map.mpr ⟨_, List.getElem_mem hi, rfl⟩)
    have hr : s.heap[i].task.outcome.Rule := by
      rw [hkeep.settled hc, hj]
      exact hrule _
    exact ⟨_, by rw [hinv.tasks_getElem? hw, hk], hr, hr.entry⟩

/-- One task, whose thread cannot be created. -/
def refusedHistory : List (Act Unit Unit) :=
  [.go () ⟨some (.long 7), none⟩, .step (), .create () false, .step (), .step (), .wait (),
    .step (), .step (), .step ()]

theorem echoRunner_rule (inp : Inputs Unit) : (echoRunner inp).Rule := ⟨rfl, rfl⟩

/-- With two tasks the slots obey the rule, and with the third they do not. -/
theorem slotsObey_iff_three : (∃ s, Run echoRunner twoWaited s ∧ SlotsObey s) ∧
    ∃ s, Run echoRunner threeWaited s ∧ ¬ SlotsObey s := by
  have htwo : Run echoRunner twoWaited _ := rfl
  have hthree : Run echoRunner threeWaited _ := rfl
  refine ⟨⟨_, htwo, (slotsObey_iff echoRunner_rule htwo rfl).mpr (by decide)⟩, _, hthree, ?_⟩
  exact fun hobey => Bool.noConfusion
    ((slotsObey_iff echoRunner_rule hthree rfl).mp hobey false (by decide))

/-- A failed spawn leaves its slot with neither a result nor an error, and its entry with
`error = null`. -/
theorem slotsObey_refused : ¬ ∀ runner : Runner Unit, (∀ inp, (runner inp).Rule) →
    ∀ tr s, Run runner tr s → s.pc () = .idle .wait → SlotsObey s := by
  intro h
  obtain ⟨k, hk, hr, -⟩ := h echoRunner echoRunner_rule refusedHistory _ rfl rfl 0 (by decide)
  cases hk
  exact Bool.noConfusion hr.one

/-! ## Threads -/

theorem Standing.Holds.joins {st : Standing} {k : Cell υ} (h : st.Holds k) :
    k.joins ≤ 1 ∧ (k.stage.creation = some false → k.joins = 0) := by
  have hset : Settled k → k.joins ≤ 1 ∧ (k.stage.creation = some false → k.joins = 0) := by
    rintro (⟨hs, hj⟩ | ⟨hs, hj⟩)
    · exact ⟨hj.le, fun hc => by rw [hs] at hc; cases hc⟩
    · exact ⟨hj.trans_le (Nat.zero_le 1), fun _ => hj⟩
  have hz : k.joins = 0 → k.joins ≤ 1 ∧ (k.stage.creation = some false → k.joins = 0) :=
    fun hj => ⟨hj.trans_le (Nat.zero_le 1), fun _ => hj⟩
  cases st with
  | held stage => exact hz h.2.2.2.2
  | unmarked => exact hz h.2.2.2
  | marked => exact hz h.2.2.2
  | resting =>
    rcases h with h | h
    · exact hz h.2.2.2
    · exact hset h.2.1
  | cleared => exact hset h.2.1
  | taken => exact hset (Or.inl h.2)
  | collected => exact hset h.2
  | freed => exact hset h.2

theorem Standing.Holds.not_freed {st : Standing} {k : Cell υ} (h : st.Holds k)
    (hl : k.stage.live = true) : st ≠ .freed ∧ k.freed = false := by
  have hset : ¬ Settled k := by
    rintro (⟨hs, -⟩ | ⟨hs, -⟩) <;> rw [hs] at hl <;> cases hl
  cases st with
  | held stage => exact ⟨Standing.noConfusion, h.1⟩
  | unmarked => exact ⟨Standing.noConfusion, h.1⟩
  | marked => exact ⟨Standing.noConfusion, h.1⟩
  | resting =>
    rcases h with h | h
    · exact ⟨Standing.noConfusion, h.1⟩
    · exact ⟨Standing.noConfusion, h.1⟩
  | cleared => exact ⟨Standing.noConfusion, h.1⟩
  | taken => exact ⟨Standing.noConfusion, h.1⟩
  | collected => exact ⟨Standing.noConfusion, h.1⟩
  | freed => exact absurd h.2 hset

theorem workerStep_live {t : ℕ} {s' : State Unit υ} (h : workerStep runner s t = some s') :
    ∃ k, s.heap[t]? = some k ∧ k.stage.live = true := by
  cases hk : s.heap[t]? with
  | none => simp [workerStep, State.stage, hk] at h
  | some k =>
    refine ⟨k, rfl, ?_⟩
    cases hs : k.stage <;> simp [workerStep, State.stage, hk, hs] at h <;> rfl

/-- In every history: once `wg_destroy` is done each thread that was created has been joined
once, a thread that was not created is never joined, none is joined twice, and no step of a
worker comes after its task or the group was freed. -/
theorem thread_lifecycle {runner : Runner υ} {tr : List (Act Unit υ)} {s : State Unit υ}
    (h : Run runner tr s) :
    (s.pc () = .gone → (creations tr).length = (goCalls tr).length ∧
      ∀ (i : ℕ) (ok : Bool), (creations tr)[i]? = some ok →
        ∃ k : Cell υ, s.heap[i]? = some k ∧ k.joins = if ok then 1 else 0) ∧
    (∀ (t : ℕ) (k : Cell υ), s.heap[t]? = some k →
      k.joins ≤ 1 ∧ (k.stage.creation = some false → k.joins = 0)) ∧
    ∀ (t : ℕ) (s' : State Unit υ), step runner s (.work t) = some s' →
      s.groupFreed = false ∧ ∃ k : Cell υ, s.heap[t]? = some k ∧ k.freed = false := by
  have hinv := h.inv
  refine ⟨fun hgone => ?_, fun t k hk => (hinv.each t k hk).1.joins, fun t s' hstep => ?_⟩
  · have hfreed : Each (fun _ k => k.freed = true ∧ Settled k) s.heap := by
      have := hinv.each
      rw [hgone] at this
      exact this.mono fun _ _ hk => hk.1
    have hset : ∀ k ∈ s.heap, Settled k := Each.forall_mem (hfreed.mono fun _ _ hk => hk.2)
    rw [hinv.creations_eq hset]
    refine ⟨by rw [hinv.calls, List.length_map, List.length_map], fun i ok hi => ?_⟩
    rw [List.getElem?_map] at hi
    obtain ⟨k, hk, rfl⟩ := Option.map_eq_some_iff.mp hi
    refine ⟨k, hk, ?_⟩
    rcases hset k (List.mem_of_getElem? hk) with ⟨-, hj⟩ | ⟨-, hj⟩
    · rw [hj]
      rfl
    · rw [hj]
      rfl
  · obtain ⟨k, hk, hl⟩ := workerStep_live hstep
    obtain ⟨hst, hf⟩ := (hinv.each t k hk).1.not_freed hl
    refine ⟨?_, k, hk, hf⟩
    by_contra hg
    have hgone := hinv.groupFreed (Bool.eq_true_of_not_eq_false hg)
    rw [hgone] at hst
    exact hst rfl

/-- A group destroyed without a wait, with two workers still to run and a task that has none. -/
def threeDestroyed : List (Act Unit Unit) :=
  twoSpawned ++ thirdRefused ++ [.destroy (), .step (), .work 0, .work 1, .work 1, .work 0, .work 0,
    .step (), .step (), .step (), .work 1, .step (), .step (), .step (), .step (), .step (), .step ()]

theorem thread_lifecycle_three : ∃ s, Run echoRunner threeDestroyed s ∧ s.pc () = .gone ∧
    (∃ k, s.heap[0]? = some k ∧ k.joins = 1) ∧ (∃ k, s.heap[1]? = some k ∧ k.joins = 1) ∧
    ∃ k, s.heap[2]? = some k ∧ k.joins = 0 := by
  have hrun : Run echoRunner threeDestroyed _ := rfl
  obtain ⟨-, hjoin⟩ := (thread_lifecycle hrun).1 rfl
  exact ⟨_, hrun, rfl, hjoin 0 true rfl, hjoin 1 true rfl, hjoin 2 false rfl⟩

end Parallax.WaitGroup
