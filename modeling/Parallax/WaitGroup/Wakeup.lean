import Parallax.WaitGroup.Machine

/-! Any number of clients on one group: `remaining` counts the tasks that may still signal, and a
client blocked in `wg_wait` is woken when the count gets to zero, unless it gets there by a failed
spawn. Both are about the counter alone, so the group is first cut down to it. -/
namespace Parallax.WaitGroup
open Transition
set_option autoImplicit false
set_option maxHeartbeats 250000

variable {ι υ : Type}

/-! ## The counter -/

/-- What the counter depends on: itself, how far each task has come and where each client stands. -/
structure Counter (ι : Type) where
  remaining : ℤ
  stages : List Stage
  pc : ι → Pc

def State.counter (s : State ι υ) : Counter ι := ⟨s.remaining, s.heap.map (·.stage), s.pc⟩

/-- In the task array. -/
def Stage.inArray (stage : Stage) : Bool := stage ≠ .fresh

/-- Its creation failed, and `wg_go` has said so to the group. -/
def Stage.reportedFailed (stage : Stage) : Bool := stage = .failed

def Stage.hasSignalled : Stage → Bool
  | .signalled | .exited => true
  | _ => false

/-- Registered, not reported failed and not yet signalled. -/
def Stage.outstanding (stage : Stage) : Bool :=
  stage.inArray && !stage.reportedFailed && !stage.hasSignalled

/-- The task a client is about to register, to create or to take off the count, and its stage. -/
def Pc.spawning : Pc → Option (ℕ × Stage)
  | .goRegister t => some (t, .fresh)
  | .goCreate t => some (t, .registered)
  | .goUncount t => some (t, .refused)
  | _ => none

namespace Counter
variable [DecidableEq ι]

/-- What an action can do to the counter, the stages and the clients. -/
inductive Step : Act ι υ → Counter ι → Counter ι → Prop
  /-- A client moves on; it blocks only while the count is positive. -/
  | move {a : Act ι υ} {k : Counter ι} (c : ι) (p : Pc) (hp : p.spawning = none)
    (hb : p = .waitBlocked → 0 < k.remaining) :
    Step a k { k with pc := Function.update k.pc c p }
  | alloc {a : Act ι υ} {k : Counter ι} (c : ι) :
    Step a k { k with
      stages := k.stages ++ [.fresh]
      pc := Function.update k.pc c (.goRegister k.stages.length) }
  | register {a : Act ι υ} {k : Counter ι} {t : ℕ} (c : ι) (h : k.pc c = .goRegister t) :
    Step a k
      { remaining := k.remaining + 1
        stages := k.stages.modify t fun _ => .registered
        pc := Function.update k.pc c (.goCreate t) }
  | create {a : Act ι υ} {k : Counter ι} {t : ℕ} (c : ι) (h : k.pc c = .goCreate t) :
    Step a k { k with
      stages := k.stages.modify t fun _ => .started
      pc := Function.update k.pc c (.goMark t) }
  | refuse {a : Act ι υ} {k : Counter ι} {t : ℕ} (c : ι) (h : k.pc c = .goCreate t) :
    Step a k { k with
      stages := k.stages.modify t fun _ => .refused
      pc := Function.update k.pc c (.goUncount t) }
  | uncount {k : Counter ι} {t : ℕ} (c : ι) (h : k.pc c = .goUncount t) :
    Step (.step c) k
      { remaining := k.remaining - 1
        stages := k.stages.modify t fun _ => .failed
        pc := Function.update k.pc c (.goFail t) }
  /-- A worker moves on; its task stays counted, or stays uncounted. -/
  | work {a : Act ι υ} {k : Counter ι} {t : ℕ} {stage stage' : Stage}
      (h : k.stages[t]? = some stage) (hc : stage.created = true)
      (ho : stage'.outstanding = stage.outstanding) :
    Step a k { k with stages := k.stages.modify t fun _ => stage' }
  | signal {a : Act ι υ} {k : Counter ι} {t : ℕ} (h : k.stages[t]? = some .ran) :
    Step a k
      { remaining := k.remaining - 1
        stages := k.stages.modify t fun _ => .signalled
        pc := if k.remaining - 1 = 0 then fun c => (k.pc c).wake else k.pc }

end Counter

/-! ## The group steps as its counter does -/

theorem map_stage_set {heap : List (Cell υ)} {t : ℕ} {f : Cell υ → Cell υ} {stage : Stage}
    (h : ∀ k, (f k).stage = stage) :
    (heap.modify t f).map (·.stage) = (heap.map (·.stage)).modify t fun _ => stage := by
  induction heap generalizing t with
  | nil => simp
  | cons k heap ih =>
    cases t with
    | zero => simp [h]
    | succ t => simp [ih]

theorem map_stage_keep {heap : List (Cell υ)} {t : ℕ} {f : Cell υ → Cell υ}
    (h : ∀ k, (f k).stage = k.stage) : (heap.modify t f).map (·.stage) = heap.map (·.stage) :=
  map_modify_of_eq fun k _ => h k

theorem State.counter_eq {s : State ι υ} {n : ℤ} {stages : List Stage} {pc : ι → Pc}
    (hn : s.remaining = n) (hs : s.heap.map (·.stage) = stages) (hpc : s.pc = pc) :
    s.counter = ⟨n, stages, pc⟩ := by
  subst hn hs hpc
  rfl

theorem State.stage_eq (s : State ι υ) (t : ℕ) : s.stage t = s.counter.stages[t]? :=
  (List.getElem?_map ..).symm

section Simulation
variable [DecidableEq ι] {runner : Runner υ} {s s' : State ι υ}

/-- A client moves on and leaves counter and stages as they are. -/
theorem Counter.Step.moved {a : Act ι υ} {c : ι} {p : Pc} (hr : s'.remaining = s.remaining)
    (hst : s'.heap.map (·.stage) = s.heap.map (·.stage))
    (hpc : s'.pc = Function.update s.pc c p) (hp : p.spawning = none)
    (hb : p = .waitBlocked → 0 < s.remaining) : Counter.Step a s.counter s'.counter := by
  have : s'.counter = { s.counter with pc := Function.update s.pc c p } := by
    rw [State.counter, hr, hst, hpc]
    rfl
  rw [this]
  exact .move c p hp hb

theorem workerStep_counter {t : ℕ} (h : workerStep runner s t = some s') :
    Counter.Step (.work t : Act ι υ) s.counter s'.counter := by
  have hset : ∀ (f : Cell υ → Cell υ) (stage : Stage), (∀ k, (f k).stage = stage) →
      (s.heap.modify t f).map (·.stage) = s.counter.stages.modify t fun _ => stage :=
    fun f stage hf => map_stage_set hf
  unfold workerStep at h
  simp only [State.stage_eq] at h
  split at h
  · next hs =>
    cases h
    rw [show (s.setCell t (Cell.setStage .running)).counter = _ from
      State.counter_eq rfl (hset _ .running fun _ => rfl) rfl]
    exact .work hs rfl rfl
  · next hs =>
    cases h
    rw [show (s.setCell t (Cell.run runner)).counter = _ from
      State.counter_eq rfl (hset _ .ran fun _ => rfl) rfl]
    exact .work hs rfl rfl
  · next hs =>
    cases h
    rw [show (signalDone (s.setCell t (Cell.setStage .signalled))).counter = _ from
      State.counter_eq rfl (hset _ .signalled fun _ => rfl) rfl]
    exact .signal hs
  · next hs =>
    cases h
    rw [show (s.setCell t (Cell.setStage .exited)).counter = _ from
      State.counter_eq rfl (hset _ .exited fun _ => rfl) rfl]
    exact .work hs rfl rfl
  · cases h

theorem pthreadJoin_counter {a : Act ι υ} {c : ι} {i : ℕ} {p : Pc} (hp : p.spawning = none)
    (hb : p ≠ .waitBlocked) (h : pthreadJoin s c i p = some s') :
    Counter.Step a s.counter s'.counter := by
  obtain ⟨t, -, h⟩ := Option.bind_eq_some_iff.mp h
  split_ifs at h
  cases h
  exact .moved rfl (map_stage_keep fun _ => rfl) rfl hp fun he => absurd he hb

theorem clientStep_counter {c : ι} (h : clientStep s c = some s') :
    Counter.Step (.step c : Act ι υ) s.counter s'.counter := by
  have hset : ∀ (t : ℕ) (f : Cell υ → Cell υ) (stage : Stage), (∀ k, (f k).stage = stage) →
      (s.heap.modify t f).map (·.stage) = s.counter.stages.modify t fun _ => stage :=
    fun t f stage hf => map_stage_set hf
  unfold clientStep at h
  split at h
  · next t hpc =>
    cases h
    have hreg : ((goRegister s t).setPc c (.goCreate t)).counter =
        { remaining := s.remaining + 1
          stages := s.counter.stages.modify t fun _ => .registered
          pc := Function.update s.pc c (.goCreate t) } := by
      rw [← hset t (Cell.register s.tasks.length) .registered fun _ => rfl]
      unfold goRegister
      dsimp only
      split <;> rfl
    rw [hreg]
    exact .register c hpc
  · cases h
    exact .moved rfl (map_stage_keep fun _ => rfl) rfl rfl fun he => by cases he
  · next t hpc =>
    cases h
    have hunc : ((goUncount s t).setPc c (.goFail t)).counter =
        { remaining := s.remaining - 1
          stages := s.counter.stages.modify t fun _ => .failed
          pc := Function.update s.pc c (.goFail t) } := by
      rw [← hset t (Cell.setStage .failed) .failed fun _ => rfl]
      rfl
    rw [hunc]
    exact .uncount c hpc
  · cases h
    exact .moved rfl (map_stage_keep fun _ => rfl) rfl rfl fun he => by cases he
  · cases h
    refine .moved rfl rfl rfl ?_ fun he => ?_
    · split <;> rfl
    · split at he
      · assumption
      · cases he
  · cases h
    refine .moved rfl rfl rfl ?_ fun he => ?_
    · split
      · rfl
      · split <;> rfl
    · split at he
      · cases he
      · split at he <;> cases he
  · exact pthreadJoin_counter rfl (by simp) h
  · obtain ⟨t, -, rfl⟩ := Option.map_eq_some_iff.mp h
    exact .moved rfl (map_stage_keep fun _ => rfl) rfl rfl fun he => by cases he
  · cases h
    refine .moved rfl rfl rfl ?_ fun he => ?_
    · split
      · rfl
      · split <;> rfl
    · split at he
      · cases he
      · split at he <;> cases he
  · exact pthreadJoin_counter rfl (by simp) h
  · obtain ⟨t, -, rfl⟩ := Option.map_eq_some_iff.mp h
    exact .moved rfl (map_stage_keep fun _ => rfl) rfl rfl fun he => by cases he
  · cases h
    exact .moved rfl rfl rfl rfl fun he => by cases he
  · cases h

/-- Every step of the group is a step of its counter. -/
theorem step_counter {a : Act ι υ} (h : step runner s a = some s') :
    Counter.Step a s.counter s'.counter := by
  cases a with
  | go c inp =>
    rw [step] at h
    split at h <;> cases h
    have halloc : State.counter { s.setPc c (.goRegister s.heap.length) with
        heap := s.heap ++ [.alloc inp] } = { s.counter with
          stages := s.counter.stages ++ [.fresh]
          pc := Function.update s.pc c (.goRegister s.counter.stages.length) } := by
      simp only [State.counter, List.map_append, List.length_map]
      rfl
    rw [halloc]
    exact .alloc c
  | wait c =>
    rw [step] at h
    split at h <;> cases h
    exact .moved rfl rfl rfl rfl fun he => by cases he
  | destroy c =>
    rw [step] at h
    split at h <;> cases h
    exact .moved rfl rfl rfl rfl fun he => by cases he
  | create c ok =>
    rw [step] at h
    split at h
    · next t hpc =>
      have hset : ∀ stage p, ((s.setCell t (Cell.setStage stage)).setPc c p).counter =
          { s.counter with
            stages := s.counter.stages.modify t fun _ => stage
            pc := Function.update s.pc c p } := fun stage p =>
        State.counter_eq rfl (map_stage_set fun _ => rfl) rfl
      cases ok with
      | true =>
        cases h
        rw [hset]
        exact .create c hpc
      | false =>
        cases h
        rw [hset]
        exact .refuse c hpc
    · cases h
  | step c => exact clientStep_counter h
  | wake c =>
    rw [step] at h
    split at h <;> cases h
    exact .moved rfl rfl rfl rfl fun he => by cases he
  | work t => exact workerStep_counter h

end Simulation

/-! ## What the counter counts -/

namespace Counter

structure Inv (k : Counter ι) : Prop where
  counts : k.remaining = k.stages.countP Stage.outstanding
  spawning : ∀ c t stage, (k.pc c).spawning = some (t, stage) → k.stages[t]? = some stage
  apart : ∀ c d t stage stage', (k.pc c).spawning = some (t, stage) →
    (k.pc d).spawning = some (t, stage') → c = d

/-- A blocked client has been waiting since before the count got to zero. -/
def Lost (k : Counter ι) : Prop := k.remaining = 0 ∧ ∃ c, k.pc c = .waitBlocked

section Inv
variable [DecidableEq ι] {k : Counter ι}

omit [DecidableEq ι] in
theorem Inv.nonneg (h : k.Inv) : 0 ≤ k.remaining := by
  rw [h.counts]
  exact Int.natCast_nonneg _

theorem spawning_update {c d : ι} {p : Pc} {x : ℕ × Stage}
    (h : (Function.update k.pc c p d).spawning = some x) :
    (d = c ∧ p.spawning = some x) ∨ (d ≠ c ∧ (k.pc d).spawning = some x) := by
  by_cases hd : d = c
  · subst hd
    rw [Function.update_self] at h
    exact Or.inl ⟨rfl, h⟩
  · rw [Function.update_of_ne hd] at h
    exact Or.inr ⟨hd, h⟩

theorem Inv.move (h : k.Inv) (c : ι) {p : Pc} (hp : p.spawning = none) :
    Inv { k with pc := Function.update k.pc c p } := by
  have hold : ∀ d x, (Function.update k.pc c p d).spawning = some x →
      (k.pc d).spawning = some x := fun d x hx => by
    obtain ⟨-, hx⟩ | ⟨-, hx⟩ := spawning_update hx
    · rw [hp] at hx
      cases hx
    · exact hx
  exact ⟨h.counts, fun d t stage hd => h.spawning d t stage (hold d _ hd),
    fun d e t _ _ hd he => h.apart d e t _ _ (hold d _ hd) (hold e _ he)⟩

theorem Inv.alloc (h : k.Inv) (c : ι) : Inv { k with
    stages := k.stages ++ [.fresh]
    pc := Function.update k.pc c (.goRegister k.stages.length) } := by
  have hlt : ∀ d t stage, (k.pc d).spawning = some (t, stage) → t < k.stages.length :=
    fun d t stage hd => (List.getElem?_eq_some_iff.mp (h.spawning d t stage hd)).1
  refine ⟨?_, fun d t stage hd => ?_, fun d e t stage stage' hd he => ?_⟩
  · have := h.counts
    simpa [Stage.outstanding, Stage.inArray] using this
  · obtain ⟨rfl, hx⟩ | ⟨-, hx⟩ := spawning_update hd
    · cases hx
      exact List.getElem?_concat_length
    · rw [List.getElem?_append_left (hlt d t stage hx)]
      exact h.spawning d t stage hx
  · obtain ⟨hdc, hx⟩ | ⟨hdc, hx⟩ := spawning_update hd <;>
      obtain ⟨hec, hy⟩ | ⟨hec, hy⟩ := spawning_update he
    · rw [hdc, hec]
    · cases hx
      exact absurd (hlt e _ _ hy) (Nat.lt_irrefl _)
    · cases hy
      exact absurd (hlt d _ _ hx) (Nat.lt_irrefl _)
    · exact h.apart d e t _ _ hx hy

/-- The client that holds task `t` moves it on. -/
theorem Inv.advance (h : k.Inv) {c : ι} {t : ℕ} {p : Pc} (stage stage' : Stage)
    (hc : (k.pc c).spawning = some (t, stage))
    (hp : p.spawning = none ∨ p.spawning = some (t, stage')) {n : ℤ}
    (hn : n = k.remaining + (stage'.outstanding.toNat - stage.outstanding.toNat)) :
    Inv ⟨n, k.stages.modify t fun _ => stage', Function.update k.pc c p⟩ := by
  have hstage := h.spawning c t stage hc
  have hown : ∀ x, p.spawning = some x → x = (t, stage') := fun x hx => by
    obtain hp | hp := hp <;> rw [hp] at hx <;> cases hx
    rfl
  refine ⟨?_, fun d u st hd => ?_, fun d e u st st' hd he => ?_⟩
  · have hcount := countP_modify (f := fun _ => stage') (p := Stage.outstanding) hstage
    have := h.counts
    show n = ((k.stages.modify t fun _ => stage').countP Stage.outstanding : ℤ)
    omega
  · obtain ⟨-, hx⟩ | ⟨hdc, hx⟩ := spawning_update hd
    · cases hown _ hx
      show (k.stages.modify t _)[t]? = _
      simp [hstage]
    · have hne : t ≠ u := by
        rintro rfl
        exact hdc (h.apart d c t _ _ hx hc)
      show (k.stages.modify t _)[u]? = _
      simp [hne, h.spawning d u st hx]
  · obtain ⟨hdc, hx⟩ | ⟨hdc, hx⟩ := spawning_update hd <;>
      obtain ⟨hec, hy⟩ | ⟨hec, hy⟩ := spawning_update he
    · rw [hdc, hec]
    · cases hown _ hx
      exact absurd (h.apart e c t _ _ hy hc) hec
    · cases hown _ hy
      exact absurd (h.apart d c t _ _ hx hc) hdc
    · exact h.apart d e u _ _ hx hy

theorem spawning_created {p : Pc} {t : ℕ} {stage : Stage} (h : p.spawning = some (t, stage)) :
    stage.created = false := by
  cases p <;> cases h <;> rfl

omit [DecidableEq ι] in
/-- A worker moves its task on; `wg_signal_done` may wake clients besides. -/
theorem Inv.work (h : k.Inv) {t : ℕ} (stage stage' : Stage) {pc : ι → Pc}
    (ht : k.stages[t]? = some stage) (hc : stage.created = true)
    (hpc : ∀ c, (pc c).spawning = (k.pc c).spawning) {n : ℤ}
    (hn : n = k.remaining + (stage'.outstanding.toNat - stage.outstanding.toNat)) :
    Inv ⟨n, k.stages.modify t fun _ => stage', pc⟩ := by
  refine ⟨?_, fun d u st hd => ?_, fun d e u st st' hd he => ?_⟩
  · have hcount := countP_modify (f := fun _ => stage') (p := Stage.outstanding) ht
    have := h.counts
    show n = ((k.stages.modify t fun _ => stage').countP Stage.outstanding : ℤ)
    omega
  · have hd : (k.pc d).spawning = some (u, st) := hpc d ▸ hd
    have hu := h.spawning d u st hd
    have hne : t ≠ u := by
      rintro rfl
      rw [ht, Option.some.injEq] at hu
      rw [hu, spawning_created hd] at hc
      cases hc
    show (k.stages.modify t _)[u]? = _
    simp [hne, hu]
  · exact h.apart d e u st st' (hpc d ▸ hd) (hpc e ▸ he)

theorem wake_spawning (p : Pc) : p.wake.spawning = p.spawning := by
  cases p <;> rfl

theorem wake_ne_waitBlocked (p : Pc) : p.wake ≠ .waitBlocked := by
  cases p <;> simp [Pc.wake]

theorem Step.inv {a : Act ι υ} {k k' : Counter ι} (h : Step a k k') (hi : k.Inv) : k'.Inv := by
  cases h with
  | move c p hp hb => exact hi.move c hp
  | alloc c => exact hi.alloc c
  | register c h => exact hi.advance .fresh .registered (by rw [h]; rfl) (Or.inr rfl) rfl
  | create c h =>
    exact hi.advance .registered .started (by rw [h]; rfl) (Or.inl rfl) (Int.add_zero _).symm
  | refuse c h =>
    exact hi.advance .registered .refused (by rw [h]; rfl) (Or.inr rfl) (Int.add_zero _).symm
  | uncount c h => exact hi.advance .refused .failed (by rw [h]; rfl) (Or.inl rfl) rfl
  | work h hc ho => exact hi.work _ _ h hc (fun _ => rfl) (by simp [ho])
  | signal h =>
    refine hi.work .ran .signalled h rfl (fun c => ?_) rfl
    split
    · exact wake_spawning _
    · rfl

/-- Taking a failed spawn off the count is all that can leave a client behind. -/
theorem Step.not_lost {a : Act ι υ} {k k' : Counter ι} (h : Step a k k') (hi : k.Inv)
    (hk : ¬ k.Lost) (ha : ∀ c t, a = .step c → k.pc c = .goUncount t → k.remaining = 1 →
      ∀ d, k.pc d ≠ .waitBlocked) : ¬ k'.Lost := by
  have hpos := hi.nonneg
  have hupd : ∀ {c d : ι} {p : Pc}, p ≠ .waitBlocked →
      Function.update k.pc c p d = .waitBlocked → k.pc d = .waitBlocked := by
    intro c d p hp hd
    by_cases hdc : d = c
    · subst hdc
      rw [Function.update_self] at hd
      exact absurd hd hp
    · rwa [Function.update_of_ne hdc] at hd
  rintro ⟨hzero, d, hd⟩
  cases h with
  | move c p hp hb =>
    by_cases hpb : p = .waitBlocked
    · exact absurd hzero (hb hpb).ne'
    · exact hk ⟨hzero, d, hupd hpb hd⟩
  | alloc c => exact hk ⟨hzero, d, hupd (by simp) hd⟩
  | register c h =>
    have : k.remaining + 1 = 0 := hzero
    omega
  | create c h => exact hk ⟨hzero, d, hupd (by simp) hd⟩
  | refuse c h => exact hk ⟨hzero, d, hupd (by simp) hd⟩
  | uncount c h =>
    have hone : k.remaining - 1 = 0 := hzero
    exact ha c _ rfl h (by omega) d (hupd (by simp) hd)
  | work h hc ho => exact hk ⟨hzero, d, hd⟩
  | signal h =>
    have hone : k.remaining - 1 = 0 := hzero
    have hwake : (if k.remaining - 1 = 0 then fun c => (k.pc c).wake else k.pc) d =
        .waitBlocked := hd
    rw [if_pos hone] at hwake
    exact wake_ne_waitBlocked _ hwake

end Inv
end Counter

/-! ## Runs of the group -/

section Runs
variable [DecidableEq ι] {runner : Runner υ} {tr : List (Act ι υ)} {s : State ι υ}

omit [DecidableEq ι] in
theorem Counter.Inv.init : (State.init : State ι υ).counter.Inv where
  counts := rfl
  spawning := by
    intro c t stage h
    cases h
  apart := by
    intro c d t stage stage' h
    cases h

/-- The tasks registered, not reported failed and not yet signalled. -/
def outstandingTasks (s : State ι υ) : ℕ := s.heap.countP (·.stage.outstanding)

/-- A client is blocked in `pthread_cond_wait` with nothing left to wait for; a broadcast would
have taken it out of there. -/
def LostWakeup (s : State ι υ) : Prop := s.remaining = 0 ∧ ∃ c, s.pc c = .waitBlocked

/-- What the counter promises. -/
def Accounted (s : State ι υ) : Prop :=
  s.remaining = outstandingTasks s ∧ 0 ≤ s.remaining ∧ ¬ LostWakeup s

/-- The step does not take the last task off the count, for a failed spawn, past a blocked
client. -/
def Announced (s : State ι υ) (a : Act ι υ) : Prop :=
  ∀ c t, a = .step c → s.pc c = .goUncount t → s.remaining = 1 → ∀ d, s.pc d ≠ .waitBlocked

omit [DecidableEq ι] in
theorem Counter.Inv.counts_tasks (h : s.counter.Inv) :
    s.remaining = outstandingTasks s ∧ 0 ≤ s.remaining := by
  refine ⟨h.counts.trans ?_, h.nonneg⟩
  rw [outstandingTasks, State.counter, List.countP_map]
  rfl

theorem run_counter (h : Run runner tr s) : s.counter.Inv :=
  run_invariant (P := fun _ s => s.counter.Inv) Counter.Inv.init
    (fun _ _ _ _ hi hstep => (step_counter hstep).inv hi) h

/-- A failed spawn that leaves nothing to wait for loses the clients blocked by then. -/
theorem announced_of_step {s' : State ι υ} {a : Act ι υ} (h : step runner s a = some s')
    (hs : ¬ LostWakeup s') : Announced s a := by
  rintro c t rfl hpc hone d hd
  have hdc : d ≠ c := by
    rintro rfl
    rw [hd] at hpc
    cases hpc
  have hstep : step runner s (.step c) = some ((goUncount s t).setPc c (.goFail t)) := by
    rw [step, clientStep, hpc]
  rw [hstep, Option.some.injEq] at h
  subst h
  refine hs ⟨?_, d, ?_⟩
  · show s.remaining - 1 = 0
    omega
  · show Function.update s.pc c _ d = _
    rw [Function.update_of_ne hdc]
    exact hd

/-- In every history, with any clients, the count is that of the outstanding tasks; and no client is
ever left blocked at zero if and only if no step takes a failed spawn off the count as the last
task while a client is blocked. -/
theorem accounted_iff_announced (h : Run runner tr s) :
    (s.remaining = outstandingTasks s ∧ 0 ≤ s.remaining) ∧
      (Throughout (step runner) Accounted .init tr ↔
        Along (step runner) Announced (.init : State ι υ) tr) := by
  have hinit : Accounted (.init : State ι υ) :=
    ⟨rfl, le_rfl, fun ⟨_, _, hc⟩ => by cases hc⟩
  refine ⟨(run_counter h).counts_tasks, throughout_iff_along (I := fun s => s.counter.Inv)
    (fun s a t hi hstep => (step_counter hstep).inv hi) (fun s a t hi hs hstep => ?_)
    Counter.Inv.init hinit h⟩
  constructor
  · exact fun ht => announced_of_step hstep ht.2.2
  · intro ha
    obtain ⟨hcount, hpos⟩ := ((step_counter hstep).inv hi).counts_tasks
    exact ⟨hcount, hpos, (step_counter hstep).not_lost hi hs.2.2 ha⟩

end Runs

/-- One client spawns a task, another waits for it and blocks, then the spawn fails. -/
def failedSpawn : List (Act Bool Unit) :=
  [.go false ⟨none, none⟩, .step false, .wait true, .step true, .create false false, .step false]

theorem accounted_failedSpawn : ¬ ∀ (runner : Runner Unit) (tr : List (Act Bool Unit))
    (s : State Bool Unit), Run runner tr s → s.remaining = outstandingTasks s ∧ ¬ LostWakeup s := by
  intro h
  have hrun : Run (fun _ => ⟨true, none, none, none⟩) failedSpawn _ := rfl
  exact (h _ _ _ hrun).2 ⟨rfl, true, rfl⟩

/-- The same clients, with a spawn that succeeds and a worker that signals. -/
def servedWait : List (Act Bool Unit) :=
  [.go false ⟨none, none⟩, .step false, .wait true, .step true, .create false true, .work 0,
    .work 0, .work 0]

theorem accounted_servedWait :
    ∃ s, Run (fun _ => ⟨true, none, none, none⟩) servedWait s ∧ s.pc true = .waitTest ∧
      s.remaining = outstandingTasks s := by
  have hrun : Run (fun _ => ⟨true, none, none, none⟩) servedWait _ := rfl
  exact ⟨_, hrun, rfl, (accounted_iff_announced hrun).1.1⟩

end Parallax.WaitGroup
