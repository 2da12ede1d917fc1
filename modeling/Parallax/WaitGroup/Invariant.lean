import Parallax.WaitGroup.Machine

/-! What holds of a group with one owner after every history. Where the owner stands says how
each task stands to it; the invariant is that relation, one task at a time. -/
namespace Parallax.WaitGroup
open Transition
set_option autoImplicit false
set_option maxHeartbeats 250000

variable {υ : Type}

/-! ## How a task stands to the owner -/

/-- Joined after its end, or never created and no longer counted. -/
def Settled (k : Cell υ) : Prop :=
  (k.stage = .exited ∧ k.joins = 1) ∨ (k.stage = .failed ∧ k.joins = 0)

/-- Created, not joined, and so marked or not. -/
def Unjoined (joinable : Bool) (k : Cell υ) : Prop :=
  k.freed = false ∧ k.stage.created = true ∧ k.task.threadJoinable = joinable ∧ k.joins = 0

/-- Nothing is left to join. -/
def Cleared (k : Cell υ) : Prop :=
  k.freed = false ∧ Settled k ∧ k.task.threadJoinable = false

inductive Standing
  /-- `wg_go` is not done with it: before the thread, or after the thread was refused. -/
  | held (stage : Stage)
  /-- The thread exists and its flag is not set. -/
  | unmarked
  /-- To be joined, one of both, joined already. -/
  | marked | resting | cleared
  /-- Joined with the flag still set. -/
  | taken
  /-- What `wg_destroy` may free, and what it has freed. -/
  | collected | freed

def Standing.Holds : Standing → Cell υ → Prop
  | .held stage, k =>
    k.freed = false ∧ k.stage = stage ∧ stage.created = false ∧ k.task.threadJoinable = false ∧
      k.joins = 0
  | .unmarked, k => Unjoined false k
  | .marked, k => Unjoined true k
  | .resting, k => Unjoined true k ∨ Cleared k
  | .cleared, k => Cleared k
  | .taken, k => k.freed = false ∧ k.stage = .exited ∧ k.joins = 1
  | .collected, k => k.freed = false ∧ Settled k
  | .freed, k => k.freed = true ∧ Settled k

/-- A loop over the array at index `i`: `d` is done, `q` is at the index, the rest is to come. -/
def loopStanding (d q : Standing) (i t : ℕ) : Standing :=
  if t < i then d else if t = i then q else .resting

/-- The standing of task `t` with the owner at `p`. -/
def standing : Pc → ℕ → Standing
  | .idle .wait, _ => .cleared
  | .idle _, _ => .resting
  | .goRegister u, t => if t = u then .held .fresh else .resting
  | .goCreate u, t => if t = u then .held .registered else .resting
  | .goMark u, t => if t = u then .unmarked else .resting
  | .goUncount u, t => if t = u then .held .refused else .resting
  | .goFail u, t => if t = u then .held .failed else .resting
  | .waitTest, _ => .resting
  | .waitBlocked, _ => .resting
  | .joinTest i, t => loopStanding .cleared .resting i t
  | .joining i, t => loopStanding .cleared .marked i t
  | .joined i, t => loopStanding .cleared .taken i t
  | .freeTest i, t => loopStanding .freed .resting i t
  | .freeJoin i, t => loopStanding .freed .marked i t
  | .freeTask i, t => loopStanding .freed .collected i t
  | .freeGroup, _ => .freed
  | .gone, _ => .freed

section Loop
variable {d q st : Standing} {i t : ℕ} {k : Cell υ}

@[simp] theorem loopStanding_at : loopStanding d q i i = q := by
  rw [loopStanding, if_neg (Nat.lt_irrefl i), if_pos rfl]

theorem loopStanding_past (h : t < i) : loopStanding d q i t = d := if_pos h

theorem loopStanding_ne (h : t ≠ i) : loopStanding d q i t = loopStanding d st i t := by
  rw [loopStanding, loopStanding, if_neg h, if_neg h]

theorem Standing.Holds.look (h : (loopStanding d q i t).Holds k)
    (hi : t = i → st.Holds k) : (loopStanding d st i t).Holds k := by
  by_cases ht : t = i
  · subst ht
    rw [loopStanding_at]
    exact hi rfl
  · rwa [loopStanding_ne ht] at h

theorem Standing.Holds.pass (h : t ≠ i → (loopStanding d q i t).Holds k)
    (hi : t = i → d.Holds k) : (loopStanding d .resting (i + 1) t).Holds k := by
  rcases Nat.lt_trichotomy t i with hlt | heq | hgt
  · rw [loopStanding_past (Nat.lt_succ_of_lt hlt)]
    have := h (Nat.ne_of_lt hlt)
    rwa [loopStanding_past hlt] at this
  · subst heq
    rw [loopStanding_past (Nat.lt_succ_self t)]
    exact hi rfl
  · have := h (Nat.ne_of_gt hgt)
    rw [loopStanding, if_neg (by omega), if_neg (by omega)] at this
    rw [loopStanding, if_neg (by omega), ite_self]
    exact this

end Loop

/-! ## What a task holds -/

/-- The task of the `t`-th call at each stage, but for the flag. -/
def Stage.task (runner : Runner υ) (inp : Inputs υ) (t : ℕ) (stage : Stage) : Task υ :=
  let task := { Task.spawned inp with slot := if stage = .fresh then 0 else t }
  if stage.done then task.record (runner inp) else task

/-- A task is what its stage says, and was written by its worker once if at all. -/
def Cell.Keeps (runner : Runner υ) (t : ℕ) (k : Cell υ) : Prop :=
  k.task = { k.stage.task runner k.inputs t with threadJoinable := k.task.threadJoinable } ∧
    k.writes = if k.stage.done then 1 else 0

def CellInv (runner : Runner υ) (p : Pc) (t : ℕ) (k : Cell υ) : Prop :=
  (standing p t).Holds k ∧ k.Keeps runner t

theorem Cell.Keeps.setStage {runner : Runner υ} {t : ℕ} {k : Cell υ} {stage : Stage}
    (h : k.Keeps runner t) (hd : stage.done = k.stage.done)
    (hf : (stage = .fresh) = (k.stage = .fresh)) : (k.setStage stage).Keeps runner t := by
  obtain ⟨ht, hw⟩ := h
  refine ⟨?_, ?_⟩
  · show k.task = _
    rw [ht]
    simp only [Cell.setStage, Stage.task, hd, hf]
  · show k.writes = _
    rw [hw, ← hd]
    rfl

theorem Cell.Keeps.mark {runner : Runner υ} {t : ℕ} {k : Cell υ} (h : k.Keeps runner t)
    (joinable : Bool) : (k.mark joinable).Keeps runner t := by
  refine ⟨?_, h.2⟩
  have ht := h.1
  show ({ k.task with threadJoinable := joinable } : Task υ) = _
  rw [ht]
  rfl

theorem Cell.Keeps.run {runner : Runner υ} {t : ℕ} {k : Cell υ} (h : k.Keeps runner t)
    (hs : k.stage = .running) : (k.run runner).Keeps runner t := by
  obtain ⟨ht, hw⟩ := h
  rw [hs] at ht hw
  refine ⟨?_, ?_⟩
  · show k.task.record (runner ⟨k.task.args, k.task.userData⟩) = _
    rw [ht]
    rfl
  · show k.writes + 1 = 1
    rw [hw]
    rfl

/-! ## The invariant -/

/-- Tasks that are allocated and not yet in the array. -/
def Pc.pending : Pc → ℕ
  | .goRegister _ => 1
  | _ => 0

/-- The task `wg_go` is at work on. -/
def Pc.hand : Pc → Option ℕ
  | .goRegister t | .goCreate t | .goMark t | .goUncount t | .goFail t => some t
  | _ => none

structure Inv (runner : Runner υ) (tr : List (Act Unit υ)) (s : State Unit υ) : Prop where
  tasks : s.tasks = List.range s.tasks.length
  length : s.heap.length = s.tasks.length + (s.pc ()).pending
  hand : ∀ t, (s.pc ()).hand = some t → t + 1 = s.heap.length
  each : Each (CellInv runner (s.pc ())) s.heap
  groupFreed : s.groupFreed = true → s.pc () = .gone
  calls : goCalls tr = s.heap.map (·.inputs)
  created : creations tr = s.heap.filterMap (·.stage.creation)

section Frames
variable {runner : Runner υ} {tr : List (Act Unit υ)} {s s' : State Unit υ} {a : Act Unit υ}

theorem Inv.get (h : Inv runner tr s) {i t : ℕ} (hi : s.tasks[i]? = some t) :
    t = i ∧ i < s.tasks.length := by
  rw [h.tasks] at hi
  obtain ⟨hlt, rfl⟩ := List.getElem?_eq_some_iff.mp hi
  rw [List.length_range] at hlt
  exact ⟨List.getElem_range .., hlt⟩

theorem Inv.quiet (h : Inv runner tr s) (hg : a.goCall? = none) (hc : a.creation? = none) :
    goCalls (tr ++ [a]) = s.heap.map (·.inputs) ∧
      creations (tr ++ [a]) = s.heap.filterMap (·.stage.creation) := by
  refine ⟨?_, ?_⟩
  · rw [goCalls, filterMap_snoc, hg, Option.toList_none, List.append_nil]
    exact h.calls
  · rw [creations, filterMap_snoc, hc, Option.toList_none, List.append_nil]
    exact h.created

theorem Inv.move {p : Pc} (h : Inv runner tr s) (hg : a.goCall? = none)
    (hc : a.creation? = none) (hn : s.pc () ≠ .gone) (hpend : p.pending = (s.pc ()).pending)
    (hhand : p.hand = none)
    (hs : ∀ t k, s.heap[t]? = some k → (standing (s.pc ()) t).Holds k → (standing p t).Holds k) :
    Inv runner (tr ++ [a]) (s.setPc () p) where
  tasks := h.tasks
  length := by
    rw [State.setPc_pc, hpend]
    exact h.length
  hand := by
    intro t ht
    rw [State.setPc_pc, hhand] at ht
    cases ht
  each := by
    intro t k hk
    rw [State.setPc_pc]
    have hcell := h.each t k hk
    exact ⟨hs t k hk hcell.1, hcell.2⟩
  groupFreed := fun hf => absurd (h.groupFreed hf) hn
  calls := (h.quiet hg hc).1
  created := (h.quiet hg hc).2

theorem Inv.write {t : ℕ} {f : Cell υ → Cell υ} (h : Inv runner tr s)
    (hheap : s'.heap = s.heap.modify t f) (htasks : s'.tasks = s.tasks)
    (hfreed : s'.groupFreed = true → s'.pc () = .gone)
    (hpend : (s'.pc ()).pending = (s.pc ()).pending)
    (hhand : ∀ u, (s'.pc ()).hand = some u → (s.pc ()).hand = some u)
    (hg : a.goCall? = none) (hin : ∀ k, (f k).inputs = k.inputs)
    (hc : creations (tr ++ [a]) = (s.heap.modify t f).filterMap (·.stage.creation))
    (hself : ∀ k, s.heap[t]? = some k → CellInv runner (s.pc ()) t k →
      CellInv runner (s'.pc ()) t (f k))
    (hother : ∀ u (k : Cell υ), u ≠ t → (standing (s.pc ()) u).Holds k →
      (standing (s'.pc ()) u).Holds k) :
    Inv runner (tr ++ [a]) s' where
  tasks := by rw [htasks]; exact h.tasks
  length := by rw [hheap, htasks, hpend, List.length_modify]; exact h.length
  hand := by
    intro u hu
    rw [hheap, List.length_modify]
    exact h.hand u (hhand u hu)
  each := by
    rw [hheap]
    exact h.each.modify hself fun u k hu hk => ⟨hother u k hu hk.1, hk.2⟩
  groupFreed := hfreed
  calls := by
    rw [goCalls, filterMap_snoc, hg, Option.toList_none, List.append_nil, hheap,
      map_modify_of_eq fun k _ => hin k]
    exact h.calls
  created := by rw [hheap]; exact hc

theorem Inv.created_write {t : ℕ} {f : Cell υ → Cell υ} (h : Inv runner tr s)
    (ha : a.creation? = none)
    (hf : ∀ k, s.heap[t]? = some k → (f k).stage.creation = k.stage.creation) :
    creations (tr ++ [a]) = (s.heap.modify t f).filterMap (·.stage.creation) := by
  rw [creations, filterMap_snoc, ha, Option.toList_none, List.append_nil,
    filterMap_modify_of_eq hf]
  exact h.created

end Frames

/-! ## One step of a worker -/

theorem Standing.Holds.work {st : Standing} {k k' : Cell υ} (h : st.Holds k)
    (hl : k.stage.live = true) (hc : k'.stage.created = true) (hf : k'.freed = k.freed)
    (hj : k'.joins = k.joins) (hm : k'.task.threadJoinable = k.task.threadJoinable) :
    st.Holds k' := by
  have hne : k.stage ≠ .exited := fun he => by rw [he] at hl; cases hl
  have hset : ¬ Settled k := by
    rintro (⟨he, -⟩ | ⟨he, -⟩)
    · exact hne he
    · rw [he] at hl
      cases hl
  have hun : ∀ b, Unjoined b k → Unjoined b k' := by
    rintro b ⟨h1, -, h3, h4⟩
    exact ⟨hf.trans h1, hc, hm.trans h3, hj.trans h4⟩
  cases st with
  | held stage =>
    obtain ⟨-, hs, hnc, -⟩ := h
    rw [← hs] at hnc
    cases hk : k.stage <;> rw [hk] at hl hnc <;> cases hl <;> cases hnc
  | unmarked => exact hun _ h
  | marked => exact hun _ h
  | resting =>
    rcases h with h | h
    · exact Or.inl (hun _ h)
    · exact absurd h.2.1 hset
  | cleared => exact absurd h.2.1 hset
  | taken => exact absurd h.2.1 hne
  | collected => exact absurd h.2 hset
  | freed => exact absurd h.2 hset

/-- What a worker may write to its own task. -/
structure Works (f : Cell υ → Cell υ) (stage : Stage) : Prop where
  stage_eq : ∀ k, (f k).stage = stage
  freed : ∀ k, (f k).freed = k.freed
  joins : ∀ k, (f k).joins = k.joins
  mark : ∀ k, (f k).task.threadJoinable = k.task.threadJoinable
  inputs : ∀ k, (f k).inputs = k.inputs

theorem Works.setStage (stage : Stage) : Works (υ := υ) (Cell.setStage stage) stage :=
  ⟨fun _ => rfl, fun _ => rfl, fun _ => rfl, fun _ => rfl, fun _ => rfl⟩

theorem Works.run (runner : Runner υ) : Works (Cell.run runner) .ran :=
  ⟨fun _ => rfl, fun _ => rfl, fun _ => rfl, fun _ => rfl, fun _ => rfl⟩

/-- Two places of the owner that no task can tell apart. -/
structure Pc.Like (p q : Pc) : Prop where
  standing : ∀ t, standing p t = standing q t
  pending : p.pending = q.pending
  hand : p.hand = q.hand
  gone : q = .gone → p = .gone

theorem Pc.Like.refl (p : Pc) : p.Like p := ⟨fun _ => rfl, rfl, rfl, id⟩

theorem Pc.Like.wake (p : Pc) : p.wake.Like p := by
  cases p <;> exact ⟨fun _ => rfl, rfl, rfl, fun h => by cases h <;> rfl⟩

theorem signalDone_like (s : State Unit υ) : ((signalDone s).pc ()).Like (s.pc ()) := by
  unfold signalDone
  dsimp only
  split
  · exact Pc.Like.wake _
  · exact Pc.Like.refl _

theorem Stage.creation_of_created {stage : Stage} (h : stage.created = true) :
    stage.creation = some true := by
  cases stage <;> first | rfl | cases h

theorem Stage.created_of_live {stage : Stage} (h : stage.live = true) : stage.created = true := by
  cases stage <;> first | rfl | cases h

/-- What a worker does to its own task, whatever the owner does meanwhile. -/
theorem Inv.work {runner : Runner υ} {tr : List (Act Unit υ)} {s s' : State Unit υ} {t : ℕ}
    {f : Cell υ → Cell υ} {stage stage' : Stage} (h : Inv runner tr s) (hs : s.stage t = some stage)
    (hl : stage.live = true) (hc : stage'.created = true) (hw : Works f stage')
    (hkeep : ∀ k, k.stage = stage → k.Keeps runner t → (f k).Keeps runner t)
    (hheap : s'.heap = s.heap.modify t f) (htasks : s'.tasks = s.tasks)
    (hgf : s'.groupFreed = s.groupFreed) (hpc : (s'.pc ()).Like (s.pc ())) :
    Inv runner (tr ++ [.work t]) s' := by
  have hstage : ∀ k, s.heap[t]? = some k → k.stage = stage := fun k hk => by
    rw [State.stage, hk] at hs
    exact Option.some.inj hs
  refine h.write hheap htasks ?_ hpc.pending ?_ rfl hw.inputs ?_ ?_ ?_
  · intro hg
    rw [hgf] at hg
    exact hpc.gone (h.groupFreed hg)
  · intro u hu
    rwa [hpc.hand] at hu
  · refine h.created_write rfl fun k hk => ?_
    rw [hw.stage_eq, hstage k hk, Stage.creation_of_created hc,
      Stage.creation_of_created (Stage.created_of_live hl)]
  · intro k hk hcell
    have hlive : k.stage.live = true := by rw [hstage k hk]; exact hl
    have hcreated : (f k).stage.created = true := by rw [hw.stage_eq]; exact hc
    refine ⟨?_, hkeep k (hstage k hk) hcell.2⟩
    rw [hpc.standing]
    exact hcell.1.work hlive hcreated (hw.freed k) (hw.joins k) (hw.mark k)
  · intro u k _ hu
    rwa [hpc.standing]

theorem Inv.workerStep {runner : Runner υ} {tr : List (Act Unit υ)} {s s' : State Unit υ} {t : ℕ}
    (h : Inv runner tr s) (hstep : workerStep runner s t = some s') :
    Inv runner (tr ++ [.work t]) s' := by
  have hset : ∀ {stage stage' : Stage} (k : Cell υ), k.stage = stage → k.Keeps runner t →
      stage'.done = stage.done → stage ≠ .fresh → stage' ≠ .fresh →
      (k.setStage stage').Keeps runner t := by
    intro stage stage' k hk hkeep hd hn hn'
    subst hk
    exact hkeep.setStage hd (propext ⟨fun h => absurd h hn', fun h => absurd h hn⟩)
  unfold WaitGroup.workerStep at hstep
  split at hstep
  · next hs =>
    cases hstep
    exact h.work hs rfl rfl (Works.setStage .running)
      (fun k hk hkeep => hset k hk hkeep rfl (by decide) (by decide)) rfl rfl rfl (Pc.Like.refl _)
  · next hs =>
    cases hstep
    exact h.work hs rfl rfl (Works.run runner) (fun k hk hkeep => hkeep.run hk) rfl rfl rfl
      (Pc.Like.refl _)
  · next hs =>
    cases hstep
    -- the broadcast may move the owner, from blocked to testing again
    exact h.work hs rfl rfl (Works.setStage .signalled)
      (fun k hk hkeep => hset k hk hkeep rfl (by decide) (by decide)) rfl rfl rfl
      (signalDone_like _)
  · next hs =>
    cases hstep
    exact h.work hs rfl rfl (Works.setStage .exited)
      (fun k hk hkeep => hset k hk hkeep rfl (by decide) (by decide)) rfl rfl rfl (Pc.Like.refl _)
  · cases hstep

/-! ## One step of the owner -/

section Owner
variable {runner : Runner υ} {tr : List (Act Unit υ)} {s s' : State Unit υ}

theorem Inv.init : Inv runner [] (State.init : State Unit υ) where
  tasks := rfl
  length := rfl
  hand := by
    intro t ht
    cases ht
  each := Each.nil
  groupFreed := by
    intro h
    cases h
  calls := rfl
  created := rfl

theorem Inv.owner {a : Act Unit υ} {t : ℕ} {f : Cell υ → Cell υ} {p : Pc} (h : Inv runner tr s)
    (hn : s.pc () ≠ .gone) (hpend : p.pending = (s.pc ()).pending)
    (hhand : ∀ u, p.hand = some u → (s.pc ()).hand = some u) (hg : a.goCall? = none)
    (hin : ∀ k, (f k).inputs = k.inputs)
    (hc : creations (tr ++ [a]) = (s.heap.modify t f).filterMap (·.stage.creation))
    (hself : ∀ k, s.heap[t]? = some k → CellInv runner (s.pc ()) t k → CellInv runner p t (f k))
    (hother : ∀ u (k : Cell υ), u ≠ t → (standing (s.pc ()) u).Holds k → (standing p u).Holds k) :
    Inv runner (tr ++ [a]) ((s.setCell t f).setPc () p) := by
  refine h.write rfl rfl ?_ ?_ ?_ hg hin hc ?_ ?_
  · intro hf
    exact absurd (h.groupFreed hf) hn
  · rw [State.setPc_pc]
    exact hpend
  · rw [State.setPc_pc]
    exact hhand
  · rw [State.setPc_pc]
    exact hself
  · rw [State.setPc_pc]
    exact hother

theorem Inv.go {ret : Ret} (h : Inv runner tr s) (hpc : s.pc () = .idle ret) (inp : Inputs υ) :
    Inv runner (tr ++ [.go () inp])
      { s.setPc () (.goRegister s.heap.length) with heap := s.heap ++ [.alloc inp] } where
  tasks := h.tasks
  length := by
    have := h.length
    rw [hpc] at this
    simpa [Pc.pending] using this
  hand := by
    intro t ht
    simp only [State.setPc_pc, Pc.hand, Option.some.injEq] at ht
    simp [← ht]
  each := by
    rw [State.setPc_pc]
    refine h.each.alloc (fun t k ht hk => ⟨?_, hk.2⟩) ⟨?_, rfl, rfl⟩
    · have hk1 := hk.1
      rw [hpc] at hk1
      rw [standing, if_neg (Nat.ne_of_lt ht)]
      cases ret with
      | start => exact hk1
      | go _ => exact hk1
      | wait => exact Or.inr hk1
    · rw [standing, if_pos rfl]
      exact ⟨rfl, rfl, rfl, rfl, rfl⟩
  groupFreed := by
    intro hf
    have := h.groupFreed hf
    rw [hpc] at this
    cases this
  calls := by
    rw [goCalls, filterMap_snoc, List.map_append]
    exact congrArg (· ++ [inp]) h.calls
  created := by
    rw [creations, filterMap_snoc, List.filterMap_append]
    exact congrArg (· ++ []) h.created

theorem Inv.register {t : ℕ} (h : Inv runner tr s) (hpc : s.pc () = .goRegister t) :
    Inv runner (tr ++ [.step ()]) ((goRegister s t).setPc () (.goCreate t)) := by
  have hlen := h.length
  have hhand := h.hand t (by rw [hpc]; rfl)
  rw [hpc] at hlen
  have ht : t = s.tasks.length := by
    simp only [Pc.pending] at hlen
    omega
  -- growing the array changes its capacity only
  have hgrow : goRegister s t = { s with
      remaining := s.remaining + 1
      tasks := s.tasks ++ [t]
      cap := (goRegister s t).cap
      heap := s.heap.modify t (Cell.register s.tasks.length) } := by
    unfold goRegister
    dsimp only
    split <;> rfl
  rw [hgrow]
  refine ⟨?_, ?_, ?_, ?_, ?_, ?_, ?_⟩
  · show s.tasks ++ [t] = List.range (s.tasks ++ [t]).length
    rw [List.length_append, List.length_singleton, List.range_succ, ← h.tasks, ht]
  · simpa [Pc.pending] using hlen
  · intro u hu
    simp only [State.setPc_pc, Pc.hand, Option.some.injEq] at hu
    simp [← hu, hhand]
  · rw [State.setPc_pc]
    refine h.each.modify (fun k _ hk => ?_) fun u k hu hk => ?_
    · obtain ⟨hst, htask, hw⟩ := hk
      rw [hpc, standing, if_pos rfl] at hst
      obtain ⟨h1, h2, -, h4, h5⟩ := hst
      rw [h2] at htask hw
      rw [CellInv, standing, if_pos rfl]
      refine ⟨⟨h1, rfl, rfl, h4, h5⟩, ?_, hw⟩
      show ({ k.task with slot := s.tasks.length } : Task υ) = _
      rw [htask, ← ht]
      rfl
    · refine ⟨?_, hk.2⟩
      have hk1 := hk.1
      rw [hpc, standing, if_neg hu] at hk1
      rw [standing, if_neg hu]
      exact hk1
  · intro hf
    have := h.groupFreed hf
    rw [hpc] at this
    cases this
  · show goCalls (tr ++ [.step ()]) = _
    rw [(h.quiet rfl rfl).1]
    exact (map_modify_of_eq (f := Cell.register s.tasks.length) fun _ _ => rfl).symm
  · show creations (tr ++ [.step ()]) = _
    rw [(h.quiet rfl rfl).2]
    refine (filterMap_modify_of_eq (f := Cell.register s.tasks.length) fun k hk => ?_).symm
    have hst := (h.each t k hk).1
    rw [hpc, standing, if_pos rfl] at hst
    rw [hst.2.1]
    rfl

theorem Inv.create {t : ℕ} {stage : Stage} {p : Pc} (h : Inv runner tr s) (ok : Bool)
    (hpc : s.pc () = .goCreate t) (hp : p.hand = some t) (hpend : p.pending = 0)
    (hc : stage.creation = some ok) (hd : stage.done = false) (hf : stage ≠ .fresh)
    (hself : ∀ k : Cell υ, (Standing.held .registered).Holds k →
      (standing p t).Holds (k.setStage stage))
    (hother : ∀ u, u ≠ t → standing p u = .resting) :
    Inv runner (tr ++ [.create () ok]) ((s.setCell t (Cell.setStage stage)).setPc () p) := by
  have hhand := h.hand t (by rw [hpc]; rfl)
  have hst : ∀ k, s.heap[t]? = some k → (Standing.held .registered).Holds k := by
    intro k hk
    have := (h.each t k hk).1
    rwa [hpc, standing, if_pos rfl] at this
  refine h.owner (by rw [hpc]; exact Pc.noConfusion) (by rw [hpc, hpend]; rfl) ?_ rfl
    (fun _ => rfl) ?_ ?_ ?_
  · intro u hu
    rw [hpc, ← hu, hp]
    rfl
  · obtain ⟨k, hk⟩ : ∃ k, s.heap[t]? = some k := ⟨_, List.getElem?_eq_getElem (by omega)⟩
    have hnone : k.stage.creation = none := by rw [(hst k hk).2.1]; rfl
    rw [filterMap_modify_last hhand hk hnone, creations, filterMap_snoc]
    show _ = _ ++ stage.creation.toList
    rw [hc]
    exact congrArg (· ++ [ok]) h.created
  · intro k hk hcell
    have hk1 := hst k hk
    refine ⟨hself k hk1, hcell.2.setStage ?_ ?_⟩
    · rw [hd, hk1.2.1]
      rfl
    · rw [hk1.2.1]
      exact propext ⟨fun h => absurd h hf, fun h => by cases h⟩
  · intro u k hu hk
    rw [hpc, standing, if_neg hu] at hk
    rw [hother u hu]
    exact hk

theorem exited_of_not_live {stage : Stage} (hc : stage.created = true) (hl : stage.live ≠ true) :
    stage = .exited := by
  cases stage <;> first | rfl | exact (hl rfl).elim | cases hc

theorem Inv.join {i : ℕ} {d q : Standing} {next : Pc} (h : Inv runner tr s)
    (hstep : pthreadJoin s () i next = some s') (hn : s.pc () ≠ .gone)
    (hpend : next.pending = (s.pc ()).pending) (hhand : next.hand = none)
    (hfrom : ∀ t, standing (s.pc ()) t = loopStanding d .marked i t)
    (hto : ∀ t, standing next t = loopStanding d q i t)
    (hat : ∀ k : Cell υ, k.freed = false → k.stage = .exited → k.joins = 1 → q.Holds k) :
    Inv runner (tr ++ [.step ()]) s' := by
  obtain ⟨t, ht, hs'⟩ := Option.bind_eq_some_iff.mp hstep
  obtain ⟨rfl, -⟩ := h.get ht
  split at hs'
  · cases hs'
  next hl =>
  cases hs'
  refine h.owner hn hpend ?_ rfl (fun _ => rfl) ?_ ?_ ?_
  · intro u hu
    rw [hhand] at hu
    cases hu
  · exact h.created_write rfl fun _ _ => rfl
  · intro k hk hcell
    have hst := hcell.1
    rw [hfrom, loopStanding_at] at hst
    obtain ⟨h1, h2, -, h4⟩ := hst
    have hlive : k.stage.live ≠ true := by
      intro hk'
      exact hl (by simp [State.live, hk, hk'])
    refine ⟨?_, hcell.2⟩
    rw [hto, loopStanding_at]
    exact hat k.join h1 (exited_of_not_live h2 hlive) (by rw [Cell.join, h4])
  · intro u k hu hk
    rw [hfrom] at hk
    rw [hto]
    rwa [loopStanding_ne hu] at hk

theorem Inv.lt_of_loop {i t : ℕ} {k : Cell υ} (h : Inv runner tr s)
    (hpend : (s.pc ()).pending = 0) (hi : s.tasks[i]? = none) (hk : s.heap[t]? = some k) :
    t < i := by
  have hlen := h.length
  have hle := List.getElem?_eq_none_iff.mp hi
  have hlt := (List.getElem?_eq_some_iff.mp hk).1
  omega

theorem resting_joinable {t : ℕ} {k : Cell υ} (hk : s.heap[t]? = some k)
    (h : Standing.resting.Holds k) :
    (s.joinable t = true → Unjoined true k) ∧ (s.joinable t ≠ true → Cleared k) := by
  have hj : s.joinable t = k.task.threadJoinable := by simp [State.joinable, hk]
  rw [hj]
  rcases h with h | h
  · exact ⟨fun _ => h, fun hn => absurd h.2.2.1 hn⟩
  · refine ⟨fun ht => ?_, fun _ => h⟩
    rw [h.2.2] at ht
    cases ht

theorem Inv.test {i : ℕ} {d : Standing} {done found skip : Pc} (h : Inv runner tr s)
    (hn : s.pc () ≠ .gone) (hz : (s.pc ()).pending = 0)
    (hp : ∀ p, p = done ∨ p = found ∨ p = skip → p.pending = 0 ∧ p.hand = none)
    (hfrom : ∀ t, standing (s.pc ()) t = loopStanding d .resting i t)
    (hdone : ∀ t, standing done t = d)
    (hfound : ∀ t, standing found t = loopStanding d .marked i t)
    (hskip : ∀ t (k : Cell υ), (loopStanding d .resting i t).Holds k → (t = i → Cleared k) →
      (standing skip t).Holds k) :
    Inv runner (tr ++ [.step ()]) (s.setPc () (match s.tasks[i]? with
      | none => done
      | some t => if s.joinable t then found else skip)) := by
  cases hi : s.tasks[i]? with
  | none =>
    obtain ⟨hpend, hhand⟩ := hp done (Or.inl rfl)
    refine h.move rfl rfl hn (hpend.trans hz.symm) hhand fun t k hk hst => ?_
    rw [hfrom, loopStanding_past (h.lt_of_loop hz hi hk)] at hst
    rwa [hdone]
  | some u =>
    obtain ⟨rfl, -⟩ := h.get hi
    dsimp only
    by_cases hj : s.joinable u = true
    · obtain ⟨hpend, hhand⟩ := hp found (Or.inr (Or.inl rfl))
      rw [if_pos hj]
      refine h.move rfl rfl hn (hpend.trans hz.symm) hhand fun t k hk hst => ?_
      rw [hfrom] at hst
      rw [hfound]
      refine hst.look fun htu => ?_
      subst htu
      rw [loopStanding_at] at hst
      exact (resting_joinable hk hst).1 hj
    · obtain ⟨hpend, hhand⟩ := hp skip (Or.inr (Or.inr rfl))
      rw [if_neg hj]
      refine h.move rfl rfl hn (hpend.trans hz.symm) hhand fun t k hk hst => ?_
      rw [hfrom] at hst
      refine hskip t k hst fun htu => ?_
      subst htu
      rw [loopStanding_at] at hst
      exact (resting_joinable hk hst).2 hj

theorem Inv.advance {i : ℕ} {d q : Standing} {f : Cell υ → Cell υ} {next : Pc}
    (h : Inv runner tr s)
    (hstep : ((s.tasks[i]?).map fun t => (s.setCell t f).setPc () next) = some s')
    (hn : s.pc () ≠ .gone) (hpend : next.pending = (s.pc ()).pending) (hhand : next.hand = none)
    (hin : ∀ k, (f k).inputs = k.inputs) (hstage : ∀ k, (f k).stage = k.stage)
    (hkeep : ∀ t k, k.Keeps runner t → (f k).Keeps runner t)
    (hfrom : ∀ t, standing (s.pc ()) t = loopStanding d q i t)
    (hto : ∀ t, standing next t = loopStanding d .resting (i + 1) t)
    (hat : ∀ k : Cell υ, q.Holds k → d.Holds (f k)) : Inv runner (tr ++ [.step ()]) s' := by
  obtain ⟨u, hi, rfl⟩ := Option.map_eq_some_iff.mp hstep
  obtain ⟨rfl, -⟩ := h.get hi
  refine h.owner hn hpend ?_ rfl hin ?_ ?_ ?_
  · intro t ht
    rw [hhand] at ht
    cases ht
  · exact h.created_write rfl fun k _ => by rw [hstage]
  · intro k hk hcell
    have hst := hcell.1
    rw [hfrom, loopStanding_at] at hst
    refine ⟨?_, hkeep _ _ hcell.2⟩
    rw [hto, loopStanding_past (Nat.lt_succ_self u)]
    exact hat k hst
  · intro t k htu hst
    rw [hfrom] at hst
    rw [hto]
    exact Standing.Holds.pass (fun _ => hst) fun h => absurd h htu

theorem Inv.uncount {t : ℕ} (h : Inv runner tr s) (hpc : s.pc () = .goUncount t) :
    Inv runner (tr ++ [.step ()]) ((goUncount s t).setPc () (.goFail t)) := by
  refine h.write rfl rfl ?_ ?_ ?_ rfl (f := Cell.setStage .failed) (fun _ => rfl) ?_ ?_ ?_
  · intro hf
    have := h.groupFreed hf
    rw [hpc] at this
    cases this
  · rw [State.setPc_pc, hpc]
    rfl
  · intro u hu
    rw [State.setPc_pc] at hu
    rw [hpc]
    exact hu
  · refine h.created_write rfl fun k hk => ?_
    have hst := (h.each t k hk).1
    rw [hpc, standing, if_pos rfl] at hst
    rw [hst.2.1]
    rfl
  · intro k hk hcell
    have hst := hcell.1
    rw [hpc, standing, if_pos rfl] at hst
    rw [State.setPc_pc, CellInv, standing, if_pos rfl]
    refine ⟨⟨hst.1, rfl, rfl, hst.2.2.2⟩, hcell.2.setStage ?_ ?_⟩
    · rw [hst.2.1]
      rfl
    · rw [hst.2.1]
      simp
  · intro u k hu hk
    rw [hpc, standing, if_neg hu] at hk
    rwa [State.setPc_pc, standing, if_neg hu]

theorem Inv.fail {t : ℕ} (h : Inv runner tr s) (hpc : s.pc () = .goFail t) :
    Inv runner (tr ++ [.step ()]) ((goFail s t).setPc () (.idle (.go none))) := by
  refine h.owner (by rw [hpc]; exact Pc.noConfusion) (by rw [hpc]; rfl) (fun u hu => by cases hu)
    rfl (fun _ => rfl) (h.created_write rfl fun _ _ => rfl) ?_ ?_
  · intro k hk hcell
    obtain ⟨hst, htask, hw⟩ := hcell
    rw [hpc, standing, if_pos rfl] at hst
    refine ⟨Or.inr ⟨hst.1, Or.inr ⟨hst.2.1, hst.2.2.2.2⟩, rfl⟩, ?_, hw⟩
    show ({ k.task with ok := false, threadJoinable := false } : Task υ) =
      { k.stage.task runner k.inputs t with threadJoinable := false }
    rw [htask, hst.2.1]
    rfl
  · intro u k hu hk
    rwa [hpc, standing, if_neg hu] at hk

theorem Inv.mark {t : ℕ} {ret : Option ℕ} (h : Inv runner tr s) (hpc : s.pc () = .goMark t) :
    Inv runner (tr ++ [.step ()]) ((s.setCell t (Cell.mark true)).setPc () (.idle (.go ret))) := by
  refine h.owner (by rw [hpc]; exact Pc.noConfusion) (by rw [hpc]; rfl) (fun u hu => by cases hu)
    rfl (fun _ => rfl) (h.created_write rfl fun _ _ => rfl) ?_ ?_
  · intro k hk hcell
    have hst := hcell.1
    rw [hpc, standing, if_pos rfl] at hst
    exact ⟨Or.inl ⟨hst.1, hst.2.1, rfl, hst.2.2.2⟩, hcell.2.mark true⟩
  · intro u k hu hk
    rwa [hpc, standing, if_neg hu] at hk

theorem Inv.freeGroup (h : Inv runner tr s) (hpc : s.pc () = .freeGroup) :
    Inv runner (tr ++ [.step ()]) { s.setPc () .gone with groupFreed := true } := by
  have hgone : (s.setPc () .gone).pc () = .gone := State.setPc_pc ..
  refine ⟨h.tasks, ?_, ?_, ?_, fun _ => hgone, (h.quiet rfl rfl).1, (h.quiet rfl rfl).2⟩
  · show s.heap.length = s.tasks.length + ((s.setPc () .gone).pc ()).pending
    have := h.length
    rw [hpc] at this
    rw [hgone]
    exact this
  · intro t ht
    change ((s.setPc () .gone).pc ()).hand = some t at ht
    rw [hgone] at ht
    cases ht
  · show Each (CellInv runner ((s.setPc () .gone).pc ())) s.heap
    rw [hgone]
    have := h.each
    rw [hpc] at this
    exact this

theorem Inv.clientStep (h : Inv runner tr s) (hstep : clientStep s () = some s') :
    Inv runner (tr ++ [.step ()]) s' := by
  unfold WaitGroup.clientStep at hstep
  split at hstep
  case h_1 t hpc =>
    cases hstep
    exact h.register hpc
  case h_2 t hpc =>
    cases hstep
    exact h.mark hpc
  case h_3 t hpc =>
    cases hstep
    exact h.uncount hpc
  case h_4 t hpc =>
    cases hstep
    exact h.fail hpc
  case h_5 hpc =>
    cases hstep
    refine h.move rfl rfl (by rw [hpc]; exact Pc.noConfusion) ?_ ?_ ?_
    · rw [hpc]
      split <;> rfl
    · split <;> rfl
    · intro t k hk hst
      rw [hpc] at hst
      split
      · exact hst
      · rwa [standing, loopStanding, if_neg (Nat.not_lt_zero t), ite_self]
  case h_6 i hpc =>
    cases hstep
    refine h.test (d := .cleared) (by rw [hpc]; exact Pc.noConfusion) (by rw [hpc]; rfl) ?_
      (fun t => by rw [hpc]; rfl) (fun _ => rfl) (fun _ => rfl) ?_
    · rintro p (rfl | rfl | rfl) <;> exact ⟨rfl, rfl⟩
    · intro t k hst hc
      exact Standing.Holds.pass (fun _ => hst) hc
  case h_7 i hpc =>
    exact h.join hstep (by rw [hpc]; exact Pc.noConfusion) (by rw [hpc]; rfl) rfl
      (fun t => by rw [hpc]; rfl) (fun _ => rfl) fun k h1 h2 h3 => ⟨h1, h2, h3⟩
  case h_8 i hpc =>
    exact h.advance (q := .taken) hstep (by rw [hpc]; exact Pc.noConfusion) (by rw [hpc]; rfl) rfl
      (fun _ => rfl)
      (fun _ => rfl) (fun _ _ hk => hk.mark false) (fun t => by rw [hpc]; rfl) (fun _ => rfl)
      fun k hk => ⟨hk.1, Or.inl hk.2, rfl⟩
  case h_9 i hpc =>
    cases hstep
    refine h.test (d := .freed) (by rw [hpc]; exact Pc.noConfusion) (by rw [hpc]; rfl) ?_
      (fun t => by rw [hpc]; rfl) (fun _ => rfl) (fun _ => rfl) ?_
    · rintro p (rfl | rfl | rfl) <;> exact ⟨rfl, rfl⟩
    · intro t k hst hc
      exact hst.look fun hti => ⟨(hc hti).1, (hc hti).2.1⟩
  case h_10 i hpc =>
    exact h.join hstep (by rw [hpc]; exact Pc.noConfusion) (by rw [hpc]; rfl) rfl
      (fun t => by rw [hpc]; rfl) (fun _ => rfl) fun k h1 h2 h3 => ⟨h1, Or.inl ⟨h2, h3⟩⟩
  case h_11 i hpc =>
    exact h.advance (q := .collected) hstep (by rw [hpc]; exact Pc.noConfusion) (by rw [hpc]; rfl)
      rfl (fun _ => rfl)
      (fun _ => rfl) (fun _ _ hk => hk) (fun t => by rw [hpc]; rfl) (fun _ => rfl)
      fun k hk => ⟨rfl, hk.2⟩
  case h_12 hpc =>
    cases hstep
    exact h.freeGroup hpc
  case h_13 =>
    cases hstep

/-- Every action keeps the invariant. -/
theorem Inv.step {a : Act Unit υ} (h : Inv runner tr s) (hstep : step runner s a = some s') :
    Inv runner (tr ++ [a]) s' := by
  have hidle : ∀ {ret : Ret} {p : Pc}, s.pc () = .idle ret → p.pending = 0 → p.hand = none →
      (∀ t, standing p t = .resting) → ∀ {b : Act Unit υ}, b.goCall? = none →
      b.creation? = none → Inv runner (tr ++ [b]) (s.setPc () p) := by
    intro ret p hpc hpend hhand hst b hb hb'
    refine h.move hb hb' (by rw [hpc]; exact Pc.noConfusion) (by rw [hpc, hpend]; rfl) hhand ?_
    intro t k _ hk
    rw [hpc] at hk
    rw [hst]
    cases ret with
    | start => exact hk
    | go _ => exact hk
    | wait => exact Or.inr hk
  cases a with
  | go c inp =>
    cases hpc : s.pc () with
    | idle ret =>
      simp only [WaitGroup.step, hpc, Option.some.injEq] at hstep
      subst hstep
      exact h.go hpc inp
    | _ => simp only [WaitGroup.step, hpc] at hstep; cases hstep
  | wait c =>
    cases hpc : s.pc () with
    | idle ret =>
      simp only [WaitGroup.step, hpc, Option.some.injEq] at hstep
      subst hstep
      exact hidle hpc rfl rfl (fun _ => rfl) rfl rfl
    | _ => simp only [WaitGroup.step, hpc] at hstep; cases hstep
  | destroy c =>
    cases hpc : s.pc () with
    | idle ret =>
      simp only [WaitGroup.step, hpc, Option.some.injEq] at hstep
      subst hstep
      refine hidle hpc rfl rfl (fun t => ?_) rfl rfl
      rw [standing, loopStanding, if_neg (Nat.not_lt_zero t), ite_self]
    | _ => simp only [WaitGroup.step, hpc] at hstep; cases hstep
  | create c ok =>
    cases hpc : s.pc () with
    | goCreate t =>
      cases ok with
      | true =>
        simp only [WaitGroup.step, hpc, if_true, Option.some.injEq] at hstep
        subst hstep
        refine h.create true hpc rfl rfl rfl rfl (by decide) (fun k hk => ?_) fun u hu => ?_
        · rw [standing, if_pos rfl]
          exact ⟨hk.1, rfl, hk.2.2.2⟩
        · rw [standing, if_neg hu]
      | false =>
        simp only [WaitGroup.step, hpc, Bool.false_eq_true, if_false, Option.some.injEq] at hstep
        subst hstep
        refine h.create false hpc rfl rfl rfl rfl (by decide) (fun k hk => ?_) fun u hu => ?_
        · rw [standing, if_pos rfl]
          exact ⟨hk.1, rfl, rfl, hk.2.2.2⟩
        · rw [standing, if_neg hu]
    | _ => simp only [WaitGroup.step, hpc] at hstep; cases hstep
  | step c => exact h.clientStep hstep
  | wake c =>
    cases hpc : s.pc () with
    | waitBlocked =>
      simp only [WaitGroup.step, hpc, Option.some.injEq] at hstep
      subst hstep
      refine h.move rfl rfl (by rw [hpc]; exact Pc.noConfusion) (by rw [hpc]; rfl) rfl ?_
      intro t k _ hk
      rwa [hpc] at hk
    | _ => simp only [WaitGroup.step, hpc] at hstep; cases hstep
  | work t => exact h.workerStep hstep

/-- The invariant of every history of a group with one owner. -/
theorem Run.inv (h : Run runner tr s) : Inv runner tr s :=
  run_invariant Inv.init (fun _ _ _ _ hi hs => hi.step hs) h

end Owner

end Parallax.WaitGroup
