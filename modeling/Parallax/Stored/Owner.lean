import Parallax.Stored.Lockstep

/-! The owner of the group on the heap: each of its steps goes in step with `WaitGroup`, in every
state that a history reaches. -/
namespace Parallax.Stored.Group
open Memory Separation Separation.Assertion WaitGroup Transition
set_option autoImplicit false
set_option maxHeartbeats 250000

/-! ## Where the owner stands in the array -/

/-- The slot that a loop of the owner is at work on. -/
def Pc.index : Pc → Option ℕ
  | .joining i | .joined i | .freeJoin i | .freeTask i => some i
  | _ => none

/-- That slot is taken; and the owner is done with the group only when it is freed. -/
structure Within {υ : Type} (s : State Unit υ) : Prop where
  index : ∀ i, Pc.index (s.pc ()) = some i → i < s.tasks.length
  gone : s.pc () = .gone → s.groupFreed = true

section Index
variable {υ : Type} {runner : Runner υ} {s s' : State Unit υ}

theorem Within.of_none {p : Pc} (hp : s.pc () = p) (h : Pc.index p = none) (hg : p ≠ .gone) :
    Within s where
  index i hi := by
    rw [hp, h] at hi
    cases hi
  gone hgone := absurd (hp.symm.trans hgone) hg

theorem Within.of_some {p : Pc} {i : ℕ} (hp : s.pc () = p) (h : Pc.index p = some i)
    (hi : i < s.tasks.length) : Within s where
  index j hj := by
    rw [hp, h] at hj
    cases hj
    exact hi
  gone hgone := by
    rw [← hp, hgone] at h
    cases h

theorem wake_index (p : Pc) : Pc.index p.wake = Pc.index p := by
  cases p <;> rfl

theorem wake_gone {p : Pc} (h : p.wake = .gone) : p = .gone := by
  cases p <;> first | exact h | cases h

theorem Within.work {t : ℕ} (h : Within s) (hstep : workerStep runner s t = some s') :
    Within s' := by
  unfold workerStep at hstep
  split at hstep
  · cases hstep
    exact ⟨h.index, h.gone⟩
  · cases hstep
    exact ⟨h.index, h.gone⟩
  · cases hstep
    refine ⟨fun i hi => h.index i ?_, fun hgone => h.gone ?_⟩
    · simp only [signalDone] at hi
      split at hi
      · rwa [wake_index] at hi
      · exact hi
    · simp only [signalDone] at hgone
      split at hgone
      · exact wake_gone hgone
      · exact hgone
  · cases hstep
    exact ⟨h.index, h.gone⟩
  · cases hstep

theorem Within.join {i : ℕ} {next : Pc} (h : i < s.tasks.length)
    (hnext : Pc.index next = some i)
    (hstep : WaitGroup.pthreadJoin s () i next = some s') : Within s' := by
  obtain ⟨t, -, ht⟩ := Option.bind_eq_some_iff.mp hstep
  split at ht
  · cases ht
  · cases ht
    exact Within.of_some (State.setPc_pc _ () _) hnext h

/-- The head of a loop. -/
theorem Within.test {i : ℕ} {done found skip : Pc} (hdone : Pc.index done = none)
    (hgone : done ≠ .gone) (hfound : Pc.index found = some i)
    (hskip : Pc.index skip = none ∨ Pc.index skip = some i) (hskip' : skip ≠ .gone) :
    Within (s.setPc () (match s.tasks[i]? with
      | none => done
      | some t => if s.joinable t then found else skip)) := by
  cases ht : s.tasks[i]? with
  | none => exact Within.of_none (State.setPc_pc s () _) hdone hgone
  | some t =>
    have hlt := (List.getElem?_eq_some_iff.mp ht).1
    dsimp only
    split
    · exact Within.of_some (State.setPc_pc s () _) hfound hlt
    · rcases hskip with hskip | hskip
      · exact Within.of_none (State.setPc_pc s () _) hskip hskip'
      · exact Within.of_some (State.setPc_pc s () _) hskip hlt

theorem Within.clientStep (h : Within s) (hstep : WaitGroup.clientStep s () = some s') :
    Within s' := by
  unfold WaitGroup.clientStep at hstep
  cases hpc : s.pc () with
  | joinTest i =>
    rw [hpc] at hstep
    cases hstep
    exact Within.test rfl Pc.noConfusion rfl (Or.inl rfl) Pc.noConfusion
  | freeTest i =>
    rw [hpc] at hstep
    cases hstep
    exact Within.test rfl Pc.noConfusion rfl (Or.inr rfl) Pc.noConfusion
  | joining i | freeJoin i =>
    rw [hpc] at hstep
    exact Within.join (h.index i (by rw [hpc]; rfl)) rfl hstep
  | waitTest =>
    rw [hpc] at hstep
    cases hstep
    refine Within.of_none (State.setPc_pc s () _) ?_ ?_
    · split <;> rfl
    · split <;> exact Pc.noConfusion
  | joined i | freeTask i =>
    rw [hpc] at hstep
    obtain ⟨t, -, rfl⟩ := Option.map_eq_some_iff.mp hstep
    exact Within.of_none (State.setPc_pc _ () _) rfl Pc.noConfusion
  | freeGroup =>
    rw [hpc] at hstep
    cases hstep
    refine ⟨fun i hi => ?_, fun _ => rfl⟩
    rw [show _ = Pc.gone from State.setPc_pc s () _] at hi
    cases hi
  | goRegister t | goMark t | goUncount t | goFail t =>
    rw [hpc] at hstep
    cases hstep
    exact Within.of_none (State.setPc_pc s () _) rfl Pc.noConfusion
  | idle r | goCreate t | waitBlocked | gone =>
    rw [hpc] at hstep
    cases hstep

theorem Within.step {a : WaitGroup.Act Unit υ} (h : Within s)
    (hstep : WaitGroup.step runner s a = some s') : Within s' := by
  cases a with
  | step c => exact h.clientStep hstep
  | work t => exact h.work hstep
  | go c inp =>
    simp only [WaitGroup.step] at hstep
    split at hstep <;> cases hstep
    exact Within.of_none (State.setPc_pc s () _) rfl Pc.noConfusion
  | create c ok =>
    simp only [WaitGroup.step] at hstep
    split at hstep
    · split at hstep <;> cases hstep <;>
        exact Within.of_none (State.setPc_pc s () _) rfl Pc.noConfusion
    · cases hstep
  | wait c | destroy c | wake c =>
    simp only [WaitGroup.step] at hstep
    split at hstep <;> cases hstep
    exact Within.of_none (State.setPc_pc s () _) rfl Pc.noConfusion

end Index

/-! ## One task of the owner -/

section Task
variable {υ : Type} {owns : υ → ℕ → Assertion Block} {s s' : State Unit υ} {c c' : Control}
variable {tr : List (WaitGroup.Act Unit υ)} {runner : Runner υ} {t a : ℕ} {k : Cell υ}
variable {thread : Thread}

theorem Standing.unfreed {st : Standing} (h : st.Holds k) (hst : st ≠ .freed) :
    k.freed = false := by
  cases st with
  | resting => exact h.elim And.left And.left
  | freed => exact absurd rfl hst
  | _ => exact h.1

theorem group_unfreed (hinv : Inv runner tr s) (hpc : s.pc () ≠ .gone) : s.groupFreed = false :=
  Bool.eq_false_iff.mpr fun h => hpc (hinv.groupFreed h)

theorem exists_hand (hinv : Inv runner tr s) (ht : (s.pc ()).hand = some t) :
    ∃ k, s.heap[t]? = some k :=
  ⟨_, List.getElem?_eq_getElem (by rw [← hinv.hand t ht]; exact Nat.lt_succ_self t)⟩

theorem length_addresses (hlen : c.calls.length = s.heap.length) :
    c.addresses.length = s.heap.length := by
  rw [Control.addresses, List.length_map, hlen]

/-- Where the array has the task of a call. -/
theorem address_at (hc : c.calls[t]? = some ⟨a, thread⟩) {n : ℕ} (ht : t < n) :
    (c.addresses.take n)[t]? = some a := by
  rw [List.getElem?_take_of_lt ht, Control.addresses, List.getElem?_map, hc]
  rfl

/-- What is on the heap beside the group and the task. -/
def beside (owns : υ → ℕ → Assertion Block) (s : State Unit υ) (c : Control) (t a : ℕ)
    (thread : Thread) : Assertion Block := ctxAt c.wg a thread * othersAt owns c.wg t s.heap c.calls

/-- The task in front of all else. -/
theorem focus_eq (hk : s.heap[t]? = some k) (hc : c.calls[t]? = some ⟨a, thread⟩)
    (hfreed : k.freed = false) (hgroup : s.groupFreed = false) :
    groupAt s c * callsAt owns c.wg s.heap c.calls =
      (⨆ n, ⨆ _ : k.stage.created = true → n = t, taskAt owns k.task n a) *
        (groupBlocks c.wg s.remaining (c.addresses.take s.tasks.length) s.cap *
          (threadAt c.wg a k.stage thread * othersAt owns c.wg t s.heap c.calls)) := by
  rw [groupAt_unfreed hgroup, callsAt_focus hk hc, callAt, cellAt_unfreed hfreed]
  ac_rfl

/-- Until it is freed, a task is there, with its thread and with the group. -/
theorem focus {α : Type} {x : Code α} {Q : α → Assertion Block} (hk : s.heap[t]? = some k)
    (hc : c.calls[t]? = some ⟨a, thread⟩) (hfreed : k.freed = false) (hgroup : s.groupFreed = false)
    (h : ∀ n, (k.stage.created = true → n = t) → AtStage c.wg a k.stage thread →
      Triple (groupBlocks c.wg s.remaining (c.addresses.take s.tasks.length) s.cap *
        taskAt owns k.task n a * beside owns s c t a thread) x Q) :
    Triple (groupAt s c * callsAt owns c.wg s.heap c.calls) x Q := by
  rw [focus_eq hk hc hfreed hgroup, threadAt]
  refine Triple.iSup_mul fun n => Triple.iSup_mul fun hn => ?_
  refine Triple.perm ((⨆ _ : AtStage c.wg a k.stage thread, ctxAt c.wg a thread) *
    (groupBlocks c.wg s.remaining (c.addresses.take s.tasks.length) s.cap *
      taskAt owns k.task n a * othersAt owns c.wg t s.heap c.calls)) (by ac_rfl) ?_
  exact Triple.iSup_mul fun hat => Triple.perm _ (by rw [beside]; ac_rfl) (h n hn hat)

/-- The task is put back as it has become. -/
theorem le_owner {f : Cell υ → Cell υ} {g : Call → Call} {thread' : Thread} {n : ℕ}
    {tasks : List ℕ} {remaining : ℤ} {cap : ℕ} (hk : s.heap[t]? = some k)
    (hc : c.calls[t]? = some ⟨a, thread⟩) (hlen : c.calls.length = s.heap.length)
    (hheap : s'.heap = s.heap.modify t f) (hcalls : c'.calls = c.calls.modify t g)
    (hg : g ⟨a, thread⟩ = ⟨a, thread'⟩) (hwg : c'.wg = c.wg) (hpc : c'.pc = s'.pc ())
    (hfreed : (f k).freed = false) (hgroup : s'.groupFreed = false)
    (hn : (f k).stage.created = true → n = t) (hat : AtStage c.wg a (f k).stage thread')
    (hremaining : remaining = s'.remaining) (hcap : cap = s'.cap)
    (htasks : tasks = c'.addresses.take s'.tasks.length) :
    groupBlocks c.wg remaining tasks cap * taskAt owns (f k).task n a *
      beside owns s c t a thread' ≤ holds owns s' c' := by
  refine le_trans ?_ (le_holds hk hc hlen hheap hcalls hwg hpc)
  rw [groupAt_unfreed hgroup, hg, callAt, cellAt_unfreed hfreed, beside, hremaining, hcap, htasks,
    hwg, mul_assoc]
  refine mul_le_mul' le_rfl ((mul_assoc _ _ _).ge.trans (mul_le_mul' ?_ le_rfl))
  exact mul_le_mul' (le_iSup₂_of_le n hn le_rfl) (le_iSup_of_le hat le_rfl)

/-- A step that touches no block. -/
theorem le_move (hpc : c'.pc = s'.pc ()) (hlen : c.calls.length = s.heap.length)
    (hheap : s'.heap = s.heap) (hcalls : c'.calls = c.calls) (hwg : c'.wg = c.wg)
    (hgroup : groupAt s' c' = groupAt s c) :
    groupAt s c * callsAt owns c.wg s.heap c.calls ≤ holds owns s' c' := by
  refine le_iSup_of_le ⟨hpc, by rw [hcalls, hheap, hlen]⟩ ?_
  rw [hgroup, hcalls, hheap, hwg]

end Task

/-! ## wg_go -/

section Go
variable {υ : Type} {owns : υ → ℕ → Assertion Block} {s : State Unit υ} {c : Control}
variable {tr : List (WaitGroup.Act Unit υ)} {runner : Runner υ} {t : ℕ}

theorem goRegister_eq (s : State Unit υ) (t : ℕ) : WaitGroup.goRegister s t = { s with
    remaining := s.remaining + 1
    tasks := s.tasks ++ [t]
    cap := grownCap s.tasks.length s.cap
    heap := s.heap.modify t (Cell.register s.tasks.length) } := by
  unfold WaitGroup.goRegister grownCap
  split <;> rfl

theorem AtStage.of_not_created {wg a : ℕ} {stage stage' : Stage} {thread : Thread}
    (h : AtStage wg a stage thread) (hc : stage.created = false) (hc' : stage'.created = false) :
    AtStage wg a stage' thread := by
  cases h with
  | absent => exact .absent hc'
  | _ => cases hc

/-- The task that `wg_go` is at work on, with its call. -/
theorem in_hand (hinv : Inv runner tr s) (hlen : c.calls.length = s.heap.length)
    (ht : (s.pc ()).hand = some t) : ∃ k a thread, s.heap[t]? = some k ∧
      c.calls[t]? = some ⟨a, thread⟩ ∧ (standing (s.pc ()) t).Holds k := by
  obtain ⟨k, hk⟩ := exists_hand hinv ht
  obtain ⟨⟨a, thread⟩, hc⟩ := exists_call hlen hk
  exact ⟨k, a, thread, hk, hc, (hinv.each t k hk).1⟩

variable [Allocator Block]

theorem register_step (hinv : Inv runner tr s) (hpc : s.pc () = .goRegister t)
    (hc : c.pc = s.pc ()) (hlen : c.calls.length = s.heap.length) :
    Triple (groupAt s c * callsAt owns c.wg s.heap c.calls) (clientStep c)
      (Follows owns (WaitGroup.clientStep s ())) := by
  obtain ⟨k, a, thread, hk, hcall, hst⟩ := in_hand hinv hlen (by rw [hpc]; rfl)
  have hgroup := group_unfreed hinv (by rw [hpc]; exact Pc.noConfusion)
  have ht := hinv.hand t (by rw [hpc]; rfl)
  have hpend := hinv.length
  rw [hpc] at hst hpend
  simp only [standing, if_pos] at hst
  obtain ⟨hfreed, hstage, -⟩ := hst
  have ht' : s.tasks.length = t := by
    simp only [Pc.pending] at hpend
    omega
  rw [clientStep, hc, WaitGroup.clientStep, hpc]
  simp only [hcall, goRegister_eq]
  refine focus hk hcall hfreed hgroup fun n _ hat => ?_
  refine Triple.seq goRegister_spec rfl fun _ => Triple.pure ?_
  have hcount : (c.addresses.take s.tasks.length).length = s.tasks.length := by
    rw [List.length_take, length_addresses hlen]
    omega
  rw [hcount]
  refine le_owner (f := Cell.register s.tasks.length) (g := id) hk hcall hlen rfl
    (List.modify_id ..).symm rfl rfl (State.setPc_pc ..).symm hfreed hgroup ?_ ?_ rfl rfl ?_
  · exact fun h => by cases h
  · rw [hstage] at hat
    exact hat.of_not_created rfl rfl
  · show _ = c.addresses.take (s.tasks ++ [t]).length
    rw [List.length_append, List.length_singleton, ht', List.take_add_one]
    rw [Control.addresses, List.getElem?_map, hcall]
    rfl

theorem mark_step (hinv : Inv runner tr s) (hpc : s.pc () = .goMark t)
    (hc : c.pc = s.pc ()) (hlen : c.calls.length = s.heap.length) :
    Triple (groupAt s c * callsAt owns c.wg s.heap c.calls) (clientStep c)
      (Follows owns (WaitGroup.clientStep s ())) := by
  obtain ⟨k, a, thread, hk, hcall, hst⟩ := in_hand hinv hlen (by rw [hpc]; rfl)
  have hgroup := group_unfreed hinv (by rw [hpc]; exact Pc.noConfusion)
  rw [hpc] at hst
  simp only [standing, if_pos] at hst
  have hslot : s.slot t = some k.task.slot := by
    rw [State.slot, hk]
    rfl
  rw [clientStep, hc, WaitGroup.clientStep, hpc]
  simp only [hcall, hslot]
  refine focus hk hcall hst.1 hgroup fun n hn hat => ?_
  refine Triple.seq (F := groupBlocks c.wg s.remaining (c.addresses.take s.tasks.length) s.cap *
    beside owns s c t a thread) goMark_spec (by ac_rfl) fun slot => Triple.iSup_mul fun hs => ?_
  subst hs
  refine Triple.pure (le_trans (le_of_eq (by ac_rfl)) (le_owner (f := Cell.mark true) (g := id)
    hk hcall hlen rfl (List.modify_id ..).symm rfl rfl (State.setPc_pc ..).symm hst.1 hgroup hn hat
    rfl rfl rfl))

theorem uncount_step (hinv : Inv runner tr s) (hpc : s.pc () = .goUncount t)
    (hc : c.pc = s.pc ()) (hlen : c.calls.length = s.heap.length) :
    Triple (groupAt s c * callsAt owns c.wg s.heap c.calls) (clientStep c)
      (Follows owns (WaitGroup.clientStep s ())) := by
  obtain ⟨k, a, thread, hk, hcall, hst⟩ := in_hand hinv hlen (by rw [hpc]; rfl)
  have hgroup := group_unfreed hinv (by rw [hpc]; exact Pc.noConfusion)
  rw [hpc] at hst
  simp only [standing, if_pos] at hst
  obtain ⟨hfreed, hstage, -⟩ := hst
  rw [clientStep, hc, WaitGroup.clientStep, hpc]
  refine focus hk hcall hfreed hgroup fun n _ hat => ?_
  refine Triple.seq (addRemaining_spec (-1)) (mul_assoc _ _ _) fun r => ?_
  refine Triple.iSup_mul fun _ => Triple.pure ((mul_assoc _ _ _).ge.trans ?_)
  refine le_owner (f := Cell.setStage .failed) (g := id) hk hcall hlen rfl
    (List.modify_id ..).symm rfl rfl (State.setPc_pc ..).symm hfreed hgroup ?_ ?_
    (Int.sub_eq_add_neg).symm rfl rfl
  · exact fun h => by cases h
  · rw [hstage] at hat
    exact hat.of_not_created rfl rfl

theorem fail_step (hinv : Inv runner tr s) (hpc : s.pc () = .goFail t)
    (hc : c.pc = s.pc ()) (hlen : c.calls.length = s.heap.length) :
    Triple (groupAt s c * callsAt owns c.wg s.heap c.calls) (clientStep c)
      (Follows owns (WaitGroup.clientStep s ())) := by
  obtain ⟨k, a, thread, hk, hcall, hst⟩ := in_hand hinv hlen (by rw [hpc]; rfl)
  have hgroup := group_unfreed hinv (by rw [hpc]; exact Pc.noConfusion)
  rw [hpc] at hst
  simp only [standing, if_pos] at hst
  rw [clientStep, hc, WaitGroup.clientStep, hpc]
  simp only [hcall]
  refine focus hk hcall hst.1 hgroup fun n hn hat => ?_
  refine Triple.seq (F := groupBlocks c.wg s.remaining (c.addresses.take s.tasks.length) s.cap *
    beside owns s c t a thread) goFail_spec (by ac_rfl) fun _ => Triple.pure ?_
  refine le_trans (le_of_eq (by ac_rfl)) (le_owner (f := Cell.fail) (g := id)
    hk hcall hlen rfl (List.modify_id ..).symm rfl rfl (State.setPc_pc ..).symm hst.1 hgroup hn hat
    rfl rfl rfl)

/-- `pthread_create`, and the thread it makes. -/
theorem create_step (hinv : Inv runner tr s) (hpc : s.pc () = .goCreate t)
    (hc : c.pc = s.pc ()) (hlen : c.calls.length = s.heap.length) {κ : Type}
    (prepare : κ → Code (Option ℕ × Option ℕ)) (run : ℕ → Code Unit) (ok : Bool) :
    Triple (groupAt s c * callsAt owns c.wg s.heap c.calls) (step prepare run c (.create ok))
      (Follows owns (WaitGroup.step runner s (.create () ok))) := by
  obtain ⟨k, a, thread, hk, hcall, hst⟩ := in_hand hinv hlen (by rw [hpc]; rfl)
  have hgroup := group_unfreed hinv (by rw [hpc]; exact Pc.noConfusion)
  rw [hpc] at hst
  simp only [standing, if_pos] at hst
  obtain ⟨hfreed, hstage, -⟩ := hst
  rw [step, hc, WaitGroup.step, hpc]
  simp only [hcall]
  refine focus hk hcall hfreed hgroup fun n _ hat => ?_
  have hnone : beside owns s c t a thread = othersAt owns c.wg t s.heap c.calls := by
    rw [hstage] at hat
    cases hat
    exact one_mul _
  have hput (m : ℕ) (stage : Stage) (th : Thread) (p : Pc) (hm : stage.created = true → m = t) :
      taskAt owns k.task m a * threadAt c.wg a stage th *
        (groupBlocks c.wg s.remaining (c.addresses.take s.tasks.length) s.cap *
          othersAt owns c.wg t s.heap c.calls) ≤
      holds owns ((s.setCell t (Cell.setStage stage)).setPc () p) ((c.setThread t th).setPc p) := by
    rw [threadAt, mul_assoc, mul_left_comm, Assertion.iSup_mul]
    refine iSup_le fun h => le_trans (le_of_eq (by rw [beside]; ac_rfl)) (le_owner
      (f := Cell.setStage stage) (g := fun call => { call with thread := th }) hk hcall hlen rfl rfl
      rfl rfl (State.setPc_pc ..).symm hfreed hgroup hm h rfl rfl ?_)
    show _ = (c.setThread t th).addresses.take s.tasks.length
    rw [setThread_addresses]
  rw [hnone]
  cases ok with
  | true =>
    refine Triple.seq (F := groupBlocks c.wg s.remaining (c.addresses.take s.tasks.length) s.cap *
      othersAt owns c.wg t s.heap c.calls) (goCreate_ok t) (by ac_rfl) fun th => Triple.pure ?_
    exact hput t .started th (.goMark t) fun _ => rfl
  | false =>
    refine Triple.seq (F := groupBlocks c.wg s.remaining (c.addresses.take s.tasks.length) s.cap *
      othersAt owns c.wg t s.heap c.calls) (goCreate_fail t) (by ac_rfl) fun th => Triple.pure ?_
    exact hput n .refused th (.goUncount t) fun h => by cases h

end Go

/-! ## wg_wait and wg_destroy -/

section Loops
variable {υ : Type} {owns : υ → ℕ → Assertion Block} {s : State Unit υ} {c : Control}
variable {tr : List (WaitGroup.Act Unit υ)} {runner : Runner υ} {i : ℕ}

theorem tasks_at (hinv : Inv runner tr s) (hi : i < s.tasks.length) : s.tasks[i]? = some i := by
  rw [hinv.tasks, List.getElem?_range hi]

/-- The task in a slot that is taken, with its call. -/
theorem in_slot (hinv : Inv runner tr s) (hlen : c.calls.length = s.heap.length)
    (hi : i < s.tasks.length) : ∃ k a thread, s.heap[i]? = some k ∧
      c.calls[i]? = some ⟨a, thread⟩ ∧ (standing (s.pc ()) i).Holds k := by
  have hle : s.tasks.length ≤ s.heap.length := hinv.length.symm ▸ Nat.le_add_right _ _
  have hk := List.getElem?_eq_getElem (hi.trans_le hle)
  obtain ⟨⟨a, thread⟩, hc⟩ := exists_call hlen hk
  exact ⟨_, a, thread, hk, hc, (hinv.each i _ hk).1⟩

/-- The head of a loop over the tasks. -/
theorem test_spec (hinv : Inv runner tr s)
    (hlen : c.calls.length = s.heap.length) (hpc : s.pc () ≠ .gone)
    (hst : standing (s.pc ()) i = .resting) (done found skip : Pc) :
    Triple (groupAt s c * callsAt owns c.wg s.heap c.calls) (do
      let joinable ← testTask c.wg i
      return some (c.setPc (match joinable with
        | none => done
        | some joinable => if joinable then found else skip)))
      (Follows owns (some (s.setPc () (match s.tasks[i]? with
        | none => done
        | some t => if s.joinable t then found else skip)))) := by
  have hgroup := group_unfreed hinv hpc
  by_cases hi : i < s.tasks.length
  · obtain ⟨k, a, thread, hk, hcall, hcell⟩ := in_slot hinv hlen hi
    rw [hst] at hcell
    have hjoinable : s.joinable i = k.task.threadJoinable := by
      rw [State.joinable, hk]
      rfl
    have hfreed := Standing.unfreed hcell Standing.noConfusion
    rw [tasks_at hinv hi]
    simp only [hjoinable]
    refine focus hk hcall hfreed hgroup fun n hn hat => ?_
    refine Triple.seq (testTask_some (address_at hcall hi)) rfl fun j => Triple.iSup_mul fun hj => ?_
    subst hj
    exact Triple.pure (le_owner (f := id) (g := id) hk hcall hlen (List.modify_id ..).symm
      (List.modify_id ..).symm rfl rfl (State.setPc_pc ..).symm hfreed hgroup hn hat rfl rfl rfl)
  · have hnone : s.tasks[i]? = none := List.getElem?_eq_none_iff.mpr (Nat.le_of_not_lt hi)
    have hslot : (c.addresses.take s.tasks.length)[i]? = none := List.getElem?_take_eq_none
      (Nat.le_of_not_lt hi)
    rw [hnone, groupAt_unfreed hgroup]
    refine Triple.seq (testTask_none hslot) rfl fun j => Triple.iSup_mul fun hj => ?_
    subst hj
    refine Triple.pure ((mul_le_mul' (groupAt_unfreed hgroup).ge le_rfl).trans ?_)
    exact le_move (State.setPc_pc ..).symm hlen rfl rfl rfl rfl

/-- `pthread_join` of the thread of a task that is to be joined. -/
theorem join_spec (hinv : Inv runner tr s)
    (hlen : c.calls.length = s.heap.length) (hpc : s.pc () ≠ .gone) (hi : i < s.tasks.length)
    (hst : standing (s.pc ()) i = .marked) (next : Pc) :
    Triple (groupAt s c * callsAt owns c.wg s.heap c.calls) (pthreadJoin c i next)
      (Follows owns (WaitGroup.pthreadJoin s () i next)) := by
  have hgroup := group_unfreed hinv hpc
  obtain ⟨k, a, thread, hk, hcall, hcell⟩ := in_slot hinv hlen hi
  rw [hst] at hcell
  obtain ⟨hfreed, hcreated, -⟩ := hcell
  rw [WaitGroup.pthreadJoin, tasks_at hinv hi, Option.bind_some]
  refine focus hk hcall hfreed hgroup fun n hn hat => ?_
  refine Triple.seq (threadOf_spec (address_at hcall hi)) rfl fun m => Triple.iSup_mul fun hm => ?_
  have hlive : c.live m = s.live i := by
    rw [hm, hn hcreated, Control.live, State.live, hcall, hk]
    exact hat.live_eq
  rw [hlive]
  refine Triple.pure ?_
  cases s.live i with
  | true => exact le_top
  | false =>
    have hput : groupBlocks c.wg s.remaining (c.addresses.take s.tasks.length) s.cap *
        taskAt owns k.task n a * beside owns s c i a thread ≤
        holds owns ((s.setCell i Cell.join).setPc () next) (c.setPc next) :=
      le_owner (f := Cell.join) (g := id) hk hcall hlen rfl (List.modify_id ..).symm rfl rfl
        (State.setPc_pc ..).symm hfreed hgroup hn hat rfl rfl rfl
    exact hput

theorem joined_step (hinv : Inv runner tr s) (hpc : s.pc () = .joined i)
    (hlen : c.calls.length = s.heap.length) (hi : i < s.tasks.length) :
    Triple (groupAt s c * callsAt owns c.wg s.heap c.calls) (do
      unmark c.wg i
      return some (c.setPc (.joinTest (i + 1))))
      (Follows owns (some ((s.setCell i (Cell.mark false)).setPc () (.joinTest (i + 1))))) := by
  have hgroup := group_unfreed hinv (by rw [hpc]; exact Pc.noConfusion)
  obtain ⟨k, a, thread, hk, hcall, hcell⟩ := in_slot hinv hlen hi
  rw [hpc] at hcell
  simp only [standing, loopStanding_at] at hcell
  refine focus hk hcall hcell.1 hgroup fun n hn hat => ?_
  refine Triple.seq (unmark_spec (address_at hcall hi)) rfl fun _ => Triple.pure ?_
  exact le_owner (f := Cell.mark false) (g := id) hk hcall hlen rfl (List.modify_id ..).symm rfl rfl
    (State.setPc_pc ..).symm hcell.1 hgroup hn hat rfl rfl rfl

theorem free_step (hinv : Inv runner tr s) (hpc : s.pc () = .freeTask i)
    (hlen : c.calls.length = s.heap.length) (hi : i < s.tasks.length) :
    Triple (groupAt s c * callsAt owns c.wg s.heap c.calls) (do
      freeTask c.wg i
      return some (c.setPc (.freeTest (i + 1))))
      (Follows owns (some ((s.setCell i Cell.free).setPc () (.freeTest (i + 1))))) := by
  have hgroup := group_unfreed hinv (by rw [hpc]; exact Pc.noConfusion)
  obtain ⟨k, a, thread, hk, hcall, hcell⟩ := in_slot hinv hlen hi
  rw [hpc] at hcell
  simp only [standing, loopStanding_at] at hcell
  refine focus hk hcall hcell.1 hgroup fun n hn hat => ?_
  refine Triple.seq (freeTask_spec (address_at hcall hi)) rfl fun _ => Triple.pure ?_
  refine le_trans ?_ (le_holds (f := Cell.free) (g := id) hk hcall hlen rfl
    (List.modify_id ..).symm rfl (State.setPc_pc ..).symm)
  rw [beside, mul_assoc, ← mul_assoc (⨆ u, held owns k.task.userData u)]
  refine mul_le_mul' (groupAt_unfreed (s := s) hgroup).ge ?_
  exact (mul_le_mul' (mul_le_mul' le_rfl (le_iSup_of_le hat le_rfl)) le_rfl)

theorem freeGroup_step (hinv : Inv runner tr s) (hpc : s.pc () = .freeGroup)
    (hlen : c.calls.length = s.heap.length) :
    Triple (groupAt s c * callsAt owns c.wg s.heap c.calls) (do
      freeGroup c.wg
      return some (c.setPc .gone))
      (Follows owns (some { s.setPc () .gone with groupFreed := true })) := by
  rw [groupAt_unfreed (group_unfreed hinv (by rw [hpc]; exact Pc.noConfusion))]
  refine Triple.seq freeGroup_spec rfl fun _ => Triple.pure ?_
  exact le_iSup_of_le ⟨(State.setPc_pc s () .gone).symm, hlen⟩ le_rfl

theorem waitTest_step (hinv : Inv runner tr s) (hpc : s.pc () = .waitTest)
    (hlen : c.calls.length = s.heap.length) :
    Triple (groupAt s c * callsAt owns c.wg s.heap c.calls) (do
      let g ← readGroup (some c.wg)
      return some (c.setPc (if 0 < g.remaining then .waitBlocked else .joinTest 0)))
      (Follows owns (some
        (s.setPc () (if 0 < s.remaining then .waitBlocked else .joinTest 0)))) := by
  have hgroup := group_unfreed hinv (by rw [hpc]; exact Pc.noConfusion)
  rw [groupAt_unfreed hgroup]
  refine groupBlocks_elim fun q => readGroup_bind (Triple.pure ((le_groupBlocks rfl q).trans ?_))
  refine (mul_le_mul' (groupAt_unfreed hgroup).ge le_rfl).trans ?_
  exact le_move (State.setPc_pc ..).symm hlen rfl rfl rfl rfl

end Loops

/-! ## Any step -/

section Steps
variable {υ : Type} {owns : υ → ℕ → Assertion Block} {s : State Unit υ} {c : Control}
variable {tr : List (WaitGroup.Act Unit υ)} {runner : Runner υ}

/-- A new call stands behind the others. -/
theorem le_call (hinv : Inv runner tr s) (hlen : c.calls.length = s.heap.length) (inp : Inputs υ)
    (a : ℕ) : taskAt owns (WaitGroup.Task.spawned inp) 0 a *
      (groupAt s c * callsAt owns c.wg s.heap c.calls) ≤
      holds owns { s.setPc () (.goRegister s.heap.length) with heap := s.heap ++ [.alloc inp] }
        { c with pc := .goRegister c.calls.length, calls := c.calls ++ [⟨a, .absent⟩] } := by
  have hle : s.tasks.length ≤ c.addresses.length :=
    (length_addresses hlen).symm ▸ hinv.length.symm ▸ Nat.le_add_right _ _
  have htake : ((c.calls ++ [Call.mk a .absent]).map Call.task).take s.tasks.length =
      c.addresses.take s.tasks.length := by
    rw [List.map_append]
    exact List.take_append_of_le_length hle
  have hgroup : groupAt { s.setPc () (.goRegister s.heap.length) with heap := s.heap ++ [.alloc inp] }
      { c with pc := .goRegister c.calls.length, calls := c.calls ++ [⟨a, .absent⟩] } =
      groupAt s c := groupAt_congr rfl rfl rfl rfl rfl htake
  refine le_iSup_of_le ⟨?_, ?_⟩ ?_
  · rw [hlen]
    exact (State.setPc_pc s () _).symm
  · rw [List.length_append, List.length_append, hlen]
    rfl
  · rw [hgroup, callsAt_snoc hlen, mul_comm, mul_assoc]
    refine mul_le_mul' le_rfl (mul_le_mul' le_rfl ((mul_one _).ge.trans (mul_le_mul' ?_ ?_)))
    · rw [cellAt_unfreed rfl]
      exact le_iSup₂_of_le 0 (fun h => by cases h) le_rfl
    · exact le_iSup_of_le (AtStage.absent rfl) le_rfl

variable [Allocator Block]

theorem clientStep_spec (hinv : Inv runner tr s) (hwithin : Within s) :
    Triple (holds owns s c) (clientStep c) (Follows owns (WaitGroup.clientStep s ())) := by
  refine Triple.iSup fun ⟨hc, hlen⟩ => ?_
  cases hpc : s.pc () with
  | goRegister t => exact register_step hinv hpc hc hlen
  | goMark t => exact mark_step hinv hpc hc hlen
  | goUncount t => exact uncount_step hinv hpc hc hlen
  | goFail t => exact fail_step hinv hpc hc hlen
  | waitTest =>
    rw [clientStep, hc, WaitGroup.clientStep, hpc]
    exact waitTest_step hinv hpc hlen
  | joinTest i =>
    rw [clientStep, hc, WaitGroup.clientStep, hpc]
    refine test_spec hinv hlen (by rw [hpc]; exact Pc.noConfusion) ?_ _ _ _
    rw [hpc]
    exact loopStanding_at
  | freeTest i =>
    rw [clientStep, hc, WaitGroup.clientStep, hpc]
    refine test_spec hinv hlen (by rw [hpc]; exact Pc.noConfusion) ?_ _ _ _
    rw [hpc]
    exact loopStanding_at
  | joining i =>
    rw [clientStep, hc, WaitGroup.clientStep, hpc]
    refine join_spec hinv hlen (by rw [hpc]; exact Pc.noConfusion) (hwithin.index i (by rw [hpc]; rfl))
      ?_ _
    rw [hpc]
    exact loopStanding_at
  | freeJoin i =>
    rw [clientStep, hc, WaitGroup.clientStep, hpc]
    refine join_spec hinv hlen (by rw [hpc]; exact Pc.noConfusion) (hwithin.index i (by rw [hpc]; rfl))
      ?_ _
    rw [hpc]
    exact loopStanding_at
  | joined i =>
    have hi := hwithin.index i (by rw [hpc]; rfl)
    rw [clientStep, hc, WaitGroup.clientStep, hpc]
    simp only [tasks_at hinv hi, Option.map_some]
    exact joined_step hinv hpc hlen hi
  | freeTask i =>
    have hi := hwithin.index i (by rw [hpc]; rfl)
    rw [clientStep, hc, WaitGroup.clientStep, hpc]
    simp only [tasks_at hinv hi, Option.map_some]
    exact free_step hinv hpc hlen hi
  | freeGroup =>
    rw [clientStep, hc, WaitGroup.clientStep, hpc]
    exact freeGroup_step hinv hpc hlen
  | idle | goCreate | waitBlocked | gone =>
    rw [clientStep, hc, WaitGroup.clientStep, hpc]
    exact Triple.pure le_top

variable {κ : Type}

/-- What the caller gives a call is counted to it from its first step on. -/
theorem go_step (hinv : Inv runner tr s) (hc : c.pc = s.pc ())
    (hlen : c.calls.length = s.heap.length) (caller : Caller κ υ owns) (run : ℕ → Code Unit)
    (k : κ) : Triple (groupAt s c * callsAt owns c.wg s.heap c.calls * caller.keeps)
      (step caller.prepare run c (.go k)) fun o =>
        Follows owns (WaitGroup.step runner s (.go () (caller.inputs k))) o * caller.keeps := by
  cases hpc : s.pc () with
  | idle ret =>
    rw [step, hc, WaitGroup.step, hpc]
    refine Triple.seq (caller.spec k) (mul_comm _ _) fun p => ?_
    refine Triple.seq (F := caller.keeps * (groupAt s c * callsAt owns c.wg s.heap c.calls))
      (goAlloc_spec (caller.inputs k) p.1 p.2) (mul_assoc _ _ _) fun a => Triple.pure ?_
    refine (mul_left_comm _ _ _).le.trans ((mul_comm _ _).le.trans (mul_le_mul' ?_ le_rfl))
    exact le_call hinv hlen (caller.inputs k) a
  | _ =>
    rw [step, hc, WaitGroup.step, hpc]
    exact Triple.pure (mul_le_mul' le_top le_rfl)

end Steps

end Parallax.Stored.Group
