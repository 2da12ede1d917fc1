import Parallax.Stored.Group

/-! The group on the heap goes in step with `WaitGroup`: what its blocks are at a state, and that
each step, of the owner or of a thread, finds the blocks it uses. -/
namespace Parallax.Stored.Group
open Memory Separation Separation.Assertion WaitGroup Transition
set_option autoImplicit false
set_option maxHeartbeats 250000

/-! ## Contracts -/

section Contracts
variable {υ : Type} (owns : υ → ℕ → Assertion Block)

/-- What a task says beside its pointers. -/
def Agrees (task : WaitGroup.Task υ) (thread : ℕ) (t : TaskT) : Prop :=
  t.threadJoinable = task.threadJoinable ∧ t.slot = task.slot ∧ t.ok = task.ok ∧ t.thread = thread

/-- What the pointers of a task own. -/
def contents (task : WaitGroup.Task υ) (t : TaskT) : Assertion Block :=
  child task.args t.args * (child task.result t.result * (child task.error t.error *
    held owns task.userData t.userData))

/-- A task and what it owns. -/
def taskAt (task : WaitGroup.Task υ) (thread a : ℕ) : Assertion Block :=
  ⨆ t : TaskT, ⨆ _ : Agrees task thread t, pointsTo a (.task t) * contents owns task t

/-- The task of a call whose thread is about to run it. -/
def spawnedTask (inp : Inputs υ) (joinable : Bool) (slot : ℕ) : WaitGroup.Task υ :=
  { WaitGroup.Task.spawned inp with threadJoinable := joinable, slot := slot }

/-- A `task_runner_t`: on the inputs it is made for, it writes its outcome into the task, and leaves
the fields that are not for it as they are. -/
structure TaskRunner (υ : Type) (owns : υ → ℕ → Assertion Block) where
  run : ℕ → Code Unit
  outcome : Runner υ
  accepts : Inputs υ → Prop
  spec : ∀ inp, accepts inp → ∀ joinable slot thread a,
    Triple (taskAt owns (spawnedTask inp joinable slot) thread a) (run a) fun _ =>
      taskAt owns ((spawnedTask inp joinable slot).record (outcome inp)) thread a

/-- A caller of `wg_go`: how it makes the inputs, from what it keeps. -/
structure Caller (κ υ : Type) (owns : υ → ℕ → Assertion Block) where
  prepare : κ → Code (Option ℕ × Option ℕ)
  inputs : κ → Inputs υ
  keeps : Assertion Block
  spec : ∀ k, Triple keeps (prepare k) fun p =>
    child (inputs k).args p.1 * held owns (inputs k).userData p.2 * keeps

end Contracts

/-! ## The blocks at a state -/

section Blocks
variable {υ : Type} (owns : υ → ℕ → Assertion Block)

/-- Where a thread is at each stage of its task. -/
inductive AtStage (wg a : ℕ) : Stage → Thread → Prop
  | absent {stage : Stage} (h : stage.created = false) : AtStage wg a stage .absent
  | started (ctx : ℕ) : AtStage wg a .started (.started ctx)
  | running : AtStage wg a .running (.running wg a)
  | ran : AtStage wg a .ran (.ran wg a)
  | signalled : AtStage wg a .signalled .signalled
  | exited : AtStage wg a .exited .exited

/-- What a thread owns beside its task. -/
def ctxAt (wg a : ℕ) : Thread → Assertion Block
  | .started ctx => pointsTo ctx (.ctx ⟨wg, a⟩)
  | _ => 1

def threadAt (wg a : ℕ) (stage : Stage) (thread : Thread) : Assertion Block :=
  ⨆ _ : AtStage wg a stage thread, ctxAt wg a thread

/-- The task, once it is freed what it still pointed to. -/
def cellAt (t : ℕ) (k : Cell υ) (a : ℕ) : Assertion Block :=
  if k.freed then ⨆ u, held owns k.task.userData u
  else ⨆ thread, ⨆ _ : k.stage.created = true → thread = t, taskAt owns k.task thread a

def callAt (wg t : ℕ) (k : Cell υ) (c : Call) : Assertion Block :=
  cellAt owns t k c.task * threadAt wg c.task k.stage c.thread

/-- The call with this number, if there is one. -/
def slotAt (wg t : ℕ) : Option (Cell υ) → Option Call → Assertion Block
  | some k, some c => callAt owns wg t k c
  | none, none => 1
  | _, _ => ⊥

def callsAt (wg : ℕ) (cells : List (Cell υ)) (calls : List Call) : Assertion Block :=
  ∏ t ∈ Finset.range cells.length, slotAt owns wg t cells[t]? calls[t]?

/-- The group and its array. -/
def groupBlocks (wg : ℕ) (remaining : ℤ) (tasks : List ℕ) (cap : ℕ) : Assertion Block :=
  ⨆ q : Option ℕ, pointsTo wg (.group ⟨remaining, q, tasks.length, cap⟩) *
    array Block.pointers tasks cap q

/-- The tasks of the calls, in call order. -/
def Control.addresses (c : Control) : List ℕ := c.calls.map Call.task

def groupAt (s : State Unit υ) (c : Control) : Assertion Block :=
  if s.groupFreed then 1
  else groupBlocks c.wg s.remaining (c.addresses.take s.tasks.length) s.cap

def holds (s : State Unit υ) (c : Control) : Assertion Block :=
  ⨆ _ : c.pc = s.pc () ∧ c.calls.length = s.heap.length,
    groupAt s c * callsAt owns c.wg s.heap c.calls

/-- Both have taken the step, or neither can. -/
def Follows : Option (State Unit υ) → Option Control → Assertion Block
  | some s, some c => holds owns s c
  | none, none => ⊤
  | _, _ => ⊥

end Blocks

/-! ## One call among the others -/

section Focus
variable {υ : Type} {owns : υ → ℕ → Assertion Block} {wg t : ℕ} {cells : List (Cell υ)}
variable {calls : List Call} {k : Cell υ} {c : Call}

/-- The calls but one. -/
def othersAt (owns : υ → ℕ → Assertion Block) (wg t : ℕ) (cells : List (Cell υ))
    (calls : List Call) : Assertion Block :=
  ∏ u ∈ (Finset.range cells.length).erase t, slotAt owns wg u cells[u]? calls[u]?

theorem callsAt_focus (hk : cells[t]? = some k) (hc : calls[t]? = some c) :
    callsAt owns wg cells calls = callAt owns wg t k c * othersAt owns wg t cells calls := by
  have ht : t ∈ Finset.range cells.length :=
    Finset.mem_range.mpr (List.getElem?_eq_some_iff.mp hk).1
  rw [callsAt, ← Finset.mul_prod_erase _ _ ht, hk, hc]
  rfl

theorem othersAt_modify (f : Cell υ → Cell υ) (g : Call → Call) :
    othersAt owns wg t (cells.modify t f) (calls.modify t g) = othersAt owns wg t cells calls := by
  rw [othersAt, othersAt, List.length_modify]
  refine Finset.prod_congr rfl fun u hu => ?_
  have hne : t ≠ u := (Finset.ne_of_mem_erase hu).symm
  rw [List.getElem?_modify_ne _ _ hne, List.getElem?_modify_ne _ _ hne]

/-- A call that changes is put back among the others. -/
theorem callsAt_modify (hk : cells[t]? = some k) (hc : calls[t]? = some c) (f : Cell υ → Cell υ)
    (g : Call → Call) : callsAt owns wg (cells.modify t f) (calls.modify t g) =
      callAt owns wg t (f k) (g c) * othersAt owns wg t cells calls := by
  have hk' : (cells.modify t f)[t]? = some (f k) := by
    rw [List.getElem?_modify_eq, hk]
    rfl
  have hc' : (calls.modify t g)[t]? = some (g c) := by
    rw [List.getElem?_modify_eq, hc]
    rfl
  rw [callsAt_focus hk' hc', othersAt_modify]

theorem callsAt_snoc (hlen : calls.length = cells.length) (k : Cell υ) (c : Call) :
    callsAt owns wg (cells ++ [k]) (calls ++ [c]) =
      callsAt owns wg cells calls * callAt owns wg cells.length k c := by
  have hk : (cells ++ [k])[cells.length]? = some k := List.getElem?_concat_length
  have hc : (calls ++ [c])[cells.length]? = some c := by
    rw [← hlen]
    exact List.getElem?_concat_length
  rw [callsAt, List.length_append, List.length_singleton, Finset.prod_range_succ, hk, hc]
  refine congrArg (· * _) (Finset.prod_congr rfl fun t ht => ?_)
  have hlt := Finset.mem_range.mp ht
  rw [List.getElem?_append_left hlt, List.getElem?_append_left (hlen.symm ▸ hlt)]

end Focus

/-! ## Access to the blocks -/

section Access
variable {α υ : Type} {owns : υ → ℕ → Assertion Block} {F : Assertion Block}
variable {Q : α → Assertion Block}

theorem readGroup_reads (wg : ℕ) (g : WaitGroupT) :
    Reads (pointsTo wg (.group g)) (readGroup (some wg)) g :=
  (Reads.read wg _).andThen (Reads.ret _ g)

theorem readCtx_reads (a : ℕ) (x : WorkerCtx) :
    Reads (pointsTo a (.ctx x)) (readCtx (some a)) x :=
  (Reads.read a _).andThen (Reads.ret _ x)

theorem readTask_reads (a : ℕ) (t : TaskT) :
    Reads (pointsTo a (.task t)) (readTask (some a)) t :=
  (Reads.read a _).andThen (Reads.ret _ t)

theorem readGroup_bind {wg : ℕ} {g : WaitGroupT} {f : WaitGroupT → Code α}
    (h : Triple (pointsTo wg (.group g) * F) (f g) Q) :
    Triple (pointsTo wg (.group g) * F) (readGroup (some wg) >>= f) Q :=
  (readGroup_reads wg g).bind h

theorem readCtx_bind {a : ℕ} {x : WorkerCtx} {f : WorkerCtx → Code α}
    (h : Triple (pointsTo a (.ctx x) * F) (f x) Q) :
    Triple (pointsTo a (.ctx x) * F) (readCtx (some a) >>= f) Q :=
  (readCtx_reads a x).bind h

variable {task task' : WaitGroup.Task υ} {thread thread' a : ℕ}

theorem le_taskAt {t : TaskT} (h : Agrees task thread t) :
    pointsTo a (.task t) * (contents owns task t * F) ≤ taskAt owns task thread a * F := by
  rw [← mul_assoc]
  exact mul_le_mul' (le_iSup₂_of_le t h le_rfl) le_rfl

/-- A task is one record and what its pointers own. -/
theorem taskAt_elim {x : Code α} (h : ∀ t, Agrees task thread t →
    Triple (pointsTo a (.task t) * (contents owns task t * F)) x Q) :
    Triple (taskAt owns task thread a * F) x Q :=
  Triple.iSup_mul fun t => Triple.iSup_mul fun ht => Triple.perm _ (mul_assoc _ _ _) (h t ht)

theorem readTask_bind {t : TaskT} {f : TaskT → Code α}
    (h : Triple (pointsTo a (.task t) * F) (f t) Q) :
    Triple (pointsTo a (.task t) * F) (readTask (some a) >>= f) Q :=
  (readTask_reads a t).bind h

theorem readTask_at {f : TaskT → Code α}
    (h : ∀ t, Agrees task thread t → Triple (taskAt owns task thread a * F) (f t) Q) :
    Triple (taskAt owns task thread a * F) (readTask (some a) >>= f) Q :=
  taskAt_elim fun t ht => readTask_bind ((h t ht).pre (le_taskAt ht))

/-- A store into a task that leaves its pointers. -/
theorem updateTask_at {g : TaskT → TaskT} {f : Unit → Code α}
    (hagree : ∀ t, Agrees task thread t → Agrees task' thread' (g t))
    (hcontents : ∀ t, contents owns task' (g t) = contents owns task t)
    (h : Triple (taskAt owns task' thread' a * F) (f ()) Q) :
    Triple (taskAt owns task thread a * F) (updateTask a g >>= f) Q := by
  refine taskAt_elim fun t ht => ?_
  rw [updateTask, bind_assoc]
  refine readTask_bind (Triple.write_bind (h.pre ?_))
  rw [← hcontents t]
  exact le_taskAt (hagree t ht)

end Access

/-! ## The parts of the steps -/

section Parts
variable {υ : Type} {owns : υ → ℕ → Assertion Block} {wg cap a thread : ℕ} {remaining : ℤ}
variable {tasks : List ℕ} {task : WaitGroup.Task υ}

theorem addRemaining_spec (d : ℤ) :
    Triple (groupBlocks wg remaining tasks cap) (addRemaining wg d) fun r =>
      ⨆ _ : r = remaining + d, groupBlocks wg (remaining + d) tasks cap := by
  refine Triple.iSup fun q => readGroup_bind (Triple.write_bind (Triple.pure ?_))
  exact le_iSup_of_le rfl (le_iSup_of_le q le_rfl)

theorem goMark_spec :
    Triple (taskAt owns task thread a) (goMark a) fun slot =>
      ⨆ _ : slot = task.slot, taskAt owns { task with threadJoinable := true } thread a := by
  refine Triple.perm (taskAt owns task thread a * 1) (mul_one _).symm ?_
  have hagree (t : TaskT) (ht : Agrees task thread t) :
      Agrees { task with threadJoinable := true } thread { t with threadJoinable := true } :=
    ⟨rfl, ht.2⟩
  refine updateTask_at hagree (fun _ => rfl) (readTask_at fun t ht => Triple.pure ?_)
  exact le_iSup_of_le ht.2.1 (mul_one _).le

theorem updateTask_spec {task' : WaitGroup.Task υ} {thread' : ℕ} {g : TaskT → TaskT}
    (hagree : ∀ t, Agrees task thread t → Agrees task' thread' (g t))
    (hcontents : ∀ t, contents owns task' (g t) = contents owns task t) :
    Triple (taskAt owns task thread a) (updateTask a g) fun _ => taskAt owns task' thread' a := by
  have hend : Triple (taskAt owns task' thread' a * 1) (pure ()) fun _ =>
      taskAt owns task' thread' a := Triple.pure (mul_one _).le
  have hupdate := updateTask_at hagree hcontents hend
  rwa [mul_one, bind_pure] at hupdate

theorem goFail_spec :
    Triple (taskAt owns task thread a) (goFail a) fun _ =>
      taskAt owns { task with ok := false, threadJoinable := false } thread a :=
  updateTask_spec (fun _ ht => ⟨rfl, ht.2.1, rfl, ht.2.2.2⟩) fun _ => rfl

theorem le_groupBlocks {count : ℕ} (hcount : count = tasks.length) (q : Option ℕ)
    {F : Assertion Block} : pointsTo wg (.group ⟨remaining, q, count, cap⟩) *
      (array Block.pointers tasks cap q * F) ≤ groupBlocks wg remaining tasks cap * F := by
  rw [← mul_assoc, hcount]
  exact mul_le_mul' (le_iSup_of_le q le_rfl) le_rfl

/-- A group is one record and its array. -/
theorem groupBlocks_elim {α : Type} {F : Assertion Block} {Q : α → Assertion Block} {x : Code α}
    (h : ∀ q, Triple (pointsTo wg (.group ⟨remaining, q, tasks.length, cap⟩) *
      (array Block.pointers tasks cap q * F)) x Q) :
    Triple (groupBlocks wg remaining tasks cap * F) x Q :=
  Triple.iSup_mul fun q => Triple.perm _ (mul_assoc _ _ _) (h q)

/-- A task in a slot of the array is found. -/
theorem readSlot_bind {g : WaitGroupT} {i : ℕ} (hi : tasks[i]? = some a) {α : Type}
    {F : Assertion Block} {Q : α → Assertion Block} {f : ℕ → Code α}
    (h : Triple (pointsTo wg (.group g) * (array Block.pointers tasks cap g.tasks * F)) (f a) Q) :
    Triple (pointsTo wg (.group g) * (array Block.pointers tasks cap g.tasks * F))
      (readCell Block.pointers g.tasks i >>= f) Q := by
  refine Triple.perm (array Block.pointers tasks cap g.tasks * (pointsTo wg (.group g) * F))
    (by ac_rfl) (readCell_bind hi (Triple.perm _ ?_ h))
  ac_rfl

theorem taskPtr_bind {i : ℕ} (hi : tasks[i]? = some a) {α : Type} {F : Assertion Block}
    {Q : α → Assertion Block} {f : ℕ → Code α}
    (h : Triple (groupBlocks wg remaining tasks cap * F) (f a) Q) :
    Triple (groupBlocks wg remaining tasks cap * F) (taskPtr wg i >>= f) Q := by
  rw [taskPtr, bind_assoc]
  exact groupBlocks_elim fun q => readGroup_bind (readSlot_bind hi (h.pre (le_groupBlocks rfl q)))

theorem unmark_spec {i : ℕ} (hi : tasks[i]? = some a) :
    Triple (groupBlocks wg remaining tasks cap * taskAt owns task thread a) (unmark wg i) fun _ =>
      groupBlocks wg remaining tasks cap *
        taskAt owns { task with threadJoinable := false } thread a := by
  have hupdate : Triple (taskAt owns task thread a)
      (updateTask a fun t => { t with threadJoinable := false }) fun _ =>
        taskAt owns { task with threadJoinable := false } thread a :=
    updateTask_spec (fun _ ht => ⟨rfl, ht.2⟩) fun _ => rfl
  refine taskPtr_bind hi (Triple.perm _ (mul_comm _ _) ((hupdate.frame _).post fun _ => ?_))
  exact (mul_comm _ _).le

theorem threadOf_spec {i : ℕ} (hi : tasks[i]? = some a) :
    Triple (groupBlocks wg remaining tasks cap * taskAt owns task thread a) (threadOf wg i) fun n =>
      ⨆ _ : n = thread, groupBlocks wg remaining tasks cap * taskAt owns task thread a := by
  refine taskPtr_bind hi (Triple.perm _ (mul_comm _ _) (readTask_at fun t ht => Triple.pure ?_))
  exact le_iSup_of_le ht.2.2.2 (mul_comm _ _).le

/-- A slot that is taken. -/
theorem testTask_some {i : ℕ} (hi : tasks[i]? = some a) :
    Triple (groupBlocks wg remaining tasks cap * taskAt owns task thread a) (testTask wg i) fun j =>
      ⨆ _ : j = some task.threadJoinable,
        groupBlocks wg remaining tasks cap * taskAt owns task thread a := by
  obtain ⟨hlt, -⟩ := List.getElem?_eq_some_iff.mp hi
  refine groupBlocks_elim fun q => readGroup_bind ?_
  rw [if_pos hlt]
  refine readSlot_bind hi (Triple.pre ?_ (le_groupBlocks rfl q))
  refine Triple.perm _ (mul_comm _ _) (readTask_at fun t ht => Triple.pure ?_)
  exact le_iSup_of_le (congrArg some ht.1) (mul_comm _ _).le

/-- One that is behind the last. -/
theorem testTask_none {i : ℕ} (hi : tasks[i]? = none) :
    Triple (groupBlocks wg remaining tasks cap) (testTask wg i) fun j =>
      ⨆ _ : j = none, groupBlocks wg remaining tasks cap := by
  refine Triple.perm (groupBlocks wg remaining tasks cap * 1) (mul_one _).symm ?_
  refine groupBlocks_elim fun q => readGroup_bind ?_
  rw [if_neg (Nat.not_lt.mpr (List.getElem?_eq_none_iff.mp hi))]
  exact Triple.pure (le_iSup_of_le rfl ((le_groupBlocks rfl q).trans (mul_one _).le))

theorem freeTask_spec {i : ℕ} (hi : tasks[i]? = some a) :
    Triple (groupBlocks wg remaining tasks cap * taskAt owns task thread a) (freeTask wg i) fun _ =>
      groupBlocks wg remaining tasks cap * ⨆ u, held owns task.userData u := by
  refine taskPtr_bind hi (Triple.perm _ (mul_comm _ _) (taskAt_elim fun t _ => readTask_bind ?_))
  rw [contents]
  refine Triple.seq (F := pointsTo a (.task t) * (child task.result t.result *
    (child task.error t.error * (held owns task.userData t.userData *
      groupBlocks wg remaining tasks cap)))) (valueFree_spec task.args t.args) (by ac_rfl)
    fun _ => ?_
  refine Triple.perm _ (one_mul _) (readTask_bind ?_)
  refine Triple.seq (F := pointsTo a (.task t) * (child task.error t.error *
    (held owns task.userData t.userData * groupBlocks wg remaining tasks cap)))
    (valueFree_spec task.result t.result) (by ac_rfl) fun _ => ?_
  refine Triple.perm _ (one_mul _) (readTask_bind ?_)
  refine Triple.seq (F := pointsTo a (.task t) * (held owns task.userData t.userData *
    groupBlocks wg remaining tasks cap)) (valueFree_spec task.error t.error) (by ac_rfl) fun _ => ?_
  rw [one_mul]
  refine (Triple.free.frame _).post fun _ => ?_
  rw [one_mul, mul_comm]
  exact mul_le_mul' le_rfl (le_iSup (held owns task.userData) t.userData)

theorem freeGroup_spec : Triple (groupBlocks wg remaining tasks cap) (freeGroup wg) fun _ => 1 := by
  refine Triple.iSup fun q => readGroup_bind (Triple.seq free_array (mul_comm _ _) fun _ => ?_)
  rw [one_mul]
  exact Triple.free

theorem tasks_le_cap {F : Assertion Block} :
    ∀ s, (groupBlocks wg remaining tasks cap * F) s → tasks.length ≤ cap := by
  rintro _ ⟨_, -, -, -, hs, -⟩
  obtain ⟨q, _, u, -, -, -, hu⟩ := iSup_iff.mp hs
  exact array_length u hu

/-- The capacity that `wg_go` has in the end. -/
def grownCap (count cap : ℕ) : ℕ := if count = cap then if cap = 0 then 8 else cap * 2 else cap

theorem lt_grownCap {count : ℕ} (h : count ≤ cap) : count < grownCap count cap := by
  unfold grownCap
  split
  · split <;> omega
  · omega

variable [Allocator Block]

theorem goAlloc_spec (inp : Inputs υ) (p u : Option ℕ) :
    Triple (child inp.args p * held owns inp.userData u) (goAlloc p u)
      (taskAt owns (WaitGroup.Task.spawned inp) 0) := by
  refine Triple.malloc_bind fun a => ?_
  have hzero : Agrees (WaitGroup.Task.spawned inp) 0 ⟨0, false, 0, p, u, false, none, none⟩ :=
    ⟨rfl, rfl, rfl, rfl⟩
  simp only [updateTask, bind_assoc]
  refine readTask_bind (Triple.write_bind (readTask_bind (Triple.write_bind (Triple.pure ?_))))
  refine le_trans (mul_le_mul' le_rfl ?_) (le_iSup₂_of_le _ hzero le_rfl)
  rw [contents]
  exact mul_le_mul' le_rfl ((one_mul _).ge.trans (mul_le_mul' le_rfl (one_mul _).ge))

theorem goCreate_ok (n : ℕ) :
    Triple (taskAt owns task thread a) (goCreate wg a n true) fun x =>
      taskAt owns task n a * threadAt wg a .started x := by
  refine Triple.malloc_bind fun ctx => Triple.perm _ (mul_comm _ _) ?_
  rw [if_pos rfl]
  refine updateTask_at (fun _ ht => ⟨ht.1, ht.2.1, ht.2.2.1, rfl⟩) (fun _ => rfl)
    (Triple.pure (mul_le_mul' le_rfl ?_))
  exact le_iSup_of_le (AtStage.started ctx) le_rfl

theorem goCreate_fail (n : ℕ) :
    Triple (taskAt owns task thread a) (goCreate wg a n false) fun x =>
      taskAt owns task thread a * threadAt wg a .refused x := by
  refine Triple.malloc_bind fun ctx => ?_
  rw [if_neg Bool.false_ne_true]
  refine Triple.free_bind (Triple.pure ((mul_one _).ge.trans (mul_le_mul' le_rfl ?_)))
  exact le_iSup_of_le (AtStage.absent rfl) le_rfl

theorem grow_spec :
    Triple (groupBlocks wg remaining tasks cap) (grow wg) fun _ =>
      groupBlocks wg remaining tasks (if cap = 0 then 8 else cap * 2) := by
  refine Triple.iSup fun q => readGroup_bind ?_
  refine Triple.perm _ (mul_comm _ _) (Triple.of_fact (p := tasks.length ≤ cap) ?_ fun hle => ?_)
  · rintro _ ⟨u, _, -, -, hu, -⟩
    exact array_length u hu
  have hpos : 0 < if cap = 0 then 8 else cap * 2 := by
    split <;> omega
  have hcount : tasks.length ≤ if cap = 0 then 8 else cap * 2 := by
    split <;> omega
  refine Triple.seq (reallocCells_spec q hpos hcount) rfl fun a => ?_
  refine Triple.perm _ (mul_comm _ _) ?_
  exact (Triple.write.frame _).post fun _ => le_iSup_of_le (some a) le_rfl

theorem growFull_spec :
    Triple (groupBlocks wg remaining tasks cap) (growFull wg) fun _ =>
      groupBlocks wg remaining tasks (grownCap tasks.length cap) := by
  refine Triple.perm (groupBlocks wg remaining tasks cap * 1) (mul_one _).symm ?_
  refine groupBlocks_elim fun q => readGroup_bind (Triple.pre ?_ (le_groupBlocks rfl q))
  rw [mul_one]
  unfold grownCap
  split
  · exact grow_spec
  · exact Triple.pure le_rfl

theorem goRegister_spec :
    Triple (groupBlocks wg remaining tasks cap * taskAt owns task thread a) (goRegister wg a)
      fun _ => groupBlocks wg (remaining + 1) (tasks ++ [a]) (grownCap tasks.length cap) *
        taskAt owns { task with slot := tasks.length } thread a := by
  refine Triple.of_fact tasks_le_cap fun hle => ?_
  refine Triple.seq growFull_spec rfl fun _ => groupBlocks_elim fun q => readGroup_bind ?_
  have hagree (t : TaskT) (ht : Agrees task thread t) :
      Agrees { task with slot := tasks.length } thread { t with slot := tasks.length } :=
    ⟨ht.1, rfl, ht.2.2⟩
  refine Triple.perm (taskAt owns task thread a *
    (array Block.pointers tasks (grownCap tasks.length cap) q * pointsTo wg
      (.group ⟨remaining, q, tasks.length, grownCap tasks.length cap⟩))) (by ac_rfl) ?_
  refine updateTask_at hagree (fun _ => rfl) (Triple.perm _ (mul_left_comm _ _ _) ?_)
  refine storeCell_bind (lt_grownCap hle) a (Triple.perm (pointsTo wg
    (.group ⟨remaining, q, tasks.length, grownCap tasks.length cap⟩) *
    (array Block.pointers (tasks ++ [a]) (grownCap tasks.length cap) q *
      taskAt owns { task with slot := tasks.length } thread a)) (by ac_rfl) ?_)
  refine (Triple.write.frame _).post fun _ => ?_
  have hcount : tasks.length + 1 = (tasks ++ [a]).length := by
    rw [List.length_append, List.length_singleton]
  exact le_groupBlocks hcount q

end Parts

/-! ## Steps of the threads -/

theorem AtStage.live_eq {wg a : ℕ} {stage : Stage} {thread : Thread}
    (h : AtStage wg a stage thread) : thread.live = stage.live := by
  cases h with
  | absent h => cases stage <;> first | rfl | cases h
  | _ => rfl

section States
variable {υ : Type} {owns : υ → ℕ → Assertion Block} {s s' : State Unit υ} {c c' : Control}

theorem groupAt_congr (hfreed : s'.groupFreed = s.groupFreed)
    (hremaining : s'.remaining = s.remaining)
    (htasks : s'.tasks = s.tasks) (hcap : s'.cap = s.cap) (hwg : c'.wg = c.wg)
    (htake : c'.addresses.take s.tasks.length = c.addresses.take s.tasks.length) :
    groupAt s' c' = groupAt s c := by
  rw [groupAt, groupAt, hfreed, hremaining, htasks, hcap, hwg, htake]

theorem setThread_addresses (t : ℕ) (thread : Thread) :
    (c.setThread t thread).addresses = c.addresses := map_modify_of_eq fun _ _ => rfl

variable {t : ℕ} {k : Cell υ} {call : Call}

/-- One call is changed, and the others are as they were. -/
theorem le_holds {f : Cell υ → Cell υ} {g : Call → Call} (hk : s.heap[t]? = some k)
    (hc : c.calls[t]? = some call) (hlen : c.calls.length = s.heap.length)
    (hheap : s'.heap = s.heap.modify t f) (hcalls : c'.calls = c.calls.modify t g)
    (hwg : c'.wg = c.wg) (hpc : c'.pc = s'.pc ()) :
    groupAt s' c' * (callAt owns c.wg t (f k) (g call) * othersAt owns c.wg t s.heap c.calls) ≤
      holds owns s' c' := by
  have hlen' : c'.calls.length = s'.heap.length := by
    rw [hheap, hcalls, List.length_modify, List.length_modify, hlen]
  refine le_iSup_of_le ⟨hpc, hlen'⟩ ?_
  rw [hheap, hcalls, hwg, callsAt_modify hk hc]

end States

section Threads
variable {υ : Type} {owns : υ → ℕ → Assertion Block} {s : State Unit υ} {c : Control}
variable {tr : List (WaitGroup.Act Unit υ)} {runner : Runner υ} {t : ℕ} {k : Cell υ}

theorem exists_call (hlen : c.calls.length = s.heap.length) (hk : s.heap[t]? = some k) :
    ∃ call, c.calls[t]? = some call := by
  obtain ⟨hlt, -⟩ := List.getElem?_eq_some_iff.mp hk
  exact ⟨_, List.getElem?_eq_getElem (hlen.symm ▸ hlt)⟩

/-- As long as a thread lives, its task and the group are there. -/
theorem live_unfreed (hinv : Inv runner tr s) (hk : s.heap[t]? = some k)
    (hlive : k.stage.live = true) : k.freed = false ∧ s.groupFreed = false := by
  obtain ⟨hne, hfreed⟩ := (hinv.each t k hk).1.not_freed hlive
  refine ⟨hfreed, Bool.eq_false_iff.mpr fun hgroup => hne ?_⟩
  rw [hinv.groupFreed hgroup]
  rfl

theorem groupAt_unfreed (h : s.groupFreed = false) :
    groupAt s c = groupBlocks c.wg s.remaining (c.addresses.take s.tasks.length) s.cap := by
  rw [groupAt, h, if_neg Bool.false_ne_true]

theorem cellAt_unfreed (h : k.freed = false) (a : ℕ) : cellAt owns t k a =
    ⨆ thread, ⨆ _ : k.stage.created = true → thread = t, taskAt owns k.task thread a := by
  rw [cellAt, h, if_neg Bool.false_ne_true]

theorem cellAt_setStage {stage : Stage} (h : stage.created = k.stage.created) (a : ℕ) :
    cellAt owns t (k.setStage stage) a = cellAt owns t k a := by
  unfold cellAt Cell.setStage
  dsimp only
  rw [h]

theorem task_running (hinv : Inv runner tr s) (hk : s.heap[t]? = some k)
    (hst : k.stage = .running) : k.task = spawnedTask k.inputs k.task.threadJoinable t := by
  have hkeep := (hinv.each t k hk).2.1
  rw [hst] at hkeep
  exact hkeep

/-- The calls and the group, as a step of one thread finds them. -/
def around (owns : υ → ℕ → Assertion Block) (s : State Unit υ) (c : Control) (t : ℕ) :
    Assertion Block := othersAt owns c.wg t s.heap c.calls * groupAt s c

section Step
variable {a : ℕ} {thread : Thread} (hk : s.heap[t]? = some k)
variable (hc : c.calls[t]? = some ⟨a, thread⟩) (hlen : c.calls.length = s.heap.length)
variable (hpc : c.pc = s.pc ())
include hk hc hlen hpc

theorem le_setStage {stage : Stage} {thread' : Thread} (hstage : stage.created = k.stage.created)
    (hat : AtStage c.wg a stage thread') :
    cellAt owns t k a * around owns s c t * ctxAt c.wg a thread' ≤
      holds owns (s.setCell t (Cell.setStage stage)) (c.setThread t thread') := by
  have hgroup : groupAt (s.setCell t (Cell.setStage stage)) (c.setThread t thread') =
      groupAt s c := groupAt_congr rfl rfl rfl rfl rfl (by rw [setThread_addresses])
  refine le_trans ?_ (le_holds hk hc hlen rfl rfl rfl hpc)
  rw [callAt, cellAt_setStage hstage, hgroup, around]
  calc cellAt owns t k a * (othersAt owns c.wg t s.heap c.calls * groupAt s c) *
        ctxAt c.wg a thread'
      = groupAt s c * (cellAt owns t k a * ctxAt c.wg a thread' *
          othersAt owns c.wg t s.heap c.calls) := by ac_rfl
    _ ≤ _ := mul_le_mul' le_rfl (mul_le_mul' (mul_le_mul' le_rfl (le_iSup_of_le hat le_rfl)) le_rfl)

theorem run_spec (r : TaskRunner υ owns) (hinv : Inv r.outcome tr s) (hst : k.stage = .running)
    (haccepts : r.accepts k.inputs) :
    Triple (cellAt owns t k a * around owns s c t) (do
      let _ ← readGroup (some c.wg)
      r.run a
      return some (c.setThread t (.ran c.wg a)))
      (Follows owns (some (s.setCell t (Cell.run r.outcome)))) := by
  obtain ⟨hfreed, hgroup⟩ := live_unfreed hinv hk (by rw [hst]; rfl)
  have htask := task_running hinv hk hst
  have hinputs : (⟨k.task.args, k.task.userData⟩ : Inputs υ) = k.inputs := by
    rw [htask]
    rfl
  have hsame : groupAt (s.setCell t (Cell.run r.outcome)) (c.setThread t (.ran c.wg a)) =
      groupAt s c := groupAt_congr rfl rfl rfl rfl rfl (by rw [setThread_addresses])
  have hrun := fun thread => r.spec k.inputs haccepts k.task.threadJoinable t thread a
  rw [← htask] at hrun
  rw [cellAt_unfreed hfreed, around, groupAt_unfreed hgroup]
  refine Triple.iSup_mul fun n => Triple.iSup_mul fun hn => ?_
  refine Triple.perm (groupBlocks c.wg s.remaining (c.addresses.take s.tasks.length) s.cap *
    (taskAt owns k.task n a * othersAt owns c.wg t s.heap c.calls)) (by ac_rfl) ?_
  refine groupBlocks_elim fun q => readGroup_bind (Triple.pre ?_ (le_groupBlocks rfl q))
  refine Triple.seq (hrun n) (mul_left_comm _ _ _) fun _ => Triple.pure ?_
  refine le_trans ?_ (le_holds hk hc hlen rfl rfl rfl hpc)
  have hfreed' : (k.run r.outcome).freed = false := hfreed
  rw [hsame, groupAt_unfreed hgroup, callAt, cellAt_unfreed hfreed']
  have hcell : taskAt owns (k.task.record (r.outcome k.inputs)) n a ≤
      ⨆ n, ⨆ _ : (k.run r.outcome).stage.created = true → n = t,
        taskAt owns (k.run r.outcome).task n a := by
    refine le_iSup₂_of_le n (fun _ => hn (by rw [hst]; rfl)) ?_
    rw [← hinputs]
    exact le_rfl
  have hthread : 1 ≤ threadAt c.wg a .ran (.ran c.wg a) := le_iSup_of_le .ran le_rfl
  refine (mul_left_comm _ _ _).le.trans (mul_le_mul' le_rfl (mul_le_mul' ?_ le_rfl))
  exact (mul_one _).ge.trans (mul_le_mul' hcell hthread)

theorem signal_spec (hinv : Inv runner tr s) (hst : k.stage = .ran) :
    Triple (cellAt owns t k a * around owns s c t) (do
      let remaining ← addRemaining c.wg (-1)
      let c := c.setThread t .signalled
      return some (c.setPc (if remaining = 0 then c.pc.wake else c.pc)))
      (Follows owns (some (signalDone (s.setCell t (Cell.setStage .signalled))))) := by
  obtain ⟨hfreed, hgroup⟩ := live_unfreed hinv hk (by rw [hst]; rfl)
  rw [around, groupAt_unfreed hgroup]
  refine Triple.seq (F := cellAt owns t k a * othersAt owns c.wg t s.heap c.calls)
    (addRemaining_spec (-1)) (by ac_rfl) fun remaining => Triple.iSup_mul fun hr => Triple.pure ?_
  subst hr
  have hpc' : (if s.remaining + -1 = 0 then c.pc.wake else c.pc) =
      (signalDone (s.setCell t (Cell.setStage .signalled))).pc () := by
    rw [hpc, ← Int.sub_eq_add_neg]
    show _ = (if s.remaining - 1 = 0 then fun c => (s.pc c).wake else s.pc) ()
    split <;> rfl
  refine le_trans ?_ (le_holds hk hc hlen rfl rfl rfl hpc')
  have hfreed' : (signalDone (s.setCell t (Cell.setStage .signalled))).groupFreed = false := hgroup
  have hgroup' (p : Pc) : groupAt (signalDone (s.setCell t (Cell.setStage .signalled)))
      ((c.setThread t .signalled).setPc p) =
      groupBlocks c.wg (s.remaining + -1) (c.addresses.take s.tasks.length) s.cap := by
    refine (groupAt_unfreed hfreed').trans ?_
    show groupBlocks c.wg (s.remaining - 1)
      ((c.setThread t .signalled).addresses.take s.tasks.length) s.cap = _
    rw [setThread_addresses, Int.sub_eq_add_neg]
  have hthread : 1 ≤ threadAt c.wg a .signalled .signalled := le_iSup_of_le .signalled le_rfl
  rw [hgroup', callAt, cellAt_setStage (by rw [hst]; rfl)]
  refine mul_le_mul' le_rfl (mul_le_mul' ?_ le_rfl)
  exact (mul_one _).ge.trans (mul_le_mul' le_rfl hthread)

end Step

theorem work_spec (r : TaskRunner υ owns) (hinv : Inv r.outcome tr s)
    (haccepts : ∀ inp ∈ goCalls tr, r.accepts inp) (t : ℕ) :
    Triple (holds owns s c) (work r.run c t) (Follows owns (workerStep r.outcome s t)) := by
  refine Triple.iSup fun ⟨hpc, hlen⟩ => ?_
  cases hk : s.heap[t]? with
  | none =>
    have hc : c.calls[t]? = none := by
      rw [List.getElem?_eq_none_iff, hlen]
      exact List.getElem?_eq_none_iff.mp hk
    rw [work, hc, workerStep, State.stage, hk]
    exact Triple.pure le_top
  | some k =>
  obtain ⟨⟨a, thread⟩, hc⟩ := exists_call hlen hk
  have hs : s.stage t = some k.stage := by
    rw [State.stage, hk]
    rfl
  rw [callsAt_focus hk hc, callAt, work, hc, workerStep, hs]
  refine Triple.perm (threadAt c.wg a k.stage thread * (cellAt owns t k a * around owns s c t))
    (by rw [around]; ac_rfl) (Triple.iSup_mul fun hat => ?_)
  generalize hst : k.stage = stage at hat ⊢
  cases hat with
  | absent h => cases stage <;> first | exact Triple.pure le_top | cases h
  | started ctx =>
    refine readCtx_bind (Triple.free_bind (Triple.pure ((mul_one _).ge.trans ?_)))
    exact le_setStage hk hc hlen hpc (by rw [hst]; rfl) .running
  | running =>
    have hmem : k.inputs ∈ goCalls tr :=
      hinv.calls ▸ List.mem_map_of_mem (List.mem_of_getElem? hk)
    exact Triple.perm _ (one_mul _) (run_spec hk hc hlen hpc r hinv hst (haccepts _ hmem))
  | ran => exact Triple.perm _ (one_mul _) (signal_spec hk hc hlen hpc hinv hst)
  | signalled =>
    refine Triple.pure ((mul_comm _ _).le.trans ?_)
    exact le_setStage hk hc hlen hpc (by rw [hst]; rfl) .exited
  | exited => exact Triple.pure le_top

end Threads

end Parallax.Stored.Group
