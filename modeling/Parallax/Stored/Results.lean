import Parallax.Stored.Worker

/-! `wait()` after `wg_wait` has returned: the results are read off the tasks on the heap, and are
those of the calls, in call order. -/
namespace Parallax.Stored.Group
open Memory Bridge Separation Separation.Assertion WaitGroup Transition
set_option autoImplicit false
set_option maxHeartbeats 250000

/-! ## One result -/

/-- `parallax_result_ce`. -/
def resultClass : WorkerClass :=
  ⟨ascii "ParallaxResult".toList, true,
    [(ascii "ok".toList, some (.bool false)), (ascii "value".toList, some .null),
      (ascii "error".toList, some .null)],
    fun _ _ => true⟩

/-- What a property is made of, if it is set. -/
def propertyZval (classes : ClassTable) (test : Bool) (v : Option Value) : Except Fault Php :=
  if test then Bridge.pxValueToZval classes v else .ok .null

/-- What `wait()` makes a PHP value of has no array key `-`. -/
def DashlessResult {υ : Type} (t : WaitGroup.Outcome υ) : Prop :=
  NoDashPtr (if t.ok then t.result else t.error)

/-- The `ParallaxResult` of an outcome: a `value` when it is `ok`, and else an `error`. -/
def resultZval {υ : Type} (classes : ClassTable) (t : WaitGroup.Outcome υ) : Except Fault Php := do
  let value ← propertyZval classes t.ok t.result
  let error ← propertyZval classes (!t.ok) t.error
  return .object (ascii "ParallaxResult".toList)
    [(ascii "ok".toList, .bool t.ok), (ascii "value".toList, value),
      (ascii "error".toList, error)]

section Code
variable (classes : ClassTable)

def wgSize (wg : ℕ) : Code ℕ := do
  let g ← readGroup (some wg)
  return g.count

def wgGet (wg slot : ℕ) : Code (Option ℕ) := do
  let g ← readGroup (some wg)
  if g.count ≤ slot then return none
  else do
    let p ← readCell Block.pointers g.tasks slot
    return some p

/-- `if (test && v != NULL)`: the property is set to what is made of `v`. -/
def storeWhen (test : Bool) (name : ZStr) (v : Option ℕ) (obj : Option NewObject) :
    Code (Option NewObject) :=
  if test ∧ v.isSome then do
    let val ← Stored.pxValueToZval classes v
    attempt (updateProperty resultClass obj name val)
  else return obj

def slotZval (t : TaskT) : Code Php := do
  let obj ← attempt
    (updateProperty resultClass (objectInitEx resultClass) (ascii "ok".toList) (.bool t.ok))
  let obj ← storeWhen classes t.ok (ascii "value".toList) t.result obj
  let obj ← storeWhen classes (!t.ok) (ascii "error".toList) t.error obj
  return finished resultClass obj

/-- The body of the loop of `wait()`: the slot it adds to `return_value`. -/
def slotAtIndex (wg i : ℕ) : Code Php := do
  let p ← wgGet wg i
  let t ← readTask p
  slotZval classes t

/-- The loop from slot `i` on, over as many as are left. -/
def resultsLoop (wg : ℕ) : ℕ → ℕ → List Php → Code (List Php)
  | _, 0, slots => return slots
  | i, left + 1, slots => do
    let slot ← slotAtIndex classes wg i
    resultsLoop wg (i + 1) left (slots ++ [slot])

/-- What `wait()` returns once `wg_wait` has. -/
def results (wg : ℕ) : Code (List Php) := do
  let n ← wgSize wg
  resultsLoop classes wg 0 n []

end Code

/-! ## Reading a task -/

section Reading
variable {υ : Type} {owns : υ → ℕ → Assertion Block} {classes : ClassTable}

theorem child_isSome {v : Option Value} {q : Option ℕ} :
    ∀ s, child v q s → q.isSome = v.isSome := by
  intro s hs
  cases v with
  | none =>
    cases q with
    | none => rfl
    | some a => exact hs.elim
  | some v =>
    cases q with
    | none => exact hs.elim
    | some a => rfl

/-- The test comes out the same on the heap; a property that is null already may be set to null. -/
theorem storeWhen_reads {test : Bool} {name : ZStr} {v : Option Value} {obj : NewObject} {val : Php}
    (hdash : test = true → NoDashPtr v) (hname : name.head? ≠ some 0) (hnull : obj.store name .null = obj)
    (h : propertyZval classes test v = .ok val) (q : Option ℕ) :
    Reads (child v q) (storeWhen classes test name q (some obj)) (some (obj.store name val)) := by
  refine Reads.of_fact child_isSome fun hq => ?_
  unfold storeWhen
  unfold propertyZval at h
  by_cases hset : test = true ∧ q.isSome = true
  · have hstore : updateProperty resultClass (some obj) name val =
        .ok (some (obj.store name val)) := by
      have haccepts : ¬ (name.head? = some 0 ∨ resultClass.accepts name val = false) := by
        rintro (hzero | hfalse)
        · exact hname hzero
        · cases hfalse
      rw [updateProperty, if_neg haccepts]
    rw [if_pos hset.1] at h
    rw [if_pos hset]
    exact (pxValueToZval_spec (hdash hset.1) h q).andThen (Reads.attempt hstore)
  · have hval : val = .null := by
      cases test with
      | false =>
        cases h
        rfl
      | true =>
        have hnone : v = none := by
          rw [hq, Option.isSome_iff_ne_none] at hset
          exact not_not.mp fun hne => hset ⟨rfl, hne⟩
        rw [hnone] at h
        cases h
        rfl
    rw [if_neg hset, hval, hnull]
    exact Reads.ret _ _

/-- A `ParallaxResult` under construction. -/
def resultObject (ok : Bool) (value error : Php) : NewObject :=
  ⟨[(ascii "ok".toList, some (.bool ok)), (ascii "value".toList, some value),
    (ascii "error".toList, some error)], []⟩

theorem slotZval_reads {task : WaitGroup.Task υ} {thread : ℕ} {t : TaskT} {php : Php}
    (hagrees : Agrees task thread t) (hdash : DashlessResult task.outcome)
    (h : resultZval classes task.outcome = .ok php) :
    Reads (contents owns task t) (slotZval classes t) php := by
  obtain ⟨value, hvalue, h⟩ := bind_ok h
  obtain ⟨error, herror, h⟩ := bind_ok h
  cases h
  have hok : updateProperty resultClass (objectInitEx resultClass) (ascii "ok".toList)
      (.bool task.outcome.ok) = .ok (some (resultObject task.outcome.ok .null .null)) := rfl
  have hresult : Reads (child task.result t.result)
      (storeWhen classes task.outcome.ok (ascii "value".toList) t.result
        (some (resultObject task.outcome.ok .null .null)))
      (some (resultObject task.outcome.ok value .null)) :=
    storeWhen_reads (fun hok => by rwa [DashlessResult, if_pos hok] at hdash) (by decide) rfl hvalue
      t.result
  have hfailure : Reads (child task.error t.error)
      (storeWhen classes (!task.outcome.ok) (ascii "error".toList) t.error
        (some (resultObject task.outcome.ok value .null)))
      (some (resultObject task.outcome.ok value error)) :=
    storeWhen_reads (fun hok => by rwa [DashlessResult, if_neg (by simpa using hok)] at hdash)
      (by decide) rfl herror t.error
  unfold slotZval
  rw [show t.ok = task.outcome.ok from hagrees.2.2.1]
  refine (Reads.attempt hok).andThen (Reads.perm (child task.result t.result *
    (child task.args t.args * (child task.error t.error *
      held owns task.userData t.userData))) (mul_left_comm _ _ _) (hresult.part ?_))
  exact Reads.perm (child task.error t.error * (child task.result t.result *
    (child task.args t.args * held owns task.userData t.userData))) (by ac_rfl)
    (hfailure.part (Reads.ret _ _))

variable {task : WaitGroup.Task υ} {wg cap a thread i : ℕ} {remaining : ℤ} {tasks : List ℕ}

theorem wgSize_reads : Reads (groupBlocks wg remaining tasks cap) (wgSize wg) tasks.length :=
  Reads.iSup fun _ => (readGroup_reads wg _).part (Reads.ret _ _)

theorem wgGet_reads (hi : tasks[i]? = some a) :
    Reads (groupBlocks wg remaining tasks cap) (wgGet wg i) (some a) := by
  obtain ⟨hlt, -⟩ := List.getElem?_eq_some_iff.mp hi
  refine Reads.iSup fun q => (readGroup_reads wg _).part ?_
  rw [if_neg (Nat.not_le.mpr hlt)]
  exact Reads.perm _ (mul_comm _ _) ((readCell_reads q hi).part (Reads.ret _ _))

/-- What the loop of `wait()` does for one task. -/
theorem slotAtIndex_reads {php : Php} (hi : tasks[i]? = some a) (hdash : DashlessResult task.outcome)
    (h : resultZval classes task.outcome = .ok php) :
    Reads (groupBlocks wg remaining tasks cap * taskAt owns task thread a)
      (slotAtIndex classes wg i) php := by
  refine (wgGet_reads hi).part (Reads.perm _ (mul_comm _ _) (Reads.frame ?_ _))
  refine Reads.iSup fun t => Reads.iSup fun ht => (readTask_reads a t).part ?_
  exact Reads.perm _ (mul_comm _ _) ((slotZval_reads ht hdash h).frame _)

end Reading

/-! ## All results -/

section Waited
variable {υ : Type} {owns : υ → ℕ → Assertion Block} {classes : ClassTable} {s : State Unit υ}
variable {c : Control} {tr : List (WaitGroup.Act Unit υ)} {runner : Runner υ}

theorem slot_reads (hinv : Inv runner tr s) (hw : s.pc () = .idle .wait) {i : ℕ} {k : Cell υ}
    (hk : s.heap[i]? = some k) {php : Php} (hdash : DashlessResult k.task.outcome)
    (h : resultZval classes k.task.outcome = .ok php) :
    Reads (holds owns s c) (slotAtIndex classes c.wg i) php := by
  obtain ⟨hcleared, -⟩ := hinv.returned hw i k hk
  have hgroup := group_unfreed hinv (by rw [hw]; exact Pc.noConfusion)
  have hlength := hinv.length
  rw [hw] at hlength
  have hi : i < s.tasks.length := by
    have := (List.getElem?_eq_some_iff.mp hk).1
    simp only [Pc.pending] at hlength
    omega
  refine Reads.iSup fun hc => ?_
  obtain ⟨⟨a, thread⟩, hcall⟩ := exists_call hc.2 hk
  rw [focus_eq hk hcall hcleared.1 hgroup]
  refine Reads.iSup_mul fun n => Reads.iSup_mul fun _ => ?_
  rw [mul_left_comm, ← mul_assoc]
  exact (slotAtIndex_reads (address_at hcall hi) hdash h).frame _

/-- The slots from `i` on are those of the cells from there on. -/
theorem resultsLoop_reads (hinv : Inv runner tr s) (hw : s.pc () = .idle .wait) {i : ℕ}
    {cells : List (Cell υ)} (hcells : s.heap.drop i = cells) {slots phps : List Php}
    (hdash : ∀ k ∈ cells, DashlessResult k.task.outcome)
    (h : cells.mapM (fun k => resultZval classes k.task.outcome) = .ok phps) :
    Reads (holds owns s c) (resultsLoop classes c.wg i cells.length slots) (slots ++ phps) := by
  induction cells generalizing i slots phps with
  | nil =>
    obtain rfl : phps = [] := by
      cases h
      rfl
    rw [List.append_nil]
    exact Reads.ret _ _
  | cons k cells ih =>
    rw [List.mapM_cons] at h
    obtain ⟨php, hphp, h⟩ := bind_ok h
    obtain ⟨rest, hrest, h⟩ := bind_ok h
    cases h
    obtain ⟨hdashk, hdash⟩ := List.forall_mem_cons.mp hdash
    have hk : s.heap[i]? = some k := by
      rw [← List.head?_drop, hcells]
      rfl
    have hdrop : s.heap.drop (i + 1) = cells := by
      rw [← List.drop_drop, hcells]
      rfl
    have hnext : Reads (holds owns s c)
        (resultsLoop classes c.wg (i + 1) cells.length (slots ++ [php])) (slots ++ [php] ++ rest) :=
      ih hdrop hdash hrest
    rw [List.append_assoc] at hnext
    exact (slot_reads hinv hw hk hdashk hphp).andThen hnext

/-- What the calls have come to, in call order. -/
def outcomes (runner : Runner υ) (tr : List (WaitGroup.Act Unit υ)) : List (WaitGroup.Outcome υ) :=
  List.zipWith (callOutcome runner) (goCalls tr) (creations tr)

/-- The results of the calls, in call order. -/
def waited (classes : ClassTable) (runner : Runner υ) (tr : List (WaitGroup.Act Unit υ)) :
    Except Fault (List Php) :=
  (outcomes runner tr).mapM (resultZval classes)

theorem outcomes_eq (hinv : Inv runner tr s) (hw : s.pc () = .idle .wait) :
    outcomes runner tr = s.heap.map fun k => k.task.outcome := by
  have hret := hinv.returned hw
  have hset : ∀ k ∈ s.heap, Settled k := Each.forall_mem (hret.mono fun _ _ hk => hk.1.2.1)
  rw [outcomes, hinv.calls, hinv.creations_eq hset, List.zipWith_map, List.zipWith_self]
  refine List.map_congr_left fun k hk => ?_
  obtain ⟨i, hi⟩ := List.getElem?_of_mem hk
  exact (outcome_settled (hret i k hi).2 (hset k hk)).symm

theorem results_reads (hinv : Inv runner tr s) (hw : s.pc () = .idle .wait) {phps : List Php}
    (hdash : ∀ t ∈ outcomes runner tr, DashlessResult t) (h : waited classes runner tr = .ok phps) :
    Reads (holds owns s c) (results classes c.wg) phps := by
  rw [waited, outcomes_eq hinv hw, List.mapM_map] at h
  rw [outcomes_eq hinv hw, List.forall_mem_map] at hdash
  have hgroup := group_unfreed hinv (by rw [hw]; exact Pc.noConfusion)
  have hlength := hinv.length
  rw [hw] at hlength
  have hcells : s.heap.length = s.tasks.length := hlength
  have hloop : Reads (holds owns s c) (resultsLoop classes c.wg 0 s.heap.length []) phps :=
    resultsLoop_reads hinv hw rfl hdash h
  rw [hcells] at hloop
  have hsize : Reads (holds owns s c) (wgSize c.wg) s.tasks.length := by
    refine Reads.iSup fun hc => ?_
    have hcount : (c.addresses.take s.tasks.length).length = s.tasks.length := by
      rw [List.length_take, length_addresses hc.2, hcells]
      exact Nat.min_self _
    have hread : Reads (groupAt s c) (wgSize c.wg) (c.addresses.take s.tasks.length).length := by
      rw [groupAt_unfreed hgroup]
      exact wgSize_reads
    rw [hcount] at hread
    exact hread.frame _
  exact hsize.andThen hloop

end Waited

section History
variable {κ υ : Type} {owns : υ → ℕ → Assertion Block} [Allocator Block]
variable (r : TaskRunner υ owns) (caller : Caller κ υ owns) (acts : List (Act κ))
variable (hmeets : ∀ k, r.accepts (caller.inputs k)) {own rest : Separation.Heap Block}
variable (hown : caller.keeps own) (hd : own.Disjoint rest)
include hmeets hown hd

/-- After a history by whose end `wg_wait` has returned, and whose results can all be rebuilt, the
loop of `wait()` gives the results of the calls, and reads only. -/
theorem history_results {classes : ClassTable} {s : State Unit υ} {phps : List Php}
    (hrun : Run r.outcome (acts.map (Act.onGroup caller.inputs)) s) (hw : s.pc () = .idle .wait)
    (hdash : ∀ t ∈ outcomes r.outcome (acts.map (Act.onGroup caller.inputs)), DashlessResult t)
    (h : waited classes r.outcome (acts.map (Act.onGroup caller.inputs)) = .ok phps) :
    ∃ c t, history caller.prepare r.run acts (own ∪ rest) = .ok (some c, t ∪ rest) ∧
      t.Disjoint rest ∧ results classes c.wg (t ∪ rest) = .ok (phps, t ∪ rest) := by
  obtain ⟨o, t, hhistory, ht, hfollows⟩ := history_follows r caller acts hmeets hown hd
  rw [hrun] at hfollows
  cases o with
  | none => exact (not_bot_mul hfollows).elim
  | some c =>
    refine ⟨c, t, hhistory, ht, ?_⟩
    exact ((results_reads hrun.inv hw hdash h).frame caller.keeps) t rest hfollows ht

end History

/-! ## Three calls -/

/-- A function that refuses to be called without arguments, and else returns how many it got. -/
def counting : Worker.Answers where
  classes _ := none
  started := true
  compiled := true
  factory := ⟨Worker.plainHeap, .null⟩
  instantiated _ := (true, ⟨Worker.plainHeap, .null⟩)
  called _ argv :=
    if argv.length = 0 then (false, ⟨Worker.plainHeap, .undef⟩)
    else (true, ⟨{ Worker.plainHeap with array := fun _ =>
      [(.str (ascii ['n']), .long (Int64.ofNat argv.length)), (.int 0, .null)] }, .array 0⟩)

/-- `go('f', [3, 'x' => 'y'])`, or `go('f')`. -/
def eitherCall : Bool → Accepted Binding.plainWorld none
  | true => ⟨.string (ascii ['f']),
      some [(.int 0, .long 3), (.str (ascii ['x']), .string (ascii ['y']))], _, rfl⟩
  | false => callOfF

/-- A caller that makes only such calls. -/
def Caller.comap {κ κ' υ : Type} {owns : υ → ℕ → Assertion Block} (caller : Caller κ υ owns)
    (f : κ' → κ) : Caller κ' υ owns where
  prepare k := caller.prepare (f k)
  inputs k := caller.inputs (f k)
  keeps := caller.keeps
  spec k := caller.spec (f k)

/-- The third call does not get a thread; the second thread is done before the first, and `wait()`
has to block. -/
def threeTasks : List (Act Bool) :=
  [.go true, .step, .create true, .step, .go false, .work 0, .step, .create true, .work 1, .step,
    .work 1, .go true, .work 0, .step, .create false, .work 1, .step, .step, .wait, .step, .work 0,
    .step, .step, .work 1, .work 0, .step, .step, .step, .step, .step, .step, .step]

def threeOnHeap : Code (Option Control) :=
  @history (Allocator.above Block) _
    ((@goCaller (Allocator.above Block) Binding.plainWorld none none).comap eitherCall).prepare
    (@mainRunner (Allocator.above Block) counting).run threeTasks

/-- `new ParallaxResult` with these properties. -/
def parallaxResult (ok : Bool) (value error : Php) : Php :=
  .object (ascii "ParallaxResult".toList) [(ascii "ok".toList, .bool ok),
    (ascii "value".toList, value), (ascii "error".toList, error)]

/-- An array of two leaves. -/
theorem noDashKey_two {e f : Entry} {items : KvVec Entry} (hitems : items.entries = [e, f])
    (he : Dashless e) (hf : Dashless f) (hle : ∀ x, e.val = some x → children x = [] ∧ KeysDashless x)
    (hlf : ∀ x, f.val = some x → children x = [] ∧ KeysDashless x) : NoDashKey (.arr items) := by
  refine noDashKey_arr.mpr ?_
  rw [hitems]
  exact ⟨List.forall_mem_cons.mpr ⟨he, List.forall_mem_singleton.mpr hf⟩,
    List.forall_mem_cons.mpr ⟨fun x hx => noDashKey_leaf (hle x hx).1 (hle x hx).2,
      List.forall_mem_singleton.mpr fun x hx => noDashKey_leaf (hlf x hx).1 (hlf x hx).2⟩⟩

theorem eitherCall_dashless (k : Bool) : DashlessInputs (eitherCall k).inputs := by
  refine ⟨fun v hv => ?_, fun cb hcb v hv => ?_⟩
  · cases k with
    | true =>
      cases hv
      refine noDashKey_two rfl (.inl rfl) (.inr (by decide)) ?_ ?_ <;> rintro x ⟨⟩ <;>
        exact ⟨rfl, trivial⟩
    | false =>
      cases hv
      exact noDashKey_leaf rfl (List.forall_mem_nil _)
  · cases k <;> cases hcb <;> cases hv

theorem history_results_three : ∃ c t, threeOnHeap (∅ ∪ ∅) = .ok (some c, t ∪ ∅) ∧
    results (fun _ => none) c.wg (t ∪ ∅) = .ok
      ([parallaxResult true (.array [(.str (ascii ['n']), .long 2), (.int 0, .null)]) .null,
        parallaxResult false .null (.object (ascii "ParallaxWorkerError".toList)
          [(ascii "class".toList, .string (ascii "RuntimeException".toList)),
            (ascii "message".toList, .string (ascii "call_user_function failed".toList)),
            (ascii "code".toList, .long 0), (ascii "trace".toList, .string [])]),
        parallaxResult false .null .null], t ∪ ∅) := by
  let _ : Allocator Block := Allocator.above Block
  have hmeets : ∀ k, (mainRunner counting).accepts (eitherCall k).inputs := by
    intro k
    refine ⟨?_, eitherCall_dashless k⟩
    cases k <;> rfl
  have hdash : ∀ t ∈ outcomes (mainRunner counting).outcome (threeTasks.map
      (Act.onGroup fun k => (eitherCall k).inputs)), DashlessResult t := by
    refine List.forall_mem_cons.mpr ⟨fun v hv => ?_, List.forall_mem_cons.mpr ⟨fun v hv => ?_,
      List.forall_mem_singleton.mpr fun v hv => ?_⟩⟩
    · cases hv
      refine noDashKey_two rfl (.inr (by decide)) (.inl rfl) ?_ ?_ <;> rintro x ⟨⟩ <;>
        exact ⟨rfl, trivial⟩
    · cases hv
      exact noDashKey_leaf rfl trivial
    · cases hv
  obtain ⟨c, t, hhistory, -, hresults⟩ := history_results (mainRunner counting)
    ((goCaller Binding.plainWorld none none).comap eitherCall) threeTasks hmeets (by rfl)
    (Finmap.disjoint_empty (∅ : Separation.Heap Block)) rfl rfl hdash rfl
  exact ⟨c, t, hhistory, hresults⟩

end Parallax.Stored.Group
