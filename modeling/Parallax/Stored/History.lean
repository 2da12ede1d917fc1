import Parallax.Stored.Callable
import Parallax.Stored.Owner

/-! Whole histories of the group on the heap: nothing is read, written or freed that is not there,
and of a group that is destroyed only user data is left. -/
namespace Parallax.Stored.Group
open Memory Separation Separation.Assertion WaitGroup Transition
set_option autoImplicit false
set_option maxHeartbeats 250000

/-! ## Histories -/

/-- The action of the group that an action on the heap is. -/
def Act.onGroup {κ υ : Type} (inputs : κ → Inputs υ) : Act κ → WaitGroup.Act Unit υ
  | .go k => .go () (inputs k)
  | .wait => .wait ()
  | .destroy => .destroy ()
  | .create ok => .create () ok
  | .step => .step ()
  | .wake => .wake ()
  | .work t => .work t

section Histories
variable {κ υ : Type} {owns : υ → ℕ → Assertion Block} {s : State Unit υ} {c : Control}
variable {tr : List (WaitGroup.Act Unit υ)}

theorem move_step {p : Pc} (hlen : c.calls.length = s.heap.length) :
    groupAt s c * callsAt owns c.wg s.heap c.calls ≤ holds owns (s.setPc () p) (c.setPc p) :=
  le_move (State.setPc_pc ..).symm hlen rfl rfl rfl rfl

theorem goCalls_accepted {r : TaskRunner υ owns} {caller : Caller κ υ owns}
    (hmeets : ∀ k, r.accepts (caller.inputs k)) (haccepts : ∀ inp ∈ goCalls tr, r.accepts inp)
    (a : Act κ) : ∀ inp ∈ goCalls (tr ++ [a.onGroup caller.inputs]), r.accepts inp := by
  intro inp hinp
  rw [goCalls, filterMap_snoc] at hinp
  rcases List.mem_append.mp hinp with hold | hnew
  · exact haccepts inp hold
  · cases a with
    | go k =>
      obtain rfl := List.mem_singleton.mp hnew
      exact hmeets k
    | _ => cases hnew

variable [Allocator Block]

/-- A step on the heap goes in step with the group, and leaves what the caller keeps. -/
theorem step_spec (r : TaskRunner υ owns) (caller : Caller κ υ owns) (hinv : Inv r.outcome tr s)
    (hwithin : Within s) (haccepts : ∀ inp ∈ goCalls tr, r.accepts inp) (a : Act κ) :
    Triple (holds owns s c * caller.keeps) (step caller.prepare r.run c a) fun o =>
      Follows owns (WaitGroup.step r.outcome s (a.onGroup caller.inputs)) o * caller.keeps := by
  cases a with
  | step => exact (clientStep_spec hinv hwithin).frame _
  | work t => exact (work_spec r hinv haccepts t).frame _
  | go k => exact Triple.iSup_mul fun h => go_step hinv h.1 h.2 caller r.run k
  | create ok =>
    refine Triple.frame (Triple.iSup fun ⟨hc, hlen⟩ => ?_) _
    cases hpc : s.pc () with
    | goCreate t => exact create_step hinv hpc hc hlen caller.prepare r.run ok
    | _ =>
      rw [step, hc, hpc, Act.onGroup, WaitGroup.step, hpc]
      exact Triple.pure le_top
  | wait | destroy | wake =>
    refine Triple.frame (Triple.iSup fun ⟨hc, hlen⟩ => ?_) _
    rw [step, hc, Act.onGroup, WaitGroup.step]
    cases s.pc () <;> first | exact Triple.pure (move_step hlen) | exact Triple.pure le_top

theorem stepAll_spec (r : TaskRunner υ owns) (caller : Caller κ υ owns)
    (hmeets : ∀ k, r.accepts (caller.inputs k)) (hinv : Inv r.outcome tr s) (hwithin : Within s)
    (haccepts : ∀ inp ∈ goCalls tr, r.accepts inp) (acts : List (Act κ)) :
    Triple (holds owns s c * caller.keeps) (stepAll caller.prepare r.run c acts) fun o =>
      Follows owns (Transition.run (WaitGroup.step r.outcome) s
        (acts.map (Act.onGroup caller.inputs))) o * caller.keeps := by
  induction acts generalizing s c tr with
  | nil => exact Triple.pure le_rfl
  | cons a acts ih =>
    refine Triple.bind (step_spec r caller hinv hwithin haccepts a) fun o => ?_
    rw [List.map_cons, Transition.run]
    cases hstep : WaitGroup.step r.outcome s (a.onGroup caller.inputs) with
    | none =>
      cases o with
      | none => exact Triple.pure le_rfl
      | some c' => exact Triple.bot_mul
    | some s' =>
      cases o with
      | none => exact Triple.bot_mul
      | some c' =>
        exact ih (hinv.step hstep) (hwithin.step hstep) (goCalls_accepted hmeets haccepts a)

/-- From `wg_create` on. -/
theorem history_spec (r : TaskRunner υ owns) (caller : Caller κ υ owns)
    (hmeets : ∀ k, r.accepts (caller.inputs k)) (acts : List (Act κ)) :
    Triple caller.keeps (history caller.prepare r.run acts) fun o =>
      Follows owns (Transition.run (WaitGroup.step r.outcome) .init
        (acts.map (Act.onGroup caller.inputs))) o * caller.keeps := by
  refine Triple.malloc_bind fun wg => ?_
  refine (stepAll_spec r caller hmeets Inv.init (Within.of_none rfl rfl Pc.noConfusion)
    (List.forall_mem_nil _) acts).pre ?_
  refine mul_le_mul' (le_iSup_of_le ⟨rfl, rfl⟩ ?_) le_rfl
  rw [groupAt_unfreed rfl]
  refine (mul_one _).ge.trans (mul_le_mul' (le_iSup_of_le none ?_) Finset.prod_empty.ge)
  exact (mul_one _).ge.trans (mul_le_mul' le_rfl (le_iSup_of_le ⟨rfl, rfl⟩ le_rfl))

end Histories

/-! ## What a history leaves -/

/-- What a call has come to in the end, by whether its thread was created. -/
def callOutcome {υ : Type} (runner : Runner υ) (inp : Inputs υ) (created : Bool) :
    WaitGroup.Outcome υ :=
  if created then runner inp else (WaitGroup.Task.spawned inp).outcome

/-- The user data of all calls. -/
def leftovers {υ : Type} (owns : υ → ℕ → Assertion Block) (runner : Runner υ)
    (tr : List (WaitGroup.Act Unit υ)) : Assertion Block :=
  (List.zipWith (fun inp created => ⨆ u, held owns (callOutcome runner inp created).userData u)
    (goCalls tr) (creations tr)).prod

section Leftovers
variable {υ : Type} {owns : υ → ℕ → Assertion Block} {s : State Unit υ} {c : Control}
variable {tr : List (WaitGroup.Act Unit υ)} {runner : Runner υ}

theorem threadAt_settled {wg a : ℕ} {k : Cell υ} {thread : Thread} (h : Settled k) :
    threadAt wg a k.stage thread ≤ 1 := by
  refine iSup_le fun hat => ?_
  rcases h with ⟨hs, -⟩ | ⟨hs, -⟩ <;> rw [hs] at hat <;> cases hat <;> exact le_rfl

theorem outcome_settled {t : ℕ} {k : Cell υ} (hkeep : k.Keeps runner t) (h : Settled k) :
    k.task.outcome = callOutcome runner k.inputs (decide (k.joins = 1)) := by
  rw [hkeep.1]
  rcases h with ⟨hs, hj⟩ | ⟨hs, hj⟩
  · rw [hs, hj]
    rfl
  · rw [hs, hj]
    rfl

theorem callsAt_le {wg : ℕ} {cells : List (Cell υ)} {calls : List Call}
    {G : Cell υ → Assertion Block}
    (h : ∀ t k call, cells[t]? = some k → callAt owns wg t k call ≤ G k) :
    callsAt owns wg cells calls ≤ (cells.map G).prod := by
  rw [callsAt, Finset.prod_range, ← Fin.prod_univ_fun_getElem]
  refine Finset.prod_le_prod' fun t _ => ?_
  have hk : cells[t.1]? = some cells[t.1] := List.getElem?_eq_getElem t.2
  rw [hk]
  cases calls[t.1]? with
  | none => exact bot_le
  | some call => exact h t _ call hk

theorem gone_leaves (hinv : Inv runner tr s) (hgone : s.pc () = .gone) :
    callsAt owns c.wg s.heap c.calls ≤ leftovers owns runner tr := by
  have hset : ∀ (t : ℕ) (k : Cell υ), s.heap[t]? = some k → k.freed = true ∧ Settled k := by
    intro t k hk
    have hst := (hinv.each t k hk).1
    rw [hgone] at hst
    exact hst
  have hcreations := hinv.creations_eq (Each.forall_mem fun t k hk => (hset t k hk).2)
  rw [leftovers, hinv.calls, hcreations, List.zipWith_map, List.zipWith_self]
  refine callsAt_le fun t k call hk => ?_
  obtain ⟨hfreed, hsettled⟩ := hset t k hk
  rw [callAt, cellAt, hfreed, if_pos rfl, ← outcome_settled (hinv.each t k hk).2 hsettled]
  exact (mul_le_mul' le_rfl (threadAt_settled hsettled)).trans (mul_one _).le

theorem run_within (h : Run runner tr s) : Within s :=
  run_invariant (P := fun _ s => Within s) (Within.of_none rfl rfl Pc.noConfusion)
    (fun _ _ _ _ hs hstep => hs.step hstep) h

theorem holds_gone (hinv : Inv runner tr s) (hwithin : Within s) (hgone : s.pc () = .gone) :
    holds owns s c ≤ leftovers owns runner tr := by
  refine iSup_le fun _ => ?_
  rw [groupAt, hwithin.gone hgone, if_pos rfl, one_mul]
  exact gone_leaves hinv hgone

end Leftovers

/-! ## go() as the caller -/

/-- A call of `go()` that is not refused, and what it hands to `wg_go`. -/
structure Accepted (w : Bridge.World) (bootstrap : Ptr) where
  task : Bridge.Zval
  args : Option Bridge.HashTable
  inputs : Inputs Bridge.PxCallableT
  accepted : Binding.goInputs w bootstrap task args = .ok inputs

theorem Accepted.userData {w : Bridge.World} {bootstrap : Ptr} (k : Accepted w bootstrap) :
    k.inputs.userData.isSome := by
  obtain ⟨_, _, inputs, h⟩ := k
  obtain ⟨cb, -, h⟩ := bind_ok h
  obtain ⟨v, -, h⟩ := bind_ok h
  obtain ⟨cb', -, h⟩ := bind_ok h
  cases h
  rfl

section Caller
variable [Allocator Block]

/-- The object keeps its path, and each call gets a copy. -/
def goCaller (w : Bridge.World) (bootstrap : Ptr) (q : Option ℕ) :
    Caller (Accepted w bootstrap) Bridge.PxCallableT payloadAt where
  prepare k := do
    match ← goInputs w q k.task k.args with
    | .ok p => return (some p.1, some p.2)
    | .error _ => return (none, none)
  inputs k := k.inputs
  keeps := chars bootstrap q
  spec k := by
    have hr : Bridge.Faultless (Binding.goInputs w bootstrap k.task k.args) := by
      rw [k.accepted]
      exact Bridge.faultless_ok _
    refine Triple.bind (goInputs_spec w hr) fun o => ?_
    rw [k.accepted]
    cases o with
    | error e => exact Triple.bot_mul
    | ok p => exact Triple.pure le_rfl

omit [Allocator Block] in
theorem child_none_le (q : Option ℕ) : child none q ≤ 1 := by
  cases q with
  | none => exact le_rfl
  | some a => exact bot_le

/-- A runner that frees the payload and answers with null. -/
def nullRunner : TaskRunner Bridge.PxCallableT payloadAt where
  run task := do
    let t ← readTask (some task)
    releasePayload t.userData
    let v ← valueNull
    updateTask task fun t => { t with ok := true, result := some v, userData := none }
  outcome _ := ⟨true, some .null, none, none⟩
  accepts inp := inp.userData.isSome
  spec inp haccepts joinable slot thread a := by
    obtain ⟨cb, hcb⟩ := Option.isSome_iff_exists.mp haccepts
    refine Triple.perm (taskAt payloadAt (spawnedTask inp joinable slot) thread a * 1)
      (mul_one _).symm (taskAt_elim fun t ht => readTask_bind ?_)
    have hrelease : Triple (held payloadAt inp.userData t.userData)
        (releasePayload t.userData) fun _ => 1 := by
      rw [hcb]
      cases t.userData with
      | none => exact Triple.bot
      | some p => exact releasePayload_spec cb p
    have hcontents : contents payloadAt (spawnedTask inp joinable slot) t =
        child inp.args t.args * (child none t.result * (child none t.error *
          held payloadAt inp.userData t.userData)) := rfl
    refine Triple.seq (F := child inp.args t.args * (child none t.result * (child none t.error *
      pointsTo a (.task t)))) hrelease (by rw [mul_one, hcontents]; ac_rfl) fun _ => ?_
    refine Triple.seq valueNull_spec rfl fun v => ?_
    refine Triple.perm (pointsTo a (.task t) * (child none t.result * (child inp.args t.args *
      (tree .null v * child none t.error)))) (by ac_rfl) ?_
    rw [updateTask]
    refine readTask_bind ((Triple.write.frame _).post fun _ => ?_)
    refine le_iSup₂_of_le { t with ok := true, result := some v, userData := none }
      ⟨ht.1, ht.2.1, rfl, ht.2.2.2⟩ (mul_le_mul' le_rfl ?_)
    refine (mul_le_mul' (child_none_le _) le_rfl).trans ((one_mul _).le.trans ?_)
    exact mul_le_mul' le_rfl (mul_le_mul' le_rfl (mul_one _).ge)

end Caller

/-- `go('f')` in a thread without files. -/
def callOfF : Accepted Binding.plainWorld none := ⟨.string (ascii ['f']), none, _, rfl⟩

/-- One task, waited for, and the group is destroyed. -/
def wholeLife : List (Act (Accepted Binding.plainWorld none)) :=
  [.go callOfF, .step, .create true, .step, .work 0, .work 0, .work 0, .work 0, .wait, .step, .step,
    .step, .step, .step, .destroy, .step, .step, .step, .step]

def lifeOnHeap : Code (Option Control) :=
  @history (Allocator.above Block) _ (@goCaller (Allocator.above Block) _ none none).prepare
    (@nullRunner (Allocator.above Block)).run wholeLife

/-! ## Any history -/

theorem not_bot_mul {P : Assertion Block} {t : Separation.Heap Block} (h : (⊥ * P) t) : False := by
  obtain ⟨_, _, -, -, hbot, -⟩ := h
  exact hbot

/-- After a history by whose end the group is destroyed, what is left is user data. -/
theorem follows_gone {υ : Type} {owns : υ → ℕ → Assertion Block} {runner : Runner υ}
    {tr : List (WaitGroup.Act Unit υ)} {s : State Unit υ} {o : Option Control}
    {P : Assertion Block} {t : Separation.Heap Block} (hrun : Run runner tr s)
    (hgone : s.pc () = .gone)
    (h : (Follows owns (Transition.run (WaitGroup.step runner) .init tr) o * P) t) :
    ∃ c, o = some c ∧ (leftovers owns runner tr * P) t := by
  rw [hrun] at h
  cases o with
  | none => exact (not_bot_mul h).elim
  | some c =>
    have hleaves : holds owns s c ≤ _ := holds_gone hrun.inv (run_within hrun) hgone
    exact ⟨c, rfl, mul_le_mul' hleaves le_rfl t h⟩

section Any
variable {κ υ : Type} {owns : υ → ℕ → Assertion Block} [Allocator Block]
variable (r : TaskRunner υ owns) (caller : Caller κ υ owns) (acts : List (Act κ))
variable (hmeets : ∀ k, r.accepts (caller.inputs k)) {own rest : Separation.Heap Block}
variable (hown : caller.keeps own) (hd : own.Disjoint rest)
include hmeets hown hd

/-- The history runs to its end on any heap with what the caller keeps, and the rest stays. -/
theorem history_follows : ∃ o t,
    history caller.prepare r.run acts (own ∪ rest) = .ok (o, t ∪ rest) ∧ t.Disjoint rest ∧
    (Follows owns (Transition.run (WaitGroup.step r.outcome) .init
      (acts.map (Act.onGroup caller.inputs))) o * caller.keeps) t :=
  (history_spec r caller hmeets acts).run hown rest hd

/-- No history of the group reads, writes or frees what is not there: it gets through exactly when
the group does, and the heap is then what the state of the group says. -/
theorem history_in_step : ∃ o t,
    history caller.prepare r.run acts (own ∪ rest) = .ok (o, t ∪ rest) ∧ t.Disjoint rest ∧
    (o.isSome ↔ ∃ s, Run r.outcome (acts.map (Act.onGroup caller.inputs)) s) ∧
    ∀ c s, o = some c → Run r.outcome (acts.map (Act.onGroup caller.inputs)) s →
      (holds owns s c * caller.keeps) t := by
  obtain ⟨o, t, hrun, ht, hfollows⟩ := history_follows r caller acts hmeets hown hd
  refine ⟨o, t, hrun, ht, ?_, ?_⟩
  · unfold Run
    cases hend : Transition.run (WaitGroup.step r.outcome) .init
        (acts.map (Act.onGroup caller.inputs)) with
    | none =>
      rw [hend] at hfollows
      cases o with
      | none => exact ⟨fun h => (by cases h), fun ⟨s, hs⟩ => (by cases hs)⟩
      | some c => exact (not_bot_mul hfollows).elim
    | some s =>
      rw [hend] at hfollows
      cases o with
      | none => exact (not_bot_mul hfollows).elim
      | some c => exact ⟨fun _ => ⟨s, rfl⟩, fun _ => rfl⟩
  · rintro c s rfl hs
    rw [hs] at hfollows
    exact hfollows

end Any

/-- It gets through. -/
theorem history_in_step_life : ∃ o t, lifeOnHeap (∅ ∪ ∅) = .ok (o, t ∪ ∅) ∧ o.isSome = true := by
  let _ : Allocator Block := Allocator.above Block
  obtain ⟨o, t, hrun, -, hsome, -⟩ := history_in_step nullRunner (goCaller _ none none) wholeLife
    Accepted.userData (by rfl) (Finmap.disjoint_empty (∅ : Separation.Heap Block))
  exact ⟨o, t, hrun, hsome.mpr ⟨_, rfl⟩⟩

section Gone
variable {κ υ : Type} {owns : υ → ℕ → Assertion Block} [Allocator Block]
variable (r : TaskRunner υ owns) (caller : Caller κ υ owns) (acts : List (Act κ))
variable (hmeets : ∀ k, r.accepts (caller.inputs k)) {own rest : Separation.Heap Block}
variable (hown : caller.keeps own) (hd : own.Disjoint rest)
include hmeets hown hd

/-- After a history by whose end the group is destroyed, all it ever allocated is freed; of what the
calls gave to it only user data is left: what the runner left of it where the thread was created,
and else all of it. -/
theorem history_gone {s : State Unit υ}
    (hrun : Run r.outcome (acts.map (Act.onGroup caller.inputs)) s) (hgone : s.pc () = .gone) :
    ∃ c t, history caller.prepare r.run acts (own ∪ rest) = .ok (some c, t ∪ rest) ∧
      t.Disjoint rest ∧
      (leftovers owns r.outcome (acts.map (Act.onGroup caller.inputs)) * caller.keeps) t := by
  obtain ⟨o, t, hhistory, ht, hfollows⟩ := history_follows r caller acts hmeets hown hd
  obtain ⟨c, rfl, hleft⟩ := follows_gone hrun hgone hfollows
  exact ⟨c, t, hhistory, ht, hleft⟩

end Gone

/-- The whole life leaves the heap as it was. -/
theorem history_gone_life : ∃ c, lifeOnHeap (∅ ∪ ∅) = .ok (some c, ∅ ∪ ∅) := by
  let _ : Allocator Block := Allocator.above Block
  obtain ⟨c, t, hhistory, -, hleft⟩ := history_gone nullRunner (goCaller _ none none) wholeLife
    Accepted.userData (by rfl) (Finmap.disjoint_empty (∅ : Separation.Heap Block)) rfl rfl
  have hnull : ((⨆ u, held payloadAt none u) * 1 * 1 : Assertion Block) t := hleft
  rw [mul_one, mul_one] at hnull
  obtain ⟨u, hu⟩ := iSup_iff.mp hnull
  cases u with
  | none =>
    rw [one_iff.mp hu] at hhistory
    exact ⟨c, hhistory⟩
  | some a => exact hu.elim

/-! ## What is left, block by block -/

section Clean
variable {υ : Type} {owns : υ → ℕ → Assertion Block} {runner : Runner υ}
variable {gs : List (Inputs υ)} {cs : List Bool}

end Clean

section Leaks
variable [Allocator Block] (w : Bridge.World) {bootstrap : Ptr} {q : Option ℕ}
variable (r : TaskRunner Bridge.PxCallableT payloadAt) (acts : List (Act (Accepted w bootstrap)))

end Leaks

end Parallax.Stored.Group
