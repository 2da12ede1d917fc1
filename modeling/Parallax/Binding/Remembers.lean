import Parallax.Binding.Object

/-! What a `WaitGroup` object keeps of the calls it has accepted: its count, the entries of a
`wait`, and the threads it has to join. -/
namespace Parallax.Binding
open Memory Bridge WaitGroup Transition
set_option autoImplicit false
set_option maxHeartbeats 250000

section Kept
variable (runner : Runner PxCallableT)

/-- Nothing that was accepted is missing: between two calls from the count; when a `wait` returns
from its array; and when the object is freed no thread that was ever started for it is unjoined. -/
structure Remembers (obj : Object) : Prop where
  count_eq : obj.ready = true → count obj = obj.accepted.length
  entries_length : ∀ g, obj.group = some g → g.pc () = .idle .wait →
    (waitEntries g).length = obj.accepted.length
  entries_eq : ∀ g, obj.group = some g → g.pc () = .idle .wait →
    ∀ i inp, obj.accepted[i]? = some inp → ∃ k, wgGet g i = some k ∧ k.inputs = inp ∧
      (waitEntries g)[i]? = some (some k.task.entry) ∧
      (k.stage.created = true → k.task.outcome = runner inp)
  joined : obj.freed = true → (∀ g, obj.group = some g → g.pc () = .gone) →
    ∀ g ∈ obj.groups, ∀ k ∈ g.heap, k.stage.created = true → k.stage = .exited ∧ k.joins = 1

/-- A constructor is called only while no `go()` has been accepted. -/
def ConstructsEmpty (obj : Object) : Act → Prop
  | .construct _ => obj.accepted = []
  | _ => True

/-- The group of the object has all that was accepted, and no other group has anything. -/
structure Owns (obj : Object) : Prop extends Valid runner obj where
  none : obj.wg = none → obj.accepted = []
  current : ∀ g, obj.group = some g → g.heap.map (·.inputs) = obj.accepted
  others : ∀ i g, obj.wg ≠ some i → obj.groups[i]? = some g → g.heap = []

end Kept

variable {runner : Runner PxCallableT} {self self' : Object}

/-! ## What is owned -/

theorem Owns.create : Owns runner .create where
  toValid := Valid.create
  none := fun _ => rfl
  current := by
    intro g hg
    cases hg
  others := by
    intro i g _ hg
    cases hg

theorem Owns.stays (h : Owns runner self) (hs : Stays self self') : Owns runner self' := by
  have hgroup : self'.group = self.group := by
    rw [Object.group, Object.group, hs.wg, hs.groups]
  refine ⟨h.toValid.stays hs, ?_, ?_, ?_⟩
  · rw [hs.wg, hs.accepted]
    exact h.none
  · rw [hgroup, hs.accepted]
    exact h.current
  · rw [hs.wg, hs.groups]
    exact h.others

/-- An action of any group, with what it adds to the accepted calls. -/
theorem Owns.moves {i : ℕ} {a : WaitGroup.Act Unit PxCallableT} {old new : Group}
    (h : Owns runner self) (hm : Moves runner self self' i a old new) : Owns runner self' := by
  obtain ⟨hi, -⟩ := List.getElem?_eq_some_iff.mp hm.get
  obtain ⟨tr, htr⟩ := h.runs old (List.mem_of_getElem? hm.get)
  have hinputs := heap_inputs htr hm.step
  have hquiet (hne : self.wg ≠ some i) : a.goCall? = .none :=
    Option.not_isSome_iff_eq_none.mp fun hsome => hne (hm.current hsome)
  refine ⟨h.toValid.moves hm, fun hnone => ?_, ?_, ?_⟩
  · rw [hm.wg] at hnone
    have hne : self.wg ≠ some i := by
      rw [hnone]
      exact Option.some_ne_none i |>.symm
    rw [hm.accepted, h.none hnone, hquiet hne]
    rfl
  · intro g hg
    obtain ⟨j, hj, hget⟩ := wg_of_group hg
    rw [hm.wg] at hj
    rw [hm.groups, List.getElem?_set] at hget
    by_cases hij : i = j
    · subst hij
      rw [if_pos rfl, if_pos hi] at hget
      cases hget
      rw [hinputs, h.current old (group_of_wg hj hm.get), hm.accepted]
    · rw [if_neg hij] at hget
      have hne : self.wg ≠ some i := fun he => hij (Option.some.inj (he.symm.trans hj))
      rw [hm.accepted, hquiet hne, Option.toList_none, List.append_nil]
      exact h.current g (group_of_wg hj hget)
  · intro j g hj hget
    rw [hm.wg] at hj
    rw [hm.groups, List.getElem?_set] at hget
    by_cases hij : i = j
    · subst hij
      rw [if_pos rfl, if_pos hi] at hget
      cases hget
      rw [h.others i old hj hm.get, hquiet hj] at hinputs
      exact List.map_eq_nil_iff.mp hinputs
    · rw [if_neg hij] at hget
      exact h.others j g hj hget

theorem Owns.construct (h : Owns runner self) (hempty : self.accepted = [])
    (bootstrap : Option ZStr) : Owns runner (construct self bootstrap) := by
  have hnew := construct_group self bootstrap
  refine ⟨h.toValid.construct bootstrap, fun _ => hempty, ?_, ?_⟩
  · intro g hg
    rw [hnew] at hg
    cases hg
    exact hempty.symm
  · intro i g hi hg
    have hlt : i < self.groups.length := by
      obtain ⟨hlt, -⟩ := List.getElem?_eq_some_iff.mp hg
      have hlen : (Binding.construct self bootstrap).groups.length = self.groups.length + 1 :=
        List.length_append
      have hne : i ≠ self.groups.length := fun he => hi (by rw [he]; rfl)
      omega
    have hg : self.groups[i]? = some g := by
      rw [← hg]
      exact (List.getElem?_append_left hlt).symm
    -- the group that was current holds what was accepted, which is nothing
    by_cases hcur : self.wg = some i
    · have := h.current g (group_of_wg hcur hg)
      rw [hempty] at this
      exact List.map_eq_nil_iff.mp this
    · exact h.others i g hcur hg

/-- Every step keeps it but for a constructor that drops a group with tasks. -/
theorem Owns.step {a : Act} (h : Owns runner self) (hc : ConstructsEmpty self a)
    (hs : step runner self a = some self') : Owns runner self' := by
  rcases step_cases hs with ⟨b, rfl, -, rfl⟩ | hs | ⟨i, b, old, new, hm⟩
  · exact h.construct hc b
  · exact h.stays hs
  · exact h.moves hm

/-! ## What is owned is remembered -/

theorem ready_idle {g : Group} (hready : self.ready = true) (hg : self.group = some g) :
    ∃ ret, g.pc () = .idle ret := by
  unfold Object.ready at hready
  rw [hg] at hready
  cases hpc : g.pc () with
  | idle ret => exact ⟨ret, rfl⟩
  | _ => simp [hpc] at hready

theorem Owns.count_eq (h : Owns runner self) (hready : self.ready = true) :
    count self = self.accepted.length := by
  unfold count
  cases hg : self.group with
  | none =>
    cases hwg : self.wg with
    | none =>
      rw [h.none hwg]
      rfl
    | some i =>
      obtain ⟨g, -, hsome⟩ := h.toValid.group hwg
      rw [hg] at hsome
      cases hsome
  | some g =>
    obtain ⟨ret, hpc⟩ := ready_idle hready hg
    obtain ⟨tr, htr⟩ := h.toValid.run_of_group hg
    have hlen := htr.inv.length
    rw [hpc] at hlen
    rw [← h.current g hg, List.length_map, hlen]
    rfl

/-- The entry of an accepted call in the array of a `wait` that has returned. -/
theorem Owns.entry_eq (h : Owns runner self) {g : Group} (hg : self.group = some g)
    (hpc : g.pc () = .idle .wait) {i : ℕ} {inp : Inputs PxCallableT}
    (hi : self.accepted[i]? = some inp) :
    ∃ k, wgGet g i = some k ∧ k.inputs = inp ∧ (waitEntries g)[i]? = some (some k.task.entry) ∧
      (k.stage.created = true → k.task.outcome = runner inp) := by
  obtain ⟨tr, htr⟩ := h.toValid.run_of_group hg
  rw [← h.current g hg, ← htr.inv.calls] at hi
  obtain ⟨k, hk, hheap, hinp, -, -, hout⟩ := htr.inv.slot_of_call hpc hi
  have hlt : i < wgSize g := by
    rw [wgSize_eq htr.inv hpc]
    exact (List.getElem?_eq_some_iff.mp hi).1
  refine ⟨k, hk, hinp, ?_, fun hcreated => ?_⟩
  · rw [waitEntries, List.getElem?_map, List.getElem?_range hlt, Option.map_some, hk]
    rfl
  · have hret := htr.inv.returned hpc
    have hset : ∀ k ∈ g.heap, Settled k :=
      Each.forall_mem (hret.mono fun _ _ hk => hk.1.2.1)
    refine (hout ?_).1
    rw [htr.inv.creations_eq hset, List.getElem?_map, hheap]
    rcases hset k (List.mem_of_getElem? hheap) with ⟨-, hj⟩ | ⟨hstage, -⟩
    · exact congrArg some (decide_eq_true hj)
    · rw [hstage] at hcreated
      cases hcreated

/-- A group that is not the current one has no threads. -/
theorem Owns.joined (h : Owns runner self)
    (hgone : ∀ g, self.group = some g → g.pc () = .gone) {g : Group} (hg : g ∈ self.groups)
    {k : Cell PxCallableT} (hk : k ∈ g.heap) (hcreated : k.stage.created = true) :
    k.stage = .exited ∧ k.joins = 1 := by
  obtain ⟨i, hi⟩ := List.getElem?_of_mem hg
  by_cases hwg : self.wg = some i
  · obtain ⟨tr, htr⟩ := h.runs g hg
    have heach := htr.inv.each
    rw [hgone g (group_of_wg hwg hi)] at heach
    obtain ⟨t, ht⟩ := List.getElem?_of_mem hk
    rcases (heach t k ht).1.2 with hset | ⟨hstage, -⟩
    · exact hset
    · rw [hstage] at hcreated
      cases hcreated
  · rw [h.others i g hwg hi] at hk
    cases hk

theorem Owns.remembers (h : Owns runner self) : Remembers runner self where
  count_eq := h.count_eq
  entries_length := by
    intro g hg hpc
    obtain ⟨tr, htr⟩ := h.toValid.run_of_group hg
    rw [waitEntries, List.length_map, List.length_range, wgSize_eq htr.inv hpc, htr.inv.calls,
      h.current g hg]
  entries_eq := by
    intro g hg hpc i inp hi
    exact h.entry_eq hg hpc hi
  joined := by
    intro _ hgone g hg k hk hcreated
    exact h.joined hgone hg hk hcreated

/-- A constructor that drops a group with tasks forgets them. -/
theorem not_remembers_construct {bootstrap : Option ZStr} (hready : self.ready = true)
    (hne : self.accepted ≠ []) : ¬ Remembers runner (construct self bootstrap) := by
  intro h
  have hnew := construct_group self bootstrap
  have hready' : (construct self bootstrap).ready = true := by
    have hfreed : self.freed = false := by
      have := (Bool.and_eq_true_iff.mp hready).1
      simpa using this
    have hfreed : (construct self bootstrap).freed = false := hfreed
    rw [Object.ready, hnew, hfreed]
    rfl
  have hcount := h.count_eq hready'
  rw [count, hnew] at hcount
  exact hne (List.length_eq_zero_iff.mp hcount.symm)

/-! ## Whole histories -/

theorem run_accepted {tr : List Act} {t : Object} (h : run (step runner) self tr = some t) :
    self.accepted <+: t.accepted := by
  induction tr generalizing self with
  | nil =>
    cases h
    exact List.prefix_rfl
  | cons a tr ih =>
    obtain ⟨u, hu, hrest⟩ := Option.bind_eq_some_iff.mp h
    exact (step_accepted hu).trans (ih hrest)

theorem run_owns {tr : List Act} {t : Object} (h : Owns runner self)
    (hC : Along (step runner) ConstructsEmpty self tr) (hr : run (step runner) self tr = some t) :
    Owns runner t := by
  induction tr generalizing self with
  | nil =>
    cases hr
    exact h
  | cons a tr ih =>
    obtain ⟨u, hu, hrest⟩ := Option.bind_eq_some_iff.mp hr
    exact ih (h.step hC.1 hu) (hC.2 u hu) hrest

/-- An object remembers what it has accepted throughout a history exactly when no constructor is
called in it after a `go()` was accepted; and its count does not go down in such a history. -/
theorem remembers_iff {tr : List Act} (h : Run runner tr self) :
    (Throughout (step runner) (Remembers runner) .create tr ↔
      Along (step runner) ConstructsEmpty .create tr) ∧
    (Along (step runner) ConstructsEmpty .create tr → ∀ tr₁ tr₂ before, tr = tr₁ ++ tr₂ →
      Run runner tr₁ before → before.ready = true → self.ready = true →
      count before ≤ count self) := by
  constructor
  · refine throughout_iff_of_invariant (fun s a t hs hC hu => hs.step hC hu)
      (fun s hs => hs.remembers) (fun s a t hs hC hu => ?_) Owns.create h
    cases a with
    | construct bootstrap =>
      obtain ⟨hready, hu⟩ := Option.ite_none_right_eq_some.mp hu
      cases hu
      exact not_remembers_construct hready hC
    | _ => exact absurd trivial hC
  · rintro hC tr₁ tr₂ before rfl hbefore hready hready'
    have hrem := (run_owns Owns.create hC.of_append hbefore).remembers
    have hself := (run_owns Owns.create hC h).remembers
    rw [Run, run_append, hbefore, Option.bind_some] at h
    rw [hrem.count_eq hready, hself.count_eq hready']
    exact (run_accepted h).length_le

/-! ### A constructor that is called again -/

/-- A thread with no files and no objects but one, which is no closure. -/
def plainWorld : World where
  heap :=
    { array := fun _ => []
      object := fun _ => ⟨⟨[], false, .null, [], List.nodup_nil⟩, fun _ => .undef, none,
        List.nodup_nil, fun _ _ => List.not_mem_nil⟩
      reference := fun _ => .null }
  closure := fun _ => ⟨none, none, .undef⟩
  readFile := fun _ => none

def answering : Runner PxCallableT := fun inp => ⟨true, some (.long 7), none, inp.userData⟩

/-- Three calls of `go()`: the second one is refused for its argument, and the third one does not
get a thread. Then a `wait()` up to its return. -/
def threeCalls : List Act :=
  [.construct none, .go plainWorld (.string (ascii ['f'])) none, .step, .create true, .step,
    .go plainWorld (.string (ascii ['f'])) (some [(.int 0, .resource)]),
    .go plainWorld (.string (ascii ['f'])) (some [(.int 0, .long 1)]), .step, .work 0 0,
    .create false, .step, .step, .wait, .step, .work 0 0, .work 0 0, .step, .step, .work 0 0, .step,
    .step, .step, .step]

theorem remembers_iff_threeCalls : ∃ before self, Run answering (threeCalls.take 6) before ∧
    Run answering threeCalls self ∧
    Throughout (step answering) (Remembers answering) .create threeCalls ∧
    count before = 1 ∧ count before ≤ count self ∧ count self = 2 := by
  have hbefore : Run answering (threeCalls.take 6) _ := rfl
  have hrun : Run answering threeCalls _ := rfl
  obtain ⟨hiff, hmono⟩ := remembers_iff hrun
  have hempty : Along (step answering) ConstructsEmpty .create threeCalls :=
    ⟨rfl, fun t _ => along_of_forall (by simp [ConstructsEmpty]) t⟩
  exact ⟨_, _, hbefore, hrun, hiff.mpr hempty, rfl,
    hmono hempty _ (threeCalls.drop 6) _ rfl hbefore rfl rfl, rfl⟩

/-- `$wg->go('f'); $wg->__construct();`, and the object is freed. -/
def reconstructed : List Act :=
  [.construct none, .go plainWorld (.string (ascii ['f'])) none, .step, .create true, .step,
    .construct none]

/-- The count goes back to none, and the worker of the first group is joined by nobody. -/
theorem not_remembers_reconstructed :
    (¬ ∀ runner tr self, Run runner tr self → Remembers runner self) ∧
    (∃ self, Run answering reconstructed self ∧ count self = 0 ∧ self.accepted.length = 1) ∧
    ∃ self, Run answering (reconstructed ++ [.free, .step, .step]) self ∧
      (∀ g, self.group = some g → g.pc () = .gone) ∧
      ∃ g ∈ self.groups, ∃ k ∈ g.heap, k.stage.created = true ∧ k.joins = 0 := by
  have hrun : Run answering reconstructed _ := rfl
  have hfreed : Run answering (reconstructed ++ [.free, .step, .step]) _ := rfl
  refine ⟨fun h => ?_, ⟨_, hrun, rfl, rfl⟩, ⟨_, hfreed, ?_, _, List.mem_cons_self .., _,
    List.mem_cons_self .., rfl, rfl⟩⟩
  · have := (h answering _ _ hrun).count_eq rfl
    cases this
  · intro g hg
    cases hg
    rfl

end Parallax.Binding
