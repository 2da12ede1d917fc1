import Parallax.WaitGroup.Spawn
import Parallax.Binding.Remembers

/-! `go()` is all or nothing: everything that can fail comes before the one call that changes the
group. -/
namespace Parallax.Binding
open Memory Bridge WaitGroup Transition
set_option autoImplicit false
set_option maxHeartbeats 250000

variable {runner : Runner PxCallableT} {self self' : Object}

/-! ## What comes before wg_go -/

theorem goArgs_faultless (h : Heap) (args : Option HashTable) : Faultless (goArgs h args) := by
  cases args with
  | none => exact faultless_ok _
  | some ht => exact (goArgs_decides h ht).faultless

theorem goArgs_elementwise {h : Heap} {args : Option HashTable} {v : Value}
    (hv : goArgs h args = .ok v) : Elementwise h (args.getD []) v := by
  cases args with
  | none =>
    cases hv
    exact ⟨[], ⟨0, [], 0⟩, rfl, ⟨rfl, le_rfl⟩, rfl, rfl, List.forall_mem_nil _⟩
  | some ht =>
    rcases goArgs_decides h ht with ⟨-, w, hw, hel⟩ | ⟨-, msg, hmsg⟩
    · rw [hv] at hw
      cases hw
      exact hel
    · rw [hv] at hmsg
      cases hmsg

theorem withBootstrap_ok (cb : PxCallableT) {bootstrap : Ptr} (h : PathPtr bootstrap) :
    ∃ cb', withBootstrap cb bootstrap = .ok cb' := by
  cases bootstrap with
  | none => exact ⟨cb, rfl⟩
  | some bs =>
    obtain ⟨path, rfl⟩ := h bs rfl
    obtain ⟨cut, hcut, -⟩ := dupCstr_terminated path
    refine ⟨{ cb with bootstrap := cstr cut }, ?_⟩
    rw [withBootstrap, hcut]
    rfl

theorem goInputs_faultless (w : World) {bootstrap : Ptr} (h : PathPtr bootstrap) (task : Zval)
    (args : Option HashTable) : Faultless (goInputs w bootstrap task args) := by
  refine (pxResolveCallable_faultless w task).bind fun cb _ => ?_
  refine (goArgs_faultless w.heap args).bind fun v _ => ?_
  obtain ⟨cb', hcb⟩ := withBootstrap_ok cb h
  rw [hcb]
  exact faultless_ok _

theorem goInputs_ok {w : World} {bootstrap : Ptr} {task : Zval} {args : Option HashTable}
    {inp : Inputs PxCallableT} (h : goInputs w bootstrap task args = .ok inp) :
    ∃ v, inp.args = some v ∧ Elementwise w.heap (args.getD []) v := by
  obtain ⟨cb, -, h⟩ := bind_ok h
  obtain ⟨v, hv, h⟩ := bind_ok h
  obtain ⟨cb', -, h⟩ := bind_ok h
  cases h
  exact ⟨v, rfl, goArgs_elementwise hv⟩

/-! ## Up to the return of wg_go -/

/-- A method is called, or the object is freed. -/
def Act.isCall : Act → Bool
  | .construct _ | .go .. | .wait | .count | .free => true
  | _ => false

/-- The group of the object is one that `wg_go` was called in. -/
def Going (runner : Runner PxCallableT) (inp : Inputs PxCallableT) (g : Group) (obj : Object) :
    Prop :=
  ∃ i g', obj.wg = some i ∧ obj.groups[i]? = some g' ∧ Spawning runner inp g g'

/-- What goes on between two calls is an action of a group, and in the current one no call. -/
theorem goesOn_moves {a : Act} (ha : a.isCall = false) (h : step runner self a = some self') :
    ∃ i b old new, b.goesOn = true ∧ Moves runner self self' i b old new := by
  have hmethod {b : WaitGroup.Act Unit PxCallableT} (hb : b.goCall? = none) (hon : b.goesOn = true)
      (hs : inMethod runner self b = some self') :
      ∃ i b old new, b.goesOn = true ∧ Moves runner self self' i b old new := by
    obtain ⟨i, -, hs⟩ := Option.bind_eq_some_iff.mp hs
    obtain ⟨old, new, hm⟩ := onGroup_moves hs hb
    exact ⟨i, b, old, new, hon, hm⟩
  cases a with
  | create ok => exact hmethod rfl rfl h
  | step => exact hmethod rfl rfl h
  | wake => exact hmethod rfl rfl h
  | work g t =>
    obtain ⟨old, new, hm⟩ := onGroup_moves h rfl
    exact ⟨g, _, old, new, rfl, hm⟩
  | _ => cases ha

theorem Going.next {inp : Inputs PxCallableT} {g : Group} {a : Act} (h : Going runner inp g self)
    (ha : a.isCall = false) (hs : step runner self a = some self') :
    Going runner inp g self' := by
  obtain ⟨i, g', hwg, hg', hspawning⟩ := h
  obtain ⟨j, b, old, new, hon, hm⟩ := goesOn_moves ha hs
  obtain ⟨hj, -⟩ := List.getElem?_eq_some_iff.mp hm.get
  by_cases hij : j = i
  · subst hij
    obtain rfl : old = g' := Option.some.inj (hm.get.symm.trans hg')
    refine ⟨j, new, hm.wg.trans hwg, ?_, hspawning.step hon hm.step⟩
    rw [hm.groups, List.getElem?_set, if_pos rfl, if_pos hj]
  · refine ⟨i, g', hm.wg.trans hwg, ?_, hspawning⟩
    rw [hm.groups, List.getElem?_set, if_neg hij, hg']

theorem Going.run {inp : Inputs PxCallableT} {g : Group} {tr : List Act}
    (h : Going runner inp g self) (htr : ∀ a ∈ tr, a.isCall = false)
    (hr : run (step runner) self tr = some self') : Going runner inp g self' := by
  induction tr generalizing self with
  | nil =>
    cases hr
    exact h
  | cons a tr ih =>
    obtain ⟨ha, htr⟩ := List.forall_mem_cons.mp htr
    obtain ⟨u, hu, hrest⟩ := Option.bind_eq_some_iff.mp hr
    exact ih (h.next ha hu) htr hrest

/-! ## All or nothing -/

/-- The call throws: it leaves an exception, and everything else as it was. -/
def ThrowsOnly (obj after : Object) : Prop := ∃ e, after = obj.throw e

/-- The call is accepted: when it returns, the group has one slot more, made of the snapshot of the
arguments, and whatever the workers did in the meantime, no other slot was touched by the call. -/
def Accepts (runner : Runner PxCallableT) (obj after : Object) (h : Heap)
    (args : Option HashTable) : Prop :=
  after.raised = none ∧ ∃ g inp v, obj.group = some g ∧ after.accepted = obj.accepted ++ [inp] ∧
    inp.args = some v ∧ Elementwise h (args.getD []) v ∧
    ∀ tr done, (∀ a ∈ tr, a.isCall = false) → run (step runner) after tr = some done →
      done.ready = true → ∃ g', done.group = some g' ∧ AppendsSlot runner inp g g'

theorem go_accepts (h : Valid runner self) (hready : self.ready = true) {w : World} {task : Zval}
    {args : Option HashTable} {i : ℕ} (hwg : self.wg = some i) {inp : Inputs PxCallableT}
    (hinp : goInputs w self.bootstrap task args = .ok inp) :
    ∃ after, go runner self w task args = some after ∧
      Accepts runner self after w.heap args := by
  obtain ⟨g, hget, hgroup⟩ := h.group hwg
  obtain ⟨hi, -⟩ := List.getElem?_eq_some_iff.mp hget
  obtain ⟨ret, hpc⟩ := ready_idle hready hgroup
  obtain ⟨gtr, hgtr⟩ := h.runs g (List.mem_of_getElem? hget)
  obtain ⟨v, hv, hel⟩ := goInputs_ok hinp
  obtain ⟨g', hg'⟩ : ∃ g', WaitGroup.step runner g (.go () inp) = some g' := by
    simp only [WaitGroup.step, hpc]
    exact ⟨_, rfl⟩
  have hon : self.onGroup runner i (.go () inp) =
      some { self with groups := self.groups.set i g' } := by
    rw [Object.onGroup, hget, Option.bind_some, hg']
    rfl
  unfold go
  simp only [hwg, hinp, hon]
  refine ⟨_, rfl, rfl, g, inp, v, hgroup, rfl, hv, hel, fun tr done htr hdone hready' => ?_⟩
  have hgoing : Going runner inp g { self with
      groups := self.groups.set i g'
      raised := none
      accepted := self.accepted ++ [inp] } := by
    refine ⟨i, g', hwg, ?_, Spawning.start hg'⟩
    show (self.groups.set i g')[i]? = some g'
    rw [List.getElem?_set, if_pos rfl, if_pos hi]
  rw [← hwg] at hdone
  obtain ⟨j, last, hj, hlast, hspawning⟩ := hgoing.run htr hdone
  have hcurrent := group_of_wg hj hlast
  obtain ⟨ret', hpc'⟩ := ready_idle hready' hcurrent
  exact ⟨last, hcurrent, hspawning.appends hgtr.inv hpc hpc'⟩

/-- In every state in which it can be called, `go()` does one of the two. -/
theorem go_allOrNothing {tr : List Act} (h : Run runner tr self) (hready : self.ready = true)
    (w : World) (task : Zval) (args : Option HashTable) :
    ∃ after, step runner self (.go w task args) = some after ∧
      (ThrowsOnly self after ∨ Accepts runner self after w.heap args) := by
  have hstep : step runner self (.go w task args) = go runner self w task args := if_pos hready
  rw [hstep]
  cases hwg : self.wg with
  | none =>
    refine ⟨self.throw uninitialised, ?_, .inl ⟨_, rfl⟩⟩
    unfold go
    rw [hwg]
  | some i =>
    cases hinp : goInputs w self.bootstrap task args with
    | error stop =>
      cases stop with
      | fault f => exact absurd hinp (goInputs_faultless w h.valid.bootstrap task args f)
      | thrown e =>
        refine ⟨self.throw e, ?_, .inl ⟨e, rfl⟩⟩
        unfold go
        simp only [hwg, hinp]
    | ok inp =>
      obtain ⟨after, hafter, haccepts⟩ := go_accepts h.valid hready hwg hinp
      exact ⟨after, hafter, .inr haccepts⟩

/-- `$wg->go('f')`, before another call. -/
def oneCall : List Act :=
  [.construct none, .go plainWorld (.string (ascii ['f'])) none, .step, .create true, .step]

/-- A second call with a resource among its arguments throws, and one without is accepted. -/
theorem go_allOrNothing_second : ∃ self, Run answering oneCall self ∧ count self = 1 ∧
    (∃ after, step answering self (.go plainWorld (.string (ascii ['f']))
        (some [(.int 0, .long 1), (.int 1, .resource)])) = some after ∧
      ThrowsOnly self after ∧ count after = 1) ∧
    ∃ after, step answering self (.go plainWorld (.string (ascii ['f']))
        (some [(.int 0, .long 1), (.int 1, .true)])) = some after ∧
      Accepts answering self after plainWorld.heap (some [(.int 0, .long 1), (.int 1, .true)]) ∧
      ∃ done, run (step answering) after [.step, .work 0 0, .create true, .step] = some done ∧
        count done = 2 := by
  have hrun : Run answering oneCall _ := rfl
  obtain ⟨after, hafter, hor⟩ := go_allOrNothing hrun rfl plainWorld (.string (ascii ['f']))
    (some [(.int 0, .long 1), (.int 1, .resource)])
  obtain ⟨after', hafter', hor'⟩ := go_allOrNothing hrun rfl plainWorld (.string (ascii ['f']))
    (some [(.int 0, .long 1), (.int 1, .true)])
  refine ⟨_, hrun, rfl, ⟨after, hafter, ?_, ?_⟩, after', hafter', ?_, ?_⟩
  · cases hafter
    exact hor.resolve_right fun haccepts => by cases haccepts.1
  · cases hafter
    rfl
  · cases hafter'
    refine hor'.resolve_left ?_
    rintro ⟨e, hthrow⟩
    cases congrArg Object.raised hthrow
  · cases hafter'
    exact ⟨_, rfl, rfl⟩

end Parallax.Binding
