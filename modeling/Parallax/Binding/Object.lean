import Parallax.WaitGroup.Outcome
import Parallax.Bridge.Callable

/-! `php_binding.c`: a `WaitGroup` object under any sequence of method calls, the steps of the
workers in between. Its methods run one at a time; a group that the object no longer points at
stays where it is, and so do its threads. -/
namespace Parallax.Binding
open Memory Bridge WaitGroup Transition
set_option autoImplicit false
set_option maxHeartbeats 250000

abbrev Group := State Unit PxCallableT

/-- `parallax_waitgroup_object_t`: `wg` is NULL or the number of a group, among all that were made
for the object; `raised` is the exception the last method call has left. For the proofs only: the
inputs of the `go()` calls that did not throw, and whether the object is being freed. -/
structure Object where
  groups : List Group
  wg : Option ℕ
  bootstrap : Ptr
  raised : Option Thrown
  accepted : List (Inputs PxCallableT)
  freed : Bool

/-- `parallax_waitgroup_create`. -/
def Object.create : Object := ⟨[], none, none, none, [], false⟩

namespace Object
variable (self : Object)

/-- The group `self->wg` points at. -/
def group : Option Group := self.wg.bind fun g => self.groups[g]?

/-- No method is at work: the next one can be called. -/
def ready : Bool :=
  !self.freed && match self.group with
    | none => true
    | some g => match g.pc () with
      | .idle _ => true
      | _ => false

def throw (e : Thrown) : Object := { self with raised := some e }

/-- The object with a group as one action leaves it. -/
def onGroup (runner : Runner PxCallableT) (g : ℕ) (a : WaitGroup.Act Unit PxCallableT) :
    Option Object :=
  (self.groups[g]?).bind fun group => (WaitGroup.step runner group a).map fun group =>
    { self with groups := self.groups.set g group }

end Object

/-! ## Methods -/

/-- The copy of `self->bootstrap` a recipe gets. -/
def withBootstrap (cb : PxCallableT) (bootstrap : Ptr) : Except Fault PxCallableT :=
  match bootstrap with
  | none => .ok cb
  | some _ => (dupCstr bootstrap).map fun copy => { cb with bootstrap := copy }

/-- What `go()` hands to `wg_go`, all of which it works out before. -/
def goInputs (w : World) (bootstrap : Ptr) (task : Zval) (args : Option HashTable) :
    Except Stop (Inputs PxCallableT) := do
  let cb ← pxResolveCallable w task
  let args ← goArgs w.heap args
  let cb ← checked (withBootstrap cb bootstrap)
  return ⟨some args, some cb⟩

/-- What `go()` and `wait()` throw when there is no group. -/
def uninitialised : Thrown := ⟨.spawnError, ascii "WaitGroup is uninitialised".toList⟩

/-- `__construct`: a new group, whether there is one or not. -/
def construct (self : Object) (bootstrap : Option ZStr) : Object :=
  { self with
    groups := self.groups ++ [State.init]
    wg := some self.groups.length
    bootstrap := match bootstrap with
      | none => self.bootstrap
      | some path => if path = [] then self.bootstrap else cstr path
    raised := none }

section Methods
variable (runner : Runner PxCallableT)

/-- `go`, up to the first step of `wg_go`. -/
def go (self : Object) (w : World) (task : Zval) (args : Option HashTable) : Option Object :=
  match self.wg with
  | none => some (self.throw uninitialised)
  | some g =>
    match goInputs w self.bootstrap task args with
    | .error (.thrown e) => some (self.throw e)
    | .error (.fault _) => none
    | .ok inp => (self.onGroup runner g (.go () inp)).map fun self =>
      { self with raised := none, accepted := self.accepted ++ [inp] }

/-- `wait`, up to the first step of `wg_wait`. -/
def wait (self : Object) : Option Object :=
  match self.wg with
  | none => some (self.throw uninitialised)
  | some g => (self.onGroup runner g (.wait ())).map fun self => { self with raised := none }

/-- `parallax_waitgroup_free`, up to the first step of `wg_destroy`. -/
def free (self : Object) : Option Object :=
  match self.wg with
  | none => some { self with freed := true }
  | some g => (self.onGroup runner g (.destroy ())).map fun self => { self with freed := true }

end Methods

/-- `count`. -/
def count (self : Object) : ℕ :=
  match self.group with
  | none => 0
  | some g => wgSize g

/-- The array `wait` builds once `wg_wait` has returned. -/
def waitEntries (g : Group) : List (Option ParallaxResult) :=
  (List.range (wgSize g)).map fun i => (wgGet g i).map (·.task.entry)

/-! ## Runs -/

inductive Act
  /-- A method is called, or the object is freed. -/
  | construct (bootstrap : Option ZStr)
  | go (w : World) (task : Zval) (args : Option HashTable)
  | wait | count | free
  /-- The method at work goes on: in `pthread_create`, elsewhere, or out of `pthread_cond_wait`
  without a signal. -/
  | create (ok : Bool) | step | wake
  /-- A worker of any group goes on. -/
  | work (g t : ℕ)

section Step
variable (runner : Runner PxCallableT)

/-- The method at work goes on in the group of the object. -/
def inMethod (self : Object) (a : WaitGroup.Act Unit PxCallableT) : Option Object :=
  self.wg.bind fun g => self.onGroup runner g a

def step (self : Object) : Act → Option Object
  | .construct bootstrap => if self.ready then some (construct self bootstrap) else none
  | .go w task args => if self.ready then go runner self w task args else none
  | .wait => if self.ready then wait runner self else none
  | .count => if self.ready then some { self with raised := none } else none
  | .free => if self.ready then free runner self else none
  | .create ok => inMethod runner self (.create () ok)
  | .step => inMethod runner self (.step ())
  | .wake => inMethod runner self (.wake ())
  | .work g t => self.onGroup runner g (.work t)

/-- A history of an object. -/
def Run (tr : List Act) (self : Object) : Prop := run (step runner) .create tr = some self

end Step

variable {runner : Runner PxCallableT} {self self' : Object}

/-! ## One step of the object -/

theorem run_snoc {g g' : Group} {tr : List (WaitGroup.Act Unit PxCallableT)}
    {a : WaitGroup.Act Unit PxCallableT} (h : WaitGroup.Run runner tr g)
    (hstep : WaitGroup.step runner g a = some g') : WaitGroup.Run runner (tr ++ [a]) g' := by
  rw [WaitGroup.Run] at h ⊢
  rw [run_append, h, Option.bind_some, run, hstep]
  rfl

/-- What an action of a group does to the inputs its tasks were made of. -/
theorem heap_inputs {g g' : Group} {tr : List (WaitGroup.Act Unit PxCallableT)}
    {a : WaitGroup.Act Unit PxCallableT} (h : WaitGroup.Run runner tr g)
    (hstep : WaitGroup.step runner g a = some g') :
    g'.heap.map (·.inputs) = g.heap.map (·.inputs) ++ a.goCall?.toList := by
  have hcalls := (run_snoc h hstep).inv.calls
  rw [goCalls, filterMap_snoc] at hcalls
  rw [← hcalls, ← h.inv.calls]
  rfl

/-- A step that leaves the groups, and what they are for, as they are. -/
structure Stays (obj obj' : Object) : Prop where
  groups : obj'.groups = obj.groups
  wg : obj'.wg = obj.wg
  bootstrap : obj'.bootstrap = obj.bootstrap
  accepted : obj'.accepted = obj.accepted

/-- A step that is an action of one group; a `wg_go` is one of the current group. -/
structure Moves (runner : Runner PxCallableT) (obj obj' : Object) (i : ℕ)
    (a : WaitGroup.Act Unit PxCallableT) (old new : Group) : Prop where
  get : obj.groups[i]? = some old
  step : WaitGroup.step runner old a = some new
  groups : obj'.groups = obj.groups.set i new
  wg : obj'.wg = obj.wg
  bootstrap : obj'.bootstrap = obj.bootstrap
  accepted : obj'.accepted = obj.accepted ++ a.goCall?.toList
  current : a.goCall?.isSome = true → obj.wg = some i

theorem onGroup_moves {i : ℕ} {a : WaitGroup.Act Unit PxCallableT}
    (h : self.onGroup runner i a = some self') (ha : a.goCall? = .none) :
    ∃ old new, Moves runner self self' i a old new := by
  obtain ⟨old, hold, hmap⟩ := Option.bind_eq_some_iff.mp h
  obtain ⟨new, hnew, rfl⟩ := Option.map_eq_some_iff.mp hmap
  refine ⟨old, new, hold, hnew, rfl, rfl, rfl, ?_, fun hsome => ?_⟩
  · rw [ha]
    exact (List.append_nil _).symm
  · rw [ha] at hsome
    cases hsome

theorem Moves.unthrown {i : ℕ} {a : WaitGroup.Act Unit PxCallableT} {old new : Group}
    (h : Moves runner self self' i a old new) :
    Moves runner self { self' with raised := none } i a old new :=
  ⟨h.get, h.step, h.groups, h.wg, h.bootstrap, h.accepted, h.current⟩

theorem Moves.freed {i : ℕ} {a : WaitGroup.Act Unit PxCallableT} {old new : Group}
    (h : Moves runner self self' i a old new) :
    Moves runner self { self' with freed := true } i a old new :=
  ⟨h.get, h.step, h.groups, h.wg, h.bootstrap, h.accepted, h.current⟩

/-- All that a step can be. -/
theorem step_cases {a : Act} (h : step runner self a = some self') :
    (∃ b, a = .construct b ∧ self.ready = true ∧ self' = construct self b) ∨ Stays self self' ∨
      ∃ i b old new, Moves runner self self' i b old new := by
  have hstays {s : Object} (hs : some s = some self') (hsame : Stays self s) : Stays self self' := by
    cases hs
    exact hsame
  have hmethod {b : WaitGroup.Act Unit PxCallableT} (hb : b.goCall? = .none)
      (hs : inMethod runner self b = some self') :
      ∃ i b old new, Moves runner self self' i b old new := by
    obtain ⟨i, -, hs⟩ := Option.bind_eq_some_iff.mp hs
    obtain ⟨old, new, hmoves⟩ := onGroup_moves hs hb
    exact ⟨i, b, old, new, hmoves⟩
  cases a with
  | construct bootstrap =>
    obtain ⟨hready, h⟩ := Option.ite_none_right_eq_some.mp h
    cases h
    exact .inl ⟨bootstrap, rfl, hready, rfl⟩
  | go w task args =>
    obtain ⟨-, h⟩ := Option.ite_none_right_eq_some.mp h
    unfold go at h
    split at h
    · exact .inr (.inl (hstays h ⟨rfl, rfl, rfl, rfl⟩))
    next i hwg =>
    split at h
    · exact .inr (.inl (hstays h ⟨rfl, rfl, rfl, rfl⟩))
    · cases h
    next inp _ =>
    obtain ⟨s, hgo, rfl⟩ := Option.map_eq_some_iff.mp h
    obtain ⟨old, hold, hmap⟩ := Option.bind_eq_some_iff.mp hgo
    obtain ⟨new, hnew, rfl⟩ := Option.map_eq_some_iff.mp hmap
    exact .inr (.inr ⟨i, _, old, new, hold, hnew, rfl, rfl, rfl, rfl, fun _ => hwg⟩)
  | wait =>
    obtain ⟨-, h⟩ := Option.ite_none_right_eq_some.mp h
    unfold wait at h
    split at h
    · exact .inr (.inl (hstays h ⟨rfl, rfl, rfl, rfl⟩))
    · obtain ⟨s, hwait, rfl⟩ := Option.map_eq_some_iff.mp h
      obtain ⟨old, new, hm⟩ := onGroup_moves hwait rfl
      exact .inr (.inr ⟨_, _, old, new, hm.unthrown⟩)
  | count =>
    obtain ⟨-, h⟩ := Option.ite_none_right_eq_some.mp h
    exact .inr (.inl (hstays h ⟨rfl, rfl, rfl, rfl⟩))
  | free =>
    obtain ⟨-, h⟩ := Option.ite_none_right_eq_some.mp h
    unfold free at h
    split at h
    · exact .inr (.inl (hstays h ⟨rfl, rfl, rfl, rfl⟩))
    · obtain ⟨s, hfree, rfl⟩ := Option.map_eq_some_iff.mp h
      obtain ⟨old, new, hm⟩ := onGroup_moves hfree rfl
      exact .inr (.inr ⟨_, _, old, new, hm.freed⟩)
  | create ok => exact .inr (.inr (hmethod rfl h))
  | step => exact .inr (.inr (hmethod rfl h))
  | wake => exact .inr (.inr (hmethod rfl h))
  | work g t =>
    obtain ⟨old, new, hmoves⟩ := onGroup_moves h rfl
    exact .inr (.inr ⟨g, _, old, new, hmoves⟩)

theorem step_accepted {a : Act} (h : step runner self a = some self') :
    self.accepted <+: self'.accepted := by
  rcases step_cases h with ⟨b, -, -, rfl⟩ | hs | ⟨i, b, old, new, hm⟩
  · exact List.prefix_rfl
  · rw [hs.accepted]
  · rw [hm.accepted]
    exact List.prefix_append _ _

theorem group_of_wg {i : ℕ} {g : Group} (hwg : self.wg = some i) (hg : self.groups[i]? = some g) :
    self.group = some g := by
  rw [Object.group, hwg, Option.bind_some, hg]

theorem wg_of_group {g : Group} (h : self.group = some g) :
    ∃ i, self.wg = some i ∧ self.groups[i]? = some g := Option.bind_eq_some_iff.mp h

theorem construct_group (self : Object) (bootstrap : Option ZStr) :
    (construct self bootstrap).group = some State.init := by
  refine group_of_wg (i := self.groups.length) rfl ?_
  show (self.groups ++ [State.init])[self.groups.length]? = _
  rw [List.getElem?_append_right le_rfl, Nat.sub_self]
  rfl

/-! ## What holds of every object -/

/-- NULL, or a copy of a path. -/
def PathPtr (p : Ptr) : Prop := ∀ bs, p = some bs → ∃ path, bs = path ++ [0]

/-- Every group has a history, the object points at one of them, if at any, and its path is one. -/
structure Valid (runner : Runner PxCallableT) (obj : Object) : Prop where
  runs : ∀ g ∈ obj.groups, ∃ tr, WaitGroup.Run runner tr g
  wg_lt : ∀ i, obj.wg = some i → i < obj.groups.length
  bootstrap : PathPtr obj.bootstrap

theorem Valid.create : Valid runner .create where
  runs := List.forall_mem_nil _
  wg_lt := by
    intro i hi
    cases hi
  bootstrap := by
    intro bs hbs
    cases hbs

theorem Valid.group (h : Valid runner self) {i : ℕ} (hwg : self.wg = some i) :
    ∃ g, self.groups[i]? = some g ∧ self.group = some g := by
  have hget := List.getElem?_eq_getElem (h.wg_lt i hwg)
  exact ⟨_, hget, group_of_wg hwg hget⟩

/-- The current group has a history. -/
theorem Valid.run_of_group (h : Valid runner self) {g : Group} (hg : self.group = some g) :
    ∃ tr, WaitGroup.Run runner tr g := by
  obtain ⟨i, -, hget⟩ := wg_of_group hg
  exact h.runs g (List.mem_of_getElem? hget)

theorem Valid.construct (h : Valid runner self) (bootstrap : Option ZStr) :
    Valid runner (construct self bootstrap) where
  runs := by
    intro g hg
    rcases List.mem_append.mp hg with hg | hg
    · exact h.runs g hg
    · rw [List.mem_singleton.mp hg]
      exact ⟨[], rfl⟩
  wg_lt := by
    intro i hi
    cases hi
    show _ < (self.groups ++ [State.init]).length
    rw [List.length_append]
    exact Nat.lt_succ_self _
  bootstrap := by
    cases bootstrap with
    | none => exact h.bootstrap
    | some path =>
      show PathPtr (if path = [] then self.bootstrap else cstr path)
      split
      · exact h.bootstrap
      · intro bs hbs
        cases hbs
        exact ⟨path, rfl⟩

theorem Valid.stays (h : Valid runner self) (hs : Stays self self') : Valid runner self' where
  runs := by
    rw [hs.groups]
    exact h.runs
  wg_lt := by
    rw [hs.wg, hs.groups]
    exact h.wg_lt
  bootstrap := by
    rw [hs.bootstrap]
    exact h.bootstrap

theorem Valid.moves {i : ℕ} {a : WaitGroup.Act Unit PxCallableT} {old new : Group}
    (h : Valid runner self) (hm : Moves runner self self' i a old new) : Valid runner self' where
  runs := by
    intro g hg
    obtain ⟨tr, htr⟩ := h.runs old (List.mem_of_getElem? hm.get)
    rw [hm.groups] at hg
    rcases List.mem_or_eq_of_mem_set hg with hg | rfl
    · exact h.runs g hg
    · exact ⟨_, run_snoc htr hm.step⟩
  wg_lt := by
    rw [hm.wg, hm.groups, List.length_set]
    exact h.wg_lt
  bootstrap := by
    rw [hm.bootstrap]
    exact h.bootstrap

theorem Valid.step {a : Act} (h : Valid runner self) (hs : Binding.step runner self a = some self') :
    Valid runner self' := by
  rcases step_cases hs with ⟨b, -, -, rfl⟩ | hs | ⟨i, b, old, new, hm⟩
  · exact h.construct b
  · exact h.stays hs
  · exact h.moves hm

theorem Run.valid {tr : List Act} (h : Run runner tr self) : Valid runner self :=
  run_invariant (P := fun _ s => Valid runner s) Valid.create (fun _ _ _ _ hs hstep => hs.step hstep)
    h

end Parallax.Binding
