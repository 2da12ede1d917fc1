import Parallax.Stored.History
import Parallax.Stored.Materialise
import Parallax.Worker.Answers

/-! `px_worker_main` on the heap, in an engine where nothing is thrown and nothing bails out: it is
a runner that keeps to the blocks of its task, and what it leaves in them is the outcome it has
without the heap. -/
namespace Parallax.Stored.Group
open Memory Bridge Separation Separation.Assertion WaitGroup Worker
set_option autoImplicit false
set_option maxHeartbeats 250000

/-! ## bridge_worker.c -/

def readPayload (p : Option ℕ) : Code Callable := do
  match ← read p with
  | .payload c => return c
  | _ => attempt (.error .wrongType)

section Code
variable (x : Answers)

/-- The choice by the kind of the callable: the engine reads the names and the wrapper as C
strings. -/
def buildCallable (cb : Callable) : Code (Except Failure CallableZval) :=
  match cb.kind with
  | .function => do
    let fnName ← Stored.cText cb.fnName
    return .ok (.name fnName)
  | .staticMeth => do
    let className ← Stored.cText cb.className
    let fnName ← Stored.cText cb.fnName
    return .ok (.method className fnName)
  | .closure => do
    let _ ← Stored.cText cb.closureWrapper
    if x.compiled = false then return .error .compile
    else if x.factory.isClosure = false then return .error .wrapper
    else do
      let cap ← Stored.pxValueToZval x.classes cb.closureCaptures
      return asCallable (x.instantiated cap)

def invoke (args : Option ℕ) (cb : Callable) : Code (Except Failure (Bool × Returned)) := do
  let args ← Stored.pxValueToZval x.classes args
  match asArgv args with
  | .error e => return .error e
  | .ok argv => do
    match ← buildCallable x cb with
    | .error e => return .error e
    | .ok callable => return .ok (x.called callable argv.2)

/-- `zend_stream_init_filename`. -/
def openBootstrap (path : Option ℕ) : Code Unit :=
  match path with
  | none => return
  | some _ => do
    let _ ← Stored.cText path
    return

variable [Allocator Block]

def failWith (task : ℕ) (e : Failure) : Code Unit := do
  updateTask task fun t => { t with ok := false }
  let err ← Stored.valueErr (.object (cstr (ascii e.cls.toList)))
    (.object (cstr (ascii e.msg.toList))) 0 (.object (cstr []))
  updateTask task fun t => { t with error := some err }

def storeResult (task : ℕ) (retval : Returned) : Code Unit := do
  updateTask task fun t => { t with ok := true }
  match ← Stored.pxZvalToValue retval.heap retval.zv with
  | .ok v => updateTask task fun t => { t with result := some v }
  | .error _ => updateTask task fun t => { t with result := none }

def recordOutcome (task : ℕ) : Except Failure (Bool × Returned) → Code Unit
  | .error e => failWith task e
  | .ok (rc, retval) => if rc then storeResult task retval else failWith task .call

def pxWorkerMain (task : ℕ) : Code Unit := do
  let t ← readTask (some task)
  if x.started then do
    let cb ← readPayload t.userData
    openBootstrap cb.bootstrap
    let ret ← invoke x t.args cb
    recordOutcome task ret
    releasePayload t.userData
    updateTask task fun t => { t with userData := none }
  else failWith task .startup

end Code

/-! ## Reading the payload -/

section Reading
variable {x : Answers}

theorem cText_reads {p : Ptr} {text : List UInt8} (h : Bridge.cText p = .ok text) (q : Option ℕ) :
    Reads (chars p q) (Stored.cText q) text := by
  cases p with
  | none => cases h
  | some bs =>
    cases q with
    | none => exact Reads.bot
    | some a =>
      refine (readChars_reads a (bs.map some)).andThen (Reads.attempt ?_)
      rw [initialised_map]
      exact h

/-- Of the recipe the strings and the tree for its kind are read. -/
theorem buildCallable_reads {cb : PxCallableT} {c : Callable} {kind : CallKind}
    {r : Except Failure CallableZval} (hkind : readKind cb = .ok kind)
    (hdash : NoDashPtr cb.closureCaptures) (h : Worker.resolved x kind = .ok r) :
    Reads (recipe cb c) (buildCallable x c) r := by
  refine Reads.iSup fun hsame => ?_
  unfold buildCallable
  rw [hsame]
  unfold readKind at hkind
  cases hcb : cb.kind with
  | function =>
    rw [hcb] at hkind
    obtain ⟨fnName, hfn, hkind⟩ := bind_ok hkind
    cases hkind
    cases h
    exact Reads.perm _ (mul_left_comm _ _ _) ((cText_reads hfn c.fnName).part (Reads.ret _ _))
  | staticMeth =>
    rw [hcb] at hkind
    obtain ⟨className, hcls, hkind⟩ := bind_ok hkind
    obtain ⟨fnName, hfn, hkind⟩ := bind_ok hkind
    cases hkind
    cases h
    refine (cText_reads hcls c.className).part (Reads.perm _ (mul_left_comm _ _ _) ?_)
    exact (cText_reads hfn c.fnName).part (Reads.ret _ _)
  | closure =>
    rw [hcb] at hkind
    obtain ⟨wrapper, hwrapper, hkind⟩ := bind_ok hkind
    cases hkind
    refine Reads.perm (chars cb.closureWrapper c.closureWrapper *
      (child cb.closureCaptures c.closureCaptures * (chars cb.className c.className *
        (chars cb.fnName c.fnName * chars cb.bootstrap c.bootstrap)))) (by ac_rfl) ?_
    refine (cText_reads hwrapper c.closureWrapper).part ?_
    unfold Worker.resolved at h
    split_ifs at h with hcompiled hclosure
    · cases h
      rw [if_pos hcompiled]
      exact Reads.ret _ _
    · cases h
      rw [if_neg hcompiled, if_pos hclosure]
      exact Reads.ret _ _
    · obtain ⟨cap, hcap, rfl⟩ := map_ok h
      rw [if_neg hcompiled, if_neg hclosure]
      refine Reads.perm _ (mul_left_comm _ _ _) ?_
      exact (pxValueToZval_spec hdash hcap c.closureCaptures).part (Reads.ret _ _)

theorem invoke_reads {args : Option Value} {q : Option ℕ} {cb : PxCallableT} {c : Callable}
    {kind : CallKind} {r : Except Failure (Bool × Returned)} (hkind : readKind cb = .ok kind)
    (hargs : NoDashPtr args) (hdash : NoDashPtr cb.closureCaptures)
    (h : Worker.invoked x args kind = .ok r) :
    Reads (child args q * recipe cb c) (invoke x q c) r := by
  obtain ⟨s, hs, h⟩ := bind_ok h
  obtain ⟨php, hphp, rfl⟩ := map_ok hs
  refine (pxValueToZval_spec hargs hphp q).part ?_
  cases hargv : asArgv php with
  | error e =>
    rw [hargv] at h
    cases h
    exact Reads.ret _ _
  | ok argv =>
    rw [hargv] at h
    obtain ⟨callable, hcallable, h⟩ := bind_ok h
    refine Reads.perm _ (mul_comm _ _) ((buildCallable_reads hkind hdash hcallable).part ?_)
    cases callable with
    | error e =>
      cases h
      exact Reads.ret _ _
    | ok callable =>
      cases h
      exact Reads.ret _ _

theorem readPayload_reads (p : ℕ) (c : Callable) :
    Reads (pointsTo p (.payload c)) (readPayload (some p)) c :=
  (Reads.read p _).andThen (Reads.ret _ c)

theorem openBootstrap_reads {cb : PxCallableT} {path : Option ZStr}
    (h : readBootstrap cb.bootstrap = .ok path) (c : Callable) :
    Reads (recipe cb c) (openBootstrap c.bootstrap) () := by
  have hpath : Reads (chars cb.bootstrap c.bootstrap) (openBootstrap c.bootstrap) () := by
    cases c.bootstrap with
    | none => exact Reads.ret _ _
    | some a =>
      cases hcb : cb.bootstrap with
      | none => exact Reads.bot
      | some bs =>
        rw [hcb] at h
        obtain ⟨text, htext, -⟩ := map_ok h
        exact (cText_reads htext (some a)).andThen (Reads.ret _ _)
  refine Reads.iSup fun _ => Reads.perm (chars cb.bootstrap c.bootstrap *
    (chars cb.className c.className * (chars cb.fnName c.fnName *
      (chars cb.closureWrapper c.closureWrapper * child cb.closureCaptures c.closureCaptures))))
    (by ac_rfl) (hpath.frame _)

end Reading

/-! ## Writing the task -/

section Writing
variable [Allocator Block] {a : ℕ} {t : TaskT}

omit [Allocator Block] in
theorem updateTask_bind {β : Type} {g : TaskT → TaskT} {f : Unit → Code β} {F : Assertion Block}
    {Q : β → Assertion Block} (h : Triple (pointsTo a (.task (g t)) * F) (f ()) Q) :
    Triple (pointsTo a (.task t) * F) (updateTask a g >>= f) Q := by
  rw [updateTask, bind_assoc]
  exact readTask_bind (Triple.write_bind h)

omit [Allocator Block] in
theorem updateTask_raw {g : TaskT → TaskT} {F : Assertion Block} :
    Triple (pointsTo a (.task t) * F) (updateTask a g) fun _ => pointsTo a (.task (g t)) * F := by
  rw [updateTask]
  exact readTask_bind (Triple.write.frame F)

/-- The task after the runner has written to it. -/
def written (o : Output) (t : TaskT) (a : ℕ) : Assertion Block :=
  ⨆ (r : Option ℕ) (e : Option ℕ),
    pointsTo a (.task { t with ok := o.ok, result := r, error := e }) *
      (child o.result r * child o.error e)

/-- Neither of the two is set. -/
abbrev blank (t : TaskT) (a : ℕ) : Assertion Block :=
  pointsTo a (.task t) * (child none t.result * child none t.error)

theorem failWith_spec (e : Failure) (callable : PxCallable) :
    Triple (blank t a) (failWith a e) fun _ => written (e.record (unset callable)) t a := by
  refine updateTask_bind ?_
  have herr := valueErr_spec (Source.shows_object (cstr (ascii e.cls.toList)))
    (Source.shows_object (cstr (ascii e.msg.toList))) (Source.shows_object (cstr [])) e.valueErr_eq
  simp only [mul_one] at herr
  refine Triple.seq herr (one_mul _).symm fun err => ?_
  rw [mul_left_comm]
  refine updateTask_raw.post fun _ => le_iSup₂_of_le t.result (some err) (mul_le_mul' le_rfl ?_)
  calc tree e.value err * (child none t.result * child none t.error)
      = child none t.result * tree e.value err * child none t.error := by ac_rfl
    _ ≤ child none t.result * tree e.value err * 1 := mul_le_mul' le_rfl (child_none_le _)
    _ = _ := mul_one _

theorem storeResult_spec {retval : Returned} {callable : PxCallable} {o : Output}
    (h : settled (unset callable) (.ok (true, retval)) = .ok o) :
    Triple (blank t a) (storeResult a retval) fun _ => written o t a := by
  refine updateTask_bind ?_
  refine Triple.seq (pxZvalToValue_spec retval.heap retval.zv) (one_mul _).symm fun r => ?_
  rw [settled, if_pos rfl] at h
  cases hcap : Bridge.pxZvalToValue retval.heap retval.zv with
  | ok v =>
    rw [hcap] at h
    cases h
    cases r with
    | error e => exact Triple.bot_mul
    | ok q =>
      rw [mul_left_comm]
      refine updateTask_raw.post fun _ => le_iSup₂_of_le (some q) t.error (mul_le_mul' le_rfl ?_)
      calc tree v q * (child none t.result * child none t.error)
          = tree v q * child none t.error * child none t.result := by ac_rfl
        _ ≤ tree v q * child none t.error * 1 := mul_le_mul' le_rfl (child_none_le _)
        _ = _ := mul_one _
  | error stop =>
    rw [hcap] at h
    cases stop with
    | fault f => cases h
    | thrown e =>
      cases h
      cases r with
      | ok q => exact Triple.bot_mul
      | error e' =>
        refine Triple.iSup_mul fun _ => ?_
        rw [one_mul]
        refine updateTask_raw.post fun _ => le_iSup₂_of_le none t.error (mul_le_mul' le_rfl ?_)
        exact mul_le_mul' (child_none_le _) le_rfl

theorem recordOutcome_spec {r : Except Failure (Bool × Returned)} {callable : PxCallable}
    {o : Output} (h : settled (unset callable) r = .ok o) :
    Triple (blank t a) (recordOutcome a r) fun _ => written o t a := by
  cases r with
  | error e =>
    cases h
    exact failWith_spec e callable
  | ok ret =>
    obtain ⟨rc, retval⟩ := ret
    cases rc with
    | true => exact storeResult_spec h
    | false =>
      cases h
      exact failWith_spec .call callable

omit [Allocator Block] in
theorem dropUserData_spec {o : Output} {F : Assertion Block} :
    Triple (written o t a * F) (updateTask a fun t => { t with userData := none }) fun _ =>
      written o { t with userData := none } a * F := by
  refine Triple.iSup_mul fun r => Triple.iSup_mul fun e => Triple.perm _ (mul_assoc _ _ _) ?_
  refine updateTask_raw.post fun _ => ?_
  rw [← mul_assoc]
  exact mul_le_mul' (le_iSup₂_of_le r e le_rfl) le_rfl

omit [Allocator Block] in
/-- The end of a run that has got through its startup. -/
theorem releaseAll_spec {o : Output} {cb : PxCallableT} {c : Callable} {p : ℕ}
    {F : Assertion Block} :
    Triple (written o t a * (F * (pointsTo p (.payload c) * recipe cb c))) (do
      releasePayload (some p)
      updateTask a fun t => { t with userData := none }) fun _ =>
      written o { t with userData := none } a * F := by
  have hrelease : Triple (pointsTo p (.payload c) * recipe cb c) (releasePayload (some p))
      fun _ => 1 :=
    (releasePayload_spec cb p).pre (le_iSup (fun c => pointsTo p (.payload c) * recipe cb c) c)
  refine Triple.seq (F := written o t a * F) hrelease (by ac_rfl) fun _ => ?_
  rw [one_mul]
  exact dropUserData_spec

end Writing

/-! ## The runner -/

section Runner
variable [Allocator Block] {x : Answers}

/-- What the runner leaves in the task; the payload is there if it has not been released. -/
def asOutcome (cb : PxCallableT) (o : Output) : WaitGroup.Outcome PxCallableT :=
  ⟨o.ok, o.result, o.error, o.userData.map fun _ => cb⟩

omit [Allocator Block] in
theorem written_le {inp : Inputs PxCallableT} {joinable : Bool} {slot thread a : ℕ} {t : TaskT}
    (ht : Agrees (spawnedTask inp joinable slot) thread t) (cb : PxCallableT) (o : Output)
    (u : Option ℕ) :
    written o { t with userData := u } a *
        (child inp.args t.args * held payloadAt (o.userData.map fun _ => cb) u) ≤
      taskAt payloadAt ((spawnedTask inp joinable slot).record (asOutcome cb o)) thread a := by
  rw [written, Assertion.iSup_mul]
  refine iSup_le fun r => ?_
  rw [Assertion.iSup_mul]
  refine iSup_le fun e => ?_
  refine le_iSup₂_of_le { t with ok := o.ok, result := r, error := e, userData := u }
    ⟨ht.1, ht.2.1, rfl, ht.2.2.2⟩ (le_of_eq ?_)
  rw [mul_assoc]
  refine congrArg _ ?_
  show _ = child inp.args t.args * (child o.result r * (child o.error e *
    held payloadAt (o.userData.map fun _ => cb) u))
  ac_rfl

/-- The runner keeps to the blocks of its task, and leaves what it comes to without the heap. -/
theorem pxWorkerMain_spec {inp : Inputs PxCallableT} {cb : PxCallableT} {callable : PxCallable}
    {o : Output} (huser : inp.userData = some cb) (hread : readCallable cb = .ok callable)
    (hargs : NoDashPtr inp.args) (hcaptures : NoDashPtr cb.closureCaptures)
    (h : Worker.answered x inp.args callable = .ok o) (joinable : Bool) (slot thread a : ℕ) :
    Triple (taskAt payloadAt (spawnedTask inp joinable slot) thread a) (pxWorkerMain x a) fun _ =>
      taskAt payloadAt ((spawnedTask inp joinable slot).record (asOutcome cb o)) thread a := by
  obtain ⟨kind, hkind, hread⟩ := bind_ok hread
  obtain ⟨path, hpath, hread⟩ := bind_ok hread
  cases hread
  refine Triple.perm (taskAt payloadAt (spawnedTask inp joinable slot) thread a * 1)
    (mul_one _).symm (taskAt_elim fun t ht => readTask_bind ?_)
  have hcontents : contents payloadAt (spawnedTask inp joinable slot) t =
      child inp.args t.args * (child none t.result * (child none t.error *
        held payloadAt inp.userData t.userData)) := rfl
  have hparts : pointsTo a (.task t) * (contents payloadAt (spawnedTask inp joinable slot) t * 1) =
      blank t a * (child inp.args t.args * held payloadAt (some cb) t.userData) := by
    rw [hcontents, huser, mul_one, blank]
    ac_rfl
  rw [hparts]
  unfold Worker.answered at h
  cases hstarted : x.started with
  | false =>
    rw [hstarted] at h
    cases h
    refine ((failWith_spec .startup ⟨kind, path⟩).frame _).post fun _ => ?_
    exact written_le ht cb (Failure.startup.record (unset ⟨kind, path⟩)) t.userData
  | true =>
    rw [hstarted, if_pos rfl] at h
    obtain ⟨o', ho', rfl⟩ := map_ok h
    obtain ⟨ret, hret, hsettled⟩ := bind_ok ho'
    rw [if_pos rfl]
    cases huserData : t.userData with
    | none =>
      refine Triple.perm ((⊥ : Assertion Block) * (blank t a * child inp.args t.args)) ?_
        Triple.bot_mul
      show blank t a * (child inp.args t.args * (⊥ : Assertion Block)) = _
      ac_rfl
    | some p =>
      refine Triple.perm (payloadAt cb p * (blank t a * child inp.args t.args)) ?_
        (Triple.iSup_mul fun c => ?_)
      · show blank t a * (child inp.args t.args * payloadAt cb p) = _
        ac_rfl
      rw [mul_assoc]
      refine (readPayload_reads p c).bind (Triple.perm (recipe cb c * (pointsTo p (.payload c) *
        (blank t a * child inp.args t.args))) (mul_left_comm _ _ _) ?_)
      refine (openBootstrap_reads hpath c).bind (Triple.perm (child inp.args t.args * recipe cb c *
        (pointsTo p (.payload c) * blank t a)) (by ac_rfl) ?_)
      refine (invoke_reads hkind hargs hcaptures hret).bind ?_
      refine Triple.seq (F := child inp.args t.args * (pointsTo p (.payload c) * recipe cb c))
        (recordOutcome_spec hsettled) (by ac_rfl) fun _ => ?_
      refine releaseAll_spec.post fun _ => ?_
      calc written o' { t with userData := none } a * child inp.args t.args
          = written o' { t with userData := none } a * (child inp.args t.args * 1) := by
            rw [mul_one]
        _ ≤ _ := written_le ht cb { o' with userData := none } none

/-- What the runner comes to without the heap, if it returns. -/
def mainOutcome (x : Answers) (inp : Inputs PxCallableT) :
    Option (WaitGroup.Outcome PxCallableT) := do
  let cb ← inp.userData
  let callable ← (readCallable cb).toOption
  match Worker.pxWorkerMain x.engine inp.args callable with
  | .returned o => some (asOutcome cb o)
  | _ => none

omit [Allocator Block] in
theorem mainOutcome_read {inp : Inputs PxCallableT} {cb : PxCallableT} {callable : PxCallable}
    (huser : inp.userData = some cb) (hread : readCallable cb = .ok callable) :
    mainOutcome x inp =
      (Worker.answered x inp.args callable).toOption.map (asOutcome cb) := by
  have hrun : mainOutcome x inp = match Worker.pxWorkerMain x.engine inp.args callable with
      | .returned o => some (asOutcome cb o)
      | _ => none := by
    unfold mainOutcome
    rw [huser]
    show (readCallable cb).toOption.bind _ = _
    rw [hread]
    rfl
  rw [hrun, pxWorkerMain_answers]
  cases Worker.answered x inp.args callable <;> rfl

omit [Allocator Block] in
theorem mainOutcome_eq {inp : Inputs PxCallableT} {out : WaitGroup.Outcome PxCallableT}
    (h : mainOutcome x inp = some out) : ∃ cb callable o, inp.userData = some cb ∧
      readCallable cb = .ok callable ∧ Worker.answered x inp.args callable = .ok o ∧
      out = asOutcome cb o := by
  obtain ⟨cb, huser, hrun⟩ := Option.bind_eq_some_iff.mp h
  cases hread : readCallable cb with
  | error f =>
    rw [hread] at hrun
    cases hrun
  | ok callable =>
    rw [mainOutcome_read huser hread] at h
    cases ho : Worker.answered x inp.args callable with
    | error f =>
      rw [ho] at h
      cases h
    | ok o =>
      rw [ho] at h
      exact ⟨cb, callable, o, huser, hread, ho, (Option.some.inj h).symm⟩

/-- No value that the runner rebuilds for the call has an array key `-`. -/
def DashlessInputs (inp : Inputs PxCallableT) : Prop :=
  NoDashPtr inp.args ∧ ∀ cb ∈ inp.userData, NoDashPtr cb.closureCaptures

/-- `px_worker_main` is a runner for every input it returns on. -/
def mainRunner (x : Answers) : TaskRunner PxCallableT payloadAt where
  run := pxWorkerMain x
  outcome inp := (mainOutcome x inp).getD ⟨false, none, none, inp.userData⟩
  accepts inp := (mainOutcome x inp).isSome ∧ DashlessInputs inp
  spec inp haccepts joinable slot thread a := by
    obtain ⟨out, hout⟩ := Option.isSome_iff_exists.mp haccepts.1
    obtain ⟨cb, callable, o, huser, hread, ho, rfl⟩ := mainOutcome_eq hout
    rw [hout]
    exact pxWorkerMain_spec huser hread haccepts.2.1 (haccepts.2.2 cb huser) ho joinable slot
      thread a

end Runner

/-! ## The inputs of go() -/

theorem withBootstrap_readable {cb cb' : PxCallableT} {path : Ptr} (hcb : Recipe cb)
    (h : Binding.withBootstrap cb path = .ok cb') :
    ∃ callable, readCallable cb' = .ok callable := by
  cases path with
  | none =>
    cases h
    have hnone : { cb with bootstrap := none } = cb := by cases hcb <;> rfl
    obtain ⟨callable, hread⟩ := hcb.readable (show readBootstrap none = .ok none from rfl)
    rw [hnone] at hread
    exact ⟨callable, hread⟩
  | some path =>
    obtain ⟨copy, hcopy, rfl⟩ := map_ok h
    obtain ⟨p, hp⟩ := readBootstrap_copy hcopy
    exact hcb.readable hp

/-- `go()` hands over nothing that the runner cannot read. -/
theorem goInputs_readable {w : World} {bootstrap : Ptr} {task : Zval} {args : Option HashTable}
    {inp : Inputs PxCallableT} (h : Binding.goInputs w bootstrap task args = .ok inp) :
    ∃ cb callable, inp.userData = some cb ∧ readCallable cb = .ok callable := by
  obtain ⟨cb, hcb, h⟩ := bind_ok h
  obtain ⟨v, -, h⟩ := bind_ok h
  obtain ⟨cb', hcopy, h⟩ := bind_ok h
  cases h
  cases hpath : Binding.withBootstrap cb bootstrap with
  | error f =>
    rw [hpath] at hcopy
    cases hcopy
  | ok cb'' =>
    rw [hpath] at hcopy
    cases hcopy
    obtain ⟨callable, hread⟩ := withBootstrap_readable (pxResolveCallable_recipe hcb) hpath
    exact ⟨cb', callable, rfl, hread⟩

/-- On what `go()` hands over, the runner fails to return by a fault of a conversion only. -/
theorem mainOutcome_go (x : Answers) {w : World} {bootstrap : Ptr} {task : Zval}
    {args : Option HashTable} {inp : Inputs PxCallableT}
    (h : Binding.goInputs w bootstrap task args = .ok inp) :
    ∃ cb callable, inp.userData = some cb ∧ readCallable cb = .ok callable ∧
      mainOutcome x inp = (Worker.answered x inp.args callable).toOption.map (asOutcome cb) := by
  obtain ⟨cb, callable, huser, hread⟩ := goInputs_readable h
  exact ⟨cb, callable, huser, hread, mainOutcome_read huser hread⟩

end Parallax.Stored.Group
