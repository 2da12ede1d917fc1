import Parallax.Worker.Stages

/-! The run of the thread over its stages: where it stops, and with which error. -/
namespace Parallax.Worker
open Memory Unwind Bridge
set_option autoImplicit false
set_option maxHeartbeats 250000

/-! ## From stage to stage -/

section Course
variable {e : Engine} {args : Option Value} {callable : PxCallable} {t u : Thread} {k : Stage}
  {o : Except Fault (Bool × Thread)}

/-- What a stage that does not return tells about itself. -/
theorem stage_cut (h : Made [] t) (ho : stage e args callable k t = cutTo o) :
    ¬ Completes e args callable k ∧
      match o with
      | .error _ => ¬ Caught e args callable k
      | .ok (false, u) => Caught e args callable k ∧ Blamed e args callable k u
      | .ok (true, u) => if k.guarded then Caught e args callable k ∧ Blames e args callable k u
          else ¬ Caught e args callable k := by
  have hleaves : MeetsLeaves e args callable k (stage e args callable k) t := stage_leaves k h
  unfold MeetsLeaves Meets at hleaves
  rw [ho] at hleaves
  obtain err | ⟨⟨⟩ | ⟨⟩, u⟩ := o <;> exact hleaves

theorem thread_start_made : Made [] (Thread.start ⟨args, some callable⟩) :=
  ⟨rfl, rfl, by simp, by simp, by simp [Thread.start]⟩

theorem runStages_snoc (ks : List Stage)
    (h : runStages e args callable ks t = .ok (.returned (), u)) :
    runStages e args callable (ks ++ [k]) t = stage e args callable k u := by
  induction ks generalizing t with
  | nil =>
    cases h
    exact congrFun (bind_pure (stage e args callable k)) u
  | cons j rest ih =>
    obtain ⟨_, v, hv, hrest⟩ := of_bind_returned h
    exact (bind_returned hv).trans (ih hrest)

theorem runStages_prefix (ks rest : List Stage)
    (h : runStages e args callable (ks ++ rest) t = .ok (.returned (), u)) :
    ∃ v, runStages e args callable ks t = .ok (.returned (), v) := by
  induction ks generalizing t with
  | nil => exact ⟨t, rfl⟩
  | cons j rest ih =>
    obtain ⟨_, v, hv, hrest⟩ := of_bind_returned h
    obtain ⟨w, hw⟩ := ih hrest
    exact ⟨w, (bind_returned hv).trans hw⟩

theorem runStages_completes (ks : List Stage) (hks : ∀ k ∈ ks, Completes e args callable k)
    (h : Made [] t) :
    ∃ u, runStages e args callable ks t = .ok (.returned (), u) ∧ Made [] u := by
  induction ks generalizing t with
  | nil => exact ⟨t, rfl, h⟩
  | cons k rest ih =>
    rw [List.forall_mem_cons] at hks
    have hleaves : MeetsLeaves e args callable k (stage e args callable k) t := stage_leaves k h
    obtain ⟨_, v, hv⟩ | ⟨o, ho⟩ := returned_or_cut (stage e args callable k t)
    · obtain ⟨u, hu, hclean⟩ := ih hks.2 ((hleaves.of_returned hv).2 hks.1)
      exact ⟨u, (bind_returned hv).trans hu, hclean⟩
    · exact absurd hks.1 (stage_cut h ho).1

theorem exists_firstFailure (h : ¬ Completes e args callable k) :
    ∃ j, FirstFailure e args callable j := by
  by_contra hnone
  simp only [FirstFailure, not_exists, not_and, not_not] at hnone
  have hearlier : ∀ k j : Stage, j ∈ k.before → j.before.length < k.before.length := by
    intro k j hj
    cases k <;> cases j <;> simp [Stage.before] at hj ⊢
  have hall : ∀ n (k : Stage), k.before.length < n → Completes e args callable k := by
    intro n
    induction n with
    | zero => simp
    | succ n ih =>
      intro k hk
      apply hnone
      intro j hj
      have := hearlier k j hj
      exact ih j (by omega)
  exact h (hall _ k (Nat.lt_succ_self _))

/-! ## The runner, stage by stage -/

def afterStartup (e : Engine) (args : Option Value) (callable : PxCallable) : Work Unit := do
  let failed ← bootstrap e callable.bootstrap
  if failed then shutdown e
  else
    installHandler e
    catching (tryBody e args callable.kind) catchBody
    shutdown e

def afterBootstrap (e : Engine) (args : Option Value) (callable : PxCallable) : Work Unit := do
  catching (tryBody e args callable.kind) catchBody
  shutdown e

/-- How the runner goes on from the `zend_try` block. -/
def closing (e : Engine) : Except Fault (Bool × Thread) → Except Fault (Exit Unit × Thread)
  | .error f => .error f
  | .ok (true, u) => (do catchBody; shutdown e : Work Unit) u
  | .ok (false, u) => shutdown e u

/-- How the runner goes on from a stage that does not return. -/
def finish (e : Engine) : Stage → Except Fault (Bool × Thread) →
    Except Fault (Exit Unit × Thread)
  | .startup, .ok (false, u) => .ok (.returned (), u)
  | .bootstrap, .ok (false, u) => shutdown e u
  | k, o => if k.guarded then closing e o else cutTo o

theorem workerMainThread_started
    (h : stage e args callable .startup t = .ok (.returned (), u)) :
    workerMainThread e args callable t = afterStartup e args callable u := by
  obtain ⟨_, v, hv, hask⟩ := of_bind_returned h
  obtain ⟨started, w, hw, hend⟩ := of_bind_returned hask
  have hmain : workerMainThread e args callable t =
      (if started then afterStartup e args callable
        else failWith "RuntimeException" "php_request_startup failed" : Work Unit) w :=
    (bind_returned hv).trans (bind_returned hw)
  cases started with
  | true =>
    cases hend
    exact hmain
  | false =>
    obtain ⟨_, x, -, hjump⟩ := of_bind_returned hend
    cases hjump

theorem callEngine_cut {c : Effect} (h : callEngine c t = cutTo o) : ∃ u, o = .ok (true, u) := by
  have hcall : Meets (callEngine c) t (fun _ => False) fun ex _ => ex ≠ .jumped :=
    callEngine_meets (by simp) (by simp)
  unfold Meets at hcall
  rw [h] at hcall
  obtain err | ⟨⟨⟩ | ⟨⟩, u⟩ := o
  · exact hcall.elim
  · exact absurd rfl hcall
  · exact ⟨u, rfl⟩

theorem ask_cut {α : Type} {c : Reply α} (h : ask c t = cutTo o) : ∃ u, o = .ok (true, u) := by
  obtain ⟨_, u, hu⟩ | ⟨o', ho⟩ := returned_or_cut (callEngine c.toEffect t)
  · exact absurd ((bind_returned hu).symm.trans h).symm cutTo_ne_returned
  · obtain ⟨u, rfl⟩ := callEngine_cut ho
    exact ⟨u, (cutTo_inj ((bind_cut ho).symm.trans h)).symm⟩

theorem failWith_returned (cls msg : String) (t : Thread) :
    ∃ u, failWith cls msg t = .ok (.returned (), u) := by
  obtain ⟨err, herr⟩ := textError_ok cls msg
  refine ⟨(t.setOk false).setError (some err), ?_⟩
  unfold failWith
  rw [← textError, herr]
  rfl

theorem startup_cut (h : stage e args callable .startup t = cutTo o) :
    workerMainThread e args callable t = finish e .startup o := by
  obtain ⟨_, v, hv⟩ | ⟨o', ho⟩ := returned_or_cut (callEngine e.tsResource t)
  · have hask := (bind_returned hv).symm.trans h
    obtain ⟨started, w, hw⟩ | ⟨o', ho⟩ := returned_or_cut (ask e.requestStartup v)
    · have hend := (bind_returned hw).symm.trans hask
      cases started with
      | true => exact absurd hend.symm cutTo_ne_returned
      | false =>
        obtain ⟨x, hx⟩ :=
          failWith_returned "RuntimeException" "php_request_startup failed" w
        have hjump := (bind_returned hx).symm.trans hend
        rw [← cutTo_inj (o := .ok (false, x)) hjump]
        exact (bind_returned hv).trans ((bind_returned hw).trans hx)
    · obtain ⟨x, rfl⟩ := ask_cut ho
      rw [← cutTo_inj ((bind_cut ho).symm.trans hask)]
      exact (bind_returned hv).trans (bind_cut ho)
  · obtain ⟨x, rfl⟩ := callEngine_cut ho
    rw [← cutTo_inj ((bind_cut ho).symm.trans h)]
    exact bind_cut ho

theorem installHandler_cut (h : installHandler e t = cutTo o) : ∃ u, o = .ok (true, u) := by
  obtain ⟨_, u, hu⟩ | ⟨o', ho⟩ :=
    returned_or_cut (callEngine e.initHandlerName (t.setCaptured none))
  · exact callEngine_cut ((bind_returned hu).symm.trans h)
  · obtain ⟨u, rfl⟩ := callEngine_cut ho
    exact ⟨u, (cutTo_inj ((bind_cut ho).symm.trans h)).symm⟩

theorem bootstrap_returned (h : stage e args callable .bootstrap t = .ok (.returned (), u)) :
    afterStartup e args callable t = afterBootstrap e args callable u := by
  obtain ⟨failed, v, hv, hend⟩ := of_bind_returned h
  cases failed with
  | true => cases hend
  | false => exact (bind_returned hv).trans (bind_returned hend)

theorem bootstrap_cut (herror : t.task.error = none)
    (h : stage e args callable .bootstrap t = cutTo o) :
    afterStartup e args callable t = finish e .bootstrap o := by
  obtain ⟨failed, v, hv⟩ | ⟨o', ho⟩ := returned_or_cut (bootstrap e callable.bootstrap t)
  · have hend := (bind_returned hv).symm.trans h
    have hafter : afterStartup e args callable t = _ := bind_returned hv
    cases failed with
    | true =>
      rw [← cutTo_inj (o := .ok (false, v)) hend]
      exact hafter
    | false =>
      obtain ⟨w, rfl⟩ := installHandler_cut hend
      exact hafter.trans (bind_cut hend)
  · have hsame := cutTo_inj ((bind_cut ho).symm.trans h)
    subst hsame
    have hboot := @bootstrap_stage e args callable t _ rfl herror
    unfold Meets at hboot
    rw [ho] at hboot
    have hafter : afterStartup e args callable t = cutTo o' := bind_cut ho
    obtain err | ⟨⟨⟩ | ⟨⟩, u⟩ := o'
    · exact hafter
    · exact hboot.elim
    · exact hafter

theorem afterBootstrap_cut (h : tryBody e args callable.kind t = cutTo o) :
    afterBootstrap e args callable t = closing e o := by
  have hcatch : catching (tryBody e args callable.kind) catchBody t = handled catchBody o :=
    catching_cut h
  have hafter : afterBootstrap e args callable t =
      Unwinding.bind (catching (tryBody e args callable.kind) catchBody)
        (fun _ => shutdown e) t := rfl
  rw [hafter, Unwinding.bind, hcatch]
  obtain err | ⟨⟨⟩ | ⟨⟩, u⟩ := o <;> rfl

theorem rebuildArgs_cut (h : stage e args callable .args t = cutTo o) :
    tryBody e args callable.kind t = cutTo o := by
  have hrebuild : rebuildArgs e args t = cutTo o := of_discard_cut h
  have hinvoke : invoke e args callable.kind t = cutTo o := bind_cut hrebuild
  exact bind_cut hinvoke

/-- The block once the arguments have been rebuilt. -/
def afterArgs (e : Engine) (kind : CallKind) (argv : ℕ × List Php) : Work Unit := do
  let callable ← buildCallable e kind
  callWhen (0 < argv.1) e.allocArgv
  let ret ← ask (e.callUserFunction callable argv.2)
  dtorArgv e (List.range argv.1)
  callEngine e.dtorCallable
  callEngine e.dtorArgs
  recordOutcome e ret.1 ret.2

theorem tryBody_afterArgs (args : Option Value) (kind : CallKind) :
    tryBody e args kind = rebuildArgs e args >>= afterArgs e kind := by
  simp only [tryBody, invoke, bind_assoc, pure_bind]
  rfl

theorem ask_returned {α : Type} {c : Reply α} {a : α} (h : ask c t = .ok (.returned a, u)) :
    a = c.value := by
  obtain ⟨_, v, -, hend⟩ := of_bind_returned h
  cases hend
  rfl

theorem not_returned_of_jump {α : Type} {x y : Work Unit} {a : α} :
    (do x; y; jump : Work α) t ≠ .ok (.returned a, u) := by
  intro h
  obtain ⟨_, v, -, hy⟩ := of_bind_returned h
  obtain ⟨_, w, -, hjump⟩ := of_bind_returned hy
  cases hjump

theorem runWrapper_value {r : Returned} (h : runWrapper e t = .ok (.returned r, u)) :
    r = e.execute.value := by
  obtain ⟨factory, v, hv, hdestroy⟩ := of_bind_returned h
  obtain ⟨_, w, -, hrest⟩ := of_bind_returned hdestroy
  obtain ⟨_, x, hx, hend⟩ := of_bind_returned hrest
  cases hx
  rw [← ask_returned hv]
  revert hend
  cases w.captured with
  | some err => exact fun hend => absurd hend not_returned_of_jump
  | none =>
    cases w.pending with
    | some ex => exact fun hend => absurd hend not_returned_of_jump
    | none =>
      dsimp only
      split
      · intro hend
        cases hend
        rfl
      · exact fun hend => absurd hend not_returned_of_jump

theorem compile_cut (h : stage e args callable .compile t = cutTo o) :
    buildCallable e callable.kind t = cutTo o := by
  cases hkind : callable.kind with
  | closure w captures =>
    simp only [stage, hkind] at h
    exact bind_cut h
  | _ =>
    simp only [stage, hkind] at h
    exact absurd h.symm cutTo_ne_returned

theorem execute_cut (hcompile : stage e args callable .compile t = .ok (.returned (), u))
    (h : stage e args callable .execute u = cutTo o) :
    buildCallable e callable.kind t = cutTo o := by
  cases hkind : callable.kind with
  | closure w captures =>
    simp only [stage, hkind] at hcompile h
    exact (bind_returned hcompile).trans (bind_cut (of_discard_cut h))
  | _ =>
    simp only [stage, hkind] at h
    exact absurd h.symm cutTo_ne_returned

theorem factory_cut {v : Thread}
    (hcompile : stage e args callable .compile t = .ok (.returned (), u))
    (hexecute : stage e args callable .execute u = .ok (.returned (), v))
    (h : stage e args callable .factory v = cutTo o) :
    buildCallable e callable.kind t = cutTo o := by
  cases hkind : callable.kind with
  | closure w captures =>
    simp only [stage, hkind] at hcompile hexecute h
    obtain ⟨factory, v', hrun, hend⟩ := of_bind_returned hexecute
    cases hend
    have hinner : instantiate e captures factory v = cutTo o := by
      rw [runWrapper_value hrun]
      exact of_discard_cut h
    exact (bind_returned hcompile).trans ((bind_returned hrun).trans hinner)
  | _ =>
    simp only [stage, hkind] at h
    exact absurd h.symm cutTo_ne_returned

theorem tryBody_cut (hargs : stage e args callable .args t = .ok (.returned (), u))
    (h : buildCallable e callable.kind u = cutTo o) :
    tryBody e args callable.kind t = cutTo o := by
  obtain ⟨argv, v, hargv, hend⟩ := of_bind_returned hargs
  cases hend
  rw [tryBody_afterArgs]
  exact (bind_returned hargv).trans (bind_cut h)

theorem runStages_cons {ks : List Stage}
    (h : runStages e args callable (k :: ks) t = .ok (.returned (), u)) :
    ∃ v, stage e args callable k t = .ok (.returned (), v) ∧
      runStages e args callable ks v = .ok (.returned (), u) := by
  obtain ⟨_, v, hv, hrest⟩ := of_bind_returned h
  exact ⟨v, hv, hrest⟩

/-- After the bootstrap the thread ends as its block does, -/
theorem tryBody_reached {ks : List Stage}
    (h : runStages e args callable (.startup :: .bootstrap :: ks) t = .ok (.returned (), u)) :
    ∃ v, runStages e args callable ks v = .ok (.returned (), u) ∧
      ∀ o, tryBody e args callable.kind v = cutTo o →
        workerMainThread e args callable t = closing e o := by
  obtain ⟨v, hstartup, hv⟩ := runStages_cons h
  obtain ⟨w, hbootstrap, hw⟩ := runStages_cons hv
  refine ⟨w, hw, fun o ho => ?_⟩
  rw [workerMainThread_started hstartup, bootstrap_returned hbootstrap]
  exact afterBootstrap_cut ho

/-- and after the arguments as the callable that is made. -/
theorem buildCallable_reached {ks : List Stage}
    (h : runStages e args callable (.startup :: .bootstrap :: .args :: ks) t =
      .ok (.returned (), u)) :
    ∃ v, runStages e args callable ks v = .ok (.returned (), u) ∧
      ∀ o, buildCallable e callable.kind v = cutTo o →
        workerMainThread e args callable t = closing e o := by
  obtain ⟨v, hv, hcut⟩ := tryBody_reached h
  obtain ⟨w, hargs, hw⟩ := runStages_cons hv
  exact ⟨w, hw, fun o ho => hcut o (tryBody_cut hargs ho)⟩

/-- The stage at which the thread stops decides how it ends. -/
theorem workerMainThread_cut
    (hu : runStages e args callable k.before t = .ok (.returned (), u)) (hmade : Made [] u)
    (h : stage e args callable k u = cutTo o) :
    workerMainThread e args callable t = finish e k o := by
  cases k with
  | startup =>
    cases hu
    exact startup_cut h
  | bootstrap =>
    obtain ⟨v, hstartup, hv⟩ := runStages_cons hu
    cases hv
    exact (workerMainThread_started hstartup).trans (bootstrap_cut hmade.error h)
  | args =>
    obtain ⟨w, hw, hcut⟩ := tryBody_reached hu
    cases hw
    exact hcut o (rebuildArgs_cut h)
  | compile =>
    obtain ⟨x, hx, hcut⟩ := buildCallable_reached hu
    cases hx
    exact hcut o (compile_cut h)
  | execute =>
    obtain ⟨x, hx, hcut⟩ := buildCallable_reached hu
    obtain ⟨y, hcompile, hy⟩ := runStages_cons hx
    cases hy
    exact hcut o (execute_cut hcompile h)
  | factory =>
    obtain ⟨x, hx, hcut⟩ := buildCallable_reached hu
    obtain ⟨y, hcompile, hy⟩ := runStages_cons hx
    obtain ⟨z, hexecute, hz⟩ := runStages_cons hy
    cases hz
    exact hcut o (factory_cut hcompile hexecute h)

end Course

/-! ## The call -/

section Call
variable {e : Engine} {args : Option Value} {callable : PxCallable} {t u : Thread} {k : Stage}

theorem buildCallable_passes (args : Option Value) {c : CallableZval}
    (h : buildCallable e callable.kind t = .ok (.returned c, u)) :
    ∃ v, runStages e args callable [.compile, .execute, .factory] t = .ok (.returned (), v) := by
  cases hkind : callable.kind with
  | closure w captures =>
    rw [hkind] at h
    obtain ⟨_, v, hcompile, hrest⟩ := of_bind_returned h
    obtain ⟨factory, x, hrun, hinner⟩ := of_bind_returned hrest
    rw [runWrapper_value hrun] at hinner
    refine ⟨u, ?_⟩
    simp only [runStages, stage, hkind]
    rw [bind_returned hcompile, bind_returned (bind_returned hrun),
      bind_returned (bind_returned hinner)]
    rfl
  | _ =>
    refine ⟨t, ?_⟩
    simp only [runStages, stage, hkind]
    rfl

def Stage.all : List Stage := [.startup, .bootstrap, .args, .compile, .execute, .factory]

theorem Stage.all_eq (k : Stage) : ∃ rest, Stage.all = (k.before ++ [k]) ++ rest := by
  cases k <;> exact ⟨_, rfl⟩

theorem Invoked.passes (h : Invoked e args callable) (k : Stage) : Passes e args callable k := by
  obtain ⟨p, u, hp⟩ := h
  obtain ⟨_, v, hstartup, hp⟩ := of_bind_returned hp
  obtain ⟨_, w, hbootstrap, hp⟩ := of_bind_returned hp
  obtain ⟨argv, x, hargs, hp⟩ := of_bind_returned hp
  obtain ⟨c, y, hc, -⟩ := of_bind_returned hp
  obtain ⟨z, hz⟩ := buildCallable_passes args hc
  obtain ⟨rest, hall⟩ := Stage.all_eq k
  have hrun : runStages e args callable Stage.all (Thread.start ⟨args, some callable⟩) =
      .ok (.returned (), z) :=
    (bind_returned hstartup).trans ((bind_returned hbootstrap).trans
      ((bind_returned (bind_returned hargs)).trans hz))
  rw [hall] at hrun
  exact runStages_prefix _ _ hrun

/-- The block from the call of the callable on. -/
def callOn (e : Engine) (p : CallableZval × ℕ × List Php) : Work Unit := do
  let ret ← ask (e.callUserFunction p.1 p.2.2)
  dtorArgv e (List.range p.2.1)
  callEngine e.dtorCallable
  callEngine e.dtorArgs
  recordOutcome e ret.1 ret.2

theorem tryBody_prepare (args : Option Value) (kind : CallKind) :
    tryBody e args kind = prepare e args kind >>= callOn e := by
  simp only [tryBody, invoke, prepare, bind_assoc, pure_bind]
  rfl

/-- A thread in which the callable is invoked calls it. -/
theorem workerMainThread_invoked {p : CallableZval × ℕ × List Php}
    (h : upToCall e args callable t = .ok (.returned p, u)) :
    workerMainThread e args callable t =
      (do catching (callOn e p) catchBody; shutdown e : Work Unit) u := by
  obtain ⟨_, v, hstartup, h⟩ := of_bind_returned h
  obtain ⟨_, w, hbootstrap, h⟩ := of_bind_returned h
  have hbody : tryBody e args callable.kind w = callOn e p u := by
    rw [tryBody_prepare]
    exact bind_returned h
  rw [workerMainThread_started hstartup, bootstrap_returned hbootstrap]
  have hcatch : catching (tryBody e args callable.kind) catchBody w =
      catching (callOn e p) catchBody u := by
    unfold catching
    rw [hbody]
  change Unwinding.bind _ (fun _ => shutdown e) w = Unwinding.bind _ (fun _ => shutdown e) u
  unfold Unwinding.bind
  rw [hcatch]

def Engine.withCall (e : Engine) (g : CallableZval → List Php → Reply (Bool × Returned)) :
    Engine :=
  { e with callUserFunction := g }

variable {g : CallableZval → List Php → Reply (Bool × Returned)}

theorem afterBootstrap_withCall
    (h : tryBody (e.withCall g) args callable.kind t = tryBody e args callable.kind t) :
    afterBootstrap (e.withCall g) args callable t = afterBootstrap e args callable t := by
  change Unwinding.bind (catching _ _) _ t = Unwinding.bind (catching _ _) _ t
  unfold Unwinding.bind catching
  rw [h]
  rfl

theorem afterStartup_withCall
    (h : ∀ u, stage e args callable .bootstrap t = .ok (.returned (), u) →
      tryBody (e.withCall g) args callable.kind u = tryBody e args callable.kind u) :
    afterStartup (e.withCall g) args callable t = afterStartup e args callable t := by
  obtain ⟨failed, v, hv⟩ | ⟨o, ho⟩ := returned_or_cut (bootstrap e callable.bootstrap t)
  · have hafter : ∀ g', afterStartup (e.withCall g') args callable t = _ :=
      fun _ => bind_returned hv
    cases failed with
    | true => exact (hafter g).trans (hafter e.callUserFunction).symm
    | false =>
      obtain ⟨_, w, hw⟩ | ⟨o, ho⟩ := returned_or_cut (installHandler e v)
      · have hstage : stage e args callable .bootstrap t = .ok (.returned (), w) :=
          (bind_returned hv).trans hw
        rw [bootstrap_returned hstage, bootstrap_returned (e := e.withCall g) hstage]
        exact afterBootstrap_withCall (h w hstage)
      · have hcut : ∀ g', afterStartup (e.withCall g') args callable t = cutTo o :=
          fun g' => (hafter g').trans (bind_cut ho)
        exact (hcut g).trans (hcut e.callUserFunction).symm
  · have hcut : ∀ g', afterStartup (e.withCall g') args callable t = cutTo o :=
      fun _ => bind_cut ho
    exact (hcut g).trans (hcut e.callUserFunction).symm

/-- What the callable would do is of no account in a thread in which it is not invoked. -/
theorem pxWorkerMain_uninvoked (h : ¬ Invoked e args callable) :
    pxWorkerMain (e.withCall g) args callable = pxWorkerMain e args callable := by
  have hmain : workerMainThread (e.withCall g) args callable
      (Thread.start ⟨args, some callable⟩) =
        workerMainThread e args callable (Thread.start ⟨args, some callable⟩) := by
    obtain ⟨_, v, hv⟩ | ⟨o, ho⟩ :=
      returned_or_cut (stage e args callable .startup (Thread.start ⟨args, some callable⟩))
    · rw [workerMainThread_started hv, workerMainThread_started (e := e.withCall g) hv]
      apply afterStartup_withCall
      intro w hw
      rw [tryBody_prepare, tryBody_prepare]
      obtain ⟨p, x, hx⟩ | ⟨o, ho⟩ := returned_or_cut (prepare e args callable.kind w)
      · exact absurd ⟨p, x, (bind_returned hv).trans ((bind_returned hw).trans hx)⟩ h
      · exact (bind_cut ho).trans (bind_cut ho).symm
    · rw [startup_cut ho, startup_cut (e := e.withCall g) ho]
      rfl
  unfold pxWorkerMain
  rw [hmain]

end Call

/-! ## How the thread ends -/

section Closing
variable {e : Engine} {args : Option Value} {callable : PxCallable} {t u : Thread} {k : Stage}
  {o : Except Fault (Bool × Thread)}

theorem shutdown_closes (h : Blamed e args callable k t) :
    Meets (shutdown e) t (fun _ => False) fun ex u =>
      match ex with
      | .returned _ => Quits e ∧ Blamed e args callable k u
      | .jumped => False
      | .bailed => ¬ Quits e := by
  apply call_bind
  · intro u hu hrequest
    apply call_bind
    · intro v hv hfree
      refine meets_update ⟨⟨hrequest, hfree⟩, ?_⟩
      change v.task.ok = false ∧ ∃ err, v.task.error = some err ∧ _
      rw [hv.task, hu.task]
      exact h
    · intro v _ hb
      simp [Quits, hb]
  · intro u _ hb
    simp [Quits, hb]

theorem catchBody_blamed (h : Blames e args callable k t) :
    Meets catchBody t (fun _ => False) fun ex u => ex = .returned () ∧
      Blamed e args callable k u := by
  obtain ⟨err, herr⟩ := textError_ok "Error" "bailout during worker execution"
  unfold catchBody
  rw [← textError, herr]
  apply meets_update_bind
  apply meets_current_bind
  obtain ⟨hnone, c, hc, hb⟩ | ⟨err', herr', hcause⟩ := h
  · have hset : (t.setOk false).task.error = none := hnone
    rw [hset]
    exact ⟨rfl, rfl, err, rfl, .bailout hc hb herr⟩
  · have hset : (t.setOk false).task.error = some err' := herr'
    rw [hset]
    exact ⟨rfl, rfl, err', herr', hcause⟩

/-- A thread that comes to `r` has ended with the error of the stage, or else the stage does not
stop it. -/
def Closes (e : Engine) (args : Option Value) (callable : PxCallable) (k : Stage) :
    Except Fault (Exit Unit × Thread) → Prop
  | .ok (.returned _, u) => Stops e args callable k ∧ Blamed e args callable k u
  | .ok (.bailed, _) => ¬ Stops e args callable k
  | .ok (.jumped, _) => False
  | .error _ => ¬ Stops e args callable k

theorem shutdown_stage_closes (hk : k ≠ .startup) (hcaught : Caught e args callable k)
    (h : Blamed e args callable k t) : Closes e args callable k (shutdown e t) := by
  have hend := shutdown_closes h
  revert hend
  unfold Meets
  obtain err | ⟨a | - | -, u⟩ := shutdown e t
  · exact False.elim
  · exact fun hend => ⟨⟨hcaught, fun _ => hend.1⟩, hend.2⟩
  · exact False.elim
  · exact fun hend hs => hend (hs.2 hk)

theorem catchBody_stage_closes (hk : k ≠ .startup) (hcaught : Caught e args callable k)
    (h : Blames e args callable k t) :
    Closes e args callable k ((do catchBody; shutdown e : Work Unit) t) := by
  have hcatch := catchBody_blamed h
  unfold Meets at hcatch
  obtain ⟨_, u, hu⟩ | ⟨o, ho⟩ := returned_or_cut (catchBody t)
  · rw [hu] at hcatch
    rw [bind_returned hu]
    exact shutdown_stage_closes hk hcaught hcatch.2
  · rw [ho] at hcatch
    obtain err | ⟨⟨⟩ | ⟨⟩, u⟩ := o
    · exact hcatch.elim
    · exact nomatch hcatch.1
    · exact nomatch hcatch.1

theorem finish_closes (hmade : Made [] t) (h : stage e args callable k t = cutTo o) :
    Closes e args callable k (finish e k o) := by
  have hcut := (stage_cut hmade h).2
  obtain err | ⟨⟨⟩ | ⟨⟩, u⟩ := o
  · have hnot : ¬ Stops e args callable k := fun hs => hcut hs.1
    cases k <;> exact hnot
  · obtain ⟨hcaught, hblamed⟩ := hcut
    cases k with
    | startup => exact ⟨⟨hcaught, fun hne => absurd rfl hne⟩, hblamed⟩
    | _ => exact shutdown_stage_closes (by simp) hcaught hblamed
  · cases k with
    | startup => exact fun hs => hcut hs.1
    | bootstrap => exact fun hs => hcut hs.1
    | _ => exact catchBody_stage_closes (by simp) hcut.1 hcut.2

/-- A stage that does not return ends the run as the stage's failure exactly when it stops it. -/
theorem pxWorkerMain_cut
    (hu : runStages e args callable k.before (Thread.start ⟨args, some callable⟩) =
      .ok (.returned (), u)) (hmade : Made [] u) (h : stage e args callable k u = cutTo o) :
    Stops e args callable k ↔ ∃ out err, pxWorkerMain e args callable = .returned out ∧
      out.ok = false ∧ out.error = some err ∧ CausedBy e args callable k err := by
  have hcloses := finish_closes hmade h
  rw [← workerMainThread_cut hu hmade h] at hcloses
  revert hcloses
  unfold pxWorkerMain
  obtain err | ⟨a | - | -, w⟩ :=
    workerMainThread e args callable (Thread.start ⟨args, some callable⟩)
  · exact fun hnot => iff_of_false hnot (by simp)
  · intro hend
    obtain ⟨hstops, hok, err, herr, hcause⟩ := hend
    exact iff_of_true hstops ⟨w.task, err, rfl, hok, herr, hcause⟩
  · exact False.elim
  · exact fun hnot => iff_of_false hnot (by simp)

/-- The runner notices every first failure, and so none is passed over. -/
theorem shortCircuits_of_stops
    (h : ∀ k, FirstFailure e args callable k → Stops e args callable k) :
    ShortCircuits e args callable := by
  have hstops : ∀ k, FirstFailure e args callable k → ∃ u o,
      runStages e args callable k.before (Thread.start ⟨args, some callable⟩) =
        .ok (.returned (), u) ∧ Made [] u ∧ stage e args callable k u = cutTo o := by
    intro k hk
    obtain ⟨u, hu, hmade⟩ := runStages_completes k.before hk.1 thread_start_made
    have hleaves : MeetsLeaves e args callable k (stage e args callable k) u :=
      stage_leaves k hmade
    obtain ⟨_, v, hv⟩ | ⟨o, ho⟩ := returned_or_cut (stage e args callable k u)
    · exact absurd (h k hk).1 (hleaves.of_returned hv).1
    · exact ⟨u, o, hu, hmade, ho⟩
  have hnot : ∀ k, FirstFailure e args callable k → ¬ Passes e args callable k := by
    rintro k hk ⟨v, hv⟩
    obtain ⟨u, o, hu, -, ho⟩ := hstops k hk
    exact cutTo_ne_returned (ho.symm.trans ((runStages_snoc k.before hu).symm.trans hv))
  refine ⟨fun hinvoked k => ?_, fun k hk => ⟨hnot k hk, ?_⟩⟩
  · by_contra hk
    obtain ⟨j, hj⟩ := exists_firstFailure hk
    exact hnot j hj (hinvoked.passes j)
  · obtain ⟨u, o, hu, hmade, ho⟩ := hstops k hk
    exact (pxWorkerMain_cut hu hmade ho).mp (h k hk)

/-- The stages short-circuit exactly when the first one that fails, if any, is one that the runner
notices. -/
theorem shortCircuits_iff (e : Engine) (args : Option Value) (callable : PxCallable) :
    ShortCircuits e args callable ↔
      ∀ k, FirstFailure e args callable k → Stops e args callable k := by
  constructor
  · intro h k hk
    obtain ⟨hpasses, out⟩ := h.stops k hk
    obtain ⟨u, hu, hmade⟩ := runStages_completes k.before hk.1 thread_start_made
    obtain ⟨_, v, hv⟩ | ⟨o, ho⟩ := returned_or_cut (stage e args callable k u)
    · exact absurd ⟨v, (runStages_snoc k.before hu).trans hv⟩ hpasses
    · exact (pxWorkerMain_cut hu hmade ho).mpr out
  · exact shortCircuits_of_stops

/-- What is seen of it from outside: the slot ends with an error of the first failure, and the
callable is not called behind one. -/
structure Surfaces (e : Engine) (args : Option Value) (callable : PxCallable) : Prop where
  completes : Invoked e args callable → ∀ k, Completes e args callable k
  errs : ∀ k, FirstFailure e args callable k →
    ∃ out err, pxWorkerMain e args callable = .returned out ∧ out.ok = false ∧
      out.error = some err ∧ CausedBy e args callable k err

/-- From inside, no stage is run after the first that fails either. -/
theorem shortCircuits_iff_surfaces : ShortCircuits e args callable ↔ Surfaces e args callable ∧
    ∀ k, FirstFailure e args callable k → ¬ Passes e args callable k := by
  constructor
  · intro h
    exact ⟨⟨h.completes, fun k hk => (h.stops k hk).2⟩, fun k hk => (h.stops k hk).1⟩
  · rintro ⟨h, hpasses⟩
    exact ⟨h.completes, fun k hk => ⟨hpasses k hk, h.errs k hk⟩⟩

theorem surfaces_of_stops (h : ∀ k, FirstFailure e args callable k → Stops e args callable k) :
    Surfaces e args callable :=
  (shortCircuits_iff_surfaces.mp (shortCircuits_of_stops h)).1

/-- `"f"`, with the bootstrap file `"b"`. -/
def bootstrapF : PxCallable := ⟨.function (ascii ['f']), some (ascii ['b'])⟩

/-- The bootstrap file ends in a fatal error. -/
def bailingBootstrap : Engine :=
  { returningEngine ⟨plainHeap, .long 7⟩ false with executeScripts := ⟨none, none, true⟩ }

/-- The bailout is passed over: the callable runs, and the task is a success. -/
theorem not_shortCircuits_bootstrap :
    ¬ ShortCircuits bailingBootstrap noArgs bootstrapF ∧
      ¬ Completes bailingBootstrap noArgs bootstrapF .bootstrap ∧
      Invoked bailingBootstrap noArgs bootstrapF ∧
      ∃ out, pxWorkerMain bailingBootstrap noArgs bootstrapF = .returned out ∧
        out.ok = true ∧ out.error = none := by
  have hnot : ¬ Completes bailingBootstrap noArgs bootstrapF .bootstrap :=
    not_completes_of_bails (c := bailingBootstrap.executeScripts)
      (by simp [calls, bootstrapF]) rfl
  have hinvoked : Invoked bailingBootstrap noArgs bootstrapF := ⟨_, _, rfl⟩
  exact ⟨fun h => hnot (h.completes hinvoked .bootstrap), hnot, hinvoked, _, rfl, rfl, rfl⟩

end Closing
end Parallax.Worker
