import Parallax.Worker.Report

/-! The name of a callable on its way from `go()` to `call_user_function`: split in one thread into
C strings, and read as such in the other. -/
namespace Parallax.Worker
open Memory Unwind Bridge
set_option autoImplicit false
set_option maxHeartbeats 250000

/-! ## The recipe in the worker -/

/-- The recipe as the worker reads it, string by string up to the NUL. -/
def readKind (cb : PxCallableT) : Except Fault CallKind :=
  match cb.kind with
  | .function => do
    let fnName ← cText cb.fnName
    return .function fnName
  | .staticMeth => do
    let className ← cText cb.className
    let fnName ← cText cb.fnName
    return .staticMeth className fnName
  | .closure => do
    let wrapper ← cText cb.closureWrapper
    return .closure wrapper cb.closureCaptures

/-- Some worker that got the string from `go()` calls `c`. -/
def Hands (w : World) (s : ZStr) (c : CallableZval) : Prop :=
  ∃ cb kind, pxResolveCallable w (.string s) = .ok cb ∧ readKind cb = .ok kind ∧
    ∃ e args bootstrap argv u,
      upToCall e args ⟨kind, bootstrap⟩ (Thread.start ⟨args, some ⟨kind, bootstrap⟩⟩) =
        .ok (.returned (c, argv), u)

/-! ## What is called -/

/-- The callable that a name becomes. -/
def namedCallable (s : ZStr) : CallableZval :=
  match splitName s with
  | some (className, fnName) => .method (printed className) (printed fnName)
  | none => .name (printed s)

/-- The kind of recipe that a name becomes. -/
def namedKind (s : ZStr) : CallKind :=
  match splitName s with
  | some (className, fnName) => .staticMeth (printed className) (printed fnName)
  | none => .function (printed s)

theorem readKind_string {w : World} {s : ZStr} {cb : PxCallableT}
    (h : pxResolveCallable w (.string s) = .ok cb) : readKind cb = .ok (namedKind s) := by
  have hresolve : pxResolveCallable w (.string s) = resolveString s := rfl
  rw [hresolve, resolveString_eq] at h
  cases h
  unfold namedKind
  cases splitName s with
  | none =>
    show (cText (cstr s) >>= fun fnName => .ok (CallKind.function fnName)) = _
    rw [cText_cstr]
    rfl
  | some parts =>
    obtain ⟨className, fnName⟩ := parts
    show (cText (cstr className) >>= fun className =>
      cText (cstr fnName) >>= fun fnName => .ok (CallKind.staticMeth className fnName)) = _
    rw [cText_cstr, ok_bind, cText_cstr]
    rfl

theorem prepare_named {e : Engine} {args : Option Value} {s : ZStr} {t u : Thread}
    {p : CallableZval × ℕ × List Php}
    (h : prepare e args (namedKind s) t = .ok (.returned p, u)) : p.1 = namedCallable s := by
  obtain ⟨argv, v, -, h⟩ := of_bind_returned h
  obtain ⟨c, x, hc, h⟩ := of_bind_returned h
  obtain ⟨_, y, -, hend⟩ := of_bind_returned h
  cases hend
  unfold namedKind at hc
  unfold namedCallable
  cases hsplit : splitName s with
  | none =>
    rw [hsplit] at hc
    obtain ⟨_, z, -, hend⟩ := of_bind_returned hc
    cases hend
    rfl
  | some parts =>
    rw [hsplit] at hc
    obtain ⟨_, z, -, hend⟩ := of_bind_returned hc
    cases hend
    rfl

theorem hands_iff (w : World) (s : ZStr) (c : CallableZval) :
    Hands w s c ↔ c = namedCallable s := by
  constructor
  · rintro ⟨cb, kind, hcb, hkind, e, args, boot, argv, u, hrun⟩
    rw [readKind_string hcb] at hkind
    cases hkind
    obtain ⟨_, t, -, hrun⟩ := of_bind_returned hrun
    obtain ⟨_, t', -, hrun⟩ := of_bind_returned hrun
    exact prepare_named hrun
  · rintro rfl
    have hresolve : pxResolveCallable w (.string s) = _ := resolveString_eq s
    refine ⟨_, _, hresolve, readKind_string hresolve,
      returningEngine ⟨plainHeap, .long 7⟩ false, noArgs, none, (0, []), ?_⟩
    unfold namedKind namedCallable
    cases splitName s with
    | none => exact ⟨_, rfl⟩
    | some parts => exact ⟨_, rfl⟩

/-! ## The name that was given -/

/-- The callable is named by these bytes: by all of them, when there is no separator in them, and
else by a class and a method that a separator joins to them. -/
def Names (s : ZStr) : CallableZval → Prop
  | .name fnName => ¬ HasSeparator s ∧ fnName = s
  | .method className fnName => HasSeparator s ∧ className ++ colon :: colon :: fnName = s
  | .closure _ => False

/-- The bytes by which it is called. -/
def rejoined : CallableZval → ZStr
  | .name fnName => fnName
  | .method className fnName => className ++ colon :: colon :: fnName
  | .closure _ => []

theorem printed_length_le (s : ZStr) : (printed s).length ≤ s.length :=
  (List.takeWhile_sublist _).length_le

theorem printed_eq_of_length {s : ZStr} (h : s.length ≤ (printed s).length) : printed s = s :=
  (List.takeWhile_sublist _).eq_of_length_le h

theorem rejoined_eq_iff (s : ZStr) : rejoined (namedCallable s) = s ↔ (0 : UInt8) ∉ s := by
  unfold namedCallable
  by_cases hsep : SeparatorFirst s
  · obtain ⟨className, fnName, rfl, hcls⟩ := hsep
    rw [splitName_separator hcls]
    show printed className ++ colon :: colon :: printed fnName = _ ↔ _
    constructor
    · intro heq hmem
      have hlen := congrArg List.length heq
      simp only [List.length_append, List.length_cons] at hlen
      have hc := printed_length_le className
      have hf := printed_length_le fnName
      rcases List.mem_append.mp hmem with hmem | hmem
      · exact (printed_eq_iff className).mp (printed_eq_of_length (by omega)) hmem
      · rcases List.mem_cons.mp hmem with hnul | hmem
        · cases hnul
        · rcases List.mem_cons.mp hmem with hnul | hmem
          · cases hnul
          · exact (printed_eq_iff fnName).mp (printed_eq_of_length (by omega)) hmem
    · intro hnot
      have hc : (0 : UInt8) ∉ className := fun hmem => hnot (List.mem_append_left _ hmem)
      have hf : (0 : UInt8) ∉ fnName := fun hmem => hnot (List.mem_append_right _
        (List.mem_cons_of_mem _ (List.mem_cons_of_mem _ hmem)))
      rw [(printed_eq_iff className).mpr hc, (printed_eq_iff fnName).mpr hf]
  · rw [splitName_none hsep]
    exact printed_eq_iff s

theorem names_iff (s : ZStr) : Names s (namedCallable s) ↔
    (0 : UInt8) ∉ s ∧ (HasSeparator s → SeparatorFirst s) := by
  rw [← rejoined_eq_iff]
  unfold namedCallable
  by_cases hsep : SeparatorFirst s
  · obtain ⟨className, fnName, rfl, hcls⟩ := id hsep
    rw [splitName_separator hcls]
    exact (and_iff_right hsep.hasSeparator).trans (and_iff_left fun _ => hsep).symm
  · rw [splitName_none hsep]
    constructor
    · rintro ⟨hno, heq⟩
      exact ⟨heq, fun hhas => absurd hhas hno⟩
    · rintro ⟨heq, himp⟩
      exact ⟨fun hhas => hsep (himp hhas), heq⟩

/-- The worker calls the function or the method that was named exactly when the name has no NUL in
it and its first colon, if it has a separator at all, begins one; and no byte of the name is dropped
exactly when none of them is a NUL. -/
theorem hands_named_iff (w : World) (s : ZStr) :
    ((∀ c, Hands w s c → Names s c) ↔ (0 : UInt8) ∉ s ∧ (HasSeparator s → SeparatorFirst s)) ∧
      ((∀ c, Hands w s c → rejoined c = s) ↔ (0 : UInt8) ∉ s) := by
  have hall {P : CallableZval → Prop} : (∀ c, Hands w s c → P c) ↔ P (namedCallable s) :=
    ⟨fun h => h _ ((hands_iff w s _).mpr rfl), fun h c hc => (hands_iff w s c).mp hc ▸ h⟩
  rw [hall, hall]
  exact ⟨names_iff s, rejoined_eq_iff s⟩

/-- A world without closures and without files. -/
def bareWorld : World := ⟨plainHeap, fun _ => ⟨none, none, .undef⟩, fun _ => none⟩

/-- For the name `"f\\0g"` the function `f` is called, and `"a:b::c"` is taken for a function. -/
theorem not_hands_named :
    (¬ ∀ w s c, Hands w s c → Names s c) ∧
      Hands bareWorld [0x66, 0, 0x67] (.name (ascii ['f'])) ∧
      Hands bareWorld (ascii "a:b::c".toList) (.name (ascii "a:b::c".toList)) := by
  have hf : Hands bareWorld [0x66, 0, 0x67] (.name (ascii ['f'])) := (hands_iff _ _ _).mpr rfl
  refine ⟨fun h => ?_, hf, (hands_iff _ _ _).mpr rfl⟩
  obtain ⟨-, heq⟩ := h _ _ _ hf
  cases heq

end Parallax.Worker
