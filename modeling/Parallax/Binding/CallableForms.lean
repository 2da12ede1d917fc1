import Parallax.Binding.Remembers

/-! The forms in which a method can be given to `go()`: the string `"C::m"`, the array `[C, m]` or
`[$object, m]`, and the first-class callable `C::m(...)` or `$object->m(...)`. -/
namespace Parallax.Binding
open Memory Bridge
open WaitGroup (Runner)
set_option autoImplicit false
set_option maxHeartbeats 250000

/-! ## Classes -/

structure Method where
  name : ZStr
  isStatic : Bool

/-- What the declaration of a class says itself. -/
structure ClassDecl where
  name : ZStr
  methods : List Method

/-- `zend_string_tolower`: the names of classes and methods are told apart by it. -/
def lower (name : ZStr) : ZStr := name.map fun c => if 0x41 ≤ c ∧ c ≤ 0x5a then c + 0x20 else c

def ClassDecl.method? (d : ClassDecl) (name : ZStr) : Option Method :=
  d.methods.find? fun m => lower m.name = lower name

/-- A class below its ancestors, from its parent on. -/
structure PhpClass where
  own : ClassDecl
  ancestors : List ClassDecl
  names_nodup : ((own :: ancestors).map fun d => lower d.name).Nodup

/-- The method that a name stands for in the class, and the class that declares it. -/
def PhpClass.lookup (c : PhpClass) (name : ZStr) : Option (ClassDecl × Method) :=
  (c.own :: c.ancestors).findSome? fun d => (d.method? name).map fun m => (d, m)

def PhpClass.declares (c : PhpClass) (name : ZStr) : Bool := (c.own.method? name).isSome

theorem PhpClass.lookup_of_declares {c : PhpClass} {name : ZStr} {d : ClassDecl} {m : Method}
    (h : c.lookup name = some (d, m)) (hown : c.declares name = true) : d = c.own := by
  obtain ⟨m', hm'⟩ := Option.isSome_iff_exists.mp hown
  rw [lookup, List.findSome?_cons, hm', Option.map_some] at h
  cases h
  rfl

/-- An inherited method is declared by a class of another name. -/
theorem PhpClass.lookup_of_inherits {c : PhpClass} {name : ZStr} {d : ClassDecl} {m : Method}
    (h : c.lookup name = some (d, m)) (hown : c.declares name = false) : d.name ≠ c.own.name := by
  rw [declares, Option.isSome_eq_false_iff, Option.isNone_iff_eq_none] at hown
  rw [lookup, List.findSome?_cons, hown, Option.map_none] at h
  obtain ⟨d', hmem, hd'⟩ := List.exists_of_findSome?_eq_some h
  obtain ⟨_, -, heq⟩ := Option.map_eq_some_iff.mp hd'
  cases heq
  intro hname
  have hnot := (List.nodup_cons.mp (List.map_cons ▸ c.names_nodup)).1
  exact hnot (List.mem_map.mpr ⟨d, hmem, congrArg lower hname⟩)

/-- The called class is the declaring one exactly when the class declares the method itself. -/
theorem PhpClass.lookup_name_iff {c : PhpClass} {name : ZStr} {d : ClassDecl} {m : Method}
    (h : c.lookup name = some (d, m)) : d.name = c.own.name ↔ c.declares name = true := by
  constructor
  · intro hname
    by_contra hown
    exact PhpClass.lookup_of_inherits h (Bool.eq_false_iff.mpr hown) hname
  · intro hown
    rw [PhpClass.lookup_of_declares h hown]

/-! ## Forms -/

/-- An array of two elements, under 0 and 1. -/
structure IsPair (ht : HashTable) (first second : Zval) : Prop where
  length : ht.length = 2
  first : zendHashIndexFind ht 0 = some first
  second : zendHashIndexFind ht 1 = some second

/-- The first-class callable of a method: the function has the class that declares it for its scope,
and the `Closure` keeps the class that was called and the object. -/
structure IsFirstClass (w : World) (o : ℕ) (method scope called : ZStr) (this : Zval) : Prop where
  isClosure : (w.heap.object o).ce.isClosure = true
  func : ∃ fn, (w.closure o).func = some fn ∧ fn.isFakeClosure = true ∧
    fn.functionName = method ∧ fn.scope = some scope
  calledScope : (w.closure o).calledScope = some called
  thisPtr : (w.closure o).thisPtr = this

/-- What stands for the class in the array. -/
def receiver (cls : ZStr) : Option ℕ → Zval
  | none => .string cls
  | some obj => .object obj

/-- `$this` of the `Closure`. -/
def thisOf : Option ℕ → Zval
  | none => .undef
  | some obj => .object obj

/-- A method that a class has or inherits, static or bound to an instance, and its forms. -/
structure MethodForms (w : World) where
  cls : PhpClass
  colon_notMem : colon ∉ cls.own.name
  declaring : ClassDecl
  method : Method
  found : cls.lookup method.name = some (declaring, method)
  bound : Option ℕ
  isStatic_eq : method.isStatic = bound.isNone
  instance_of : ∀ obj, bound = some obj → (w.heap.object obj).ce.name = cls.own.name
  array : ℕ
  pair : IsPair (w.heap.array array) (receiver cls.own.name bound) (.string method.name)
  closure : ℕ
  firstClass : IsFirstClass w closure method.name declaring.name cls.own.name (thisOf bound)

namespace MethodForms
variable {w : World} (f : MethodForms w)

def text : ZStr := f.cls.own.name ++ colon :: colon :: f.method.name

/-- The three forms of a static method become one recipe. -/
def Alike : Prop :=
  ∃ cb, pxResolveCallable w (.string f.text) = .ok cb ∧
    pxResolveCallable w (.array f.array) = .ok cb ∧
    pxResolveCallable w (.object f.closure) = .ok cb

end MethodForms

/-- `go()` throws a `CaptureError`, whatever the object and the arguments. -/
def Refused (runner : Runner PxCallableT) (w : World) (task : Zval) : Prop :=
  ∀ (obj : Object) (args : Option HashTable), obj.wg.isSome = true →
    ∃ msg, go runner obj w task args = some (obj.throw ⟨.captureError, msg⟩)

/-- A static method resolves alike in its forms, and one of an instance is refused in both. -/
def MethodForms.Transparent (runner : Runner PxCallableT) {w : World} (f : MethodForms w) : Prop :=
  (f.bound.isNone = true → f.Alike) ∧
    (f.bound.isSome = true → Refused runner w (.array f.array) ∧ Refused runner w (.object f.closure))

/-! ## What the forms become -/

theorem pxResolveCallable_text {w : World} {cls : ZStr} (hcls : colon ∉ cls) (method : ZStr) :
    pxResolveCallable w (.string (cls ++ colon :: colon :: method)) =
      .ok (.ofMethod (cstr cls) (cstr method)) := by
  refine (resolveString_eq _).trans ?_
  rw [splitName_separator hcls]

theorem resolveArray_class {ht : HashTable} {cls method : ZStr}
    (h : IsPair ht (.string cls) (.string method)) :
    resolveArray ht = .ok (.ofMethod (cstr cls) (cstr method)) := by
  rw [resolveArray, if_neg (not_not_intro h.length), h.first, h.second]
  exact resolveMethod_eq cls method

theorem resolveArray_object {ht : HashTable} {obj : ℕ} {method : ZStr}
    (h : IsPair ht (.object obj) (.string method)) :
    ∃ msg, resolveArray ht = .error (.thrown ⟨.captureError, msg⟩) := by
  rw [resolveArray, if_neg (not_not_intro h.length), h.first, h.second]
  exact ⟨_, rfl⟩

/-- Neither the class that was called nor the object gets into the recipe. -/
theorem pxResolveCallable_firstClass {w : World} {o : ℕ} {method scope called : ZStr} {this : Zval}
    (h : IsFirstClass w o method scope called this) :
    pxResolveCallable w (.object o) = .ok (.ofMethod (cstr scope) (cstr method)) := by
  obtain ⟨fn, hfunc, hfake, rfl, hscope⟩ := h.func
  have hclosure : pxResolveCallable w (.object o) = resolveClosure w (w.closure o) :=
    if_pos h.isClosure
  rw [hclosure, resolveClosure, hfunc]
  dsimp only
  rw [if_pos hfake, hscope]
  exact resolveMethod_eq scope fn.functionName

theorem ofMethod_inj {cls cls' method method' : ZStr}
    (h : PxCallableT.ofMethod (cstr cls) (cstr method) = .ofMethod (cstr cls') (cstr method')) :
    cls = cls' ∧ method = method' := by
  rw [PxCallableT.ofMethod, PxCallableT.ofMethod, PxCallableT.mk.injEq] at h
  obtain ⟨-, hcls, hmethod, -⟩ := h
  exact ⟨List.append_cancel_right (Option.some.inj hcls),
    List.append_cancel_right (Option.some.inj hmethod)⟩

theorem MethodForms.alike_iff {w : World} {f : MethodForms w} (hstatic : f.bound = none) :
    f.Alike ↔ f.cls.declares f.method.name = true := by
  have hpair := f.pair
  rw [hstatic] at hpair
  have htext := pxResolveCallable_text (w := w) f.colon_notMem f.method.name
  have harray : pxResolveCallable w (.array f.array) = _ := resolveArray_class hpair
  have hclosure := pxResolveCallable_firstClass f.firstClass
  rw [← PhpClass.lookup_name_iff f.found]
  constructor
  · rintro ⟨cb, htext', -, hclosure'⟩
    have heq := hclosure.symm.trans (hclosure'.trans (htext'.symm.trans htext))
    exact (ofMethod_inj (Except.ok.inj heq)).1
  · intro hname
    rw [hname] at hclosure
    exact ⟨_, htext, harray, hclosure⟩

/-! ## What `go()` refuses -/

section Refusal
variable {runner : Runner PxCallableT} {w : World} {task : Zval}

theorem refused_of_thrown {msg : List UInt8}
    (h : pxResolveCallable w task = .error (.thrown ⟨.captureError, msg⟩)) :
    Refused runner w task := by
  intro obj args hwg
  obtain ⟨g, hg⟩ := Option.isSome_iff_exists.mp hwg
  have hinputs : goInputs w obj.bootstrap task args =
      .error (.thrown ⟨.captureError, msg⟩) := by
    rw [goInputs, h]
    rfl
  refine ⟨msg, ?_⟩
  rw [go, hg]
  dsimp only
  rw [hinputs]

/-- Without arguments, a callable that has a recipe is not refused. -/
theorem not_refused_of_ok {cb : PxCallableT} (h : pxResolveCallable w task = .ok cb) :
    ¬ Refused runner w task := by
  intro href
  obtain ⟨msg, hgo⟩ := href (construct .create none) none rfl
  have hinputs : goInputs w (construct .create none).bootstrap task none =
      .ok ⟨some (valueArr 0), some cb⟩ := by
    rw [goInputs, h]
    rfl
  have hwg : (construct .create none).wg = some 0 := rfl
  rw [go, hwg] at hgo
  dsimp only at hgo
  rw [hinputs] at hgo
  -- what `wg_go` goes on with has no exception set
  obtain ⟨obj, -, hobj⟩ := Option.map_eq_some_iff.mp hgo
  have hraised : none = some (Thrown.mk .captureError msg) := congrArg Object.raised hobj
  cases hraised

end Refusal

/-- The forms resolve alike, those of an instance being refused, exactly when the method is static
and the class that is named declares it itself: by its first-class callable, an inherited method is
one of the class that declares it. That of an instance is taken for a static method, and only the
array is refused. -/
theorem forms_transparent_iff (runner : Runner PxCallableT) (w : World) (f : MethodForms w) :
    (f.Transparent runner ↔ f.bound = none ∧ f.cls.declares f.method.name = true) ∧
      (f.bound.isSome = true →
        Refused runner w (.array f.array) ∧ ¬ Refused runner w (.object f.closure)) := by
  have hclosure : ¬ Refused runner w (.object f.closure) :=
    not_refused_of_ok (pxResolveCallable_firstClass f.firstClass)
  have hpair := f.pair
  cases hbound : f.bound with
  | none =>
    have halike := MethodForms.alike_iff hbound
    refine ⟨⟨?_, ?_⟩, fun hsome => by cases hsome⟩
    · rintro ⟨hstatic, -⟩
      exact ⟨rfl, halike.mp (hstatic (by rw [hbound]; rfl))⟩
    · rintro ⟨-, hown⟩
      refine ⟨fun _ => halike.mpr hown, fun hsome => ?_⟩
      rw [hbound] at hsome
      cases hsome
  | some obj =>
    rw [hbound] at hpair
    obtain ⟨msg, harray⟩ := resolveArray_object hpair
    refine ⟨⟨?_, ?_⟩, fun _ => ⟨refused_of_thrown harray, hclosure⟩⟩
    · rintro ⟨-, hrefused⟩
      exact absurd (hrefused (by rw [hbound]; rfl)).2 hclosure
    · rintro ⟨hnone, -⟩
      cases hnone

/-- `class P { static function m() {} }` -/
def parentDecl : ClassDecl := ⟨ascii ['P'], [⟨ascii ['m'], true⟩]⟩

/-- `class C extends P { function i() {} static function s() {} }` -/
def childClass : PhpClass where
  own := ⟨ascii ['C'], [⟨ascii ['i'], false⟩, ⟨ascii ['s'], true⟩]⟩
  ancestors := [parentDecl]
  names_nodup := by decide

/-- The arrays `['C', 'm']`, `[$object, 'i']` and `['C', 's']`, the closures `C::m(...)` and
`$object->i(...)`, after them the object, and the closure `C::s(...)`. -/
def formsWorld : World where
  heap :=
    { array := fun a =>
        [(.int 0, if a = 1 then .object 2 else .string (ascii ['C'])),
          (.int 1, .string
            (if a = 0 then ascii ['m'] else if a = 1 then ascii ['i'] else ascii ['s']))]
      object := fun o => ⟨⟨if o = 2 then ascii ['C'] else ascii "Closure".toList, o != 2,
        .zendObjectsNew, [], List.nodup_nil⟩, fun _ => .undef, none, List.nodup_nil,
        fun _ _ => List.not_mem_nil⟩
      reference := fun _ => .null }
  closure := fun o =>
    if o = 0 then
      ⟨some ⟨true, true, ascii ['m'], some (ascii ['P']), none, 1, none⟩, some (ascii ['C']), .undef⟩
    else if o = 1 then
      ⟨some ⟨true, true, ascii ['i'], some (ascii ['C']), none, 1, none⟩, some (ascii ['C']),
        .object 2⟩
    else
      ⟨some ⟨true, true, ascii ['s'], some (ascii ['C']), none, 1, none⟩, some (ascii ['C']), .undef⟩
  readFile := fun _ => none

def inheritedForms : MethodForms formsWorld where
  cls := childClass
  colon_notMem := by decide
  declaring := parentDecl
  method := ⟨ascii ['m'], true⟩
  found := rfl
  bound := none
  isStatic_eq := rfl
  instance_of := fun _ h => by cases h
  array := 0
  pair := ⟨rfl, rfl, rfl⟩
  closure := 0
  firstClass := ⟨rfl, ⟨_, rfl, rfl, rfl, rfl⟩, rfl, rfl⟩

def instanceForms : MethodForms formsWorld where
  cls := childClass
  colon_notMem := by decide
  declaring := childClass.own
  method := ⟨ascii ['i'], false⟩
  found := rfl
  bound := some 2
  isStatic_eq := rfl
  instance_of := fun _ h => by cases h; rfl
  array := 1
  pair := ⟨rfl, rfl, rfl⟩
  closure := 1
  firstClass := ⟨rfl, ⟨_, rfl, rfl, rfl, rfl⟩, rfl, rfl⟩

def declaredForms : MethodForms formsWorld where
  cls := childClass
  colon_notMem := by decide
  declaring := childClass.own
  method := ⟨ascii ['s'], true⟩
  found := rfl
  bound := none
  isStatic_eq := rfl
  instance_of := fun _ h => by cases h
  array := 2
  pair := ⟨rfl, rfl, rfl⟩
  closure := 3
  firstClass := ⟨rfl, ⟨_, rfl, rfl, rfl, rfl⟩, rfl, rfl⟩

/-- The method that `C` declares itself, against the one it inherits and the one of an object. -/
theorem forms_transparent_iff_declared : declaredForms.Transparent answering ∧
    ¬ inheritedForms.Transparent answering ∧ ¬ instanceForms.Transparent answering := by
  have hiff (f : MethodForms formsWorld) := (forms_transparent_iff answering formsWorld f).1
  refine ⟨(hiff declaredForms).mpr ⟨rfl, rfl⟩, fun h => ?_, fun h => ?_⟩
  · cases ((hiff inheritedForms).mp h).2
  · cases ((hiff instanceForms).mp h).1

/-- `"C::m"` is a recipe for the method of `C`, `C::m(...)` for that of `P`; and `$object->i(...)` is
one for a static method, not refused. -/
theorem not_forms_transparent :
    (¬ ∀ runner w (f : MethodForms w), f.Transparent runner) ∧
      pxResolveCallable formsWorld (.string inheritedForms.text) =
        .ok (.ofMethod (cstr (ascii ['C'])) (cstr (ascii ['m']))) ∧
      pxResolveCallable formsWorld (.object inheritedForms.closure) =
        .ok (.ofMethod (cstr (ascii ['P'])) (cstr (ascii ['m']))) ∧
      pxResolveCallable formsWorld (.object instanceForms.closure) =
        .ok (.ofMethod (cstr (ascii ['C'])) (cstr (ascii ['i']))) := by
  have hbound := pxResolveCallable_firstClass instanceForms.firstClass
  refine ⟨fun h => ?_, rfl, pxResolveCallable_firstClass inheritedForms.firstClass, hbound⟩
  exact not_refused_of_ok hbound ((h answering formsWorld instanceForms).2 rfl).2

end Parallax.Binding
