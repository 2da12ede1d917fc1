import Parallax.Closure.Bounds
import Parallax.Bridge.CaptureExact

/-! `px_resolve_callable`: a callable of the calling thread into a recipe that another thread can
follow, or an exception. -/
namespace Parallax.Bridge
open Memory Closure
set_option autoImplicit false
set_option maxHeartbeats 250000

/-! ## Recipes -/

/-- `px_call_kind_t`. -/
inductive PxCallKind
  | function | staticMeth | closure
deriving DecidableEq, Repr

/-- `px_callable_t`: the strings are C strings. -/
structure PxCallableT where
  kind : PxCallKind
  className : Ptr
  fnName : Ptr
  bootstrap : Ptr
  closureWrapper : Ptr
  closureCaptures : Option Value

def PxCallableT.ofFunction (fnName : Ptr) : PxCallableT :=
  ⟨.function, none, fnName, none, none, none⟩

def PxCallableT.ofMethod (className fnName : Ptr) : PxCallableT :=
  ⟨.staticMeth, className, fnName, none, none, none⟩

def PxCallableT.ofClosure (wrapper : Ptr) (captures : Value) : PxCallableT :=
  ⟨.closure, none, none, none, wrapper, some captures⟩

/-! ## Closures -/

/-- A `zend_function`: whether it is a user function, whether it is a first-class callable
(`ZEND_ACC_FAKE_CLOSURE`), its name and the name of its scope; and, of its op array, the file, the
line and the captured variables. -/
structure ZendFunction where
  isUser : Bool
  isFakeClosure : Bool
  functionName : ZStr
  scope : Option ZStr
  filename : Option ZStr
  lineStart : UInt32
  staticVariables : Option HashTable

/-- A `Closure`: its function, and the class and the object it is bound to. -/
structure ZendClosure where
  func : Option ZendFunction
  calledScope : Option ZStr
  thisPtr : Zval

/-- `$this` is set. -/
def ZendClosure.isBound (c : ZendClosure) : Bool :=
  match c.thisPtr with
  | .undef => false
  | .null => false
  | _ => true

/-- What a call of `go()` can reach: the heap, the closures among the objects, and the files. -/
structure World where
  heap : Heap
  closure : ℕ → ZendClosure
  readFile : List UInt8 → Option (List UInt8)

/-! ## Inline closures -/

/-- `throw_spawn_error`. -/
def throwSpawnError {α : Type} (msg : List UInt8) : Except Stop α :=
  .error (.thrown ⟨.spawnError, msg.take 511⟩)

/-- What a `%s` prints of a C string, and what `strlen` measures of it. -/
def cText (p : Ptr) : Except Fault (List UInt8) := do
  let len ← strlen p
  load p len

section Captures
variable (h : Heap)

/-- The refusal of a captured variable that has no value, from a buffer of 256 bytes. -/
def unassignedText (key : ZStr) : List UInt8 :=
  (ascii "captured `use($".toList ++ printed key ++ ascii ")` was never assigned before go() ".toList ++
    [0xe2, 0x80, 0x94] ++ ascii " refusing to materialise UNDEF in the worker".toList).take 255

def capturesLoop : HashTable → Value → Except Stop Value
  | [], arr => .ok arr
  | (key, slot) :: rest, arr =>
    match key with
    | .int _ => capturesLoop rest arr
    | .str key =>
      if slot.isReference then
        throwException
          (ascii "by-reference `use(&$var)` cannot be captured into a parallax task".toList)
      else if slot.isUndef then throwException (unassignedText key)
      else do
        let child ← pxZvalToValue h slot
        let arr ← checked (valueArrSetStr arr key.val key.length (some child))
        capturesLoop rest arr

def snapshotCaptures (fn : ZendFunction) : Except Stop Value :=
  match fn.staticVariables with
  | none => .ok (valueArr 0)
  | some uses => capturesLoop h uses (valueArr 0)

end Captures

/-- The factory around the source text of a closure. -/
def wrapperText (text : List UInt8) : List UInt8 :=
  ascii "<?php return static function (array $__cv) \x7b extract($__cv); return ".toList ++ text ++
    ascii "; \x7d;".toList

section Resolve
variable (w : World)

def pxResolveInlineClosure (closure : ZendClosure) : Except Stop PxCallableT :=
  match closure.func with
  | none => throwException (ascii "only user-defined inline closures can be captured".toList)
  | some fn =>
    if fn.isUser = false then
      throwException (ascii "only user-defined inline closures can be captured".toList)
    else if closure.isBound then
      throwException (ascii ("closure with bound $this cannot be captured; " ++
        "declare it `static` to detach the instance").toList)
    else
      match fn.filename with
      | none => throwException (ascii "closure has no resolvable source file".toList)
      | some fname =>
        if fname = [] then
          throwException (ascii "closure has no resolvable source file".toList)
        else do
          let extracted ← checked
            (extractClosureText w.readFile (some (printed fname)) fn.lineStart.toInt32.toInt)
          match extracted with
          | .failed err =>
            throwException
              ((ascii "closure source extraction failed: ".toList ++ ascii err.toList).take 511)
          | .text text => do
            let captures ← snapshotCaptures w.heap fn
            let text ← checked (cText (cstr text))
            return .ofClosure (cstr (wrapperText text)) captures

/-! ## px_resolve_callable -/

/-- `strdup_or_die`. -/
def strdupOrDie (src : Ptr) (len : ℕ) : Except Fault Ptr := (load src len).map cstr

abbrev colon : UInt8 := 0x3a

/-- A string: the first colon makes it a static method, if another one follows. -/
def resolveString (s : ZStr) : Except Stop PxCallableT :=
  match s.findIdx? (· = colon) with
  | some sep =>
    if sep + 1 < s.length ∧ s[sep + 1]? = some colon then do
      let className ← checked (strdupOrDie s.val sep)
      let fnName ← checked (strdupOrDie (s.val.map (·.drop (sep + 2))) (s.length - (sep + 2)))
      return .ofMethod className fnName
    else (checked (strdupOrDie s.val s.length)).map .ofFunction
  | none => (checked (strdupOrDie s.val s.length)).map .ofFunction

/-- `zend_hash_index_find`. -/
def zendHashIndexFind (ht : HashTable) (idx : UInt64) : Option Zval :=
  (ht.find? fun p => p.1 = .int idx).map Prod.snd

def resolveMethod (className fnName : ZStr) : Except Stop PxCallableT := do
  let className ← checked (strdupOrDie className.val className.length)
  let fnName ← checked (strdupOrDie fnName.val fnName.length)
  return .ofMethod className fnName

def resolveArray (ht : HashTable) : Except Stop PxCallableT :=
  if ht.length ≠ 2 then
    throwSpawnError (ascii "callable array must have exactly 2 elements".toList)
  else
    match zendHashIndexFind ht 0, zendHashIndexFind ht 1 with
    | some (.string className), some (.string fnName) => resolveMethod className fnName
    | some _, some (.string _) =>
      throwCaptureError (ascii ("instance methods are not transferable; " ++
        "pass [ClassName::class, 'method']").toList)
    | _, _ => throwSpawnError (ascii "callable array must be [class|object, methodName]".toList)

def resolveClosure (closure : ZendClosure) : Except Stop PxCallableT :=
  match closure.func with
  | none => throwSpawnError (ascii "could not introspect Closure".toList)
  | some fn =>
    if fn.isFakeClosure then
      match fn.scope with
      | some scope => resolveMethod scope fn.functionName
      | none =>
        (checked (strdupOrDie fn.functionName.val fn.functionName.length)).map .ofFunction
    else pxResolveInlineClosure w closure

def pxResolveCallable (callable : Zval) : Except Stop PxCallableT :=
  let unsupported := throwSpawnError (ascii "unsupported callable type for parallax".toList)
  match callable with
  | .string s => resolveString s
  | .array a => resolveArray (w.heap.array a)
  | .object o =>
    if (w.heap.object o).ce.isClosure then resolveClosure w (w.closure o) else unsupported
  | _ => unsupported

end Resolve

/-! ## The copies -/

theorem strdupOrDie_val (s : ZStr) : strdupOrDie s.val s.length = .ok (cstr s) := by
  rw [strdupOrDie, ZStr.val, load_cstr]
  rfl

theorem strdupOrDie_take (s : ZStr) {n : ℕ} (h : n ≤ s.length) :
    strdupOrDie s.val n = .ok (cstr (s.take n)) := by
  have hn : n ≤ (s ++ [0]).length := by
    rw [List.length_append]
    omega
  rw [strdupOrDie, ZStr.val, cstr, load_some _ _ hn, List.take_append_of_le_length h]
  rfl

theorem strdupOrDie_drop (s : ZStr) {n : ℕ} (h : n ≤ s.length) :
    strdupOrDie (s.val.map (·.drop n)) (s.length - n) = .ok (cstr (s.drop n)) := by
  have hdrop : s.val.map (·.drop n) = cstr (s.drop n) := by
    rw [ZStr.val, cstr, Option.map_some, List.drop_append_of_le_length h]
    rfl
  have hlen : s.length - n = (s.drop n).length := List.length_drop.symm
  rw [hdrop, hlen]
  exact strdupOrDie_val (s.drop n)

theorem resolveMethod_eq (className fnName : ZStr) :
    resolveMethod className fnName = .ok (.ofMethod (cstr className) (cstr fnName)) := by
  rw [resolveMethod, strdupOrDie_val, strdupOrDie_val]
  rfl

/-- Where the code splits a name: at its first colon, when another one follows. -/
def splitName (s : ZStr) : Option (ZStr × ZStr) :=
  match s.findIdx? (· = colon) with
  | some sep =>
    if sep + 1 < s.length ∧ s[sep + 1]? = some colon then some (s.take sep, s.drop (sep + 2))
    else none
  | none => none

theorem resolveString_eq (s : ZStr) : resolveString s = .ok (match splitName s with
    | some (className, fnName) => .ofMethod (cstr className) (cstr fnName)
    | none => .ofFunction (cstr s)) := by
  unfold resolveString splitName
  cases s.findIdx? (· = colon) with
  | none =>
    dsimp only
    rw [strdupOrDie_val]
    rfl
  | some sep =>
    dsimp only
    split
    · next h =>
      rw [strdupOrDie_take s (by omega), strdupOrDie_drop s (by omega)]
      rfl
    · rw [strdupOrDie_val]
      rfl

/-! ## The class separator -/

def HasSeparator (s : ZStr) : Prop := [colon, colon] <:+: s

/-- The first colon of the name begins a separator. -/
def SeparatorFirst (s : ZStr) : Prop :=
  ∃ className fnName, s = className ++ colon :: colon :: fnName ∧ colon ∉ className

theorem findIdx?_first {pre : ZStr} (hpre : colon ∉ pre) (post : ZStr) :
    (pre ++ colon :: post).findIdx? (· = colon) = some pre.length := by
  have hnone : pre.findIdx? (· = colon) = none := by
    refine List.findIdx?_eq_none_iff.mpr fun c hc => decide_eq_false ?_
    rintro rfl
    exact hpre hc
  rw [List.findIdx?_append, hnone, List.findIdx?_cons, decide_eq_true rfl]
  simp

/-- A name is split at its first colon, when that begins a separator. -/
theorem splitName_separator {className : ZStr} (hcls : colon ∉ className) (fnName : ZStr) :
    splitName (className ++ colon :: colon :: fnName) = some (className, fnName) := by
  unfold splitName
  rw [findIdx?_first hcls]
  dsimp only
  rw [if_pos]
  · rw [List.take_left, List.drop_append, List.drop_eq_nil_of_le (Nat.le_add_right _ 2),
      Nat.add_sub_cancel_left]
    rfl
  · simp

theorem splitName_none {s : ZStr} (h : ¬ SeparatorFirst s) : splitName s = none := by
  unfold splitName
  by_cases hmem : colon ∈ s
  · obtain ⟨pre, post, rfl, hpre⟩ := List.eq_append_cons_of_mem hmem
    rw [findIdx?_first hpre]
    dsimp only
    refine if_neg ?_
    rintro ⟨-, hnext⟩
    rw [List.getElem?_append_right (Nat.le_add_right _ 1), Nat.add_sub_cancel_left,
      List.getElem?_cons_succ] at hnext
    obtain ⟨rest, rfl⟩ : ∃ rest, post = colon :: rest := by
      cases post with
      | nil => cases hnext
      | cons c rest => exact ⟨rest, by rw [Option.some.inj hnext]⟩
    exact h ⟨pre, rest, rfl, hpre⟩
  · have hnone : s.findIdx? (· = colon) = none := by
      refine List.findIdx?_eq_none_iff.mpr fun c hc => decide_eq_false ?_
      rintro rfl
      exact hmem hc
    rw [hnone]

theorem SeparatorFirst.hasSeparator {s : ZStr} (h : SeparatorFirst s) : HasSeparator s := by
  obtain ⟨className, fnName, rfl, -⟩ := h
  exact ⟨className, fnName, by rw [List.append_assoc]; rfl⟩

/-! ## No faults -/

/-- It ends, if not well then with an exception. -/
def Faultless {α : Type} (x : Except Stop α) : Prop := ∀ f, x ≠ .error (.fault f)

theorem faultless_ok {α : Type} (a : α) : Faultless (.ok a) := fun _ h => by cases h

theorem faultless_thrown {α : Type} (e : Thrown) : Faultless (.error (.thrown e) : Except Stop α) :=
  fun _ h => by cases h

theorem faultless_of_ok {α : Type} {x : Except Stop α} {a : α} (h : x = .ok a) : Faultless x := by
  rw [h]
  exact faultless_ok a

theorem Faultless.bind {α β : Type} {x : Except Stop α} {f : α → Except Stop β}
    (hx : Faultless x) (hf : ∀ a, x = .ok a → Faultless (f a)) : Faultless (x >>= f) := by
  cases x with
  | error e => exact fun g h => hx g (by cases h; rfl)
  | ok a => exact hf a rfl

theorem Decides.faultless {P : Prop} {R : Value → Prop} {r : Except Stop Value}
    (h : Decides P R r) : Faultless r := by
  rcases h with ⟨-, v, rfl, -⟩ | ⟨-, msg, rfl⟩
  · exact faultless_ok v
  · exact faultless_thrown _

theorem arrSetStr_eq (items : KvVec Entry) (key : ZStr) (child : Value) :
    checked (valueArrSetStr (.arr items) key.val key.length (some child)) =
      (checked (items.append (strKv key (some child)))).map .arr :=
  arraySet_eq items (.str key, .null) child

theorem capturesLoop_faultless (h : Heap) {uses : HashTable} {items : KvVec Entry}
    (hroom : items.Room) : Faultless (capturesLoop h uses (.arr items)) := by
  induction uses generalizing items with
  | nil => exact faultless_ok _
  | cons p rest ih =>
    obtain ⟨key, slot⟩ := p
    cases key with
    | int idx => exact ih hroom
    | str key =>
      rw [capturesLoop]
      split
      · exact faultless_thrown _
      split
      · exact faultless_thrown _
      refine (pxZvalToValue_decides h slot).faultless.bind fun child _ => ?_
      obtain ⟨w, hw, -, hroom'⟩ := KvVec.append_room hroom (strKv key (some child))
      rw [arrSetStr_eq, hw]
      exact ih hroom'

theorem takeWhile_terminated (s : List UInt8) : (s ++ [0]).takeWhile (· ≠ 0) = printed s := by
  induction s with
  | nil => rfl
  | cons c s ih =>
    rw [List.cons_append, printed, List.takeWhile_cons, List.takeWhile_cons]
    cases decide (c ≠ 0) with
    | false => rfl
    | true => exact congrArg (c :: ·) ih

theorem strlen_cstr_printed (s : List UInt8) : strlen (cstr s) = .ok (printed s).length := by
  rw [cstr, strlen, if_pos (List.mem_append_right _ (List.mem_singleton.mpr rfl)),
    takeWhile_terminated]

/-- A C string is read up to its first NUL. -/
theorem cText_cstr (s : List UInt8) : cText (cstr s) = .ok (printed s) := by
  have hprefix : printed s <+: s ++ [0] := takeWhile_terminated s ▸ List.takeWhile_prefix _
  rw [cText, strlen_cstr_printed, ok_bind, cstr, load_some _ _ hprefix.length_le,
    ← List.prefix_iff_eq_take.mp hprefix]

theorem pxResolveInlineClosure_faultless (w : World) (closure : ZendClosure) :
    Faultless (pxResolveInlineClosure w closure) := by
  unfold pxResolveInlineClosure
  cases closure.func with
  | none => exact faultless_thrown _
  | some fn =>
    dsimp only
    split
    · exact faultless_thrown _
    split
    · exact faultless_thrown _
    cases fn.filename with
    | none => exact faultless_thrown _
    | some fname =>
      dsimp only
      split
      · exact faultless_thrown _
      obtain ⟨x, hx⟩ := extractClosureText_total w.readFile (some (printed fname))
        fn.lineStart.toInt32.toInt
      rw [hx]
      cases x with
      | failed err => exact faultless_thrown _
      | text text =>
        have hcaptures : Faultless (snapshotCaptures w.heap fn) := by
          unfold snapshotCaptures
          cases fn.staticVariables with
          | none => exact faultless_ok _
          | some uses => exact capturesLoop_faultless w.heap ⟨rfl, le_rfl⟩
        refine hcaptures.bind fun captures _ => ?_
        rw [cText_cstr]
        exact faultless_ok _

/-- Every callable is resolved, or refused with an exception. -/
theorem pxResolveCallable_faultless (w : World) (callable : Zval) :
    Faultless (pxResolveCallable w callable) := by
  have hmethod (className fnName : ZStr) : Faultless (resolveMethod className fnName) :=
    faultless_of_ok (resolveMethod_eq className fnName)
  unfold pxResolveCallable
  dsimp only
  split
  · exact faultless_of_ok (resolveString_eq _)
  · unfold resolveArray
    split
    · exact faultless_thrown _
    split
    · exact hmethod _ _
    · exact faultless_thrown _
    · exact faultless_thrown _
  · split
    · unfold resolveClosure
      split
      · exact faultless_thrown _
      split
      · split
        · exact hmethod _ _
        · rw [strdupOrDie_val]
          exact faultless_ok _
      · exact pxResolveInlineClosure_faultless w _
    · exact faultless_thrown _
  · exact faultless_thrown _

end Parallax.Bridge
