import Parallax.Bridge.Zval

/-! `bridge.c`: a PHP value into a snapshot. NULL with an exception raised is a `Stop`. -/
namespace Parallax.Bridge
open Memory
set_option autoImplicit false
set_option maxHeartbeats 250000

/-! ## Exceptions -/

inductive ExceptionClass
  | captureError | spawnError
deriving DecidableEq

/-- An exception the extension raises, with the text, the code being 0 throughout. -/
structure Thrown where
  cls : ExceptionClass
  message : List UInt8
deriving DecidableEq

inductive Stop
  | fault (f : Fault)
  | thrown (e : Thrown)
deriving DecidableEq

/-- A step of the value builders. -/
def checked {α : Type} (x : Except Fault α) : Except Stop α := x.mapError .fault

/-- `zend_throw_exception(parallax_capture_error_ce, msg, 0)` and `return NULL`. -/
def throwException {α : Type} (msg : List UInt8) : Except Stop α :=
  .error (.thrown ⟨.captureError, msg⟩)

/-- `throw_capture_error`, whose buffer holds 511 bytes and a NUL. -/
def throwCaptureError {α : Type} (msg : List UInt8) : Except Stop α := throwException (msg.take 511)

/-- What `%s` prints of a `zend_string`. -/
def printed (s : ZStr) : List UInt8 := s.takeWhile (· ≠ 0)

/-! ## Arrays -/

/-- The key and the child of an element, handed to the builder for the key's kind. -/
def arraySet (arr : Value) (key : ArrayKey) (child : Value) : Except Fault Value :=
  match key with
  | .str key => valueArrSetStr arr key.val key.length (some child)
  | .int idx => valueArrSetInt arr idx.toInt64 (some child)

section Loops
variable (inner : Zval → Except Stop Value)

/-- The loop over an array; `refusal` is its answer to a reference slot. -/
def elementsLoop (refusal : List UInt8) : HashTable → Value → Except Stop Value
  | [], arr => .ok arr
  | (key, val) :: rest, arr =>
    if val.isReference then throwException refusal
    else do
      let child ← inner val
      let arr ← checked (arraySet arr key child)
      elementsLoop refusal rest arr

def arrayToValue (ht : HashTable) : Except Stop Value :=
  elementsLoop inner
    (ascii "by-reference array element cannot be captured into a parallax task".toList) ht
    (valueArr ht.length)

/-! ## Objects -/

def declaredLoop (h : Heap) (obj : ZendObject) : List PropertyInfo → Value → Except Stop Value
  | [], objV => .ok objV
  | info :: rest, objV =>
    if info.isStatic then declaredLoop h obj rest objV
    else if (obj.slot info.offset).isUndef then declaredLoop h obj rest objV
    else do
      let child ← inner (h.deref (obj.slot info.offset))
      let objV ← checked (valueObjSet objV info.name.val info.name.length (some child))
      declaredLoop h obj rest objV

/-- The scan for a name among the properties captured so far. -/
def alreadyLoop (key : ZStr) : List Entry → Except Fault Bool
  | [] => .ok false
  | kv :: rest =>
    if kv.skeyLen = key.length then do
      let same ← memEq kv.skey key.val key.length
      if same then return true else alreadyLoop key rest
    else alreadyLoop key rest

def already (objV : Value) (key : ZStr) : Except Fault Bool :=
  match objV with
  | .obj _ _ props => alreadyLoop key props.entries
  | _ => .error .wrongType

def dynamicLoop (h : Heap) : HashTable → Value → Except Stop Value
  | [], objV => .ok objV
  | (key, slot) :: rest, objV =>
    match key with
    | .int _ => dynamicLoop h rest objV
    | .str key =>
      if slot.isUndef then dynamicLoop h rest objV
      else do
        let found ← checked (already objV key)
        if found then dynamicLoop h rest objV
        else do
          let child ← inner (h.deref slot)
          let objV ← checked (valueObjSet objV key.val key.length (some child))
          dynamicLoop h rest objV

/-- `object_to_value`, with `dyn` in `obj->properties`. -/
def objectToValueWith (h : Heap) (obj : ZendObject) (dyn : Option HashTable) :
    Except Stop Value :=
  if obj.ce.isClosure then
    throwCaptureError (ascii "nested closure cannot be captured into a parallax task".toList)
  else if obj.ce.createObject = .custom then
    throwCaptureError (ascii "object of class ".toList ++ printed obj.ce.name ++
      ascii (" carries non-transferable native state; " ++
        "pass a recipe (data) and reconstruct inside the worker").toList)
  else do
    let objV ← checked (valueObj obj.ce.name.val obj.ce.name.length 0)
    let objV ← declaredLoop inner h obj obj.ce.propertiesInfo objV
    match dyn with
    | none => return objV
    | some dyn => dynamicLoop inner h dyn objV

def objectToValue (h : Heap) (obj : ZendObject) : Except Stop Value :=
  objectToValueWith inner h obj obj.properties

end Loops

/-! ## zval_to_value_inner -/

/-- `zval_to_value_inner`, with fuel for the calls in each other; `table o` is what `obj->properties`
of the object `o` holds. -/
def zvalToValueWith (h : Heap) (table : ℕ → Option HashTable) : ℕ → Zval → ℕ → Except Stop Value
  | 0, _, _ => .error (.fault .outOfFuel)
  | fuel + 1, zv, depth =>
    if 256 < depth then
      throwCaptureError (ascii "capture exceeds maximum depth of 256".toList)
    else
      match zv with
      | .null => .ok valueNull
      | .true => .ok (valueBool true)
      | .false => .ok (valueBool false)
      | .long i => .ok (valueLong i)
      | .double d => .ok (valueDouble d)
      | .string s => checked (valueStr s.val s.length)
      | .array a => arrayToValue (zvalToValueWith h table fuel · (depth + 1)) (h.array a)
      | .object o =>
        objectToValueWith (zvalToValueWith h table fuel · (depth + 1)) h (h.object o) (table o)
      | .resource =>
        throwCaptureError (ascii "resource cannot be captured into a parallax task".toList)
      | .reference _ =>
        throwCaptureError (ascii "by-reference capture is not allowed in a parallax task".toList)
      | zv =>
        throwCaptureError (ascii "unsupported zval type ".toList ++ ascii (toString zv.type).toList)

/-- `zval_to_value_inner`, where each object holds the table of its dynamic properties. -/
def zvalToValueInner (h : Heap) : ℕ → Zval → ℕ → Except Stop Value :=
  zvalToValueWith h fun o => (h.object o).properties

/-- `px_zval_to_value`; no call is more than 257 deep in another. -/
def pxZvalToValue (h : Heap) (zv : Zval) : Except Stop Value := zvalToValueInner h 258 zv 0

/-! ## The arguments of go() -/

/-- What `WaitGroup::go` packs its arguments into. -/
def goArgs (h : Heap) (args : Option HashTable) : Except Stop Value :=
  match args with
  | none => .ok (valueArr 0)
  | some ht =>
    elementsLoop (pxZvalToValue h)
      (ascii "by-reference argument cannot be captured into a parallax task".toList) ht (valueArr 0)

end Parallax.Bridge
