import Parallax.Library.OrderedMap
import Parallax.Bridge.Zval

/-! `bridge.c`: a snapshot into a PHP value of the thread that receives it. The engine's array and
property stores and its table of classes stand with what is assumed of them. -/
namespace Parallax.Bridge
open Memory OrderedMap
set_option autoImplicit false
set_option maxHeartbeats 250000

/-! ## Values of the receiving thread -/

/-- A freshly made value shares nothing, so it is a tree: arrays are ordered maps, and objects have
a class name and the properties that hold a value. -/
inductive Php
  | null
  | bool (b : Bool)
  | long (i : Int64)
  | double (d : UInt64)
  | string (s : ZStr)
  | array (elements : List (ArrayKey × Php))
  | object (cls : ZStr) (properties : List (ZStr × Php))

/-- A class of the receiving thread: whether `object_init_ex` makes an object of it, its declared
properties with their defaults, and which stores `zend_update_property_ex` lets through. -/
structure WorkerClass where
  name : ZStr
  instantiable : Bool
  defaults : List (ZStr × Option Php)
  accepts : ZStr → Php → Bool

/-- `zend_standard_class_def`. -/
def stdClass : WorkerClass :=
  ⟨ascii ['s', 't', 'd', 'C', 'l', 'a', 's', 's'], true, [], fun _ _ => true⟩

/-- `zend_lookup_class`. -/
abbrev ClassTable := ZStr → Option WorkerClass

/-! ## Array stores -/

def digitsValue (digits : List UInt8) : ℕ :=
  digits.foldl (fun n c => 10 * n + (c.toNat - 0x30)) 0

/-- `ZEND_HANDLE_NUMERIC_STR`: the int key of a canonical decimal integer. -/
def decimalIndex (key : ZStr) : Option UInt64 :=
  let digits := if key.head? = some 0x2d then key.tail else key
  if digits = [] ∨ (¬ digits.all fun c => 0x30 ≤ c && c ≤ 0x39) ∨
      (digits.head? = some 0x30 ∧ 1 < key.length) then none
  else if key.head? = some 0x2d then
    if digitsValue digits ≤ 2 ^ 63 then some (-UInt64.ofNat (digitsValue digits)) else none
  else
    if digitsValue digits < 2 ^ 63 then some (UInt64.ofNat (digitsValue digits)) else none

def symtableKey (key : ZStr) : ArrayKey :=
  match decimalIndex key with
  | some idx => .int idx
  | none => .str key

abbrev Elements := List (ArrayKey × Php)

def addIndexZval (target : Elements) (idx : UInt64) (child : Php) : Elements :=
  put (.int idx) child target

/-- `add_assoc_zval_ex`; the first byte of the key is read even when the key is empty. -/
def addAssocZvalEx (target : Elements) (key : Ptr) (len : ℕ) (child : Php) :
    Except Fault Elements := do
  let _ ← load key 1
  let key ← load key len
  return put (symtableKey key) child target

/-! ## Property stores -/

/-- An object under construction: its slots, and its dynamic properties. -/
structure NewObject where
  slots : List (ZStr × Option Php)
  dyn : List (ZStr × Php)

def NewObject.properties (obj : NewObject) : List (ZStr × Php) :=
  (obj.slots.filterMap fun p => p.2.map fun v => (p.1, v)) ++ obj.dyn

def NewObject.store (obj : NewObject) (name : ZStr) (val : Php) : NewObject :=
  if name ∈ keys obj.slots then { obj with slots := put name (some val) obj.slots }
  else { obj with dyn := put name val obj.dyn }

/-- `object_init_ex`; a class that cannot be instantiated gives null and no object. -/
def objectInitEx (ce : WorkerClass) : Option NewObject :=
  if ce.instantiable then some ⟨ce.defaults, []⟩ else none

/-- `zend_update_property_ex`; a store the engine refuses leaves the object as it is. -/
def updateProperty (ce : WorkerClass) (obj : Option NewObject) (name : ZStr) (val : Php) :
    Except Fault (Option NewObject) :=
  match obj with
  | none => .error .nullObject
  | some obj =>
    .ok (some (if name.head? = some 0 ∨ ce.accepts name val = false then obj
      else obj.store name val))

def finished (ce : WorkerClass) : Option NewObject → Php
  | none => .null
  | some obj => .object ce.name obj.properties

/-! ## VAL_ERR -/

/-- `parallax_worker_error_ce`. -/
def workerErrorClass : WorkerClass :=
  ⟨ascii "ParallaxWorkerError".toList, true,
    [(ascii "class".toList, some (.string [])), (ascii "message".toList, some (.string [])),
      (ascii "code".toList, some (.long 0)), (ascii "trace".toList, some (.string []))],
    fun _ _ => true⟩

/-- A field of the error as `zend_update_property_string` reads it, NULL standing for `""`. -/
def errorText (p : Ptr) : Except Fault ZStr := do
  let p := if p = none then cstr [] else p
  let len ← strlen p
  load p len

def errorToZval (cls msg : Ptr) (code : Int64) (trace : Ptr) : Except Fault Php := do
  let ce := workerErrorClass
  let cls ← errorText cls
  let obj ← updateProperty ce (objectInitEx ce) (ascii "class".toList) (.string cls)
  let msg ← errorText msg
  let obj ← updateProperty ce obj (ascii "message".toList) (.string msg)
  let obj ← updateProperty ce obj (ascii "code".toList) (.long code)
  let trace ← errorText trace
  let obj ← updateProperty ce obj (ascii "trace".toList) (.string trace)
  return finished ce obj

/-! ## value_to_zval_inner -/

/-- `ZVAL_STRINGL(out, p ? p : "", len)`. -/
def stringZval (p : Ptr) (len : ℕ) : Except Fault Php :=
  (load (if p = none then cstr [] else p) len).map .string

/-- The class an object is made of: the one of its name, or `stdClass`. -/
def resolveClass (classes : ClassTable) (name : ZStr) : WorkerClass :=
  (classes name).getD stdClass

section Convert
variable (classes : ClassTable)

mutual

/-- `value_to_zval_inner`. -/
def ptrToZval : Option Value → Except Fault Php
  | none => .ok .null
  | some v => valueToZval v

def valueToZval : Value → Except Fault Php
  | .null => .ok .null
  | .bool b => .ok (.bool b)
  | .long i => .ok (.long i)
  | .double d => .ok (.double d)
  | .str p len => stringZval p len
  | .arr ⟨_, entries, _⟩ => (arrayItems entries []).map .array
  | .obj cls clen ⟨_, entries, _⟩ => do
    let name ← load cls clen
    let ce := resolveClass classes name
    let obj ← objectItems ce entries (objectInitEx ce)
    return finished ce obj
  | .err cls msg code trace => errorToZval cls msg code trace

/-- The loop of `kv_block_to_array`. -/
def arrayItems : List Entry → Elements → Except Fault Elements
  | [], target => .ok target
  | ⟨isIntKey, ikey, skey, skeyLen, val⟩ :: rest, target => do
    let child ← ptrToZval val
    let target ← if isIntKey then .ok (addIndexZval target ikey.toUInt64 child)
      else addAssocZvalEx target skey skeyLen child
    arrayItems rest target

/-- The loop of `kv_block_to_object`. -/
def objectItems (ce : WorkerClass) : List Entry → Option NewObject →
    Except Fault (Option NewObject)
  | [], target => .ok target
  | ⟨_, _, skey, skeyLen, val⟩ :: rest, target => do
    let child ← ptrToZval val
    let name ← load skey skeyLen
    let target ← updateProperty ce target name child
    objectItems ce rest target

end

def pxValueToZval (v : Option Value) : Except Fault Php := ptrToZval classes v

end Convert

/-- `argc` and `argv` of `worker_main_thread`, from the arguments it rebuilt. -/
def buildArgv : Php → Option (ℕ × List Php)
  | .array elements => some (elements.length, elements.map Prod.snd)
  | _ => none

end Parallax.Bridge
