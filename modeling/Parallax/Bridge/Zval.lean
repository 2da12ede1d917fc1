import Parallax.Value.Value

/-! The PHP values the bridge reads: zvals, and the arrays, objects and references they point at,
as the engine lays them out. A pointer is an index into a heap that holds something at each. -/
namespace Parallax.Bridge
open Memory
set_option autoImplicit false
set_option maxHeartbeats 250000

/-- The bytes of a `zend_string`; its buffer has a NUL behind them. -/
abbrev ZStr := List UInt8

/-- `ZSTR_VAL`. -/
def ZStr.val (s : ZStr) : Ptr := cstr s

/-- `Z_TYPE` and the payload. `other` is every further type, by its number. -/
inductive Zval
  | undef | null | false | true
  | long (i : Int64)
  | double (d : UInt64)
  | string (s : ZStr)
  | array (a : ℕ)
  | object (o : ℕ)
  | resource
  | reference (r : ℕ)
  | other (type : ℕ)
deriving DecidableEq, Repr

def Zval.isUndef : Zval → Bool
  | .undef => Bool.true
  | _ => Bool.false

def Zval.isReference : Zval → Bool
  | .reference _ => Bool.true
  | _ => Bool.false

/-- `Z_TYPE_P(zv)`. -/
def Zval.type : Zval → ℕ
  | .undef => 0
  | .null => 1
  | .false => 2
  | .true => 3
  | .long _ => 4
  | .double _ => 5
  | .string _ => 6
  | .array _ => 7
  | .object _ => 8
  | .resource => 9
  | .reference _ => 10
  | .other type => type

/-- A bucket's key: `h`, or `key`. -/
inductive ArrayKey
  | int (idx : UInt64)
  | str (key : ZStr)
deriving DecidableEq, Repr

def ArrayKey.name? : ArrayKey → Option ZStr
  | .int _ => none
  | .str key => some key

/-- The elements of a `HashTable` in the order a `ZEND_HASH_FOREACH` visits them. -/
abbrev HashTable := List (ArrayKey × Zval)

/-- `zend_property_info`. -/
structure PropertyInfo where
  name : ZStr
  isStatic : Bool
  offset : ℕ

/-- `ce->create_object`. -/
inductive CreateObject
  | null | zendObjectsNew | custom
deriving DecidableEq

/-- The names of the instance properties. -/
def declaredNames (infos : List PropertyInfo) : List ZStr :=
  (infos.filter fun info => !info.isStatic).map PropertyInfo.name

/-- `zend_class_entry`; `isClosure` is `instanceof_function(ce, zend_ce_closure)`. -/
structure ClassEntry where
  name : ZStr
  isClosure : Bool
  createObject : CreateObject
  propertiesInfo : List PropertyInfo
  names_nodup : (declaredNames propertiesInfo).Nodup

/-- The string keys of a property table. -/
def names (table : HashTable) : List ZStr := table.filterMap fun p => p.1.name?

/-- `zend_object`: its slots, and the table of its dynamic properties once it has one. No name
stands twice in the table, and none is that of a declared property. -/
structure ZendObject where
  ce : ClassEntry
  slot : ℕ → Zval
  properties : Option HashTable
  names_nodup : (names (properties.getD [])).Nodup
  names_other : ∀ name ∈ declaredNames ce.propertiesInfo, name ∉ names (properties.getD [])

structure Heap where
  array : ℕ → HashTable
  object : ℕ → ZendObject
  reference : ℕ → Zval

/-- `ZVAL_DEREF`. -/
def Heap.deref (h : Heap) : Zval → Zval
  | .reference r => h.reference r
  | zv => zv

end Parallax.Bridge
