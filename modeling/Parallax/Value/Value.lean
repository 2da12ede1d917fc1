import Parallax.Library.Memory

/-! `value/value.h` and `value/value.c`: the tagged value, its constructors and its builders.
Allocation is taken to succeed (`abort()` is not modelled); every read and every write into an
item block is checked. -/
namespace Parallax
open Memory
set_option autoImplicit false
set_option maxHeartbeats 250000

/-! ## value.h -/

inductive ValTag
  | null | bool | long | double | str | arr | obj | err
deriving DecidableEq, Repr

def ValTag.toByte : ValTag → UInt8
  | .null => 0
  | .bool => 1
  | .long => 2
  | .double => 3
  | .str => 4
  | .arr => 5
  | .obj => 6
  | .err => 7

/-- `(val_tag)byte` under a `switch` with no default. -/
def ValTag.ofByte (b : UInt8) : Option ValTag :=
  if b = 0 then some .null
  else if b = 1 then some .bool
  else if b = 2 then some .long
  else if b = 3 then some .double
  else if b = 4 then some .str
  else if b = 5 then some .arr
  else if b = 6 then some .obj
  else if b = 7 then some .err
  else none

@[simp] theorem ValTag.ofByte_toByte (t : ValTag) : ValTag.ofByte t.toByte = some t := by
  cases t <;> rfl

structure Kv (α : Type) where
  isIntKey : Bool
  ikey : Int64
  skey : Ptr
  skeyLen : ℕ
  val : α
deriving DecidableEq, Repr

/-- An item block with its `n` and `cap`: `slots` is how many `kv_t` were allocated (no slots is
the NULL block), `entries` are the first `n` of them. -/
structure KvVec (α : Type) where
  slots : ℕ
  entries : List α
  cap : ℕ
deriving DecidableEq, Repr

/-- `struct value`. A `value_t *` is an `Option Value`; a double is its bit pattern. -/
inductive Value
  | null
  | bool (b : Bool)
  | long (i : Int64)
  | double (d : UInt64)
  | str (p : Ptr) (len : ℕ)
  | arr (items : KvVec (Kv (Option Value)))
  | obj (cls : Ptr) (clen : ℕ) (props : KvVec (Kv (Option Value)))
  | err (cls msg : Ptr) (code : Int64) (trace : Ptr)

/-- A `kv_t` of a tree. -/
abbrev Entry := Kv (Option Value)

def Value.tag : Value → ValTag
  | .null => .null
  | .bool _ => .bool
  | .long _ => .long
  | .double _ => .double
  | .str .. => .str
  | .arr _ => .arr
  | .obj .. => .obj
  | .err .. => .err

/-! ## Constructors -/

def dupBytes (src : Ptr) (len : ℕ) : Except Fault Ptr :=
  if len = 0 then .ok none else (load src len).map some

def dupCstr (src : Ptr) : Except Fault Ptr :=
  match src with
  | none => .ok none
  | some _ => do
    let len ← strlen src
    (load src (len + 1)).map some

def valueNull : Value := .null

def valueBool (b : Bool) : Value := .bool b

def valueLong (i : Int64) : Value := .long i

def valueDouble (d : UInt64) : Value := .double d

def valueStr (p : Ptr) (len : ℕ) : Except Fault Value := do
  let p ← dupBytes p len
  return .str p len

def valueArr (initialCap : ℕ) : Value := .arr ⟨initialCap, [], initialCap⟩

def valueObj (cls : Ptr) (clen initialCap : ℕ) : Except Fault Value := do
  let cls ← dupBytes cls clen
  return .obj cls clen ⟨initialCap, [], initialCap⟩

def valueErr (cls msg : Ptr) (code : Int64) (trace : Ptr) : Except Fault Value := do
  let cls ← dupCstr cls
  let msg ← dupCstr msg
  let trace ← dupCstr trace
  return .err cls msg code trace

/-! ## Builders -/

namespace KvVec
variable {α : Type}

def n (v : KvVec α) : ℕ := v.entries.length

def grow (v : KvVec α) : KvVec α :=
  let newCap := if v.cap = 0 then 4 else v.cap * 2
  { v with slots := newCap, cap := newCap }

/-- The tail the builders share: make room, then fill slot `n` and count it. -/
def append (v : KvVec α) (kv : α) : Except Fault (KvVec α) :=
  let v := if v.n = v.cap then v.grow else v
  if v.n < v.slots then .ok { v with entries := v.entries ++ [kv] } else .error .outOfBounds

end KvVec

/-- The largest int key, from `-1` up. -/
def maxIntKey (entries : List Entry) : Int64 :=
  entries.foldl (fun max kv => if kv.isIntKey ∧ max < kv.ikey then kv.ikey else max) (-1)

def nextIntKey (entries : List Entry) : Except Fault Int64 :=
  let max := maxIntKey entries
  if max = Int64.maxValue then .error .signedOverflow else .ok (max + 1)

def intEntry (key : Int64) (child : Option Value) : Entry := ⟨true, key, none, 0, child⟩

def strEntry (key : Ptr) (klen : ℕ) (child : Option Value) : Except Fault Entry := do
  let key ← dupBytes key klen
  return ⟨false, 0, key, klen, child⟩

def valueArrPush (arr : Value) (child : Option Value) : Except Fault Value :=
  match arr with
  | .arr items => do
    let key ← nextIntKey items.entries
    let items ← items.append (intEntry key child)
    return .arr items
  | _ => .error .failedAssert

def valueArrSetInt (arr : Value) (key : Int64) (child : Option Value) : Except Fault Value :=
  match arr with
  | .arr items => do
    let items ← items.append (intEntry key child)
    return .arr items
  | _ => .error .failedAssert

def valueArrSetStr (arr : Value) (key : Ptr) (klen : ℕ) (child : Option Value) :
    Except Fault Value :=
  match arr with
  | .arr items => do
    let kv ← strEntry key klen child
    let items ← items.append kv
    return .arr items
  | _ => .error .failedAssert

def valueObjSet (obj : Value) (key : Ptr) (klen : ℕ) (child : Option Value) :
    Except Fault Value :=
  match obj with
  | .obj cls clen props => do
    let kv ← strEntry key klen child
    let props ← props.append kv
    return .obj cls clen props
  | _ => .error .failedAssert

/-! ## Lookup -/

/-- `memcmp(a, b, n) == 0`. -/
def memEq (a b : Ptr) (n : ℕ) : Except Fault Bool := do
  let x ← load a n
  let y ← load b n
  return x == y

def getStrLoop (key : Ptr) (klen : ℕ) : List Entry → Except Fault (Option Value)
  | [] => .ok none
  | kv :: rest =>
    if kv.isIntKey ∨ kv.skeyLen ≠ klen then getStrLoop key klen rest
    else do
      let same ← memEq kv.skey key klen
      if same then return kv.val else getStrLoop key klen rest

def valueArrGetStr (arr : Option Value) (key : Ptr) (klen : ℕ) : Except Fault (Option Value) :=
  match arr with
  | some (.arr items) => getStrLoop key klen items.entries
  | _ => .ok none

end Parallax
