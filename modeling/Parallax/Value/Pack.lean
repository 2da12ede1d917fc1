import Parallax.Library.Codec
import Parallax.Library.Word
import Parallax.Value.Value

/-! `value/pack.c`: the varint, the writer and the reader of the packed format. The growable
buffer is the list of the bytes written so far, the read cursor the bytes between `*p` and `end`;
a read at the end of those is a fault, so every check of the source stands where it does there. -/
namespace Parallax
open Memory Codec Codec.Decoder
set_option autoImplicit false
set_option maxHeartbeats 250000

/-! ## Varints -/

theorem shiftRight_seven_lt {v : UInt64} (h : 0x80 ≤ v) : (v >>> 7).toNat < v.toNat := by
  have h7 := Word.toNat_shiftRight v 7 (by norm_num)
  have hv : 128 ≤ v.toNat := UInt64.le_iff_toNat_le.mp h
  have hs : (v >>> 7).toNat = v.toNat / 2 ^ 7 := h7
  omega

def varintWrite (v : UInt64) : List UInt8 :=
  if 0x80 ≤ v then (v ||| 0x80).toUInt8 :: varintWrite (v >>> 7) else [v.toUInt8]
termination_by v.toNat
decreasing_by exact shiftRight_seven_lt (by assumption)

/-- The loop of `varint_read`; the bytes are those from `*p` to `end`. -/
def varintReadLoop : List UInt8 → UInt64 → ℕ → Except Fault (Option (UInt64 × List UInt8))
  | [], _, _ => .ok none
  | byte :: s, v, shift =>
    let v := v ||| (byte &&& 0x7f).toUInt64 <<< UInt64.ofNat shift
    if byte &&& 0x80 = 0 then .ok (some (v, s))
    else if 64 ≤ shift + 7 then .ok none
    else varintReadLoop s v (shift + 7)

def varintRead : Decoder Fault UInt8 UInt64 := fun s => varintReadLoop s 0 0

/-! ## Write buffer -/

/-- The first `len` bytes of a `wbuf_t`. -/
abbrev Wbuf := List UInt8

def wbufU8 (b : Wbuf) (v : UInt8) : Wbuf := b ++ [v]

def wbufBytes (b : Wbuf) (p : Ptr) (n : ℕ) : Except Fault Wbuf :=
  if 0 < n then (load p n).map (b ++ ·) else .ok b

def wbufVarint (b : Wbuf) (v : UInt64) : Wbuf := b ++ varintWrite v

/-- Little-endian bytes of a 64-bit pattern. -/
def doubleBytes (bits : UInt64) : List UInt8 :=
  (List.range 8).map fun i => (bits >>> UInt64.ofNat (i * 8)).toUInt8

def wbufDouble (b : Wbuf) (d : UInt64) : Wbuf := b ++ doubleBytes d

/-- The loop of `read_double` over its eight bytes. -/
def doubleBits (bytes : List UInt8) : UInt64 :=
  bytes.zipIdx.foldl (fun bits e => bits ||| e.1.toUInt64 <<< UInt64.ofNat (e.2 * 8)) 0

def readDouble : Decoder Fault UInt8 UInt64 := do
  if (← remaining) < 8 then reject
  let bytes ← take .outOfBounds 8
  return doubleBits bytes

/-! ## Recursive pack -/

/-- `s ? strlen(s) : 0`. -/
def cstrLen (p : Ptr) : Except Fault ℕ :=
  match p with
  | none => .ok 0
  | some _ => strlen p

def packErr (cls msg : Ptr) (code : Int64) (trace : Ptr) (b : Wbuf) : Except Fault Wbuf := do
  let clsLen ← cstrLen cls
  let msgLen ← cstrLen msg
  let trLen ← cstrLen trace
  let b := wbufVarint b (UInt64.ofNat clsLen)
  let b ← wbufBytes b cls clsLen
  let b := wbufVarint b (UInt64.ofNat msgLen)
  let b ← wbufBytes b msg msgLen
  let b := wbufVarint b code.toUInt64
  let b := wbufVarint b (UInt64.ofNat trLen)
  wbufBytes b trace trLen

/-- What `pack_kv_block` writes of an entry before its child. -/
def packKey (isIntKey : Bool) (ikey : Int64) (skey : Ptr) (skeyLen : ℕ) (b : Wbuf) :
    Except Fault Wbuf :=
  let b := wbufU8 b (if isIntKey then 1 else 0)
  if isIntKey then .ok (wbufVarint b ikey.toUInt64)
  else wbufBytes (wbufVarint b (UInt64.ofNat skeyLen)) skey skeyLen

mutual

def packOne : Option Value → Wbuf → Except Fault Wbuf
  | none, b => .ok (wbufU8 b ValTag.null.toByte)
  | some v, b => packValue v b

/-- `pack_one` on a non-NULL value: the tag, then the `switch`. -/
def packValue : Value → Wbuf → Except Fault Wbuf
  | .null, b => .ok (wbufU8 b ValTag.null.toByte)
  | .bool x, b => .ok (wbufU8 (wbufU8 b ValTag.bool.toByte) (if x then 1 else 0))
  | .long i, b => .ok (wbufVarint (wbufU8 b ValTag.long.toByte) i.toUInt64)
  | .double d, b => .ok (wbufDouble (wbufU8 b ValTag.double.toByte) d)
  | .str p len, b => wbufBytes (wbufVarint (wbufU8 b ValTag.str.toByte) (UInt64.ofNat len)) p len
  | .arr ⟨_, entries, _⟩, b =>
    packItems entries
      (wbufVarint (wbufU8 b ValTag.arr.toByte) (UInt64.ofNat entries.length))
  | .obj cls clen ⟨_, entries, _⟩, b => do
    let b ← wbufBytes (wbufVarint (wbufU8 b ValTag.obj.toByte) (UInt64.ofNat clen)) cls clen
    packItems entries (wbufVarint b (UInt64.ofNat entries.length))
  | .err cls msg code trace, b => packErr cls msg code trace (wbufU8 b ValTag.err.toByte)

/-- The loop of `pack_kv_block`. -/
def packItems : List Entry → Wbuf → Except Fault Wbuf
  | [], b => .ok b
  | ⟨isIntKey, ikey, skey, skeyLen, val⟩ :: rest, b => do
    let b ← packKey isIntKey ikey skey skeyLen b
    let b ← packOne val b
    packItems rest b

end

def valuePack (v : Option Value) : Except Fault Wbuf := packOne v []

/-! ## Recursive unpack -/

/-- A byte the source reads after its `*p >= end` check. -/
def readByte : Decoder Fault UInt8 UInt8 := do
  if (← remaining) = 0 then reject
  next .outOfBounds

/-- A length, refused when fewer bytes are left. -/
def readLength : Decoder Fault UInt8 ℕ := do
  let len ← varintRead
  if (← remaining) < len.toNat then reject
  return len.toNat

/-- The bytes of a string the source copies or hands to a constructor after its length check. -/
def readBytes : Decoder Fault UInt8 (List UInt8) := do
  let len ← readLength
  take .outOfBounds len

/-- A string of `VAL_ERR`, copied out and terminated. -/
def readCstr : Decoder Fault UInt8 Ptr := do
  let bs ← readBytes
  return some (bs ++ [0])

def unpackErr : Decoder Fault UInt8 Value := do
  let cls ← readCstr
  let msg ← readCstr
  let code ← varintRead
  let tr ← readCstr
  lift (valueErr cls msg code.toInt64 tr)

/-- The locals `int_key`, `ikey`, `skey` and `klen` of `unpack_kv_block`. -/
structure UnpackKey where
  intKey : Bool
  ikey : Int64
  skey : Ptr
  klen : ℕ

def unpackKey : Decoder Fault UInt8 UnpackKey := do
  let isIntKey ← readByte
  if isIntKey ≠ 0 then
    let k ← varintRead
    return ⟨true, k.toInt64, none, 0⟩
  else
    let bs ← readBytes
    return ⟨false, 0, some bs, bs.length⟩

/-- How `unpack_kv_block` hands an entry to the builders. -/
def unpackSet (parent : Value) (isArr : Bool) (key : UnpackKey) (child : Value) :
    Except Fault Value :=
  if isArr then
    if key.intKey then valueArrSetInt parent key.ikey (some child)
    else valueArrSetStr parent key.skey key.klen (some child)
  else valueObjSet parent key.skey key.klen (some child)

/-- The `switch` of `unpack_one`; `kvBlock` reads the entries of a block into its parent. -/
def unpackTag (kvBlock : Value → Bool → Decoder Fault UInt8 Value) :
    Option ValTag → Decoder Fault UInt8 Value
  | none => reject
  | some .null => return valueNull
  | some .bool => do
    let b ← readByte
    return valueBool (b != 0)
  | some .long => do
    let i ← varintRead
    return valueLong i.toInt64
  | some .double => do
    let d ← readDouble
    return valueDouble d
  | some .str => do
    let bs ← readBytes
    lift (valueStr (some bs) bs.length)
  | some .arr => kvBlock (valueArr 0) true
  | some .obj => do
    let cls ← readBytes
    let obj ← lift (valueObj (some cls) cls.length 0)
    kvBlock obj false
  | some .err => unpackErr

mutual

/-- The loop of `unpack_kv_block`, with the entries still to read. -/
def unpackItems : ℕ → ℕ → Value → Bool → Decoder Fault UInt8 Value
  | _, 0, parent, _ => pure parent
  | 0, _ + 1, _, _ => fail .outOfFuel
  | fuel + 1, n + 1, parent, isArr => do
    let key ← unpackKey
    let child ← unpackOne fuel
    let parent ← lift (unpackSet parent isArr key child)
    unpackItems fuel n parent isArr

def unpackOne : ℕ → Decoder Fault UInt8 Value
  | 0 => fail .outOfFuel
  | fuel + 1 => do
    let tag ← readByte
    unpackTag (fun parent isArr => do
      let n ← varintRead
      unpackItems fuel n.toNat parent isArr) (ValTag.ofByte tag)

end

def unpackKvBlock (fuel : ℕ) (parent : Value) (isArr : Bool) : Decoder Fault UInt8 Value := do
  let n ← varintRead
  unpackItems fuel n.toNat parent isArr

theorem unpackOne_succ (fuel : ℕ) :
    unpackOne (fuel + 1) =
      readByte >>= fun tag => unpackTag (unpackKvBlock fuel) (ValTag.ofByte tag) := by
  rw [unpackOne]
  rfl

/-- The recursion of `unpack_one` ends because every call consumes input: one unit of fuel for
each byte is enough. -/
def valueUnpack (buf : List UInt8) : Except Fault (Option Value) :=
  match unpackOne (buf.length + 1) buf with
  | .ok (some (v, s)) => .ok (if s.isEmpty then some v else none)
  | .ok none => .ok none
  | .error e => .error e

end Parallax
