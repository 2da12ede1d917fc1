import Parallax.Library.Cells
import Parallax.Value.Varint

/-! The growable buffer of `value/pack.c` byte by byte: `size_t` sizes, `realloc`, and writes through
pointers into its block. `Wbuf`, the list the writer of `Value/Pack` appends to, is what the block
begins with. -/
namespace Parallax
open Memory
set_option autoImplicit false
set_option maxHeartbeats 250000

/-! ## wbuf_t -/

structure WriteBuffer where
  data : BlockPtr UInt8
  len : UInt64
  cap : UInt64

/-- `varint_write` through a pointer into a block, and where it leaves the pointer. -/
def varintWriteAt (data : BlockPtr UInt8) (p : ℕ) (v : UInt64) :
    Except Fault (Cells UInt8 × ℕ) := do
  if 0x80 ≤ v then
    let data ← store data p (v ||| 0x80).toUInt8
    varintWriteAt (some data) (p + 1) (v >>> 7)
  else
    let data ← store data p v.toUInt8
    return (data, p + 1)
termination_by v.toNat
decreasing_by exact shiftRight_seven_lt (by assumption)

/-- The loop of `wbuf_reserve`. A word that was doubled 64 times is 0 and stays 0, so a loop that has
not ended by then never does. -/
def reserveLoop (need : UInt64) : ℕ → UInt64 → Except Fault UInt64
  | 0, newCap => if newCap < need then .error .outOfFuel else .ok newCap
  | fuel + 1, newCap => if newCap < need then reserveLoop need fuel (newCap * 2) else .ok newCap

namespace WriteBuffer

def init : WriteBuffer := ⟨none, 0, 0⟩

def reserve (b : WriteBuffer) (extra : UInt64) : Except Fault WriteBuffer :=
  if b.len + extra ≤ b.cap then .ok b
  else do
    let newCap ← reserveLoop (b.len + extra) 64 (if b.cap = 0 then 64 else b.cap * 2)
    return { b with data := some (realloc b.data newCap.toNat), cap := newCap }

def u8 (b : WriteBuffer) (v : UInt8) : Except Fault WriteBuffer := do
  let b ← b.reserve 1
  let data ← store b.data b.len.toNat v
  return { b with data := some data, len := b.len + 1 }

def bytes (b : WriteBuffer) (p : Ptr) (n : UInt64) : Except Fault WriteBuffer := do
  let b ← b.reserve n
  if 0 < n then
    let src ← load p n.toNat
    let data ← memcpy b.data b.len.toNat src
    return { b with data := some data, len := b.len + n }
  else return b

def varint (b : WriteBuffer) (v : UInt64) : Except Fault WriteBuffer := do
  let b ← b.reserve 10
  let start := b.len.toNat
  let (data, p) ← varintWriteAt b.data start v
  return { b with data := some data, len := b.len + UInt64.ofNat (p - start) }

def double (b : WriteBuffer) (d : UInt64) : Except Fault WriteBuffer :=
  b.bytes (some (doubleBytes d)) 8

end WriteBuffer

/-! ## Calls -/

/-- `n` bytes that can be read at `p`. -/
structure Source where
  p : Ptr
  n : UInt64
  bytes : List UInt8
  load_eq : load p n.toNat = .ok bytes

/-- A call of a writer. -/
inductive WriteCall
  | u8 (v : UInt8)
  | bytes (src : Source)
  | varint (v : UInt64)
  | double (d : UInt64)

namespace WriteCall

def apply : WriteCall → WriteBuffer → Except Fault WriteBuffer
  | .u8 v, b => b.u8 v
  | .bytes src, b => b.bytes src.p src.n
  | .varint v, b => b.varint v
  | .double d, b => b.double d

/-- The call on the list of `Value/Pack`. -/
def append : WriteCall → Wbuf → Except Fault Wbuf
  | .u8 v, b => .ok (wbufU8 b v)
  | .bytes src, b => wbufBytes b src.p src.n.toNat
  | .varint v, b => .ok (wbufVarint b v)
  | .double d, b => .ok (wbufDouble b d)

/-- How many bytes the call reserves. -/
def reserved : WriteCall → UInt64
  | .u8 _ => 1
  | .bytes src => src.n
  | .varint _ => 10
  | .double _ => 8

/-- What the call writes. -/
def written : WriteCall → List UInt8
  | .u8 v => [v]
  | .bytes src => src.bytes
  | .varint v => varintWrite v
  | .double d => doubleBytes d

/-- The calls one after another. -/
def applyAll (calls : List WriteCall) (b : WriteBuffer) : Except Fault WriteBuffer :=
  calls.foldlM (fun b c => c.apply b) b

def appendAll (calls : List WriteCall) (b : Wbuf) : Except Fault Wbuf :=
  calls.foldlM (fun b c => c.append b) b

/-- What the calls write, in their order. -/
def writtenAll (calls : List WriteCall) : List UInt8 := calls.flatMap written

end WriteCall

/-! ## Specifications -/

/-- The first `len` bytes are these, in a block of `cap` cells. -/
structure WriteBuffer.Holds (b : WriteBuffer) (bs : List UInt8) : Prop where
  len_eq : b.len.toNat = bs.length
  len_le : b.len ≤ b.cap
  cells_eq : (b.data.getD []).length = b.cap.toNat
  begins : BeginsWith b.data bs

/-- What the capacity is doubled from. -/
def WriteBuffer.firstCap (b : WriteBuffer) : ℕ := if b.cap = 0 then 64 else b.cap.toNat * 2

/-- `wbuf_reserve` leaves the buffer, or doubles its capacity until there is room: in numbers, so
that no word on the way has wrapped. -/
structure WriteBuffer.Reserves (b : WriteBuffer) (extra : UInt64) (r : WriteBuffer) : Prop where
  fits : b.len.toNat + extra.toNat < 2 ^ 64
  doubled : r = b ∨ ∃ k, r.cap.toNat = b.firstCap * 2 ^ k ∧
    ∀ j < k, b.firstCap * 2 ^ j < b.len.toNat + extra.toNat
  len_eq : r.len = b.len
  room : r.len.toNat + extra.toNat ≤ r.cap.toNat

/-- The call writes inside what it reserves, and behind what the buffer holds. -/
structure WriteCall.Appends (c : WriteCall) (bs : List UInt8) (b r a : WriteBuffer) : Prop where
  before : b.Holds bs
  reserve_eq : b.reserve c.reserved = .ok r
  reserves : b.Reserves c.reserved r
  within : c.written.length ≤ c.reserved.toNat
  apply_eq : c.apply b = .ok a
  cap_eq : a.cap = r.cap
  after : a.Holds (bs ++ c.written)

/-! ## Reserving -/

/-- A capacity is doubled only below a half of the word, and that often at most. -/
theorem reserveLoop_ok {need : UInt64} (hneed : need.toNat ≤ 2 ^ 63) (fuel : ℕ) {newCap : UInt64}
    (hfuel : 2 ^ 63 ≤ newCap.toNat * 2 ^ fuel) :
    ∃ k n, reserveLoop need fuel newCap = .ok n ∧ n.toNat = newCap.toNat * 2 ^ k ∧
      need ≤ n ∧ ∀ j < k, newCap.toNat * 2 ^ j < need.toNat := by
  induction fuel generalizing newCap with
  | zero =>
    have hge : need ≤ newCap := UInt64.le_iff_toNat_le.mpr (by omega)
    refine ⟨0, newCap, if_neg (UInt64.not_lt.mpr hge), by rw [pow_zero, Nat.mul_one], hge, ?_⟩
    exact fun j hj => absurd hj (Nat.not_lt_zero j)
  | succ fuel ih =>
    by_cases hlt : newCap < need
    · have hnat : newCap.toNat < need.toNat := UInt64.lt_iff_toNat_lt.mp hlt
      have htwice : (newCap * 2).toNat = newCap.toNat * 2 := by
        rw [UInt64.toNat_mul]
        exact Nat.mod_eq_of_lt (by show newCap.toNat * 2 < 2 ^ 64; omega)
      have hfuel' : 2 ^ 63 ≤ (newCap * 2).toNat * 2 ^ fuel := by
        rwa [htwice, Nat.mul_assoc, ← pow_succ']
      obtain ⟨k, n, hn, hsize, hge, hbelow⟩ := ih hfuel'
      refine ⟨k + 1, n, ?_, ?_, hge, fun j hj => ?_⟩
      · rw [reserveLoop, if_pos hlt, hn]
      · rw [hsize, htwice, pow_succ', Nat.mul_assoc]
      · cases j with
        | zero => rwa [pow_zero, Nat.mul_one]
        | succ j =>
          have hj' := hbelow j (Nat.lt_of_succ_lt_succ hj)
          rwa [pow_succ', ← Nat.mul_assoc, ← htwice]
    · refine ⟨0, newCap, ?_, by rw [pow_zero, Nat.mul_one], UInt64.not_lt.mp hlt, ?_⟩
      · rw [reserveLoop, if_neg hlt]
      · exact fun j hj => absurd hj (Nat.not_lt_zero j)

namespace WriteBuffer
variable {b r : WriteBuffer} {bs : List UInt8} {extra : UInt64}

theorem init_holds : init.Holds [] := ⟨rfl, UInt64.le_refl 0, rfl, List.nil_prefix⟩

theorem reserve_ok (h : b.Holds bs) (hfit : bs.length + extra.toNat ≤ 2 ^ 63) :
    ∃ r, b.reserve extra = .ok r ∧ b.Reserves extra r ∧ r.Holds bs := by
  have hlen := h.len_eq
  have hneed : (b.len + extra).toNat = b.len.toNat + extra.toNat := by
    rw [UInt64.toNat_add]
    exact Nat.mod_eq_of_lt (by show b.len.toNat + extra.toNat < 2 ^ 64; omega)
  rw [reserve]
  by_cases henough : b.len + extra ≤ b.cap
  · have hroom := UInt64.le_iff_toNat_le.mp henough
    rw [if_pos henough]
    exact ⟨b, rfl, ⟨by omega, .inl rfl, rfl, by omega⟩, h⟩
  · have hcap := UInt64.lt_iff_toNat_lt.mp (UInt64.not_le.mp henough)
    have hfirst : (if b.cap = 0 then 64 else b.cap * 2 : UInt64).toNat = b.firstCap := by
      rw [firstCap]
      split
      · rfl
      · rw [UInt64.toNat_mul]
        exact Nat.mod_eq_of_lt (by show b.cap.toNat * 2 < 2 ^ 64; omega)
    have hpos : 0 < b.firstCap := by
      rw [firstCap]
      split
      · norm_num
      · have hne : b.cap.toNat ≠ 0 := fun hzero => ‹¬ b.cap = 0› (UInt64.toNat_inj.mp hzero)
        omega
    have hhalf : (b.len + extra).toNat ≤ 2 ^ 63 := by omega
    have hfuel : 2 ^ 63 ≤ (if b.cap = 0 then 64 else b.cap * 2 : UInt64).toNat * 2 ^ 64 := by
      rw [hfirst]
      omega
    obtain ⟨k, n, hn, hsize, hge, hbelow⟩ := reserveLoop_ok hhalf 64 hfuel
    have hroom := UInt64.le_iff_toNat_le.mp hge
    rw [hfirst] at hsize hbelow
    rw [hneed] at hroom hbelow
    rw [if_neg henough, hn]
    refine ⟨_, rfl, ⟨by omega, .inr ⟨k, hsize, hbelow⟩, rfl, hroom⟩, h.len_eq, ?_, ?_, ?_⟩
    · exact UInt64.le_iff_toNat_le.mpr (by show b.len.toNat ≤ n.toNat; omega)
    · exact realloc_length _ _
    · exact realloc_beginsWith h.begins (by omega)

end WriteBuffer

/-! ## Writing -/

/-- A pointer into a block that begins with `bs` moves on by what it writes. -/
theorem varintWriteAt_ok {cells : Cells UInt8} {bs : List UInt8} (v : UInt64)
    (h : BeginsWith (some cells) bs) (hin : bs.length + (varintWrite v).length ≤ cells.length) :
    ∃ q, varintWriteAt (some cells) bs.length v = .ok (q, bs.length + (varintWrite v).length) ∧
      q.length = cells.length ∧ BeginsWith (some q) (bs ++ varintWrite v) := by
  induction v using varintWrite.induct generalizing cells bs with
  | case1 v hge ih =>
    rw [varintWrite, if_pos hge] at hin ⊢
    rw [List.length_cons] at hin ⊢
    obtain ⟨q, hstore, hlen, hq⟩ := store_ok h (by omega) (v ||| 0x80).toUInt8
    obtain ⟨q', hrest, hlen', hq'⟩ := ih hq (by
      rw [List.length_append, List.length_singleton]
      omega)
    rw [List.length_append, List.length_singleton] at hrest
    refine ⟨q', ?_, hlen'.trans hlen, ?_⟩
    · rw [varintWriteAt, if_pos hge, hstore, ok_bind, hrest]
      congr 2
      omega
    · rwa [List.append_assoc] at hq'
  | case2 v hlt =>
    rw [varintWrite, if_neg hlt] at hin ⊢
    rw [List.length_singleton] at hin ⊢
    obtain ⟨q, hstore, hlen, hq⟩ := store_ok h (by omega) v.toUInt8
    refine ⟨q, ?_, hlen, hq⟩
    rw [varintWriteAt, if_neg hlt, hstore]
    rfl

theorem Source.bytes_length (src : Source) : src.bytes.length = src.n.toNat :=
  (load_ok src.load_eq).1

theorem doubleBytes_length (d : UInt64) : (doubleBytes d).length = 8 := by
  rw [doubleBytes, List.length_map, List.length_range]

namespace WriteBuffer
variable {b r : WriteBuffer} {bs ws : List UInt8} {extra : UInt64}

/-- `x` is the buffer `r` with `ws` put behind the `bs` it holds. -/
def Puts (r : WriteBuffer) (bs ws : List UInt8) (x : Except Fault WriteBuffer) : Prop :=
  ∃ q, x = .ok ⟨q, r.len + UInt64.ofNat ws.length, r.cap⟩ ∧
    (q.getD []).length = (r.data.getD []).length ∧ BeginsWith q (bs ++ ws)

/-- What was reserved lies in one block, behind what the buffer holds. -/
theorem Reserves.block (h : b.Reserves extra r) (hr : r.Holds bs) (hpos : 0 < extra.toNat) :
    ∃ cells, r.data = some cells ∧ BeginsWith (some cells) bs ∧
      bs.length + extra.toNat ≤ cells.length := by
  have hroom := h.room
  have hlen := hr.len_eq
  have hcells := hr.cells_eq
  have hbegins := hr.begins
  cases hdata : r.data with
  | none =>
    rw [hdata] at hcells
    have hzero : (0 : ℕ) = r.cap.toNat := hcells
    omega
  | some cells =>
    rw [hdata] at hcells hbegins
    have hsize : cells.length = r.cap.toNat := hcells
    exact ⟨cells, rfl, hbegins, by omega⟩

/-- Bytes within what was reserved are held then. -/
theorem Puts.holds {x : Except Fault WriteBuffer} (hput : r.Puts bs ws x) (h : b.Reserves extra r)
    (hr : r.Holds bs) (hws : ws.length ≤ extra.toNat) :
    ∃ a, x = .ok a ∧ a.cap = r.cap ∧ a.Holds (bs ++ ws) := by
  obtain ⟨q, rfl, hlen, hq⟩ := hput
  have hroom := h.room
  have hbs := hr.len_eq
  have hcap := r.cap.toNat_lt
  have hmod : ws.length % 2 ^ 64 = ws.length := Nat.mod_eq_of_lt (by omega)
  have hsum : (r.len + UInt64.ofNat ws.length).toNat = r.len.toNat + ws.length := by
    rw [UInt64.toNat_add, UInt64.toNat_ofNat', hmod]
    exact Nat.mod_eq_of_lt (by show r.len.toNat + ws.length < 2 ^ 64; omega)
  refine ⟨_, rfl, rfl, ?_, UInt64.le_iff_toNat_le.mpr ?_, hlen.trans hr.cells_eq, hq⟩
  · show (r.len + UInt64.ofNat ws.length).toNat = (bs ++ ws).length
    rw [hsum, List.length_append, hbs]
  · show (r.len + UInt64.ofNat ws.length).toNat ≤ r.cap.toNat
    omega

theorem u8_puts (v : UInt8) (h : b.reserve 1 = .ok r) (hr : b.Reserves 1 r) (hholds : r.Holds bs) :
    r.Puts bs [v] (b.u8 v) := by
  obtain ⟨cells, hcells, hbegins, hin⟩ := hr.block hholds Nat.one_pos
  obtain ⟨q, hstore, hkept, hq⟩ := store_ok hbegins hin v
  refine ⟨some q, ?_, ?_, hq⟩
  · rw [u8, h, ok_bind, hcells, hholds.len_eq, hstore]
    rfl
  · rw [hcells]
    exact hkept

theorem bytes_puts (src : Source) (h : b.reserve src.n = .ok r) (hr : b.Reserves src.n r)
    (hholds : r.Holds bs) : r.Puts bs src.bytes (b.bytes src.p src.n) := by
  have hlen := src.bytes_length
  rw [bytes, h, ok_bind]
  by_cases hpos : 0 < src.n
  · obtain ⟨cells, hcells, hbegins, hin⟩ := hr.block hholds (UInt64.lt_iff_toNat_lt.mp hpos)
    rw [← hlen] at hin
    obtain ⟨q, hcopy, hkept, hq⟩ := memcpy_ok hbegins hin
    refine ⟨some q, ?_, ?_, hq⟩
    · rw [if_pos hpos, src.load_eq, ok_bind, hcells, hholds.len_eq, hcopy, hlen, UInt64.ofNat_toNat]
      rfl
    · rw [hcells]
      exact hkept
  · have hzero : src.n.toNat = 0 :=
      Nat.le_zero.mp (UInt64.le_iff_toNat_le.mp (UInt64.not_lt.mp hpos))
    have hnil : src.bytes = [] := List.eq_nil_of_length_eq_zero (hlen.trans hzero)
    rw [if_neg hpos, hnil]
    refine ⟨r.data, ?_, rfl, ?_⟩
    · show Except.ok r = .ok ⟨r.data, r.len + 0, r.cap⟩
      rw [UInt64.add_zero]
    · rw [List.append_nil]
      exact hholds.begins

/-- No number takes more than the ten bytes that are reserved for it. -/
theorem varint_puts (v : UInt64) (h : b.reserve 10 = .ok r) (hr : b.Reserves 10 r)
    (hholds : r.Holds bs) : r.Puts bs (varintWrite v) (b.varint v) := by
  obtain ⟨cells, hcells, hbegins, hin⟩ := hr.block hholds (Nat.succ_pos 9)
  have hten : (varintWrite v).length ≤ (10 : UInt64).toNat := varintWrite_length_le v
  obtain ⟨q, hwrite, hkept, hq⟩ := varintWriteAt_ok v hbegins (by omega)
  refine ⟨some q, ?_, ?_, hq⟩
  · rw [← hholds.len_eq] at hwrite
    simp only [varint, h, ok_bind, hcells, hwrite, Nat.add_sub_cancel_left]
    rfl
  · rw [hcells]
    exact hkept

theorem double_puts (d : UInt64) (h : b.reserve 8 = .ok r) (hr : b.Reserves 8 r)
    (hholds : r.Holds bs) : r.Puts bs (doubleBytes d) (b.double d) :=
  bytes_puts ⟨some (doubleBytes d), 8, doubleBytes d, load_self _⟩ h hr hholds

end WriteBuffer

namespace WriteCall
variable {b : WriteBuffer} {bs : List UInt8}

/-- A varint may leave some of its ten bytes; the others fill what they reserve. -/
theorem reserved_bounds (c : WriteCall) :
    c.written.length ≤ c.reserved.toNat ∧ c.reserved.toNat ≤ c.written.length + 10 := by
  cases c with
  | u8 v => exact ⟨Nat.le_refl 1, Nat.le_add_right 1 10⟩
  | bytes src =>
    rw [written, reserved, src.bytes_length]
    omega
  | varint v => exact ⟨varintWrite_length_le v, Nat.le_add_left _ _⟩
  | double d =>
    rw [written, doubleBytes_length]
    exact ⟨Nat.le_refl 8, Nat.le_add_right 8 10⟩

/-- One call: what it writes goes behind what the buffer holds. -/
theorem appends (c : WriteCall) (h : b.Holds bs) (hfit : bs.length + c.written.length ≤ 2 ^ 62) :
    ∃ r a, c.Appends bs b r a := by
  obtain ⟨hwithin, hover⟩ := c.reserved_bounds
  have hhalf : bs.length + c.reserved.toNat ≤ 2 ^ 63 := by omega
  obtain ⟨r, hres, hr, hholds⟩ := WriteBuffer.reserve_ok h hhalf
  have hput : r.Puts bs c.written (c.apply b) := by
    cases c with
    | u8 v => exact WriteBuffer.u8_puts v hres hr hholds
    | bytes src => exact WriteBuffer.bytes_puts src hres hr hholds
    | varint v => exact WriteBuffer.varint_puts v hres hr hholds
    | double d => exact WriteBuffer.double_puts d hres hr hholds
  obtain ⟨a, happly, hcap, hafter⟩ := hput.holds hr hholds hwithin
  exact ⟨r, a, h, hres, hr, hwithin, happly, hcap, hafter⟩

theorem append_eq (c : WriteCall) (bs : Wbuf) : c.append bs = .ok (bs ++ c.written) := by
  cases c with
  | bytes src =>
    rw [append, wbufBytes, written]
    split
    · rw [src.load_eq]
      rfl
    · have hnil : src.bytes = [] := List.eq_nil_of_length_eq_zero (by
        rw [src.bytes_length]
        omega)
      rw [hnil, List.append_nil]
  | u8 _ | varint _ | double _ => rfl

/-! ## Any calls -/

theorem writtenAll_cons (c : WriteCall) (cs : List WriteCall) :
    writtenAll (c :: cs) = c.written ++ writtenAll cs := List.flatMap_cons

theorem writtenAll_append (cs cs' : List WriteCall) :
    writtenAll (cs ++ cs') = writtenAll cs ++ writtenAll cs' := List.flatMap_append

theorem writtenAll_singleton (c : WriteCall) : writtenAll [c] = c.written := by
  rw [writtenAll_cons]
  exact List.append_nil _

theorem applyAll_ok {calls : List WriteCall} (h : (writtenAll calls).length ≤ 2 ^ 62) :
    ∃ b, applyAll calls WriteBuffer.init = .ok b ∧ b.Holds (writtenAll calls) := by
  induction calls using List.reverseRecOn with
  | nil => exact ⟨_, rfl, WriteBuffer.init_holds⟩
  | append_singleton pre c ih =>
    rw [writtenAll_append, writtenAll_singleton] at h ⊢
    rw [List.length_append] at h
    obtain ⟨b, hb, hholds⟩ := ih (by omega)
    obtain ⟨r, a, happends⟩ := c.appends hholds h
    refine ⟨a, ?_, happends.after⟩
    show (pre ++ [c]).foldlM (fun b c => c.apply b) WriteBuffer.init = .ok a
    have hb' : pre.foldlM (fun b c => c.apply b) WriteBuffer.init = .ok b := hb
    rw [List.foldlM_append, hb', ok_bind, List.foldlM_cons, happends.apply_eq]
    rfl

theorem appendAll_ok (calls : List WriteCall) (bs : Wbuf) :
    appendAll calls bs = .ok (bs ++ writtenAll calls) := by
  induction calls generalizing bs with
  | nil =>
    rw [writtenAll, List.flatMap_nil, List.append_nil]
    rfl
  | cons c calls ih =>
    show (c.append bs >>= fun b => appendAll calls b) = _
    rw [append_eq, ok_bind, ih, writtenAll_cons, List.append_assoc]

/-- Over any calls the machine buffer holds what the list does, and each call writes inside the room
that was doubled for it. -/
theorem buffer_refines_list {calls : List WriteCall}
    (h : (writtenAll calls).length ≤ 2 ^ 62) :
    (∃ b, applyAll calls WriteBuffer.init = .ok b ∧ b.Holds (writtenAll calls) ∧
      appendAll calls [] = .ok (writtenAll calls)) ∧
    ∀ pre c rest, calls = pre ++ c :: rest → ∃ b r a,
      applyAll pre WriteBuffer.init = .ok b ∧ c.Appends (writtenAll pre) b r a := by
  refine ⟨?_, ?_⟩
  · obtain ⟨b, hb, hholds⟩ := applyAll_ok h
    exact ⟨b, hb, hholds, appendAll_ok calls []⟩
  · rintro pre c rest rfl
    have hlen : (writtenAll pre).length + c.written.length ≤ 2 ^ 62 := by
      rw [writtenAll_append, writtenAll_cons, List.length_append, List.length_append] at h
      omega
    have hpre : (writtenAll pre).length ≤ 2 ^ 62 := by omega
    obtain ⟨b, hb, hholds⟩ := applyAll_ok hpre
    obtain ⟨r, a, happends⟩ := c.appends hholds hlen
    exact ⟨b, r, a, hb, happends⟩

/-- Two groups for 300, and a byte behind them. -/
theorem buffer_refines_list_300 :
    ∃ b, applyAll [.varint 300, .u8 7] WriteBuffer.init = .ok b ∧ b.Holds [0xac, 0x02, 0x07] := by
  have hwritten : writtenAll [.varint 300, .u8 7] = [0xac, 0x02, 0x07] := by
    have hvarint : varintWrite 300 = [0xac, 0x02] := by
      rw [varintWrite, if_pos (by decide), varintWrite, if_neg (by decide)]
      rfl
    rw [writtenAll_cons, writtenAll_singleton]
    exact congrArg (· ++ [0x07]) hvarint
  have hlen : (writtenAll [.varint 300, .u8 7]).length ≤ 2 ^ 62 := by
    rw [hwritten]
    norm_num
  obtain ⟨⟨b, hb, hholds, -⟩, -⟩ := buffer_refines_list hlen
  rw [hwritten] at hholds
  exact ⟨b, hb, hholds⟩

end WriteCall

end Parallax
