import Parallax.Library.Cells
import Parallax.Value.Clone

/-! The item blocks of arrays and objects cell by cell, as `calloc`, `realloc` and the stores of
`value/value.c` and `value/clone.c` leave them: the list of entries that a tree has for a block is
what the block begins with. -/
namespace Parallax
open Memory
set_option autoImplicit false
set_option maxHeartbeats 250000

/-! ## Blocks -/

/-- `items` or `props`, with `n` and `cap`. -/
structure KvBlock where
  items : BlockPtr Entry
  n : ℕ
  cap : ℕ

def zeroKv : Entry := ⟨false, 0, none, 0, none⟩

namespace KvBlock

/-- The block of `value_arr` and `value_obj`. -/
def init (initialCap : ℕ) : KvBlock :=
  ⟨if initialCap = 0 then none else some (calloc zeroKv initialCap), 0, initialCap⟩

def grow (b : KvBlock) : Except Fault KvBlock := do
  let newCap := if b.cap = 0 then 4 else b.cap * 2
  let newItems ← memset zeroKv (realloc b.items newCap) b.cap (newCap - b.cap)
  return { b with items := some newItems, cap := newCap }

/-- The block the builders fill slot `n` of. -/
def reserve (b : KvBlock) : Except Fault KvBlock := if b.n = b.cap then b.grow else .ok b

/-- The tail the builders share: `items[n++] = kv`. -/
def append (b : KvBlock) (kv : Entry) : Except Fault KvBlock := do
  let b ← b.reserve
  let items ← store b.items b.n kv
  return { b with items := some items, n := b.n + 1 }

end KvBlock

/-- The loop of `clone_kv_block`, from `src[i]` on. -/
def cloneKvLoop : List Entry → ℕ → Cells Entry → Except Fault (Cells Entry)
  | [], _, dst => .ok dst
  | ⟨isIntKey, ikey, skey, skeyLen, val⟩ :: rest, i, dst => do
    let key ← cloneKey skey skeyLen
    let child ← valueClone val
    let dst ← store (some dst) i ⟨isIntKey, ikey, key, skeyLen, child⟩
    cloneKvLoop rest (i + 1) dst

def cloneKvBlock (src : List Entry) : Except Fault (BlockPtr Entry) :=
  if src.length = 0 then .ok none
  else (cloneKvLoop src 0 (calloc zeroKv src.length)).map some

/-! ## What a block holds -/

/-- The block has the cells, the count and the capacity, and begins with the entries. -/
structure KvBlock.Stores (b : KvBlock) (v : KvVec Entry) : Prop where
  null_iff : b.items = none ↔ v.slots = 0
  length_eq : (b.items.getD []).length = v.slots
  n_eq : b.n = v.n
  cap_eq : b.cap = v.cap
  begins : BeginsWith b.items v.entries

namespace KvBlock
variable {b : KvBlock} {v w : KvVec Entry}

theorem init_stores (initialCap : ℕ) : (init initialCap).Stores ⟨initialCap, [], initialCap⟩ := by
  by_cases h : initialCap = 0
  · subst h
    exact ⟨⟨fun _ => rfl, fun _ => rfl⟩, rfl, rfl, rfl, List.nil_prefix⟩
  · have hitems : (init initialCap).items = some (calloc zeroKv initialCap) := if_neg h
    refine ⟨⟨fun hnone => ?_, fun hzero => absurd hzero h⟩, ?_, rfl, rfl, List.nil_prefix⟩
    · rw [hitems] at hnone
      cases hnone
    · rw [hitems]
      exact calloc_length zeroKv initialCap

/-- Some block of cells is what the tree says. -/
theorem exists_stores (hroom : v.Room) : ∃ b : KvBlock, b.Stores v := by
  have hs := hroom.slots_eq
  have hn := hroom.n_le
  by_cases hzero : v.slots = 0
  · have hentries : v.entries = [] := List.length_eq_zero_iff.mp (show v.n = 0 by omega)
    refine ⟨⟨none, v.n, v.cap⟩, ⟨fun _ => hzero, fun _ => rfl⟩, hzero.symm, rfl, rfl, ?_⟩
    rw [hentries]
    exact List.nil_prefix
  · refine ⟨⟨some (v.entries.map some ++ List.replicate (v.slots - v.n) none), v.n, v.cap⟩,
      ⟨fun hnone => ?_, fun h => absurd h hzero⟩, ?_, rfl, rfl, List.prefix_append _ _⟩
    · cases hnone
    · show (v.entries.map some ++ List.replicate (v.slots - v.n) none).length = v.slots
      rw [List.length_append, List.length_map, List.length_replicate, ← KvVec.n]
      omega

theorem grow_stores (h : b.Stores v) (hroom : v.Room) :
    ∃ b', b.grow = .ok b' ∧ b'.Stores v.grow := by
  have hn := hroom.n_le
  have hcap : v.cap ≤ v.grow.cap := by
    show v.cap ≤ if v.cap = 0 then 4 else v.cap * 2
    split <;> omega
  have hpos : v.grow.cap ≠ 0 := by
    show (if v.cap = 0 then 4 else v.cap * 2) ≠ 0
    split <;> omega
  have hlen := realloc_length b.items v.grow.cap
  have hbegins := realloc_beginsWith h.begins (hn.trans hcap)
  have hin : v.cap + (v.grow.cap - v.cap) ≤ (realloc b.items v.grow.cap).length := by omega
  obtain ⟨items, hset, hitems, hkept⟩ := memset_ok zeroKv hbegins hn hin
  refine ⟨⟨some items, b.n, v.grow.cap⟩, ?_, ⟨fun hnone => ?_, fun hzero => ?_⟩, ?_, h.n_eq, rfl,
    hkept⟩
  · have hnew : (if b.cap = 0 then 4 else b.cap * 2) = v.grow.cap := by
      rw [h.cap_eq]
      rfl
    rw [grow, hnew, h.cap_eq, hset]
    rfl
  · cases hnone
  · exact absurd hzero hpos
  · exact hitems.trans hlen

theorem reserve_stores (h : b.Stores v) (hroom : v.Room) :
    ∃ b', b.reserve = .ok b' ∧ b'.Stores (if v.n = v.cap then v.grow else v) := by
  rw [reserve, h.n_eq, h.cap_eq]
  split
  · exact grow_stores h hroom
  · exact ⟨b, rfl, h⟩

/-- A store behind the entries, into a cell that is there. -/
theorem store_stores (h : b.Stores v) (hslot : v.n < v.slots) (kv : Entry) :
    ∃ items, store b.items b.n kv = .ok items ∧
      (⟨some items, b.n + 1, b.cap⟩ : KvBlock).Stores { v with entries := v.entries ++ [kv] } := by
  obtain ⟨items, hitems⟩ : ∃ items, b.items = some items := by
    refine Option.ne_none_iff_exists'.mp fun hnone => ?_
    have hzero := h.null_iff.mp hnone
    omega
  have hlen := h.length_eq
  have hbegins := h.begins
  rw [hitems] at hlen hbegins
  obtain ⟨cells, hstore, hcells, hkept⟩ := store_ok hbegins (hslot.trans_eq hlen.symm) kv
  refine ⟨cells, ?_, ⟨fun hnone => ?_, fun hzero => ?_⟩, hcells.trans hlen, ?_, h.cap_eq, hkept⟩
  · rw [hitems, h.n_eq]
    exact hstore
  · cases hnone
  · have hzero' : v.slots = 0 := hzero
    omega
  · have hn : b.n = v.entries.length := h.n_eq
    show b.n + 1 = (v.entries ++ [kv]).length
    rw [hn, List.length_append, List.length_singleton]

/-- An append writes behind the entries, into a cell of the block. -/
theorem append_stores (h : b.Stores v) (hroom : v.Room) {kv : Entry} (hw : v.append kv = .ok w) :
    ∃ b', b.append kv = .ok b' ∧ b'.Stores w := by
  obtain ⟨c, hc, hstores⟩ := reserve_stores h hroom
  have hn : (if v.n = v.cap then v.grow else v).n = v.n := by
    split <;> rfl
  have hslot := hn.trans_lt (KvVec.grow_room hroom).2
  obtain ⟨items, hitems, hstored⟩ := store_stores hstores hslot kv
  unfold KvVec.append at hw
  dsimp only at hw
  rw [if_pos hslot] at hw
  cases hw
  refine ⟨_, ?_, hstored⟩
  rw [append, hc, ok_bind, hitems]
  rfl

end KvBlock

/-! ## The block of a clone -/

theorem cloneKvLoop_ok {entries items pre : List Entry} (h : cloneItems entries = .ok items)
    {dst : Cells Entry} (hdst : BeginsWith (some dst) pre)
    (hlen : dst.length = pre.length + entries.length) :
    ∃ cells, cloneKvLoop entries pre.length dst = .ok cells ∧ cells.length = dst.length ∧
      BeginsWith (some cells) (pre ++ items) := by
  induction entries generalizing items pre dst with
  | nil =>
    rw [cloneItems] at h
    cases h
    refine ⟨dst, rfl, rfl, ?_⟩
    rwa [List.append_nil]
  | cons kv entries ih =>
    obtain ⟨isIntKey, ikey, skey, skeyLen, val⟩ := kv
    rw [cloneItems] at h
    obtain ⟨key, hkey, h⟩ := bind_ok h
    obtain ⟨child, hchild, h⟩ := bind_ok h
    obtain ⟨rest, hrest, h⟩ := bind_ok h
    cases h
    rw [List.length_cons] at hlen
    obtain ⟨next, hnext, hsame, hbegins⟩ := store_ok hdst (by omega)
      ⟨isIntKey, ikey, key, skeyLen, child⟩
    have hcount : (pre ++ [(⟨isIntKey, ikey, key, skeyLen, child⟩ : Entry)]).length =
        pre.length + 1 := List.length_append
    obtain ⟨cells, hcells, hall, hkept⟩ := ih hrest hbegins (by omega)
    refine ⟨cells, ?_, hall.trans hsame, ?_⟩
    · rw [cloneKvLoop, hkey, ok_bind, hchild, ok_bind, hnext, ok_bind, ← hcount]
      exact hcells
    · rwa [List.append_assoc] at hkept

/-- A clone has as many cells as entries, and no block at all for none. -/
theorem cloneKvBlock_stores {entries items : List Entry} (h : cloneItems entries = .ok items)
    (hlen : items.length = entries.length) :
    ∃ p, cloneKvBlock entries = .ok p ∧
      (⟨p, entries.length, entries.length⟩ : KvBlock).Stores ⟨items.length, items, items.length⟩ := by
  by_cases hzero : entries.length = 0
  · have hitems := List.length_eq_zero_iff.mp (hlen.trans hzero)
    subst hitems
    exact ⟨none, if_pos hzero, ⟨fun _ => rfl, fun _ => rfl⟩, rfl, hzero, hzero, List.nil_prefix⟩
  · have hdst : BeginsWith (some (calloc zeroKv entries.length)) ([] : List Entry) :=
      List.nil_prefix
    obtain ⟨cells, hcells, hcount, hbegins⟩ := cloneKvLoop_ok h hdst
      ((calloc_length zeroKv entries.length).trans (Nat.zero_add _).symm)
    refine ⟨some cells, ?_, ⟨fun hnone => ?_, fun hnone => ?_⟩, ?_, hlen.symm, hlen.symm, hbegins⟩
    · rw [cloneKvBlock, if_neg hzero]
      exact congrArg (Except.map some) hcells
    · cases hnone
    · exact absurd (hlen.symm.trans hnone) hzero
    · exact hcount.trans ((calloc_length zeroKv entries.length).trans hlen.symm)

end Parallax
