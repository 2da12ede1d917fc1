import Parallax.Library.OwnedArray
import Parallax.Value.Canonical
import Parallax.Bridge.Callable

/-! The blocks that `malloc`, `calloc` and `realloc` give out, with the pointers between them, and
which blocks a tree owns. The functions of `value/value.h` on a tree are in `Value`; here a tree is
spread over the heap, one block for each node, item block and string. -/
namespace Parallax.Stored
open Memory Separation Separation.Assertion
set_option autoImplicit false
set_option maxHeartbeats 250000

/-! ## Blocks -/

/-- A `kv_t`. -/
structure Row where
  isIntKey : Bool
  ikey : Int64
  skey : Option ℕ
  skeyLen : ℕ
  val : Option ℕ
deriving DecidableEq, Repr

def zeroRow : Row := ⟨false, 0, none, 0, none⟩

/-- `items` or `props`, with `n` and `cap`. -/
structure Items where
  items : Option ℕ
  n : ℕ
  cap : ℕ
deriving DecidableEq, Repr

/-- A `value_t`. -/
inductive Node
  | null
  | bool (b : Bool)
  | long (i : Int64)
  | double (d : UInt64)
  | str (p : Option ℕ) (len : ℕ)
  | arr (items : Items)
  | obj (cls : Option ℕ) (clen : ℕ) (props : Items)
  | err (cls msg : Option ℕ) (code : Int64) (trace : Option ℕ)
deriving DecidableEq, Repr

/-- What `calloc` and the tag make of a node. -/
def Node.zero : ValTag → Node
  | .null => .null
  | .bool => .bool false
  | .long => .long 0
  | .double => .double 0
  | .str => .str none 0
  | .arr => .arr ⟨none, 0, 0⟩
  | .obj => .obj none 0 ⟨none, 0, 0⟩
  | .err => .err none none 0 none

/-- `px_callable_t`. -/
structure Callable where
  kind : Bridge.PxCallKind
  className : Option ℕ
  fnName : Option ℕ
  bootstrap : Option ℕ
  closureWrapper : Option ℕ
  closureCaptures : Option ℕ
deriving DecidableEq, Repr

/-- `task_t`; a thread is known by a number. -/
structure TaskT where
  thread : ℕ
  threadJoinable : Bool
  slot : ℕ
  args : Option ℕ
  userData : Option ℕ
  ok : Bool
  result : Option ℕ
  error : Option ℕ
deriving DecidableEq, Repr

/-- `worker_ctx_t`. -/
structure WorkerCtx where
  wg : ℕ
  task : ℕ
deriving DecidableEq, Repr

/-- `wait_group_t`, less the lock, the condition and the runner. -/
structure WaitGroupT where
  remaining : ℤ
  tasks : Option ℕ
  count : ℕ
  cap : ℕ
deriving DecidableEq, Repr

inductive Block
  | node (v : Node)
  | items (rows : Cells Row)
  | bytes (chars : Cells UInt8)
  | payload (c : Callable)
  | group (g : WaitGroupT)
  | tasks (pointers : Cells ℕ)
  | task (t : TaskT)
  | ctx (x : WorkerCtx)
deriving DecidableEq, Repr

abbrev Code (α : Type) := Program Block α

def Block.rows : CellKind Block Row where
  block := .items
  get
    | .items rows => some rows
    | _ => none
  get_block _ := rfl

def Block.pointers : CellKind Block ℕ where
  block := .tasks
  get
    | .tasks pointers => some pointers
    | _ => none
  get_block _ := rfl

section Code

/-- A block through a pointer to its type. -/
def readNode (p : Option ℕ) : Code Node := do
  match ← read p with
  | .node v => return v
  | _ => attempt (.error .wrongType)

def readChars (p : Option ℕ) : Code (Cells UInt8) := do
  match ← read p with
  | .bytes chars => return chars
  | _ => attempt (.error .wrongType)

abbrev readItems (p : Option ℕ) : Code (Cells Row) := readCells Block.rows p

/-- `items[i]`. -/
abbrev readRow (p : Option ℕ) (i : ℕ) : Code Row := readCell Block.rows p i

/-- `items[i] = row`. -/
abbrev storeRow (p : Option ℕ) (i : ℕ) (row : Row) : Code Unit := storeCell Block.rows p i row

/-! ## Bytes -/

/-- What a `const char *` points at: an object that is not on the heap, a block, or a byte inside
one. -/
inductive Source
  | object (p : Ptr)
  | block (a : Option ℕ)
  | inside (a offset : ℕ)

namespace Source

def isNull : Source → Bool
  | .object p => p.isNone
  | .block a => a.isNone
  | .inside _ _ => false

/-- The bytes behind the pointer, which it takes a block to be allocated for. -/
def view : Source → Code Ptr
  | .object p => return p
  | .block none => return none
  | .block (some a) => do
    let chars ← readChars (some a)
    return some (initialised chars)
  | .inside a offset => do
    let chars ← readChars (some a)
    return some ((initialised chars).drop offset)

end Source

variable [Allocator Block]

def mallocBytes (len : ℕ) : Code ℕ := malloc (.bytes (List.replicate len none))

/-- `memcpy(dst, src, n)`. -/
def copyBytes (dst : ℕ) (src : Source) (n : ℕ) : Code Unit := do
  let p ← src.view
  let bs ← attempt (load p n)
  let chars ← readChars (some dst)
  let chars ← attempt (memcpy (some chars) 0 bs)
  write (some dst) (.bytes chars)

/-- `dst[i] = c`. -/
def storeByte (dst : ℕ) (i : ℕ) (c : UInt8) : Code Unit := do
  let chars ← readChars (some dst)
  let chars ← attempt (store (some chars) i c)
  write (some dst) (.bytes chars)

/-- A copy with a NUL behind it. -/
def copyTerminated (src : Source) (len : ℕ) : Code ℕ := do
  let p ← mallocBytes (len + 1)
  copyBytes p src len
  storeByte p len 0
  return p

end Code

/-! ## What is owned -/

/-- A pointer that owns the bytes it points to. -/
def chars : Ptr → Option ℕ → Assertion Block
  | none, none => 1
  | some bs, some a => pointsTo a (.bytes (bs.map some))
  | _, _ => ⊥

/-- A pointer that owns a block which begins with the bytes. -/
def buffer : Ptr → Option ℕ → Assertion Block
  | none, none => 1
  | some bs, some a => ⨆ cs : Cells UInt8, ⨆ _ : initialised cs = bs, pointsTo a (.bytes cs)
  | _, _ => ⊥

/-- With this owned, the bytes behind the pointer are these. -/
structure Source.Shows (src : Source) (p : Ptr) (A : Assertion Block) : Prop where
  view : Reads A src.view p
  isNull : ∀ s, A s → src.isNull = p.isNone

/-- The item block: NULL for no slots, else with the rows in front. -/
abbrev itemBlock (rows : List Row) (cap : ℕ) : Option ℕ → Assertion Block :=
  array Block.rows rows cap

theorem le_itemBlock {a cap : ℕ} {cells : Cells Row} {rows : List Row} (hpos : 0 < cap)
    (hcap : cells.length = cap) (hrows : BeginsWith (some cells) rows) :
    pointsTo a (.items cells) ≤ itemBlock rows cap (some a) :=
  le_iSup₂_of_le cells ⟨hpos, hcap, hrows⟩ le_rfl

mutual

/-- The blocks of a tree whose root is at the address: none is owned twice, as every pointer to one
is the only one. -/
def tree : Value → ℕ → Assertion Block
  | .null, a => pointsTo a (.node .null)
  | .bool b, a => pointsTo a (.node (.bool b))
  | .long i, a => pointsTo a (.node (.long i))
  | .double d, a => pointsTo a (.node (.double d))
  | .str p len, a => ⨆ q, pointsTo a (.node (.str q len)) * chars p q
  | .arr ⟨slots, entries, cap⟩, a => ⨆ (b : Items) (rows : List Row),
      ⨆ _ : slots = cap ∧ b.n = entries.length ∧ b.cap = cap,
      pointsTo a (.node (.arr b)) * (itemBlock rows b.cap b.items * entriesAt entries rows)
  | .obj cls clen ⟨slots, entries, cap⟩, a => ⨆ (c : Option ℕ) (b : Items) (rows : List Row),
      ⨆ _ : slots = cap ∧ b.n = entries.length ∧ b.cap = cap,
      pointsTo a (.node (.obj c clen b)) *
        (chars cls c * (itemBlock rows b.cap b.items * entriesAt entries rows))
  | .err cls msg code trace, a => ⨆ (c : Option ℕ) (m : Option ℕ) (t : Option ℕ),
      pointsTo a (.node (.err c m code t)) * (chars cls c * (chars msg m * chars trace t))

def child : Option Value → Option ℕ → Assertion Block
  | none, none => 1
  | some v, some a => tree v a
  | _, _ => ⊥

/-- What the entries own, beside the block they are in. -/
def entriesAt : List Entry → List Row → Assertion Block
  | [], [] => 1
  | ⟨isIntKey, ikey, skey, skeyLen, val⟩ :: entries, row :: rows =>
    (⨆ _ : row.isIntKey = isIntKey ∧ row.ikey = ikey ∧ row.skeyLen = skeyLen,
      chars skey row.skey * child val row.val) * entriesAt entries rows
  | _, _ => ⊥

end

/-! ## Reading -/

section
variable {β : Type} {F : Assertion Block} {Q : β → Assertion Block}

theorem readNode_reads (a : ℕ) (v : Node) : Reads (pointsTo a (.node v)) (readNode (some a)) v :=
  (Reads.read a _).andThen (Reads.ret _ _)

theorem readNode_bind {a : ℕ} {v : Node} {f : Node → Code β}
    (h : Triple (pointsTo a (.node v) * F) (f v) Q) :
    Triple (pointsTo a (.node v) * F) (readNode (some a) >>= f) Q := (readNode_reads a v).bind h

theorem readChars_reads (a : ℕ) (cs : Cells UInt8) :
    Reads (pointsTo a (.bytes cs)) (readChars (some a)) cs :=
  (Reads.read a _).andThen (Reads.ret _ _)

theorem readChars_bind {a : ℕ} {cs : Cells UInt8} {f : Cells UInt8 → Code β}
    (h : Triple (pointsTo a (.bytes cs) * F) (f cs) Q) :
    Triple (pointsTo a (.bytes cs) * F) (readChars (some a) >>= f) Q := (readChars_reads a cs).bind h

end

/-! ## Bytes that are shown -/

namespace Source
variable {src : Source} {p : Ptr} {A : Assertion Block}

theorem shows_object (p : Ptr) : (object p).Shows p 1 where
  view := Reads.ret _ _
  isNull _ _ := rfl

theorem shows_buffer (p : Ptr) (q : Option ℕ) : (block q).Shows p (buffer p q) := by
  cases p with
  | none =>
    cases q with
    | none => exact ⟨Reads.ret _ _, fun _ _ => rfl⟩
    | some a => exact ⟨Reads.bot, fun _ hs => False.elim hs⟩
  | some bs =>
    cases q with
    | none => exact ⟨Reads.bot, fun _ hs => False.elim hs⟩
    | some a =>
      refine ⟨Reads.iSup fun cs => Reads.iSup fun hcs => ?_, fun _ _ => rfl⟩
      subst hcs
      exact (readChars_reads a cs).andThen (Reads.ret _ _)

theorem shows_chars (p : Ptr) (q : Option ℕ) : (block q).Shows p (chars p q) := by
  cases p with
  | none =>
    cases q with
    | none => exact ⟨Reads.ret _ _, fun _ _ => rfl⟩
    | some a => exact ⟨Reads.bot, fun _ hs => False.elim hs⟩
  | some bs =>
    cases q with
    | none => exact ⟨Reads.bot, fun _ hs => False.elim hs⟩
    | some a =>
      refine ⟨(readChars_reads a (bs.map some)).andThen ?_, fun _ _ => rfl⟩
      rw [initialised_map]
      exact Reads.ret _ _

theorem shows_inside (bs : List UInt8) (a offset : ℕ) :
    (inside a offset).Shows (some (bs.drop offset)) (chars (some bs) (some a)) := by
  refine ⟨(readChars_reads a (bs.map some)).andThen ?_, fun _ _ => rfl⟩
  rw [initialised_map]
  exact Reads.ret _ _

theorem Shows.view_bind (hs : src.Shows p A) {β : Type} {F : Assertion Block}
    {Q : β → Assertion Block} {f : Ptr → Code β} (h : Triple (A * F) (f p) Q) :
    Triple (A * F) (src.view >>= f) Q := hs.view.bind h

end Source

theorem readRow_bind {q : Option ℕ} {rows : List Row} {cap i : ℕ} {row : Row}
    (hrow : rows[i]? = some row) {β : Type} {F : Assertion Block} {Q : β → Assertion Block}
    {f : Row → Code β} (h : Triple (itemBlock rows cap q * F) (f row) Q) :
    Triple (itemBlock rows cap q * F) (readRow q i >>= f) Q := readCell_bind hrow h

/-! ## Copies of bytes -/

section
variable {src : Source} {p : Ptr} {A : Assertion Block} (hs : src.Shows p A)
variable {n : ℕ} {bs : List UInt8} (hl : load p n = .ok bs)
include hs hl

theorem copyBytes_bind {dst : ℕ} {cs cs' : Cells UInt8} (hc : memcpy (some cs) 0 bs = .ok cs')
    {β : Type} {F : Assertion Block} {Q : β → Assertion Block} {f : Unit → Code β}
    (h : Triple (pointsTo dst (.bytes cs') * (A * F)) (f ()) Q) :
    Triple (pointsTo dst (.bytes cs) * (A * F)) (copyBytes dst src n >>= f) Q := by
  simp only [copyBytes, bind_assoc]
  refine Triple.perm (A * (pointsTo dst (.bytes cs) * F)) (by ac_rfl) (hs.view_bind ?_)
  refine Triple.attempt_bind hl ?_
  refine Triple.perm (pointsTo dst (.bytes cs) * (A * F)) (by ac_rfl) (readChars_bind ?_)
  exact Triple.attempt_bind hc (Triple.write_bind h)

variable [Allocator Block]

/-- A block for a copy, and the copy. -/
theorem mallocCopy_bind {β : Type} {F : Assertion Block} {Q : β → Assertion Block}
    {f : ℕ → Code β} (h : ∀ a, Triple (chars (some bs) (some a) * (A * F)) (f a) Q) :
    Triple (A * F) (mallocBytes n >>= fun a => copyBytes a src n >>= fun _ => f a) Q := by
  have hlen := (load_ok hl).1
  have hcopy := memcpy_fresh bs hlen.le
  rw [hlen, Nat.sub_self, List.replicate_zero, List.append_nil] at hcopy
  exact Triple.malloc_bind fun a => copyBytes_bind hs hl hcopy (h a)

theorem copyTerminated_spec :
    Triple A (copyTerminated src n) fun a => chars (cstr bs) (some a) * A := by
  have hlen := (load_ok hl).1
  refine Triple.malloc_bind fun a => ?_
  have hcopy := memcpy_fresh bs (show bs.length ≤ n + 1 by omega)
  refine Triple.perm (pointsTo a _ * (A * 1)) (by rw [mul_one]) (copyBytes_bind hs hl hcopy ?_)
  refine (Triple.seq (F := A) (Q := fun _ => chars (cstr bs) (some a)) ?_ (by rw [mul_one])
    fun _ => Triple.pure le_rfl)
  have hone : n + 1 - bs.length = 1 := by omega
  have hstore : store (some (bs.map some ++ List.replicate (n + 1 - bs.length) none)) n 0 =
      .ok ((bs ++ [0]).map some) := by
    have hin : n < (bs.map some ++ List.replicate (n + 1 - bs.length) none).length := by
      rw [hone, List.length_append, List.length_map]
      exact Nat.lt_succ_of_le hlen.ge
    refine (if_pos hin).trans ?_
    rw [hone, ← hlen, List.set_append_right _ _ (List.length_map _).le, List.length_map,
      Nat.sub_self, List.map_append]
    rfl
  rw [storeByte]
  refine Triple.perm (pointsTo a _ * 1) (mul_one _).symm (readChars_bind ?_)
  rw [mul_one]
  exact Triple.attempt_bind hstore Triple.write

end

/-! ## Trees -/

/-- The item block and what its entries own. -/
def stored (v : KvVec Entry) (b : Items) : Assertion Block :=
  ⨆ rows : List Row, ⨆ _ : v.slots = v.cap ∧ b.n = v.n ∧ b.cap = v.cap,
    itemBlock rows b.cap b.items * entriesAt v.entries rows

/-- What a row says of its entry without the heap. -/
def RowOf (kv : Entry) (row : Row) : Prop :=
  row.isIntKey = kv.isIntKey ∧ row.ikey = kv.ikey ∧ row.skeyLen = kv.skeyLen

def entryAt (kv : Entry) (row : Row) : Assertion Block :=
  ⨆ _ : RowOf kv row, chars kv.skey row.skey * child kv.val row.val

theorem entriesAt_nil : entriesAt [] [] = 1 := rfl

theorem entriesAt_cons (kv : Entry) (row : Row) (entries : List Entry) (rows : List Row) :
    entriesAt (kv :: entries) (row :: rows) = entryAt kv row * entriesAt entries rows := by
  rfl

theorem tree_str (p : Ptr) (len a : ℕ) :
    tree (.str p len) a = ⨆ q, pointsTo a (.node (.str q len)) * chars p q := by
  rw [tree]

theorem tree_arr (v : KvVec Entry) (a : ℕ) :
    tree (.arr v) a = ⨆ b : Items, pointsTo a (.node (.arr b)) * stored v b := by
  rw [tree]
  simp only [stored, mul_comm (pointsTo a _), Assertion.iSup_mul]
  rfl

theorem tree_obj (cls : Ptr) (clen : ℕ) (v : KvVec Entry) (a : ℕ) :
    tree (.obj cls clen v) a = ⨆ (c : Option ℕ) (b : Items),
      pointsTo a (.node (.obj c clen b)) * (chars cls c * stored v b) := by
  rw [tree]
  simp only [stored, mul_comm (chars cls _), mul_comm (pointsTo a _), Assertion.iSup_mul]
  rfl

theorem tree_err (cls msg : Ptr) (code : Int64) (trace : Ptr) (a : ℕ) :
    tree (.err cls msg code trace) a = ⨆ (c : Option ℕ) (m : Option ℕ) (t : Option ℕ),
      pointsTo a (.node (.err c m code t)) * (chars cls c * (chars msg m * chars trace t)) := by
  rw [tree]

/-- Every entry has its row. -/
theorem entriesAt_rows {entries : List Entry} {rows : List Row} :
    ∀ s, entriesAt entries rows s → List.Forall₂ RowOf entries rows := by
  induction entries generalizing rows with
  | nil =>
    intro s hs
    cases rows with
    | nil => exact .nil
    | cons row rows => exact False.elim hs
  | cons kv entries ih =>
    intro s hs
    cases rows with
    | nil => exact False.elim hs
    | cons row rows =>
      rw [entriesAt_cons] at hs
      obtain ⟨_, v, -, -, hu, hv⟩ := hs
      obtain ⟨hrow, -⟩ := iSup_iff.mp hu
      exact .cons hrow (ih v hv)

theorem entriesAt_length {entries : List Entry} {rows : List Row} (s : Separation.Heap Block)
    (hs : entriesAt entries rows s) : rows.length = entries.length :=
  (entriesAt_rows s hs).length_eq.symm

section
variable {kv : Entry} {entries : List Entry} {all : List Row} {i : ℕ}

/-- The next row, and the others. -/
theorem entriesAt_drop {row : Row} (hrow : all[i]? = some row) :
    entriesAt (kv :: entries) (all.drop i) = entryAt kv row * entriesAt entries (all.drop (i + 1)) := by
  obtain ⟨hin, hget⟩ := List.getElem?_eq_some_iff.mp hrow
  rw [List.drop_eq_getElem_cons hin, hget, entriesAt_cons]

/-- There is a next row. -/
theorem next_row {F : Assertion Block} :
    ∀ s, (entriesAt (kv :: entries) (all.drop i) * F) s → ∃ row, all[i]? = some row := by
  rintro _ ⟨u, _, -, -, hu, -⟩
  cases hrow : all[i]? with
  | none =>
    rw [List.drop_eq_nil_of_le (List.getElem?_eq_none_iff.mp hrow)] at hu
    exact hu.elim
  | some row => exact ⟨row, rfl⟩

theorem rows_cons {α : Type} {x : Code α} {Q : α → Assertion Block} {F : Assertion Block}
    (h : ∀ row, all[i]? = some row → Triple (entriesAt (kv :: entries) (all.drop i) * F) x Q) :
    Triple (entriesAt (kv :: entries) (all.drop i) * F) x Q :=
  Triple.of_fact next_row fun ⟨row, hrow⟩ => h row hrow

end

theorem entriesAt_snoc {entries : List Entry} {rows : List Row}
    (hlen : rows.length = entries.length) (kv : Entry) (row : Row) :
    entriesAt (entries ++ [kv]) (rows ++ [row]) = entriesAt entries rows * entryAt kv row := by
  induction entries generalizing rows with
  | nil =>
    have hnil := List.length_eq_zero_iff.mp hlen
    subst hnil
    rw [List.nil_append, List.nil_append, entriesAt_cons, entriesAt_nil, mul_one, one_mul]
  | cons kv' entries ih =>
    cases rows with
    | nil => cases hlen
    | cons row' rows =>
      rw [List.cons_append, List.cons_append, entriesAt_cons, entriesAt_cons,
        ih (Nat.succ.inj hlen), mul_assoc]

/-- A block without slots is NULL, so that there is none to lose. -/
theorem stored_empty {b : Items} :
    stored ⟨0, [], 0⟩ b ≤ ⨆ _ : b = ⟨none, 0, 0⟩, (1 : Assertion Block) := by
  intro s hs
  obtain ⟨rows, hs⟩ := iSup_iff.mp hs
  obtain ⟨⟨-, hn, hcap⟩, u, v, -, rfl, hu, hv⟩ := iSup_iff.mp hs
  have hrows := List.length_eq_zero_iff.mp (entriesAt_length v hv)
  subst hrows
  obtain ⟨items, n, cap⟩ := b
  dsimp only at hn hcap hu
  subst hcap
  cases items with
  | some a =>
    obtain ⟨_, hu⟩ := iSup_iff.mp hu
    exact absurd (iSup_iff.mp hu).1.1 (lt_irrefl 0)
  | none =>
    obtain ⟨-, hu⟩ := iSup_iff.mp hu
    refine iSup_iff.mpr ⟨by rw [hn]; rfl, ?_⟩
    rw [one_iff.mp hu, one_iff.mp hv]
    rfl

/-! ## Reading a tree -/

section Reading
variable {β : Type}

theorem view_part {p : Ptr} {q : Option ℕ} {F : Assertion Block} {f : Ptr → Code β} {x : β}
    (h : Reads (chars p q * F) (f p) x) :
    Reads (chars p q * F) ((Source.block q).view >>= f) x :=
  (Source.shows_chars p q).view.part h

/-- A node is read, and then what it points to. -/
theorem node_part {a : ℕ} {node : Node} {P : Assertion Block} {f : Node → Code β} {x : β}
    (h : Reads P (f node) x) : Reads (pointsTo a (.node node) * P) (readNode (some a) >>= f) x :=
  (readNode_reads a node).part (Reads.perm _ (mul_comm _ _) (h.frame _))

theorem node_leaf {a : ℕ} {node : Node} {f : Node → Code β} {x : β} (h : f node = pure x) :
    Reads (pointsTo a (.node node)) (readNode (some a) >>= f) x := by
  refine (readNode_reads a node).andThen ?_
  rw [h]
  exact Reads.ret _ _

/-- The loop over the rows from `items[i]` on, as many as are left. -/
def eachRow {τ : Type} (f : Row → τ → Code τ) (items : Option ℕ) : ℕ → ℕ → τ → Code τ
  | _, 0, acc => return acc
  | i, left + 1, acc => do
    let kv ← readRow items i
    let acc ← f kv acc
    eachRow f items (i + 1) left acc

/-- From entry to entry, as `R` says. -/
def Along {τ : Type} (R : Entry → τ → τ → Prop) : List Entry → τ → τ → Prop
  | [], acc, acc' => acc' = acc
  | kv :: entries, acc, acc' => ∃ next, R kv acc next ∧ Along R entries next acc'

variable {τ : Type} {f : Row → τ → Code τ} {R : Entry → τ → τ → Prop} {entries : List Entry}

/-- What the loop does with a row of each entry. -/
def Steps (f : Row → τ → Code τ) (R : Entry → τ → τ → Prop) (entries : List Entry) : Prop :=
  ∀ kv ∈ entries, ∀ row acc next, RowOf kv row → R kv acc next →
    Reads (chars kv.skey row.skey * child kv.val row.val) (f row acc) next

theorem eachRow_reads {all : List Row} {cap i : ℕ} {q : Option ℕ} {acc acc' : τ}
    (hf : Steps f R entries) (h : Along R entries acc acc') :
    Reads (itemBlock all cap q * entriesAt entries (all.drop i)) (eachRow f q i entries.length acc)
      acc' := by
  induction entries generalizing i acc with
  | nil =>
    obtain rfl := h
    exact Reads.ret _ _
  | cons kv entries ih =>
    obtain ⟨hkv, hrest⟩ := List.forall_mem_cons.mp hf
    obtain ⟨next, hnext, hacc⟩ := h
    refine Reads.perm _ (mul_comm _ _) (Reads.of_fact next_row fun ⟨row, hrow⟩ => ?_)
    rw [entriesAt_drop hrow, entryAt, mul_assoc]
    refine Reads.iSup_mul fun hof => ?_
    refine Reads.perm (itemBlock all cap q * (chars kv.skey row.skey * child kv.val row.val *
      entriesAt entries (all.drop (i + 1)))) (by ac_rfl) ((readCell_reads q hrow).part ?_)
    refine Reads.perm (chars kv.skey row.skey * child kv.val row.val * (itemBlock all cap q *
      entriesAt entries (all.drop (i + 1)))) (by ac_rfl) ((hkv row acc next hof hnext).part ?_)
    exact Reads.perm (itemBlock all cap q * entriesAt entries (all.drop (i + 1)) *
      (chars kv.skey row.skey * child kv.val row.val)) (by ac_rfl) ((ih hrest hacc).frame _)

theorem stored_count {v : KvVec Entry} {b : Items} :
    ∀ s, stored v b s → b.n = v.entries.length := by
  intro s hs
  obtain ⟨rows, hs⟩ := iSup_iff.mp hs
  exact (iSup_iff.mp hs).1.2.1

/-- All rows of an item block. -/
theorem eachStored_reads {v : KvVec Entry} {b : Items} {acc acc' : τ} (hf : Steps f R v.entries)
    (h : Along R v.entries acc acc') : Reads (stored v b) (eachRow f b.items 0 b.n acc) acc' := by
  refine Reads.of_fact stored_count fun hn => Reads.iSup fun rows => Reads.iSup fun _ => ?_
  have hloop : Reads (itemBlock rows b.cap b.items * entriesAt v.entries (rows.drop 0))
      (eachRow f b.items 0 v.entries.length acc) acc' := eachRow_reads hf h
  rw [List.drop_zero] at hloop
  rw [hn]
  exact hloop

end Reading

/-! ## How many blocks a tree has -/

mutual

theorem tree_weighs : (v : Value) → (a : ℕ) → Weighs v.nodes (tree v a)
  | .null, a => by
    rw [tree, Value.nodes]
    exact Weighs.pointsTo a _
  | .bool b, a => by
    rw [tree, Value.nodes]
    exact Weighs.pointsTo a _
  | .long i, a => by
    rw [tree, Value.nodes]
    exact Weighs.pointsTo a _
  | .double d, a => by
    rw [tree, Value.nodes]
    exact Weighs.pointsTo a _
  | .str p len, a => by
    rw [tree, Value.nodes]
    exact Weighs.iSup fun q => (Weighs.pointsTo a _).mul (Weighs.zero _)
  | .arr ⟨slots, entries, cap⟩, a => by
    rw [tree, Value.nodes, Nat.add_comm]
    refine Weighs.iSup fun b => Weighs.iSup fun rows => Weighs.iSup fun _ => ?_
    have hentries := (Weighs.zero (itemBlock rows b.cap b.items)).mul (entriesAt_weighs entries rows)
    rw [Nat.zero_add] at hentries
    exact (Weighs.pointsTo a _).mul hentries
  | .obj cls clen ⟨slots, entries, cap⟩, a => by
    rw [tree, Value.nodes, Nat.add_comm]
    refine Weighs.iSup fun c => Weighs.iSup fun b => Weighs.iSup fun rows => Weighs.iSup fun _ => ?_
    have hentries := (Weighs.zero (itemBlock rows b.cap b.items)).mul (entriesAt_weighs entries rows)
    have hprops := (Weighs.zero (chars cls c)).mul hentries
    rw [Nat.zero_add, Nat.zero_add] at hprops
    exact (Weighs.pointsTo a _).mul hprops
  | .err cls msg code trace, a => by
    rw [tree, Value.nodes]
    exact Weighs.iSup fun c => Weighs.iSup fun m => Weighs.iSup fun t =>
      (Weighs.pointsTo a _).mul (Weighs.zero _)

theorem child_weighs : (c : Option Value) → (p : Option ℕ) → Weighs (nodesPtr c) (child c p)
  | none, p => by
    rw [nodesPtr]
    exact Weighs.zero _
  | some v, some a => by
    rw [nodesPtr, child]
    exact tree_weighs v a
  | some v, none => fun s hs => False.elim hs

theorem entriesAt_weighs : (entries : List Entry) → (rows : List Row) →
    Weighs (nodesItems entries) (entriesAt entries rows)
  | [], rows => by
    rw [nodesItems]
    exact Weighs.zero _
  | ⟨isIntKey, ikey, skey, skeyLen, val⟩ :: entries, row :: rows => by
    rw [nodesItems, entriesAt]
    refine Weighs.mul (Weighs.iSup fun _ => ?_) (entriesAt_weighs entries rows)
    have hchild := (Weighs.zero (chars skey row.skey)).mul (child_weighs val row.val)
    rwa [Nat.zero_add] at hchild
  | kv :: entries, [] => fun s hs => False.elim hs

end

end Parallax.Stored
