import Parallax.Library.Separation
import Parallax.Library.Cells

/-! Arrays on a heap of blocks of several kinds: a pointer and a capacity, NULL as long as nothing is
reserved. What is known of an array is what it begins with. -/
namespace Parallax.Separation
open Memory Assertion
set_option autoImplicit false
set_option maxHeartbeats 250000

/-- The blocks that are arrays of `α`. -/
structure CellKind (β α : Type) where
  block : Cells α → β
  get : β → Option (Cells α)
  get_block : ∀ cells, get (block cells) = some cells

section Operations
variable {β α : Type} (kind : CellKind β α)

/-- A block through a pointer to its type. -/
def readCells (p : Option ℕ) : Program β (Cells α) := do
  match kind.get (← read p) with
  | some cells => return cells
  | none => attempt (.error .wrongType)

/-- `p[i]`. -/
def readCell (p : Option ℕ) (i : ℕ) : Program β α := do
  let cells ← readCells kind p
  attempt (fetch cells i)

/-- `p[i] = x`. -/
def storeCell (p : Option ℕ) (i : ℕ) (x : α) : Program β Unit := do
  let cells ← readCells kind p
  let cells ← attempt (store (some cells) i x)
  write p (kind.block cells)

/-- The old block is gone, and the new one may be where it was. -/
def reallocCells [Allocator β] (p : Option ℕ) (count : ℕ) : Program β ℕ :=
  match p with
  | none => malloc (kind.block (realloc none count))
  | some a => do
    let cells ← readCells kind (some a)
    free (some a)
    malloc (kind.block (realloc (some cells) count))

end Operations

section
variable {β α γ : Type} {kind : CellKind β α} {xs : List α} {cap : ℕ}

/-- The block, with the items in front. -/
def array (kind : CellKind β α) (xs : List α) (cap : ℕ) : Option ℕ → Assertion β
  | none => ⨆ _ : cap = 0 ∧ xs = [], 1
  | some a => ⨆ cells : Cells α,
      ⨆ _ : 0 < cap ∧ cells.length = cap ∧ BeginsWith (some cells) xs, pointsTo a (kind.block cells)

theorem le_array {a : ℕ} {cells : Cells α} (hpos : 0 < cap) (hcap : cells.length = cap)
    (hxs : BeginsWith (some cells) xs) : pointsTo a (kind.block cells) ≤ array kind xs cap (some a) :=
  le_iSup₂_of_le cells ⟨hpos, hcap, hxs⟩ le_rfl

theorem array_length {p : Option ℕ} : ∀ s, array kind xs cap p s → xs.length ≤ cap := by
  intro s hs
  cases p with
  | none =>
    obtain ⟨hnil, -⟩ := iSup_iff.mp hs
    rw [hnil.2]
    exact Nat.zero_le _
  | some a =>
    obtain ⟨cells, hs⟩ := iSup_iff.mp hs
    obtain ⟨hcells, -⟩ := iSup_iff.mp hs
    have hle := hcells.2.2.length_le
    rw [List.length_map] at hle
    exact hle.trans_eq hcells.2.1

variable {F : Assertion β} {Q : γ → Assertion β}

theorem readCells_reads (a : ℕ) (cells : Cells α) :
    Reads (pointsTo a (kind.block cells)) (readCells kind (some a)) cells := by
  refine (Reads.read a _).andThen ?_
  rw [kind.get_block]
  exact Reads.ret _ _

theorem readCells_bind {a : ℕ} {cells : Cells α} {f : Cells α → Program β γ}
    (h : Triple (pointsTo a (kind.block cells) * F) (f cells) Q) :
    Triple (pointsTo a (kind.block cells) * F) (readCells kind (some a) >>= f) Q :=
  (readCells_reads a cells).bind h

/-- An item that is in the array is read. -/
theorem readCell_reads (p : Option ℕ) {i : ℕ} {x : α} (hx : xs[i]? = some x) :
    Reads (array kind xs cap p) (readCell kind p i) x := by
  cases p with
  | none =>
    refine Reads.iSup fun hnil => ?_
    rw [hnil.2] at hx
    cases hx
  | some a =>
    refine Reads.iSup fun cells => Reads.iSup fun hcells => ?_
    exact (readCells_reads a cells).andThen (Reads.attempt (fetch_ok hcells.2.2 hx))

theorem readCell_bind {p : Option ℕ} {i : ℕ} {x : α} (hx : xs[i]? = some x)
    {f : α → Program β γ} (h : Triple (array kind xs cap p * F) (f x) Q) :
    Triple (array kind xs cap p * F) (readCell kind p i >>= f) Q := (readCell_reads p hx).bind h

/-- An item is stored behind the others, into a slot that is there. -/
theorem storeCell_spec (kind : CellKind β α) {a : ℕ} (hroom : xs.length < cap) (x : α) :
    Triple (array kind xs cap (some a)) (storeCell kind (some a) xs.length x) fun _ =>
      array kind (xs ++ [x]) cap (some a) := by
  refine Triple.iSup fun cells => Triple.iSup fun ⟨hpos, hcap, hcells⟩ => ?_
  obtain ⟨cells', hstore, hlen, hbegins⟩ := store_ok hcells (hroom.trans_eq hcap.symm) x
  refine Triple.perm (pointsTo a (kind.block cells) * 1) (mul_one _).symm (readCells_bind ?_)
  rw [mul_one]
  refine Triple.attempt_bind hstore (Triple.post Triple.write fun _ => ?_)
  exact le_array hpos (hlen.trans hcap) hbegins

/-- An array with items in it is not NULL. -/
theorem storeCell_bind {p : Option ℕ} (hroom : xs.length < cap) (x : α) {f : Unit → Program β γ}
    (h : Triple (array kind (xs ++ [x]) cap p * F) (f ()) Q) :
    Triple (array kind xs cap p * F) (storeCell kind p xs.length x >>= f) Q := by
  cases p with
  | none =>
    refine Triple.iSup_mul fun hnil => ?_
    exact absurd hnil.1 (Nat.ne_of_gt (Nat.lt_of_le_of_lt (Nat.zero_le _) hroom))
  | some a => exact Triple.seq (storeCell_spec kind hroom x) rfl fun _ => h

theorem free_array {p : Option ℕ} : Triple (array kind xs cap p) (free p) fun _ => 1 := by
  cases p with
  | none => exact Triple.iSup fun _ => Triple.pure le_rfl
  | some a => exact Triple.iSup fun _ => Triple.iSup fun _ => Triple.free

theorem reallocCells_spec [Allocator β] {count : ℕ} (p : Option ℕ) (hpos : 0 < count)
    (hcount : xs.length ≤ count) :
    Triple (array kind xs cap p) (reallocCells kind p count) fun a =>
      array kind xs count (some a) := by
  have hend {block : BlockPtr α} (hp : BeginsWith block xs) :
      Triple 1 (malloc (kind.block (realloc block count))) fun a => array kind xs count (some a) := by
    have hmalloc := Triple.malloc_bind (F := 1) (b := kind.block (realloc block count)) (f := pure)
      (R := fun a => array kind xs count (some a)) fun a => Triple.pure ?_
    · rwa [bind_pure] at hmalloc
    · rw [mul_one]
      exact le_array hpos (realloc_length block count) (realloc_beginsWith hp hcount)
  cases p with
  | none =>
    refine Triple.iSup fun hnil => hend ?_
    rw [hnil.2]
    exact List.nil_prefix
  | some a =>
    refine Triple.iSup fun cells => Triple.iSup fun hcells => ?_
    refine Triple.perm (pointsTo a (kind.block cells) * 1) (mul_one _).symm ?_
    exact readCells_bind (Triple.free_bind (hend hcells.2.2))

end

end Parallax.Separation
