import Parallax.Library.Memory

/-! Blocks of cells as `calloc`, `realloc` and `memset` leave them. A block has as many cells as were
allocated; a cell that nothing was written to holds nothing. What a program has put in a block is a
prefix of it. -/
namespace Parallax.Memory
set_option autoImplicit false
set_option maxHeartbeats 250000

abbrev Cells (α : Type) := List (Option α)

/-- A pointer to a block: NULL, or its cells. -/
abbrev BlockPtr (α : Type) := Option (Cells α)

section
variable {α : Type}

def calloc (zero : α) (count : ℕ) : Cells α := List.replicate count (some zero)

/-- The old cells as far as they go, and new ones behind them. -/
def realloc (p : BlockPtr α) (count : ℕ) : Cells α :=
  (p.getD []).take count ++ List.replicate (count - (p.getD []).length) none

/-- `memset(p + start, 0, count * sizeof(*p))`. -/
def memset (zero : α) (p : Cells α) (start count : ℕ) : Except Fault (Cells α) :=
  if start + count ≤ p.length then
    .ok (p.take start ++ calloc zero count ++ p.drop (start + count))
  else .error .outOfBounds

/-- `p[i] = a`. -/
def store (p : BlockPtr α) (i : ℕ) (a : α) : Except Fault (Cells α) :=
  match p with
  | none => .error .nullRead
  | some cells => if i < cells.length then .ok (cells.set i (some a)) else .error .outOfBounds

/-- `memcpy(p + start, as, count)` of `count` items. -/
def memcpy (p : BlockPtr α) (start : ℕ) (as : List α) : Except Fault (Cells α) :=
  match p with
  | none => .error .nullRead
  | some cells =>
    if start + as.length ≤ cells.length then
      .ok (cells.take start ++ as.map some ++ cells.drop (start + as.length))
    else .error .outOfBounds

/-- The cells something was written to, up to the first that nothing was written to. -/
def initialised (p : Cells α) : List α := (p.takeWhile Option.isSome).reduceOption

/-- `p[i]`, once it is written. -/
def fetch (p : Cells α) (i : ℕ) : Except Fault α :=
  match p[i]? with
  | some (some a) => .ok a
  | _ => .error .outOfBounds

/-- The block begins with these. -/
def BeginsWith (p : BlockPtr α) (as : List α) : Prop := as.map some <+: p.getD []

/-! ## What stays in a block -/

theorem calloc_length (zero : α) (count : ℕ) : (calloc zero count).length = count :=
  List.length_replicate

theorem realloc_length (p : BlockPtr α) (count : ℕ) : (realloc p count).length = count := by
  rw [realloc, List.length_append, List.length_take, List.length_replicate]
  omega

theorem realloc_beginsWith {p : BlockPtr α} {as : List α} {count : ℕ} (h : BeginsWith p as)
    (hcount : as.length ≤ count) : BeginsWith (some (realloc p count)) as := by
  have htake : as.map some <+: (p.getD []).take count :=
    List.prefix_take_iff.mpr ⟨h, by rwa [List.length_map]⟩
  exact htake.trans (List.prefix_append _ _)

theorem memset_ok (zero : α) {p : Cells α} {as : List α} {start count : ℕ}
    (h : BeginsWith (some p) as) (hstart : as.length ≤ start) (hin : start + count ≤ p.length) :
    ∃ q, memset zero p start count = .ok q ∧ q.length = p.length ∧ BeginsWith (some q) as := by
  refine ⟨_, if_pos hin, ?_, ?_⟩
  · rw [List.length_append, List.length_append, calloc_length, List.length_take, List.length_drop]
    omega
  · have htake : as.map some <+: p.take start :=
      List.prefix_take_iff.mpr ⟨h, by rwa [List.length_map]⟩
    rw [List.append_assoc]
    exact htake.trans (List.prefix_append _ _)

theorem fetch_ok {p : Cells α} {as : List α} (h : BeginsWith (some p) as) {i : ℕ} {a : α}
    (ha : as[i]? = some a) : fetch p i = .ok a := by
  obtain ⟨rest, hp⟩ := h
  have hp' : as.map some ++ rest = p := hp
  have hlt : i < as.length := (List.getElem?_eq_some_iff.mp ha).1
  have hget : p[i]? = some (some a) := by
    rw [← hp', List.getElem?_append_left (by rwa [List.length_map]), List.getElem?_map, ha]
    rfl
  rw [fetch, hget]

theorem initialised_map (as : List α) : initialised (as.map some) = as := by
  induction as with
  | nil => rfl
  | cons a as ih => exact congrArg (List.cons a) ih

/-- Behind what it begins with, a cell can be filled. -/
theorem store_ok {p : Cells α} {as : List α} (h : BeginsWith (some p) as)
    (hin : as.length < p.length) (a : α) :
    ∃ q, store (some p) as.length a = .ok q ∧ q.length = p.length ∧
      BeginsWith (some q) (as ++ [a]) := by
  obtain ⟨rest, hp⟩ := h
  have hp' : as.map some ++ rest = p := hp
  refine ⟨_, if_pos hin, List.length_set, ?_⟩
  cases rest with
  | nil =>
    rw [← hp', List.append_nil, List.length_map] at hin
    exact absurd hin (lt_irrefl _)
  | cons c rest =>
    show (as ++ [a]).map some <+: p.set as.length (some a)
    have hlen : as.length = (as.map (some : α → Option α)).length := (List.length_map _).symm
    rw [← hp', hlen, List.set_append_right _ _ le_rfl, Nat.sub_self, List.set_cons_zero,
      List.map_append]
    exact ⟨rest, by rw [List.append_assoc]; rfl⟩

/-- Behind what it begins with, cells can be filled, as many as there are. -/
theorem memcpy_ok {p : Cells α} {as : List α} (h : BeginsWith (some p) as) {bs : List α}
    (hin : as.length + bs.length ≤ p.length) :
    ∃ q, memcpy (some p) as.length bs = .ok q ∧ q.length = p.length ∧
      BeginsWith (some q) (as ++ bs) := by
  obtain ⟨rest, hp⟩ := h
  have hp' : as.map some ++ rest = p := hp
  have htake : p.take as.length = as.map some := by
    rw [← hp']
    exact List.take_left' (List.length_map _)
  refine ⟨_, if_pos hin, ?_, ?_⟩
  · rw [List.length_append, List.length_append, List.length_take, List.length_map,
      List.length_drop]
    omega
  · show (as ++ bs).map some <+: p.take as.length ++ bs.map some ++ _
    rw [htake, List.map_append]
    exact List.prefix_append _ _

/-- A copy to the front of a block that nothing was written to. -/
theorem memcpy_fresh (bs : List α) {count : ℕ} (h : bs.length ≤ count) :
    memcpy (some (List.replicate count none)) 0 bs =
      .ok (bs.map some ++ List.replicate (count - bs.length) none) := by
  have hin : 0 + bs.length ≤ (List.replicate count (none : Option α)).length := by
    rw [List.length_replicate]
    omega
  refine (if_pos hin).trans ?_
  rw [List.take_zero, List.nil_append, Nat.zero_add, List.drop_replicate]

end

end Parallax.Memory
