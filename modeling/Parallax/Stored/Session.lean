import Parallax.Stored.Clone
import Parallax.Stored.Unpack

/-! A client of `value.h`, `clone.h` and `pack.h` that keeps the pointers it owns in slots: a call
gives a new pointer, takes one over, or releases one. What the client holds is at any time what the
functions on trees give, each tree in blocks of its own, and releasing the slots leaves nothing. -/
namespace Parallax.Stored
open Memory Separation Separation.Assertion
set_option autoImplicit false
set_option maxHeartbeats 250000

/-! ## Calls -/

inductive ClientCall
  | null
  | bool (b : Bool)
  | long (i : Int64)
  | double (d : UInt64)
  | str (p : Ptr) (len : ℕ)
  | arr (initialCap : ℕ)
  | obj (cls : Ptr) (clen initialCap : ℕ)
  | err (cls msg : Ptr) (code : Int64) (trace : Ptr)
  | push (arr child : ℕ)
  | setInt (arr : ℕ) (key : Int64) (child : ℕ)
  | setStr (arr : ℕ) (key : Ptr) (klen child : ℕ)
  | objSet (obj : ℕ) (key : Ptr) (klen child : ℕ)
  | clone (src : ℕ)
  | unpack (buf : List UInt8)
  | release (v : ℕ)

/-- The pointer in a slot; a slot that was given away or never filled is NULL. -/
def slot {α : Type} (slots : List (Option α)) (j : ℕ) : Option α := slots[j]?.join

/-! ## What the calls do to trees -/

/-- A builder takes the child over, so that a tree cannot become its own child. -/
def buildTree (slots : List (Option Value)) (parent child : ℕ)
    (build : Value → Option Value → Except Fault Value) : Except Fault (List (Option Value)) :=
  match slot (slots.set child none) parent with
  | none => .error .nullRead
  | some v => do
    let v ← build v (slot slots child)
    return (slots.set child none).set parent (some v)

def treeStep (slots : List (Option Value)) : ClientCall → Except Fault (List (Option Value))
  | .null => .ok (slots ++ [some Parallax.valueNull])
  | .bool b => .ok (slots ++ [some (Parallax.valueBool b)])
  | .long i => .ok (slots ++ [some (Parallax.valueLong i)])
  | .double d => .ok (slots ++ [some (Parallax.valueDouble d)])
  | .str p len => do
    let v ← Parallax.valueStr p len
    return slots ++ [some v]
  | .arr initialCap => .ok (slots ++ [some (Parallax.valueArr initialCap)])
  | .obj cls clen initialCap => do
    let v ← Parallax.valueObj cls clen initialCap
    return slots ++ [some v]
  | .err cls msg code trace => do
    let v ← Parallax.valueErr cls msg code trace
    return slots ++ [some v]
  | .push arr child => buildTree slots arr child Parallax.valueArrPush
  | .setInt arr key child => buildTree slots arr child fun v c => Parallax.valueArrSetInt v key c
  | .setStr arr key klen child =>
    buildTree slots arr child fun v c => Parallax.valueArrSetStr v key klen c
  | .objSet obj key klen child =>
    buildTree slots obj child fun v c => Parallax.valueObjSet v key klen c
  | .clone src => do
    let v ← Parallax.valueClone (slot slots src)
    return slots ++ [v]
  | .unpack buf => do
    let v ← Parallax.valueUnpack buf
    return slots ++ [v]
  | .release v => .ok (slots.set v none)

def treeRun (calls : List ClientCall) (slots : List (Option Value)) :
    Except Fault (List (Option Value)) := calls.foldlM treeStep slots

/-! ## What they do on the heap -/

section Code
variable [Allocator Block]

def build (slots : List (Option ℕ)) (parent child : ℕ) (f : ℕ → Option ℕ → Code Unit) :
    Code (List (Option ℕ)) :=
  match slot slots parent with
  | none => attempt (.error .nullRead)
  | some a => do
    f a (slot slots child)
    return slots.set child none

def step (slots : List (Option ℕ)) : ClientCall → Code (List (Option ℕ))
  | .null => do
    let v ← valueNull
    return slots ++ [some v]
  | .bool b => do
    let v ← valueBool b
    return slots ++ [some v]
  | .long i => do
    let v ← valueLong i
    return slots ++ [some v]
  | .double d => do
    let v ← valueDouble d
    return slots ++ [some v]
  | .str p len => do
    let v ← valueStr (.object p) len
    return slots ++ [some v]
  | .arr initialCap => do
    let v ← valueArr initialCap
    return slots ++ [some v]
  | .obj cls clen initialCap => do
    let v ← valueObj (.object cls) clen initialCap
    return slots ++ [some v]
  | .err cls msg code trace => do
    let v ← valueErr (.object cls) (.object msg) code (.object trace)
    return slots ++ [some v]
  | .push arr child => build slots arr child valueArrPush
  | .setInt arr key child => build slots arr child fun a c => valueArrSetInt a key c
  | .setStr arr key klen child =>
    build slots arr child fun a c => valueArrSetStr a (.object key) klen c
  | .objSet obj key klen child =>
    build slots obj child fun a c => valueObjSet a (.object key) klen c
  | .clone src => do
    let v ← valueClone (slot slots src)
    return slots ++ [v]
  | .unpack buf => do
    let v ← valueUnpack buf
    return slots ++ [v]
  | .release v => do
    valueFree (slot slots v)
    return slots.set v none

def run (calls : List ClientCall) (slots : List (Option ℕ)) : Code (List (Option ℕ)) :=
  calls.foldlM step slots

/-- The client releases everything it holds. -/
def releaseAll : List (Option ℕ) → Code Unit
  | [] => return ()
  | v :: slots => do
    valueFree v
    releaseAll slots

end Code

/-! ## What the slots own -/

section
variable {α : Type} {slots : List (Option α)} {i j : ℕ}

theorem slot_set_self : slot (slots.set j none) j = none := by
  rw [slot, List.getElem?_set_self']
  cases slots[j]? <;> rfl

theorem slot_set_ne (h : i ≠ j) : slot (slots.set j none) i = slot slots i := by
  rw [slot, List.getElem?_set_ne h.symm]
  rfl

end

def owned : List (Option Value) → List (Option ℕ) → Assertion Block
  | [], [] => 1
  | c :: trees, p :: slots => child c p * owned trees slots
  | _, _ => ⊥

theorem owned_snoc (trees : List (Option Value)) (slots : List (Option ℕ)) (c : Option Value)
    (p : Option ℕ) : owned (trees ++ [c]) (slots ++ [p]) = owned trees slots * child c p := by
  induction trees generalizing slots with
  | nil =>
    cases slots with
    | nil => exact mul_comm _ _
    | cons q slots =>
      cases slots with
      | nil => exact (Quantale.mul_bot).trans Quantale.bot_mul.symm
      | cons q' slots => exact (Quantale.mul_bot).trans Quantale.bot_mul.symm
  | cons d trees ih =>
    cases slots with
    | nil =>
      cases trees with
      | nil => exact (Quantale.mul_bot).trans Quantale.bot_mul.symm
      | cons d' trees => exact (Quantale.mul_bot).trans Quantale.bot_mul.symm
    | cons q slots =>
      show child d q * owned (trees ++ [c]) (slots ++ [p]) = child d q * owned trees slots * child c p
      rw [ih, mul_assoc]

/-- One slot, and the others. -/
theorem owned_slot (trees : List (Option Value)) (slots : List (Option ℕ)) (j : ℕ) :
    owned trees slots =
      child (slot trees j) (slot slots j) * owned (trees.set j none) (slots.set j none) := by
  induction trees generalizing slots j with
  | nil =>
    cases slots with
    | nil => exact (one_mul 1).symm
    | cons q slots => cases j <;> exact Quantale.mul_bot.symm
  | cons d trees ih =>
    cases slots with
    | nil => cases j <;> exact Quantale.mul_bot.symm
    | cons q slots =>
      cases j with
      | zero =>
        show child d q * owned trees slots = child d q * (child none none * owned trees slots)
        rw [show child none none = 1 from rfl, one_mul]
      | succ j =>
        show child d q * owned trees slots = child (slot trees j) (slot slots j) *
          (child d q * owned (trees.set j none) (slots.set j none))
        rw [ih slots j, mul_left_comm]

/-- A tree in a slot, and then another one there, at the same address. -/
theorem owned_set {trees : List (Option Value)} {slots : List (Option ℕ)} {j a : ℕ} {v w : Value}
    (hv : slot trees j = some v) (ha : slot slots j = some a) :
    owned (trees.set j (some w)) slots = tree w a * owned (trees.set j none) (slots.set j none) := by
  have hj : j < trees.length := by
    by_contra hlt
    rw [slot, List.getElem?_eq_none (Nat.not_lt.mp hlt)] at hv
    cases hv
  have hw : slot (trees.set j (some w)) j = some w := by
    rw [slot, List.getElem?_set_self hj]
    rfl
  rw [owned_slot (trees.set j (some w)) slots j, hw, ha, List.set_set]
  rfl

/-- Nothing is in the slot of a tree that was given away. -/
theorem owned_none_cons {trees : List (Option Value)} {slots : List (Option ℕ)}
    {own : Separation.Heap Block} (h : owned (none :: trees) slots own) :
    ∃ rest, slots = none :: rest ∧ owned trees rest own := by
  cases slots with
  | nil => exact h.elim
  | cons q slots =>
    cases q with
    | none =>
      have hone : (1 * owned trees slots : Assertion Block) own := h
      rw [one_mul] at hone
      exact ⟨slots, rfl, hone⟩
    | some a =>
      obtain ⟨_, _, -, -, hbot, -⟩ := h
      exact hbot.elim

theorem owned_singleton {v : Value} {slots : List (Option ℕ)} {own : Separation.Heap Block}
    (h : owned [some v] slots own) : ∃ a, slots = [some a] ∧ tree v a own := by
  cases slots with
  | nil => exact h.elim
  | cons q slots =>
    cases slots with
    | cons p slots =>
      obtain ⟨_, _, -, -, -, hbot⟩ := h
      exact hbot.elim
    | nil =>
      have hone : (child (some v) q * 1 : Assertion Block) own := h
      rw [mul_one] at hone
      cases q with
      | none => exact hone.elim
      | some a => exact ⟨a, rfl, hone⟩

theorem releaseAll_spec (trees : List (Option Value)) (slots : List (Option ℕ)) :
    Triple (owned trees slots) (releaseAll slots) fun _ => 1 := by
  induction trees generalizing slots with
  | nil =>
    cases slots with
    | nil => exact Triple.pure le_rfl
    | cons q slots => exact Triple.bot
  | cons c trees ih =>
    cases slots with
    | nil => exact Triple.bot
    | cons q slots =>
      exact Triple.seq (valueFree_spec c q) rfl fun _ => Triple.perm _ (one_mul _) (ih slots)

/-! ## The heap against the trees -/

section
variable {trees next : List (Option Value)} {slots : List (Option ℕ)}

/-- A builder that does to the tree what `build` says, and takes the child over. -/
theorem build_spec {parent child' : ℕ} {f : ℕ → Option ℕ → Code Unit}
    {grow : Value → Option Value → Except Fault Value}
    (hf : ∀ v w c a q, grow v c = .ok w → Triple (tree v a * child c q) (f a q) fun _ => tree w a)
    (h : buildTree trees parent child' grow = .ok next) :
    Triple (owned trees slots) (build slots parent child' f) (owned next) := by
  unfold buildTree at h
  split at h
  · cases h
  · next v hv =>
    obtain ⟨w, hw, h⟩ := bind_ok h
    cases h
    have hne : parent ≠ child' := by
      rintro rfl
      rw [slot_set_self] at hv
      cases hv
    have hsplit : owned trees slots = child (slot trees child') (slot slots child') *
        (child (some v) (slot slots parent) * owned ((trees.set child' none).set parent none)
          ((slots.set child' none).set parent none)) := by
      rw [owned_slot trees slots child', owned_slot (trees.set child' none) _ parent, hv,
        slot_set_ne hne]
    unfold build
    cases ha : slot slots parent with
    | none =>
      rw [hsplit, ha, mul_left_comm]
      exact Triple.bot_mul
    | some a =>
      rw [ha, mul_left_comm, ← mul_assoc] at hsplit
      refine Triple.seq (hf v w (slot trees child') a (slot slots child') hw) hsplit fun _ => ?_
      refine Triple.pure (owned_set hv ?_).ge
      rw [slot_set_ne hne, ha]

variable [Allocator Block]

theorem step_spec {c : ClientCall} (h : treeStep trees c = .ok next) :
    Triple (owned trees slots) (step slots c) (owned next) := by
  have hnew {v : Value} {x : Code ℕ} (hx : Triple 1 x (tree v)) : Triple (owned trees slots)
      (x >>= fun a => pure (slots ++ [some a])) (owned (trees ++ [some v])) := by
    refine Triple.seq hx (one_mul _).symm fun a => Triple.pure ?_
    rw [owned_snoc, mul_comm]
    rfl
  cases c with
  | null =>
    cases h
    exact hnew valueNull_spec
  | bool b =>
    cases h
    exact hnew (valueBool_spec b)
  | long i =>
    cases h
    exact hnew (valueLong_spec i)
  | double d =>
    cases h
    exact hnew (valueDouble_spec d)
  | str p len =>
    obtain ⟨v, hv, h⟩ := bind_ok h
    cases h
    exact hnew (valueStr_object hv)
  | arr initialCap =>
    cases h
    exact hnew (valueArr_spec initialCap)
  | obj cls clen initialCap =>
    obtain ⟨v, hv, h⟩ := bind_ok h
    cases h
    exact hnew (valueObj_object hv)
  | err cls msg code trace =>
    obtain ⟨v, hv, h⟩ := bind_ok h
    cases h
    have herr := valueErr_spec (Source.shows_object cls) (Source.shows_object msg)
      (Source.shows_object trace) hv
    simp only [mul_one] at herr
    exact hnew herr
  | push arr child => exact build_spec (fun v w c a q => valueArrPush_spec) h
  | setInt arr key child => exact build_spec (fun v w c a q => valueArrSetInt_spec) h
  | setStr arr key klen child => exact build_spec (fun v w c a q => valueArrSetStr_object) h
  | objSet obj key klen child => exact build_spec (fun v w c a q => valueObjSet_object) h
  | clone src =>
    obtain ⟨c, hc, h⟩ := bind_ok h
    cases h
    refine Triple.seq (F := owned (trees.set src none) (slots.set src none))
      (valueClone_spec hc (slot slots src)) (owned_slot trees slots src) fun q => Triple.pure ?_
    rw [owned_snoc, mul_assoc, ← owned_slot, mul_comm]
  | unpack buf =>
    obtain ⟨c, hc, h⟩ := bind_ok h
    cases h
    refine Triple.seq (valueUnpack_spec hc) (one_mul _).symm fun q => Triple.pure ?_
    rw [owned_snoc, mul_comm]
  | release j =>
    cases h
    refine Triple.seq (valueFree_spec (slot trees j) (slot slots j)) (owned_slot trees slots j)
      fun _ => Triple.pure (one_mul _).le

theorem run_spec {calls : List ClientCall} (h : treeRun calls trees = .ok next) :
    Triple (owned trees slots) (run calls slots) (owned next) := by
  induction calls generalizing trees slots with
  | nil =>
    cases h
    exact Triple.pure le_rfl
  | cons c calls ih =>
    obtain ⟨mid, hmid, h⟩ := bind_ok h
    exact Triple.bind (step_spec hmid) fun slots => ih h

/-- Whatever a client calls, as long as the calls are defined on trees: no access through NULL, to a
block that is gone or past the end of one; every slot holds its tree in blocks of its own; nothing
else on the heap is touched; and the client that releases its slots leaves the heap as it was. -/
theorem session_refines (calls : List ClientCall) {trees : List (Option Value)}
    (h : treeRun calls [] = .ok trees) (rest : Separation.Heap Block) :
    ∃ slots own, run calls [] rest = .ok (slots, own ∪ rest) ∧ own.Disjoint rest ∧
      owned trees slots own ∧ releaseAll slots (own ∪ rest) = .ok ((), rest) := by
  have hrun : Triple (owned [] []) (run calls []) (owned trees) := run_spec h
  have hspec : Triple 1 (run calls []) (owned trees) := hrun
  obtain ⟨slots, own, hrun, hd, hown⟩ := hspec.adds rest
  obtain ⟨_, hrel⟩ := (releaseAll_spec trees slots).releases hown hd
  exact ⟨slots, own, hrun, hd, hown, hrel⟩

end

/-- An array with a string is cloned, and the original released. -/
def cloneSession : List ClientCall :=
  [.str (some [0x61]) 1, .arr 0, .push 1 0, .clone 1, .release 1]

theorem session_refines_clone : ∃ slots own,
    @run (Allocator.above Block) cloneSession [] ∅ = .ok (slots, own ∪ ∅) ∧
      own.Disjoint (∅ : Separation.Heap Block) ∧
      owned [none, none, some (.arr ⟨1, [intEntry 0 (some (.str (some [0x61]) 1))], 1⟩)] slots own ∧
      releaseAll slots (own ∪ ∅) = .ok ((), ∅) :=
  @session_refines (Allocator.above Block) cloneSession _ rfl ∅

end Parallax.Stored
