import Parallax.Value.Block

/-! Sequences of builder calls on one tree. Each call fails an assertion, or overflows, or appends one
entry. -/
namespace Parallax
open Memory
set_option autoImplicit false
set_option maxHeartbeats 250000

/-! ## Calls -/

/-- The key of a call: `klen` bytes that can be read at `key`. -/
structure KeyArg where
  key : Ptr
  klen : ℕ
  bytes : List UInt8
  load_eq : load key klen = .ok bytes

/-- A call of a builder on a tree, with a child or NULL. -/
inductive BuildCall
  | push (child : Option Value)
  | setInt (key : Int64) (child : Option Value)
  | setStr (key : KeyArg) (child : Option Value)
  | objSet (key : KeyArg) (child : Option Value)

namespace BuildCall

def apply : BuildCall → Value → Except Fault Value
  | .push child, v => valueArrPush v child
  | .setInt key child, v => valueArrSetInt v key child
  | .setStr key child, v => valueArrSetStr v key.key key.klen child
  | .objSet key child, v => valueObjSet v key.key key.klen child

/-- The calls one after another. -/
def applyAll (calls : List BuildCall) (v : Value) : Except Fault Value :=
  calls.foldlM (fun v c => c.apply v) v

def child : BuildCall → Option Value
  | .push child => child
  | .setInt _ child => child
  | .setStr _ child => child
  | .objSet _ child => child

def keyArg? : BuildCall → Option KeyArg
  | .setStr key _ => some key
  | .objSet key _ => some key
  | _ => none

def isObjSet : BuildCall → Bool
  | .objSet .. => true
  | _ => false

/-- The assertion of the call holds. -/
def Suits (c : BuildCall) (v : Value) : Prop := v.tag = if c.isObjSet then .obj else .arr

/-- `next_int_key` overflows. -/
def Overflows (c : BuildCall) (entries : List Entry) : Prop :=
  match c with
  | .push _ => maxIntKey entries = Int64.maxValue
  | _ => False

instance (c : BuildCall) (v : Value) : Decidable (c.Suits v) :=
  inferInstanceAs (Decidable (v.tag = _))

instance (c : BuildCall) (entries : List Entry) : Decidable (c.Overflows entries) :=
  match c with
  | .push _ => inferInstanceAs (Decidable (maxIntKey entries = Int64.maxValue))
  | .setInt .. => inferInstanceAs (Decidable False)
  | .setStr .. => inferInstanceAs (Decidable False)
  | .objSet .. => inferInstanceAs (Decidable False)

/-- The entry that the call appends to these. -/
def entry (c : BuildCall) (entries : List Entry) : Entry :=
  match c with
  | .push child => intEntry (maxIntKey entries + 1) child
  | .setInt key child => intEntry key child
  | .setStr key child => strKv key.bytes child
  | .objSet key child => strKv key.bytes child

theorem applyAll_cons (c : BuildCall) (calls : List BuildCall) (v : Value) :
    applyAll (c :: calls) v = c.apply v >>= applyAll calls := List.foldlM_cons

end BuildCall

/-! ## The block a call is about -/

/-- The block of an array or an object. -/
def Value.items : Value → KvVec Entry
  | .arr items => items
  | .obj _ _ props => props
  | _ => ⟨0, [], 0⟩

/-- The tree with another block. -/
def Value.withItems : Value → KvVec Entry → Value
  | .arr _, items => .arr items
  | .obj cls clen _, items => .obj cls clen items
  | v, _ => v

theorem Value.Wf.room {v : Value} (h : v.Wf) : v.items.Room := by
  cases h with
  | arr _ hv => exact hv.room
  | obj _ _ _ hv => exact hv.room
  | _ => exact ⟨rfl, le_rfl⟩

/-! ## What a call does -/

theorem append_bind_ok {β : Type} (items : KvVec Entry) (kv : Entry) (f : KvVec Entry → β) :
    (items.append kv >>= fun items => .ok (f items)) = (items.append kv).map f := by
  cases items.append kv <;> rfl

theorem append_keyArg {β : Type} (items : KvVec Entry) (key : KeyArg) (child : Option Value)
    (f : KvVec Entry → β) :
    (strEntry key.key key.klen child >>= fun kv => items.append kv >>= fun items =>
      .ok (f items)) = (items.append (strKv key.bytes child)).map f := by
  rw [strEntry_load key.load_eq, ok_bind]
  exact append_bind_ok items _ f

theorem valueArrPush_eq (items : KvVec Entry) (child : Option Value) :
    valueArrPush (.arr items) child =
      if maxIntKey items.entries = Int64.maxValue then .error .signedOverflow
      else (items.append (intEntry (maxIntKey items.entries + 1) child)).map .arr := by
  show (nextIntKey items.entries >>= fun key =>
    items.append (intEntry key child) >>= fun items => .ok (Value.arr items)) = _
  rw [nextIntKey]
  split
  · rfl
  · rw [ok_bind]
    exact append_bind_ok items _ Value.arr

namespace BuildCall
variable (c : BuildCall) (v : Value)

/-- The outcome of a call. -/
def outcome : Except Fault Value :=
  if c.Suits v then
    if c.Overflows v.items.entries then .error .signedOverflow
    else (v.items.append (c.entry v.items.entries)).map v.withItems
  else .error .failedAssert

variable {c : BuildCall} {v : Value}

theorem outcome_refused (h : ¬ c.Suits v) : c.outcome v = .error .failedAssert := if_neg h

theorem outcome_overflow (h : c.Suits v) (ho : c.Overflows v.items.entries) :
    c.outcome v = .error .signedOverflow := by
  rw [outcome, if_pos h, if_pos ho]

theorem outcome_append (h : c.Suits v) (ho : ¬ c.Overflows v.items.entries) :
    c.outcome v = (v.items.append (c.entry v.items.entries)).map v.withItems := by
  rw [outcome, if_pos h, if_neg ho]

/-- Every builder asserts the tag, and appends one entry. -/
theorem apply_eq (c : BuildCall) (v : Value) : c.apply v = c.outcome v := by
  cases c with
  | push child =>
    cases v with
    | arr items =>
      have hsuits : (push child).Suits (.arr items) := rfl
      refine (valueArrPush_eq items child).trans ?_
      by_cases hmax : maxIntKey items.entries = Int64.maxValue
      · rw [if_pos hmax]
        exact (outcome_overflow hsuits hmax).symm
      · rw [if_neg hmax]
        exact (outcome_append hsuits hmax).symm
    | _ => exact (outcome_refused (fun h => by cases h)).symm
  | setInt key child =>
    cases v with
    | arr items =>
      have hsuits : (setInt key child).Suits (.arr items) := rfl
      exact (append_bind_ok items _ Value.arr).trans (outcome_append hsuits not_false).symm
    | _ => exact (outcome_refused (fun h => by cases h)).symm
  | setStr key child =>
    cases v with
    | arr items =>
      have hsuits : (setStr key child).Suits (.arr items) := rfl
      exact (append_keyArg items key child Value.arr).trans (outcome_append hsuits not_false).symm
    | _ => exact (outcome_refused (fun h => by cases h)).symm
  | objSet key child =>
    cases v with
    | obj cls clen props =>
      have hsuits : (objSet key child).Suits (.obj cls clen props) := rfl
      exact (append_keyArg props key child (Value.obj cls clen)).trans
        (outcome_append hsuits not_false).symm
    | _ => exact (outcome_refused (fun h => by cases h)).symm

theorem apply_wf {a : Value} (hv : v.Wf) (hc : ChildWf c.child)
    (hkey : ∀ key, c.keyArg? = some key → Fits key.key) (h : c.apply v = .ok a)
    (hn : a.n < 2 ^ 64) : a.Wf := by
  cases c with
  | push c => exact valueArrPush_wf hv hc h hn
  | setInt key c => exact valueArrSetInt_wf hv hc h hn
  | setStr key c => exact valueArrSetStr_wf hv hc (hkey key rfl) h hn
  | objSet key c => exact valueObjSet_wf hv hc (hkey key rfl) h hn

end BuildCall

end Parallax
