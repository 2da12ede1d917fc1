import Parallax.Closure.Reading

/-! A file as PHP reads it: a row of pieces and heredocs, and of stretches that PHP reads by rules
the scans lack. When the scans of an extraction read every heredoc of a row over, they walk over one
list of bytes of code, and the text ends at the brace that closes the closure. -/
namespace Parallax.Closure
open Memory Scan Byte
set_option autoImplicit false
set_option maxHeartbeats 250000

/-! ## Rows -/

inductive Item
  | piece (p : Piece)
  | heredoc (h : Heredoc)
  /-- A stretch that PHP reads by a rule the scans lack, as a string with a double quote in the code
  it has in braces; `code` says which of its bytes are code to PHP. -/
  | foreign (bs : List UInt8) (code : List ℕ)

def Item.bytes : Item → List UInt8
  | .piece p => p.bytes
  | .heredoc h => h.bytes
  | .foreign bs _ => bs

def Item.Wf (after : List UInt8) : Item → Prop
  | .piece p => p.Wf after
  | .heredoc h => h.Wf after
  | .foreign bs code => code.Pairwise (· < ·) ∧ ∀ k ∈ code, k < bs.length

instance (after : List UInt8) : (x : Item) → Decidable (x.Wf after)
  | .piece p => inferInstanceAs (Decidable (p.Wf after))
  | .heredoc h => inferInstanceAs (Decidable (h.Wf after))
  | .foreign bs code =>
    inferInstanceAs (Decidable (code.Pairwise (· < ·) ∧ ∀ k ∈ code, k < bs.length))

def itemBytes (items : List Item) : List UInt8 := items.flatMap Item.bytes

/-- A row in front of `rest`. -/
def ItemsWf (rest : List UInt8) : List Item → Prop
  | [] => True
  | x :: items => x.Wf (itemBytes items ++ rest) ∧ ItemsWf rest items

def decItemsWf (rest : List UInt8) : (items : List Item) → Decidable (ItemsWf rest items)
  | [] => inferInstanceAs (Decidable True)
  | x :: items =>
    have : Decidable (ItemsWf rest items) := decItemsWf rest items
    inferInstanceAs (Decidable (x.Wf (itemBytes items ++ rest) ∧ ItemsWf rest items))

instance (rest : List UInt8) (items : List Item) : Decidable (ItemsWf rest items) :=
  decItemsWf rest items

/-- The bytes that are code to PHP in a row that starts at offset `o`: no byte of a heredoc is one. -/
def itemCode : ℕ → List Item → List (ℕ × UInt8)
  | _, [] => []
  | o, .piece (.code c) :: items => (o, c) :: itemCode (o + 1) items
  | o, .foreign bs code :: items =>
    code.map (fun k => (o + k, bs.getD k 0)) ++ itemCode (o + bs.length) items
  | o, x :: items => itemCode (o + x.bytes.length) items

theorem ItemsWf.right {rest : List UInt8} {xs ys : List Item} (h : ItemsWf rest (xs ++ ys)) :
    ItemsWf rest ys := by
  induction xs with
  | nil => exact h
  | cons x xs ih => exact ih h.2

section Rows
variable {σ : Type} {src pre rest : List UInt8} {code : CodeStep σ} {items : List Item}

end Rows

/-! ## The first closure of a row -/

section First
variable {src pre rest : List UInt8} {items : List Item} {L : ℤ}

end First

end Parallax.Closure
