import Mathlib.Tactic

/-! Pointers that own what they point at, with what became of it: the objects that were put behind a
pointer are numbered in their order, and the history says which were released. -/
namespace Parallax.Ownership
set_option autoImplicit false
set_option maxHeartbeats 250000

/-- How many objects the pointer was given, the one it points at, and those that were released. -/
structure Owner where
  given : ℕ
  held : Option ℕ
  released : List ℕ

namespace Owner
variable {o : Owner}

/-- NULL, and never anything else. -/
def start : Owner := ⟨0, none, []⟩

/-- The pointer is given a new object, or set to NULL. -/
def point (isSome : Bool) (o : Owner) : Owner :=
  if isSome then { o with given := o.given + 1, held := some o.given } else { o with held := none }

/-- What the pointer points at is released; the pointer stays as it is. -/
def release (o : Owner) : Owner := { o with released := o.released ++ o.held.toList }

/-- Every object was released once, if it is not held, and else never. -/
def Balanced (o : Owner) : Prop := (o.released ++ o.held.toList).Perm (List.range o.given)

/-- Every object was released once. -/
def ReleasedOnce (o : Owner) : Prop := o.released.Perm (List.range o.given)

theorem start_balanced : start.Balanced := List.Perm.nil

/-- A pointer that is not NULL would lose its object. -/
theorem Balanced.point (h : o.Balanced) (hheld : o.held = none) (isSome : Bool) :
    (o.point isSome).Balanced := by
  unfold Balanced at h
  rw [hheld, Option.toList_none, List.append_nil] at h
  cases isSome with
  | false =>
    show (o.released ++ []).Perm (List.range o.given)
    rwa [List.append_nil]
  | true =>
    show (o.released ++ [o.given]).Perm (List.range (o.given + 1))
    rw [List.range_succ]
    exact h.append_right [o.given]

theorem Balanced.released (h : o.Balanced) : o.release.ReleasedOnce := h

/-- Released and set to NULL. -/
theorem Balanced.drop (h : o.Balanced) : (o.release.point false).Balanced := by
  show (o.release.released ++ []).Perm (List.range o.given)
  rw [List.append_nil]
  exact h

end Owner

end Parallax.Ownership
