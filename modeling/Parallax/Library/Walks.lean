import Mathlib.Tactic

/-! Walks down a graph given by the children of each node, cycles and sharing allowed, and the
bound on their length under which a recursion over the children goes through. -/
namespace Parallax.Walks
set_option autoImplicit false
set_option maxHeartbeats 250000

variable {α : Type} (kids : α → List α)

/-- `z` lies `n` steps below `x`. -/
inductive Below : ℕ → α → α → Prop
  | here (x : α) : Below 0 x x
  | step {n : ℕ} {x y z : α} (hy : y ∈ kids x) (hz : Below n y z) : Below (n + 1) x z

/-- All that lies below `x` is good, and none of it more than `n` steps down. -/
def Within (good : α → Prop) (n : ℕ) (x : α) : Prop :=
  ∀ k z, Below kids k x z → k ≤ n ∧ good z

/-- All that lies below `x` is good, to any depth. -/
def Everywhere (good : α → Prop) (x : α) : Prop := ∀ n z, Below kids n x z → good z

variable {kids} {good : α → Prop}

theorem everywhere_iff {x : α} :
    Everywhere kids good x ↔ good x ∧ ∀ y ∈ kids x, Everywhere kids good y := by
  constructor
  · intro h
    exact ⟨h 0 x (.here x), fun y hy n z hz => h (n + 1) z (.step hy hz)⟩
  · rintro ⟨hx, hkids⟩ n z hz
    cases hz with
    | here => exact hx
    | step hy hz => exact hkids _ hy _ z hz

theorem Within.here {n : ℕ} {x : α} (h : Within kids good n x) : good x :=
  (h 0 x (.here x)).2

theorem within_zero {x : α} : Within kids good 0 x ↔ good x ∧ ∀ y ∈ kids x, False := by
  constructor
  · intro h
    refine ⟨h.here, fun y hy => ?_⟩
    have := (h 1 y (.step hy (.here y))).1
    omega
  · rintro ⟨hx, hnone⟩ k z hz
    cases hz with
    | here => exact ⟨le_rfl, hx⟩
    | step hy => exact (hnone _ hy).elim

theorem within_succ {n : ℕ} {x : α} :
    Within kids good (n + 1) x ↔ good x ∧ ∀ y ∈ kids x, Within kids good n y := by
  constructor
  · intro h
    refine ⟨h.here, fun y hy k z hz => ?_⟩
    obtain ⟨hk, hgood⟩ := h (k + 1) z (.step hy hz)
    exact ⟨by omega, hgood⟩
  · rintro ⟨hx, hkids⟩ k z hz
    cases hz with
    | here => exact ⟨Nat.zero_le _, hx⟩
    | step hy hz =>
      obtain ⟨hk, hgood⟩ := hkids _ hy _ z hz
      exact ⟨by omega, hgood⟩

end Parallax.Walks
