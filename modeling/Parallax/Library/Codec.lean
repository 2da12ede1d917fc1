import Mathlib.Tactic

/-! Decoders that read a value off the front of their input. A decoder rejects its input, or
fails when it does what it must not; `Reads` says what it makes of an encoding, whatever
follows, and composes along the monad. -/
namespace Parallax.Codec
set_option autoImplicit false
set_option maxHeartbeats 250000

/-- `.ok none` rejects the input; `.error e` is a failure of the decoder itself. -/
def Decoder (ε β α : Type) := List β → Except ε (Option (α × List β))

namespace Decoder
variable {ε β α γ : Type}

protected def pure (a : α) : Decoder ε β α := fun s => .ok (some (a, s))

protected def bind (d : Decoder ε β α) (f : α → Decoder ε β γ) : Decoder ε β γ := fun s =>
  match d s with
  | .ok (some (a, t)) => f a t
  | .ok none => .ok none
  | .error e => .error e

instance : Monad (Decoder ε β) where
  pure := Decoder.pure
  bind := Decoder.bind

/-- The value is not there, or is not one. -/
def reject : Decoder ε β α := fun _ => .ok none

def fail (e : ε) : Decoder ε β α := fun _ => .error e

/-- What runs beside the input: it may fail, and it consumes nothing. -/
def lift (x : Except ε α) : Decoder ε β α := fun s =>
  match x with
  | .ok a => .ok (some (a, s))
  | .error e => .error e

/-- How much input is left. -/
def remaining : Decoder ε β ℕ := fun s => .ok (some (s.length, s))

/-- The next `n` items, which must be there: reading past the end fails with `e`. -/
def take (e : ε) (n : ℕ) : Decoder ε β (List β) := fun s =>
  if n ≤ s.length then .ok (some (s.take n, s.drop n)) else .error e

/-- The next item, which must be there. -/
def next (e : ε) : Decoder ε β β
  | [] => .error e
  | b :: s => .ok (some (b, s))

theorem bind_apply (d : Decoder ε β α) (f : α → Decoder ε β γ) (s : List β) :
    (d >>= f) s = match d s with
      | .ok (some (a, t)) => f a t
      | .ok none => .ok none
      | .error e => .error e := rfl

theorem bind_ok {d : Decoder ε β α} {f : α → Decoder ε β γ} {s t : List β} {a : α}
    (h : d s = .ok (some (a, t))) : (d >>= f) s = f a t := by
  rw [bind_apply, h]

theorem bind_eq_ok {d : Decoder ε β α} {f : α → Decoder ε β γ} {s u : List β} {c : γ} :
    (d >>= f) s = .ok (some (c, u)) ↔
      ∃ a t, d s = .ok (some (a, t)) ∧ f a t = .ok (some (c, u)) := by
  rw [bind_apply]
  constructor
  · intro h
    split at h
    · next a t hd => exact ⟨a, t, hd, h⟩
    · cases h
    · cases h
  · rintro ⟨a, t, hd, hf⟩
    rw [hd]
    exact hf

/-- A run that ends is one of the first decoder that rejects, or goes on with what it read. -/
theorem bind_result {d : Decoder ε β α} {f : α → Decoder ε β γ} {s : List β}
    {r : Option (γ × List β)} (h : (d >>= f) s = .ok r) :
    (d s = .ok none ∧ r = none) ∨ ∃ a t, d s = .ok (some (a, t)) ∧ f a t = .ok r := by
  rw [bind_apply] at h
  split at h
  · next a t hd => exact .inr ⟨a, t, hd, h⟩
  · next hd =>
    cases h
    exact .inl ⟨hd, rfl⟩
  · cases h

theorem lift_result {x : Except ε α} {s : List β} {r : Option (α × List β)}
    (h : (lift x : Decoder ε β α) s = .ok r) : ∃ a, x = .ok a ∧ r = some (a, s) := by
  cases x with
  | error e => cases h
  | ok a =>
    cases h
    exact ⟨a, rfl, rfl⟩

theorem bind_assoc {δ : Type} (d : Decoder ε β α) (f : α → Decoder ε β γ)
    (g : γ → Decoder ε β δ) : d >>= f >>= g = d >>= fun a => f a >>= g := by
  funext s
  rw [bind_apply, bind_apply, bind_apply]
  cases d s with
  | error e => rfl
  | ok r =>
    cases r with
    | none => rfl
    | some p => rfl

end Decoder

variable {ε β α γ : Type}
open Decoder

/-- `d` reads `bs` as `a` and leaves exactly what follows. -/
def Reads (d : Decoder ε β α) (bs : List β) (a : α) : Prop :=
  ∀ rest, d (bs ++ rest) = .ok (some (a, rest))

namespace Reads
variable {d : Decoder ε β α} {f : α → Decoder ε β γ} {bs cs : List β} {a b : α} {c : γ}

theorem pure (a : α) : Reads (Pure.pure a : Decoder ε β α) [] a := fun _ => rfl

theorem bind (h : Reads d bs a) (hf : Reads (f a) cs c) : Reads (d >>= f) (bs ++ cs) c := by
  intro rest
  rw [List.append_assoc, bind_ok (h _)]
  exact hf rest

theorem bind_nil (h : Reads d bs a) (hf : Reads (f a) [] c) : Reads (d >>= f) bs c := by
  have := h.bind hf
  rwa [List.append_nil] at this

theorem nil_bind (h : Reads d [] a) (hf : Reads (f a) cs c) : Reads (d >>= f) cs c := h.bind hf

theorem lift {x : Except ε α} (h : x = .ok a) : Reads (Decoder.lift x : Decoder ε β α) [] a := by
  intro rest
  subst h
  rfl

theorem next (e : ε) (b : β) : Reads (Decoder.next e) [b] b := fun _ => rfl

theorem take (e : ε) (bs : List β) : Reads (Decoder.take e bs.length) bs bs := by
  intro rest
  simp [Decoder.take]

theorem guard {p : ℕ → Prop} [DecidablePred p] {d' : Decoder ε β α} (h : Reads d bs a)
    (hp : ∀ n, ¬ p (bs.length + n)) :
    Reads (remaining >>= fun n => if p n then d' else d) bs a := by
  intro rest
  rw [bind_apply]
  simp only [remaining, List.length_append, if_neg (hp rest.length)]
  exact h rest

theorem whole (h : Reads d bs a) : d bs = .ok (some (a, [])) := by
  have := h []
  rwa [List.append_nil] at this

end Reads
end Parallax.Codec
