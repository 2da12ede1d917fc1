import Parallax.Library.Codec

/-! What a decoder takes off its input when it accepts, and where it cannot fail: the two laws a
decoder of untrusted input needs, each with one rule for every combinator. -/
namespace Parallax.Codec
open Decoder
set_option autoImplicit false
set_option maxHeartbeats 250000

variable {ε β α γ : Type}

/-! ## What was taken -/

/-- What `d` accepts it took off the front, and `P` relates it to the value read. -/
def Takes (d : Decoder ε β α) (P : List β → α → Prop) : Prop :=
  ∀ s a t, d s = .ok (some (a, t)) → ∃ cs, s = cs ++ t ∧ P cs a

namespace Takes
variable {d : Decoder ε β α} {f : α → Decoder ε β γ} {P P' : List β → α → Prop}
  {Q : α → List β → γ → Prop}

theorem mono (h : Takes d P) (hP : ∀ cs a, P cs a → P' cs a) : Takes d P' := by
  intro s a t hd
  obtain ⟨cs, hs, hcs⟩ := h s a t hd
  exact ⟨cs, hs, hP cs a hcs⟩

theorem pure (a : α) : Takes (Pure.pure a : Decoder ε β α) (fun cs x => cs = [] ∧ x = a) := by
  intro s x t hd
  cases hd
  exact ⟨[], rfl, rfl, rfl⟩

theorem reject : Takes (Decoder.reject : Decoder ε β α) P := by
  intro s a t hd
  cases hd

theorem lift (x : Except ε α) :
    Takes (Decoder.lift x : Decoder ε β α) (fun cs a => cs = [] ∧ x = .ok a) := by
  intro s a t hd
  cases x with
  | error e => cases hd
  | ok b =>
    cases hd
    exact ⟨[], rfl, rfl, rfl⟩

theorem next (e : ε) : Takes (Decoder.next e : Decoder ε β β) (fun cs b => cs = [b]) := by
  intro s b t hd
  cases s with
  | nil => cases hd
  | cons c s =>
    cases hd
    exact ⟨[b], rfl, rfl⟩

theorem take (e : ε) (n : ℕ) :
    Takes (Decoder.take e n : Decoder ε β (List β)) (fun cs bs => bs = cs ∧ cs.length = n) := by
  intro s bs t hd
  unfold Decoder.take at hd
  split_ifs at hd with hn
  cases hd
  exact ⟨s.take n, (List.take_append_drop n s).symm, rfl, by simp [hn]⟩

theorem bind (hd : Takes d P) (hf : ∀ a, Takes (f a) (Q a)) :
    Takes (d >>= f) (fun cs c => ∃ us vs a, cs = us ++ vs ∧ P us a ∧ Q a vs c) := by
  intro s c t h
  obtain ⟨a, u, ha, hc⟩ := bind_eq_ok.mp h
  obtain ⟨us, hs, hus⟩ := hd s a u ha
  obtain ⟨vs, hu, hvs⟩ := hf a u c t hc
  exact ⟨us ++ vs, by rw [hs, hu, List.append_assoc], us, vs, a, rfl, hus, hvs⟩

/-- A check of the input's length takes nothing. -/
theorem guard {p : ℕ → Prop} [DecidablePred p] {d' : Decoder ε β α} (hr : ∀ s, d' s = .ok none)
    (h : Takes d P) :
    Takes (remaining >>= fun n => if p n then d' else d)
      (fun cs a => P cs a ∧ ∃ n, ¬ p (cs.length + n)) := by
  intro s a t hd
  obtain ⟨n, u, hn, hd⟩ := bind_eq_ok.mp hd
  cases hn
  split_ifs at hd with hp
  · rw [hr] at hd
    cases hd
  · obtain ⟨cs, rfl, hcs⟩ := h _ a t hd
    exact ⟨cs, rfl, hcs, t.length, by rwa [List.length_append] at hp⟩

end Takes

/-! ## Where it cannot fail -/

/-- `d` accepts or rejects `s`: it does not fail there. -/
def Settles (d : Decoder ε β α) (s : List β) : Prop := ∃ r, d s = .ok r

namespace Settles
variable {d : Decoder ε β α} {f : α → Decoder ε β γ} {s : List β}

theorem pure (a : α) : Settles (Pure.pure a : Decoder ε β α) s := ⟨_, rfl⟩

theorem reject : Settles (Decoder.reject : Decoder ε β α) s := ⟨_, rfl⟩

theorem lift {x : Except ε α} {a : α} (h : x = .ok a) :
    Settles (Decoder.lift x : Decoder ε β α) s := by
  subst h
  exact ⟨_, rfl⟩

theorem take (e : ε) {n : ℕ} (h : n ≤ s.length) :
    Settles (Decoder.take e n : Decoder ε β (List β)) s :=
  ⟨some (s.take n, s.drop n), if_pos h⟩

theorem bind (hd : Settles d s)
    (hf : ∀ a t, d s = .ok (some (a, t)) → Settles (f a) t) : Settles (d >>= f) s := by
  obtain ⟨r, hr⟩ := hd
  cases r with
  | none => exact ⟨none, by rw [bind_apply, hr]⟩
  | some p =>
    obtain ⟨c, hc⟩ := hf p.1 p.2 hr
    exact ⟨c, by rw [bind_ok hr, hc]⟩

theorem guard {p : ℕ → Prop} [DecidablePred p] {d' : Decoder ε β α} (hr : ∀ s, d' s = .ok none)
    (h : ¬ p s.length → Settles d s) :
    Settles (remaining >>= fun n => if p n then d' else d) s := by
  by_cases hp : p s.length
  · exact ⟨none, by rw [bind_ok (d := remaining) (t := s) rfl, if_pos hp, hr]⟩
  · obtain ⟨r, hr⟩ := h hp
    exact ⟨r, by rw [bind_ok (d := remaining) (t := s) rfl, if_neg hp, hr]⟩

end Settles
end Parallax.Codec
