import Mathlib.Tactic

/-! Machine words built up from groups of bits, the lowest group first: the arithmetic of
`v |= group << shift`. -/
namespace Parallax.Word
set_option autoImplicit false
set_option maxHeartbeats 250000

theorem toNat_shiftRight (v : UInt64) (k : ℕ) (hk : k < 64) :
    (v >>> UInt64.ofNat k).toNat = v.toNat / 2 ^ k := by
  have hm : k % 2 ^ 64 = k := Nat.mod_eq_of_lt (by omega)
  rw [UInt64.toNat_shiftRight, UInt64.toNat_ofNat', hm, Nat.mod_eq_of_lt hk,
    Nat.shiftRight_eq_div_pow]

theorem word_split {k : ℕ} (hk : k < 64) : 2 ^ 64 = 2 ^ (64 - k) * 2 ^ k := by
  rw [← pow_add]
  congr 1
  omega

/-- The groups below have `k` bits, so a group of `64 - k` bits is added without a carry. -/
theorem add_group_lt {a g k : ℕ} (hk : k < 64) (ha : a < 2 ^ k) (hg : g < 2 ^ (64 - k)) :
    a + g * 2 ^ k < 2 ^ 64 := by
  have hmul := Nat.mul_le_mul_right (2 ^ k) (Nat.succ_le_of_lt hg)
  rw [← word_split hk, Nat.succ_mul] at hmul
  omega

/-- A group may have bits beyond the word: these are dropped. -/
theorem toNat_or_shiftLeft_mod (a g : UInt64) (k : ℕ) (hk : k < 64) (ha : a.toNat < 2 ^ k) :
    (a ||| g <<< UInt64.ofNat k).toNat = (a.toNat + g.toNat * 2 ^ k) % 2 ^ 64 := by
  have hm : k % 2 ^ 64 = k := Nat.mod_eq_of_lt (by omega)
  have hlow : g.toNat * 2 ^ k % 2 ^ 64 = g.toNat % 2 ^ (64 - k) * 2 ^ k := by
    rw [word_split hk, Nat.mul_mod_mul_right]
  have hfit := add_group_lt hk ha (Nat.mod_lt g.toNat (show 0 < 2 ^ (64 - k) by positivity))
  rw [← Nat.add_mod_mod, hlow, Nat.mod_eq_of_lt hfit, UInt64.toNat_or, UInt64.toNat_shiftLeft,
    UInt64.toNat_ofNat', hm, Nat.mod_eq_of_lt hk, Nat.shiftLeft_eq, hlow, Nat.or_comm,
    ← Nat.shiftLeft_eq, ← Nat.shiftLeft_add_eq_or_of_lt ha, Nat.shiftLeft_eq, Nat.add_comm]

theorem toNat_or_shiftLeft (a g : UInt64) (k : ℕ) (hk : k < 64) (ha : a.toNat < 2 ^ k)
    (hg : g.toNat * 2 ^ k < 2 ^ 64) :
    (a ||| g <<< UInt64.ofNat k).toNat = a.toNat + g.toNat * 2 ^ k := by
  have hg' : g.toNat < 2 ^ (64 - k) := by
    rw [word_split hk] at hg
    exact Nat.lt_of_mul_lt_mul_right hg
  rw [toNat_or_shiftLeft_mod a g k hk ha, Nat.mod_eq_of_lt (add_group_lt hk ha hg')]

/-- The low bits, then the next group, are the low bits of a longer word. -/
theorem mod_add_group (n k j : ℕ) :
    n % 2 ^ k + n / 2 ^ k % 2 ^ j * 2 ^ k = n % 2 ^ (k + j) := by
  rw [pow_add, Nat.mod_mul, Nat.mul_comm]

/-! ## Groups of seven bits under a continuation bit -/

theorem forall_byte {P : UInt8 → Prop} (h : ∀ i : Fin 256, P (UInt8.ofNat i.val)) (b : UInt8) :
    P b := by
  have := h ⟨b.toNat, b.toNat_lt⟩
  rwa [UInt8.ofNat_toNat] at this

/-- The continuation bit, and what is left without it. -/
theorem group_eq (b : UInt8) :
    (b &&& 0x80 = 0 ↔ b < 0x80) ∧ (b &&& 0x7f).toUInt64.toNat = b.toNat % 2 ^ 7 := by
  rw [UInt8.toNat_toUInt64]
  exact forall_byte (P := fun b => (b &&& 0x80 = 0 ↔ b < 0x80) ∧
    (b &&& 0x7f).toNat = b.toNat % 2 ^ 7) (by decide +kernel) b

/-- A group with more to come: its continuation bit is set, and it holds the low seven bits. -/
theorem continued (v : UInt64) : (v ||| 0x80).toUInt8 &&& 0x80 ≠ 0 ∧
    ((v ||| 0x80).toUInt8 &&& 0x7f).toUInt64.toNat = v.toNat % 2 ^ 7 := by
  have hb : (v ||| 0x80).toUInt8 = v.toUInt8 ||| 0x80 := UInt64.toUInt8_or v 0x80
  obtain ⟨hc, hg⟩ := forall_byte (P := fun b => (b ||| 0x80) &&& 0x80 ≠ 0 ∧
    ((b ||| 0x80) &&& 0x7f).toNat = b.toNat % 2 ^ 7) (by decide +kernel) v.toUInt8
  rw [hb, UInt8.toNat_toUInt64, hg, UInt64.toNat_toUInt8]
  exact ⟨hc, by omega⟩

/-- The last group: no continuation bit, and the value itself. -/
theorem final (v : UInt64) (h : v.toNat < 2 ^ 7) : v.toUInt8 &&& 0x80 = 0 ∧
    (v.toUInt8 &&& 0x7f).toUInt64.toNat = v.toNat := by
  obtain ⟨hc, hg⟩ := forall_byte (P := fun b => b.toNat < 2 ^ 7 →
    b &&& 0x80 = 0 ∧ (b &&& 0x7f).toNat = b.toNat) (by decide +kernel) v.toUInt8
    (by rw [UInt64.toNat_toUInt8]; omega)
  rw [UInt8.toNat_toUInt64, hg, UInt64.toNat_toUInt8]
  exact ⟨hc, by omega⟩

end Parallax.Word
