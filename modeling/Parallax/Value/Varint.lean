import Parallax.Value.Pack

/-! The varint of `value/pack.c` against the number that its groups of seven bits encode: what
`varint_write` writes, and what `varint_read` makes of any bytes. -/
namespace Parallax
open Memory Codec Codec.Decoder
set_option autoImplicit false
set_option maxHeartbeats 250000

/-! ## Groups -/

/-- The number that groups of seven bits encode, the lowest group first. -/
def groupsSum (bs : List UInt8) : ℕ := (bs.mapIdx fun i b => b.toNat % 128 * 128 ^ i).sum

/-- Bytes with a continuation bit, and one without it at their end. -/
structure VarintCode where
  groups : List UInt8
  last : UInt8
  continued : ∀ b ∈ groups, 0x80 ≤ b
  ends : last < 0x80

def VarintCode.bytes (c : VarintCode) : List UInt8 := c.groups ++ [c.last]

theorem groupsSum_eq (bs : List UInt8) :
    groupsSum bs = Nat.ofDigits 128 (bs.map fun b => b.toNat % 128) := by
  rw [Nat.ofDigits_eq_sum_mapIdx, groupsSum]
  refine congrArg List.sum (List.mapIdx_eq_iff.mpr fun i => ?_).symm
  rw [List.getElem?_mapIdx, List.getElem?_map]
  cases bs[i]? <;> rfl

theorem groupsSum_cons (b : UInt8) (bs : List UInt8) :
    groupsSum (b :: bs) = b.toNat % 128 + 128 * groupsSum bs := by
  rw [groupsSum_eq, groupsSum_eq, List.map_cons, Nat.ofDigits_cons]

theorem groupsSum_singleton (b : UInt8) : groupsSum [b] = b.toNat % 128 := groupsSum_cons b []

theorem groupsSum_append (as bs : List UInt8) :
    groupsSum (as ++ bs) = groupsSum as + 128 ^ as.length * groupsSum bs := by
  rw [groupsSum_eq, groupsSum_eq, groupsSum_eq, List.map_append, Nat.ofDigits_append,
    List.length_map]

theorem groupsSum_lt (bs : List UInt8) : groupsSum bs < 128 ^ bs.length := by
  have hlt : ∀ n ∈ bs.map fun b => b.toNat % 128, n < 128 := by
    intro n hn
    obtain ⟨b, -, rfl⟩ := List.mem_map.mp hn
    exact Nat.mod_lt _ (by norm_num)
  have hsum := Nat.ofDigits_lt_base_pow_length (by norm_num) hlt
  rwa [List.length_map, ← groupsSum_eq] at hsum

namespace VarintCode
variable (c : VarintCode)

theorem bytes_length : c.bytes.length = c.groups.length + 1 := by
  rw [bytes, List.length_append, List.length_singleton]

theorem sum_eq : groupsSum c.bytes =
    groupsSum c.groups + 128 ^ c.groups.length * c.last.toNat := by
  have hlast : c.last.toNat < 128 := UInt8.lt_iff_toNat_lt.mp c.ends
  rw [bytes, groupsSum_append, groupsSum_singleton, Nat.mod_eq_of_lt hlast]

/-- Up to nine groups fit a word, and a tenth one that is 0 or 1. -/
theorem sum_lt_iff (h : c.bytes.length ≤ 10) :
    groupsSum c.bytes < 2 ^ 64 ↔ ¬ (c.groups.length = 9 ∧ 2 ≤ c.last.toNat) := by
  have hlow := groupsSum_lt c.groups
  have hall := groupsSum_lt c.bytes
  have hsum := c.sum_eq
  have hlen := c.bytes_length
  by_cases h9 : c.groups.length = 9
  · rw [h9] at hlow hsum
    norm_num at hlow hsum ⊢
    omega
  · have hpow : 128 ^ c.bytes.length ≤ 128 ^ 9 := Nat.pow_le_pow_right (by norm_num) (by omega)
    refine iff_of_true (hall.trans_le (hpow.trans (by norm_num))) fun hno => h9 hno.1

theorem last_mem_take (rest : List UInt8) {n : ℕ} (h : c.bytes.length ≤ n) :
    c.last ∈ (c.bytes ++ rest).take n := by
  have hlen := c.bytes_length
  have hbytes : c.bytes ++ rest = c.groups ++ c.last :: rest := List.append_assoc ..
  refine List.mem_of_getElem? (i := c.groups.length) ?_
  rw [hbytes, List.getElem?_take_of_lt (by omega), List.getElem?_append_right le_rfl, Nat.sub_self]
  rfl

end VarintCode

/-- Bytes begin with a code of at most `n` bytes, or have `n` continuation bits in front, or fewer
and nothing behind them. -/
theorem code_or_open (s : List UInt8) (n : ℕ) :
    (∃ (c : VarintCode) (rest : List UInt8), s = c.bytes ++ rest ∧ c.bytes.length ≤ n) ∨
      ∀ b ∈ s.take n, 0x80 ≤ b := by
  induction n generalizing s with
  | zero => exact .inr fun b hb => by cases hb
  | succ n ih =>
    cases s with
    | nil => exact .inr fun b hb => by cases hb
    | cons b s =>
      by_cases hb : b < 0x80
      · exact .inl ⟨⟨[], b, List.forall_mem_nil _, hb⟩, s, rfl, Nat.succ_le_succ (Nat.zero_le n)⟩
      · have hb' : 0x80 ≤ b := UInt8.not_lt.mp hb
        rcases ih s with ⟨c, rest, rfl, hlen⟩ | hopen
        · refine .inl ⟨⟨b :: c.groups, c.last, List.forall_mem_cons.mpr ⟨hb', c.continued⟩, c.ends⟩,
            rest, rfl, Nat.succ_le_succ hlen⟩
        · exact .inr (List.forall_mem_cons.mpr ⟨hb', hopen⟩)

/-! ## varint_read -/

/-- One turn of the loop on a byte with a continuation bit. -/
theorem varintReadLoop_continued {b : UInt8} (hb : 0x80 ≤ b) (s : List UInt8) (v : UInt64)
    (shift : ℕ) : varintReadLoop (b :: s) v shift =
      if 64 ≤ shift + 7 then .ok none
      else varintReadLoop s (v ||| (b &&& 0x7f).toUInt64 <<< UInt64.ofNat shift) (shift + 7) := by
  have hbit : ¬ b &&& 0x80 = 0 := fun h => UInt8.not_lt.mpr hb ((Word.group_eq b).1.mp h)
  rw [varintReadLoop, if_neg hbit]

/-- The loop on what is left of a code when `k` groups of it have been read. -/
theorem varintReadLoop_code (c : VarintCode) (rest : List UInt8) {v : UInt64} {k : ℕ}
    (hk : k + c.bytes.length ≤ 10) (hv : v.toNat < 2 ^ (7 * k)) :
    varintReadLoop (c.bytes ++ rest) v (7 * k) =
      .ok (some (UInt64.ofNat (v.toNat + groupsSum c.bytes * 2 ^ (7 * k)), rest)) := by
  obtain ⟨groups, last, hcont, hends⟩ := c
  have hlen : k + (groups.length + 1) ≤ 10 := by
    rwa [VarintCode.bytes_length] at hk
  induction groups generalizing v k with
  | nil =>
    have hmod := Word.toNat_or_shiftLeft_mod v (last &&& 0x7f).toUInt64 (7 * k) (by omega) hv
    rw [(Word.group_eq last).2] at hmod
    show varintReadLoop (last :: rest) v (7 * k) = _
    rw [varintReadLoop, if_pos ((Word.group_eq last).1.mpr hends)]
    refine congrArg (fun u => Except.ok (some (u, rest))) (UInt64.toNat_inj.mp ?_)
    show _ = (UInt64.ofNat (v.toNat + groupsSum [last] * 2 ^ (7 * k))).toNat
    rw [groupsSum_singleton, UInt64.toNat_ofNat', hmod]
    rfl
  | cons b groups ih =>
    obtain ⟨hb, hcont⟩ := List.forall_mem_cons.mp hcont
    rw [List.length_cons] at hlen
    have hgroup := (Word.group_eq b).2
    have hpow : 2 ^ (7 * (k + 1)) = 2 ^ (7 * k) * 2 ^ 7 := pow_add 2 (7 * k) 7
    have hbound : 2 ^ (7 * (k + 1)) ≤ 2 ^ 63 := Nat.pow_le_pow_right (by norm_num) (by omega)
    have hlow : b.toNat % 2 ^ 7 * 2 ^ (7 * k) ≤ 127 * 2 ^ (7 * k) :=
      Nat.mul_le_mul_right _ (by omega)
    have hor := Word.toNat_or_shiftLeft v (b &&& 0x7f).toUInt64 (7 * k) (by omega) hv
      (by rw [hgroup]; omega)
    rw [hgroup] at hor
    have hrest : k + 1 + (groups.length + 1) ≤ 10 := by omega
    have hnext := ih (k := k + 1) (v := v ||| (b &&& 0x7f).toUInt64 <<< UInt64.ofNat (7 * k))
      (by omega) hcont (by rwa [VarintCode.bytes_length]) hrest
    show varintReadLoop (b :: ((groups ++ [last]) ++ rest)) v (7 * k) = _
    rw [varintReadLoop_continued hb, if_neg (by omega)]
    refine hnext.trans (congrArg (fun n => Except.ok (some (UInt64.ofNat n, rest))) ?_)
    show _ + groupsSum (groups ++ [last]) * 2 ^ (7 * (k + 1)) =
      v.toNat + groupsSum (b :: (groups ++ [last])) * 2 ^ (7 * k)
    have hlow7 : b.toNat % 128 = b.toNat % 2 ^ 7 := rfl
    rw [hor, groupsSum_cons, hpow, hlow7]
    ring

theorem varintReadLoop_open {s : List UInt8} {k : ℕ} (hk : k < 10)
    (h : ∀ b ∈ s.take (10 - k), 0x80 ≤ b) (v : UInt64) :
    varintReadLoop s v (7 * k) = .ok none := by
  induction s generalizing v k with
  | nil => rfl
  | cons b s ih =>
    obtain ⟨n, hn⟩ : ∃ n, 10 - k = n + 1 := ⟨9 - k, by omega⟩
    rw [hn, List.take_succ_cons] at h
    obtain ⟨hb, h⟩ := List.forall_mem_cons.mp h
    rw [varintReadLoop_continued hb]
    split
    · rfl
    · have hn' : 10 - (k + 1) = n := by omega
      exact ih (by omega) (hn' ▸ h) _

/-- A code of at most ten bytes is read modulo the word. -/
theorem varintRead_code (c : VarintCode) (rest : List UInt8) (h : c.bytes.length ≤ 10) :
    varintRead (c.bytes ++ rest) = .ok (some (UInt64.ofNat (groupsSum c.bytes), rest)) := by
  have hread := varintReadLoop_code c rest (v := 0) (k := 0) (by omega) (by norm_num)
  rw [varintRead]
  simpa using hread

/-- Anything else is rejected. -/
theorem varintRead_open {s : List UInt8} (h : ∀ b ∈ s.take 10, 0x80 ≤ b) :
    varintRead s = .ok none :=
  varintReadLoop_open (k := 0) (by norm_num) h 0

theorem varintRead_some {s rest : List UInt8} {u : UInt64}
    (h : varintRead s = .ok (some (u, rest))) :
    ∃ c : VarintCode, s = c.bytes ++ rest ∧ c.bytes.length ≤ 10 ∧
      u = UInt64.ofNat (groupsSum c.bytes) := by
  rcases code_or_open s 10 with ⟨c, rest', rfl, hlen⟩ | hopen
  · rw [varintRead_code c rest' hlen] at h
    cases h
    exact ⟨c, rfl, hlen, rfl⟩
  · rw [varintRead_open hopen] at h
    cases h

theorem varintRead_ok (s : List UInt8) : ∃ r, varintRead s = .ok r := by
  rcases code_or_open s 10 with ⟨c, rest, rfl, hlen⟩ | hopen
  · exact ⟨_, varintRead_code c rest hlen⟩
  · exact ⟨_, varintRead_open hopen⟩

/-! ## varint_write -/

theorem varintWrite_length_pos (u : UInt64) : 0 < (varintWrite u).length := by
  rw [varintWrite]
  split <;> simp

theorem varintWrite_code (u : UInt64) :
    ∃ c : VarintCode, varintWrite u = c.bytes ∧ groupsSum c.bytes = u.toNat := by
  induction u using varintWrite.induct with
  | case1 u hge ih =>
    obtain ⟨c, hbytes, hsum⟩ := ih
    obtain ⟨hbit, hgroup⟩ := Word.continued u
    have heq := Word.group_eq (u ||| 0x80).toUInt8
    have hcont : 0x80 ≤ (u ||| 0x80).toUInt8 := UInt8.not_lt.mp fun hlt => hbit (heq.1.mpr hlt)
    have hq : (u >>> 7).toNat = u.toNat / 2 ^ 7 := Word.toNat_shiftRight u 7 (by norm_num)
    refine ⟨⟨(u ||| 0x80).toUInt8 :: c.groups, c.last, List.forall_mem_cons.mpr ⟨hcont, c.continued⟩,
      c.ends⟩, ?_, ?_⟩
    · rw [varintWrite, if_pos hge, hbytes]
      rfl
    · show groupsSum ((u ||| 0x80).toUInt8 :: c.bytes) = u.toNat
      have hlow : (u ||| 0x80).toUInt8.toNat % 128 = u.toNat % 2 ^ 7 := heq.2.symm.trans hgroup
      rw [groupsSum_cons, hlow, hsum, hq]
      exact Nat.mod_add_div u.toNat 128
  | case2 u hlt =>
    obtain ⟨hbit, hgroup⟩ := Word.final u (UInt64.not_le.mp hlt)
    have heq := Word.group_eq u.toUInt8
    refine ⟨⟨[], u.toUInt8, List.forall_mem_nil _, heq.1.mp hbit⟩, ?_, ?_⟩
    · rw [varintWrite, if_neg hlt]
      rfl
    · show groupsSum [u.toUInt8] = u.toNat
      rw [groupsSum_singleton]
      exact heq.2.symm.trans hgroup

theorem varintWrite_length_le_iff (u : UInt64) (k : ℕ) :
    (varintWrite u).length ≤ k + 1 ↔ u.toNat < 2 ^ (7 * (k + 1)) := by
  induction u using varintWrite.induct generalizing k with
  | case1 u hge ih =>
    have hu : 2 ^ 7 ≤ u.toNat := UInt64.le_iff_toNat_le.mp hge
    have hq : (u >>> 7).toNat = u.toNat / 2 ^ 7 := Word.toNat_shiftRight u 7 (by norm_num)
    have hpos := varintWrite_length_pos (u >>> 7)
    rw [varintWrite, if_pos hge, List.length_cons]
    cases k with
    | zero => omega
    | succ k =>
      have hpow : 2 ^ (7 * (k + 1 + 1)) = 2 ^ (7 * (k + 1)) * 2 ^ 7 := by
        rw [← pow_add]
        congr 1
      rw [Nat.add_le_add_iff_right, ih k, hq, Nat.div_lt_iff_lt_mul (by norm_num), hpow]
  | case2 u hlt =>
    have hu : u.toNat < 2 ^ 7 := UInt64.not_le.mp hlt
    have hpow : 2 ^ 7 ≤ 2 ^ (7 * (k + 1)) := Nat.pow_le_pow_right (by norm_num) (by omega)
    rw [varintWrite, if_neg hlt, List.length_singleton]
    constructor <;> intro <;> omega

theorem varintWrite_length_mono {u w : UInt64} (h : u.toNat ≤ w.toNat) :
    (varintWrite u).length ≤ (varintWrite w).length := by
  obtain ⟨k, hk⟩ : ∃ k, (varintWrite w).length = k + 1 :=
    ⟨_, (Nat.succ_pred_eq_of_pos (varintWrite_length_pos w)).symm⟩
  have hw := (varintWrite_length_le_iff w k).mp hk.le
  rw [hk, varintWrite_length_le_iff]
  exact lt_of_le_of_lt h hw

theorem varintWrite_length_le (u : UInt64) : (varintWrite u).length ≤ 10 :=
  (varintWrite_length_le_iff u 9).mpr (u.toNat_lt.trans (by norm_num))

theorem varintRead_reads (u : UInt64) : Reads varintRead (varintWrite u) u := by
  intro rest
  obtain ⟨c, hbytes, hsum⟩ := varintWrite_code u
  have hlen := varintWrite_length_le u
  rw [hbytes] at hlen ⊢
  rw [varintRead_code c rest hlen, hsum, UInt64.ofNat_toNat]

/-! ## Never modulo the word -/

/-- The bytes begin with a code of at most ten bytes, for a number that fits a word. -/
def Encodes (s : List UInt8) (u : UInt64) (rest : List UInt8) : Prop :=
  ∃ c : VarintCode, s = c.bytes ++ rest ∧ c.bytes.length ≤ 10 ∧ groupsSum c.bytes = u.toNat

/-- `varint_read` takes a number off the bytes exactly where they encode it, and rejects the others. -/
structure NeverWraps (s : List UInt8) : Prop where
  returns : ∃ r, varintRead s = .ok r
  reads_iff : ∀ u rest, varintRead s = .ok (some (u, rest)) ↔ Encodes s u rest

/-- Nine bytes with a continuation bit, and a last one for more than the top bit of the word. -/
def TenthOverflows (s : List UInt8) : Prop :=
  (∀ b ∈ s.take 9, 0x80 ≤ b) ∧ ∃ b, s[9]? = some b ∧ 2 ≤ b ∧ b < 0x80

theorem tenthOverflows_iff (c : VarintCode) (rest : List UInt8) :
    TenthOverflows (c.bytes ++ rest) ↔ c.groups.length = 9 ∧ 2 ≤ c.last.toNat := by
  have hbytes : c.bytes ++ rest = c.groups ++ c.last :: rest := List.append_assoc ..
  rw [TenthOverflows, hbytes]
  constructor
  · rintro ⟨hnine, b, hb, htwo, hends⟩
    -- the first byte without a continuation bit is the one at place 9
    have hlen : c.groups.length = 9 := by
      rcases Nat.lt_trichotomy c.groups.length 9 with hlt | heq | hgt
      · have hmem := c.last_mem_take rest (c.bytes_length.trans_le hlt)
        rw [hbytes] at hmem
        exact absurd c.ends (UInt8.not_lt.mpr (hnine _ hmem))
      · exact heq
      · rw [List.getElem?_append_left hgt] at hb
        exact absurd hends (UInt8.not_lt.mpr (c.continued b (List.mem_of_getElem? hb)))
    rw [List.getElem?_append_right hlen.le, hlen] at hb
    cases hb
    exact ⟨hlen, UInt8.le_iff_toNat_le.mp htwo⟩
  · rintro ⟨hlen, htwo⟩
    refine ⟨?_, c.last, ?_, UInt8.le_iff_toNat_le.mpr htwo, c.ends⟩
    · rw [← hlen, List.take_left]
      exact c.continued
    · rw [List.getElem?_append_right hlen.le, hlen]
      rfl

/-- The loop drops bits of the tenth group, and of no other. -/
theorem varintRead_neverWraps_iff (s : List UInt8) : NeverWraps s ↔ ¬ TenthOverflows s := by
  rcases code_or_open s 10 with ⟨c, rest, rfl, hlen⟩ | hopen
  · rw [tenthOverflows_iff, ← c.sum_lt_iff hlen]
    constructor
    · intro h
      obtain ⟨c', hbytes, -, hsum⟩ := (h.reads_iff _ _).mp (varintRead_code c rest hlen)
      rw [List.append_cancel_right hbytes, hsum]
      exact UInt64.toNat_lt _
    · intro hlt
      refine ⟨varintRead_ok _, fun u rest' => ⟨fun hread => ?_, ?_⟩⟩
      · rw [varintRead_code c rest hlen] at hread
        cases hread
        refine ⟨c, rfl, hlen, ?_⟩
        rw [UInt64.toNat_ofNat', Nat.mod_eq_of_lt hlt]
      · rintro ⟨c', hbytes, hlen', hsum⟩
        rw [hbytes, varintRead_code c' rest' hlen', hsum, UInt64.ofNat_toNat]
  · refine iff_of_true ⟨varintRead_ok s, fun u rest => ?_⟩ ?_
    · refine iff_of_false (fun hread => ?_) ?_
      · rw [varintRead_open hopen] at hread
        cases hread
      · rintro ⟨c, rfl, hlen, -⟩
        exact absurd c.ends (UInt8.not_lt.mpr (hopen _ (c.last_mem_take rest hlen)))
    · rintro ⟨-, b, hb, -, hends⟩
      refine absurd hends (UInt8.not_lt.mpr (hopen b ?_))
      exact List.mem_of_getElem? (i := 9) ((List.getElem?_take_of_lt (by norm_num)).trans hb)

/-- 2 ^ 64 in ten groups is read as 0. -/
theorem not_neverWraps_tenth : ¬ NeverWraps (List.replicate 9 0x80 ++ [2]) := by
  intro h
  have hread : varintRead (List.replicate 9 0x80 ++ [2]) = .ok (some (0, [])) := rfl
  obtain ⟨c, hbytes, -, hsum⟩ := (h.reads_iff 0 []).mp hread
  rw [List.append_nil] at hbytes
  rw [← hbytes] at hsum
  exact absurd hsum (by decide)

end Parallax
