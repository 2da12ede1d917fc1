import Parallax.Value.Pack
import Parallax.Value.Invariant

/-! Whatever the bytes are, what `value_unpack` accepts has the representation invariant. -/
namespace Parallax
open Memory Codec Codec.Decoder
set_option autoImplicit false
set_option maxHeartbeats 250000

/-! ## Strings -/

theorem lift_ok {ε β α : Type} {x : Except ε α} {s t : List β} {a : α}
    (h : (lift x : Decoder ε β α) s = .ok (some (a, t))) : x = .ok a := by
  cases x with
  | error e => cases h
  | ok b =>
    cases h
    rfl

theorem readBytes_lt {s t : List UInt8} {bs : List UInt8}
    (h : readBytes s = .ok (some (bs, t))) : bs.length < 2 ^ 64 := by
  obtain ⟨len, u, hlen, htake⟩ := bind_eq_ok.mp h
  obtain ⟨v, u', -, hv⟩ := bind_eq_ok.mp hlen
  obtain ⟨n, u'', -, hn⟩ := bind_eq_ok.mp hv
  have hlt : len < 2 ^ 64 := by
    split_ifs at hn
    · cases hn
    · cases hn
      exact v.toNat_lt
  unfold take at htake
  split_ifs at htake
  cases htake
  rw [List.length_take]
  omega

theorem readCstr_dup {s t : List UInt8} {p q : Ptr} (h : readCstr s = .ok (some (p, t)))
    (hq : dupCstr p = .ok q) : CStrWf q := by
  obtain ⟨bs, u, hbs, hp⟩ := bind_eq_ok.mp h
  cases hp
  have hlen := readBytes_lt hbs
  obtain ⟨cut, hdup, hnul, hcut⟩ := dupCstr_terminated bs
  rw [hdup] at hq
  cases hq
  exact .cstr cut hnul (by omega)

theorem unpackErr_wf {s t : List UInt8} {v : Value} (h : unpackErr s = .ok (some (v, t))) :
    v.Wf := by
  obtain ⟨cls, u, hcls, h⟩ := bind_eq_ok.mp h
  obtain ⟨msg, u', hmsg, h⟩ := bind_eq_ok.mp h
  obtain ⟨code, u'', -, h⟩ := bind_eq_ok.mp h
  obtain ⟨tr, u3, htr, h⟩ := bind_eq_ok.mp h
  obtain ⟨c, hc, h⟩ := bind_ok (lift_ok h)
  obtain ⟨m, hm, h⟩ := bind_ok h
  obtain ⟨t, ht, h⟩ := bind_ok h
  cases h
  exact .err c m _ t (readCstr_dup hcls hc) (readCstr_dup hmsg hm) (readCstr_dup htr ht)

/-! ## Entries -/

theorem unpackKey_fits {s t : List UInt8} {key : UnpackKey}
    (h : unpackKey s = .ok (some (key, t))) : Fits key.skey := by
  obtain ⟨b, u, -, h⟩ := bind_eq_ok.mp h
  split_ifs at h
  · obtain ⟨k, u', -, h⟩ := bind_eq_ok.mp h
    cases h
    exact fun _ hbs => by cases hbs
  · obtain ⟨bs, u', hbs, h⟩ := bind_eq_ok.mp h
    cases h
    intro cs hcs
    cases hcs
    exact readBytes_lt hbs

theorem unpackSet_wf {parent v child : Value} {isArr : Bool} {key : UnpackKey} (hp : parent.Wf)
    (hc : child.Wf) (hf : Fits key.skey) (hn : parent.n + 1 < 2 ^ 64)
    (h : unpackSet parent isArr key child = .ok v) : v.Wf ∧ v.n = parent.n + 1 := by
  have hchild : ChildWf (some child) := fun x hx => by
    cases hx
    exact hc
  have hcount : v.n = parent.n + 1 := by
    unfold unpackSet at h
    cases parent with
    | arr items =>
      split_ifs at h
      · obtain ⟨w, hw, h⟩ := bind_ok h
        cases h
        exact KvVec.n_append hw
      · obtain ⟨kv, -, h⟩ := bind_ok h
        obtain ⟨w, hw, h⟩ := bind_ok h
        cases h
        exact KvVec.n_append hw
      · cases h
    | obj cls clen props =>
      split_ifs at h
      · cases h
      · cases h
      · obtain ⟨kv, -, h⟩ := bind_ok h
        obtain ⟨w, hw, h⟩ := bind_ok h
        cases h
        exact KvVec.n_append hw
    | _ => split_ifs at h <;> cases h
  refine ⟨?_, hcount⟩
  have hlt : v.n < 2 ^ 64 := by omega
  unfold unpackSet at h
  split_ifs at h
  · exact valueArrSetInt_wf hp hchild h hlt
  · exact valueArrSetStr_wf hp hchild hf h hlt
  · exact valueObjSet_wf hp hchild hf h hlt

theorem unpackItems_wf {fuel : ℕ}
    (hone : ∀ k, k < fuel → ∀ s t v, unpackOne k s = .ok (some (v, t)) → v.Wf) {n : ℕ}
    {parent v : Value} {isArr : Bool} {s t : List UInt8} (hp : parent.Wf)
    (hn : parent.n + n < 2 ^ 64) (h : unpackItems fuel n parent isArr s = .ok (some (v, t))) :
    v.Wf := by
  induction n generalizing fuel parent s with
  | zero =>
    unfold unpackItems at h
    cases h
    exact hp
  | succ n ih =>
    cases fuel with
    | zero =>
      unfold unpackItems at h
      cases h
    | succ fuel =>
      unfold unpackItems at h
      obtain ⟨key, u, hkey, h⟩ := bind_eq_ok.mp h
      obtain ⟨child, u', hchild, h⟩ := bind_eq_ok.mp h
      obtain ⟨next, u'', hset, h⟩ := bind_eq_ok.mp h
      obtain ⟨hnext, hcount⟩ := unpackSet_wf hp (hone fuel (Nat.lt_succ_self _) _ _ _ hchild)
        (unpackKey_fits hkey) (by omega) (lift_ok hset)
      exact ih (fun k hk => hone k (hk.trans (Nat.lt_succ_self _))) hnext (by omega) h

theorem unpackKvBlock_wf {fuel : ℕ}
    (hone : ∀ k, k < fuel → ∀ s t v, unpackOne k s = .ok (some (v, t)) → v.Wf)
    {parent v : Value} {isArr : Bool} {s t : List UInt8} (hp : parent.Wf) (hzero : parent.n = 0)
    (h : unpackKvBlock fuel parent isArr s = .ok (some (v, t))) : v.Wf := by
  obtain ⟨n, u, -, h⟩ := bind_eq_ok.mp h
  refine unpackItems_wf hone hp ?_ h
  rw [hzero, Nat.zero_add]
  exact n.toNat_lt

/-! ## Values -/

theorem unpackOne_wf (fuel : ℕ) (s t : List UInt8) (v : Value)
    (h : unpackOne fuel s = .ok (some (v, t))) : v.Wf := by
  induction fuel using Nat.strong_induction_on generalizing s t v with
  | _ fuel ih =>
    cases fuel with
    | zero =>
      unfold unpackOne at h
      cases h
    | succ fuel =>
      rw [unpackOne_succ] at h
      obtain ⟨tag, u, -, h⟩ := bind_eq_ok.mp h
      have hone : ∀ k, k < fuel → ∀ s t v, unpackOne k s = .ok (some (v, t)) → v.Wf :=
        fun k hk => ih k (hk.trans (Nat.lt_succ_self _))
      cases hv : ValTag.ofByte tag with
      | none =>
        rw [hv] at h
        cases h
      | some tag =>
        rw [hv] at h
        cases tag with
        | null =>
          cases h
          exact .null
        | bool =>
          obtain ⟨b, u', -, h⟩ := bind_eq_ok.mp h
          cases h
          exact .bool _
        | long =>
          obtain ⟨i, u', -, h⟩ := bind_eq_ok.mp h
          cases h
          exact .long _
        | double =>
          obtain ⟨d, u', -, h⟩ := bind_eq_ok.mp h
          cases h
          exact .double _
        | str =>
          obtain ⟨bs, u', hbs, h⟩ := bind_eq_ok.mp h
          refine valueStr_wf (fun cs hcs => ?_) (lift_ok h)
          cases hcs
          exact readBytes_lt hbs
        | arr => exact unpackKvBlock_wf hone (valueArr_wf 0) rfl h
        | obj =>
          obtain ⟨bs, u', hbs, h⟩ := bind_eq_ok.mp h
          obtain ⟨obj, u'', hobj, h⟩ := bind_eq_ok.mp h
          have hobj := lift_ok hobj
          have hwf : obj.Wf := valueObj_wf (fun cs hcs => by
            cases hcs
            exact readBytes_lt hbs) hobj
          refine unpackKvBlock_wf hone hwf ?_ h
          obtain ⟨q, -, hobj⟩ := bind_ok hobj
          cases hobj
          rfl
        | err => exact unpackErr_wf h

/-- An accepted buffer gives a tree with the invariant. -/
theorem valueUnpack_wf {buf : List UInt8} {v : Value} (h : valueUnpack buf = .ok (some v)) :
    v.Wf := by
  unfold valueUnpack at h
  cases hone : unpackOne (buf.length + 1) buf with
  | error e =>
    rw [hone] at h
    cases h
  | ok r =>
    rw [hone] at h
    cases r with
    | none => cases h
    | some p =>
      dsimp only at h
      split_ifs at h
      · cases h
        exact unpackOne_wf _ _ _ _ hone
      · cases h

end Parallax
