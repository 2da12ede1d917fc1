import Parallax.Value.Consumed
import Parallax.Value.Unpacked

/-! `value_unpack` on arbitrary bytes: it never reads past the end and always returns, whatever
lengths and counts the bytes declare. The fuel of the recursion is the input that is left. -/
namespace Parallax
open Memory Codec Codec.Decoder
set_option autoImplicit false
set_option maxHeartbeats 250000

/-! ## The pieces settle -/

theorem readByte_settles (s : List UInt8) : Settles readByte s := by
  refine Settles.guard (fun _ => rfl) fun h => ?_
  cases s with
  | nil => exact absurd rfl h
  | cons b s => exact ⟨_, rfl⟩

theorem varintRead_settles (s : List UInt8) : Settles varintRead s := varintRead_ok s

/-- A declared length, however large, is compared with what is left as it stands. -/
theorem readBytes_declared {s u : List UInt8} {len : UInt64}
    (h : varintRead s = .ok (some (len, u))) :
    readBytes s = if u.length < len.toNat then .ok none
      else .ok (some (u.take len.toNat, u.drop len.toNat)) := by
  rw [readBytes, readLength]
  split_ifs with hlt
  · rw [bind_apply, bind_ok h, bind_ok (d := remaining) (t := u) rfl, if_pos hlt]
    rfl
  · rw [bind_apply, bind_ok h, bind_ok (d := remaining) (t := u) rfl, if_neg hlt]
    exact if_pos (by omega)

theorem readBytes_settles (s : List UInt8) : Settles readBytes s := by
  obtain ⟨r, hr⟩ := varintRead_settles s
  cases r with
  | none => exact ⟨none, by rw [readBytes, readLength, bind_apply, bind_apply, hr]⟩
  | some p =>
    have : readBytes s = if p.2.length < p.1.toNat then .ok none
        else .ok (some (p.2.take p.1.toNat, p.2.drop p.1.toNat)) := readBytes_declared hr
    split_ifs at this
    · exact ⟨_, this⟩
    · exact ⟨_, this⟩

theorem readDouble_settles (s : List UInt8) : Settles readDouble s :=
  Settles.guard (fun _ => rfl) fun h => (Settles.take _ (by omega)).bind fun _ _ _ => Settles.pure _

theorem readCstr_settles (s : List UInt8) : Settles readCstr s :=
  (readBytes_settles s).bind fun _ _ _ => Settles.pure _

theorem unpackErr_settles (s : List UInt8) : Settles unpackErr s := by
  refine (readCstr_settles s).bind fun cls u hc => (readCstr_settles u).bind fun msg u' hm =>
    (varintRead_settles u').bind fun code w _ => (readCstr_settles w).bind fun tr w' ht => ?_
  obtain ⟨_, -, -, c, hc, -⟩ := readCstr_takes _ _ _ hc
  obtain ⟨_, -, -, m, hm, -⟩ := readCstr_takes _ _ _ hm
  obtain ⟨_, -, -, t, ht, -⟩ := readCstr_takes _ _ _ ht
  refine Settles.lift (a := .err (cstr c) (cstr m) code.toInt64 (cstr t)) ?_
  simp only [valueErr, hc, hm, ht, ok_bind]
  rfl

theorem unpackKey_settles (s : List UInt8) : Settles unpackKey s := by
  refine (readByte_settles s).bind fun b t _ => ?_
  split_ifs
  · exact (varintRead_settles t).bind fun _ _ _ => Settles.pure _
  · exact (readBytes_settles t).bind fun _ _ _ => Settles.pure _

/-! ## Entries -/

/-- One round of the loop of `unpack_kv_block`. -/
def unpackEntry (fuel : ℕ) (parent : Value) (isArr : Bool) : Decoder Fault UInt8 Value := do
  let key ← unpackKey
  let child ← unpackOne fuel
  lift (unpackSet parent isArr key child)

theorem unpackItems_succ (fuel n : ℕ) (parent : Value) (isArr : Bool) :
    unpackItems (fuel + 1) (n + 1) parent isArr =
      unpackEntry fuel parent isArr >>= fun parent => unpackItems fuel n parent isArr := by
  rw [unpackItems, unpackEntry, Decoder.bind_assoc]
  simp only [Decoder.bind_assoc]

/-- How many rounds of a loop over `n` entries run to their end. -/
def completedEntries : ℕ → ℕ → Value → Bool → List UInt8 → ℕ
  | _, 0, _, _, _ => 0
  | 0, _ + 1, _, _, _ => 0
  | fuel + 1, n + 1, parent, isArr, s =>
    match unpackEntry fuel parent isArr s with
    | .ok (some (parent, t)) => completedEntries fuel n parent isArr t + 1
    | _ => 0

theorem unpackEntry_takes (fuel : ℕ) (parent : Value) (isArr : Bool) :
    Takes (unpackEntry fuel parent isArr) fun cs _ => 3 ≤ cs.length := by
  refine ((unpackKey_takes isArr).bind fun key => (unpackOne_takes fuel).bind fun child =>
    Takes.lift (unpackSet parent isArr key child)).mono ?_
  rintro cs next ⟨ks, _, key, rfl, ⟨-, kv, -, -, hkey, -⟩, vs, _, child, rfl, hchild, rfl, -⟩
  have := encodeKey_length kv.isIntKey kv.ikey kv.skey
  have := encode_length_pos child
  have := hchild.le
  simp only [List.length_append]
  omega

/-- Every round takes three bytes, so the input bounds the rounds whatever count was declared. -/
theorem completedEntries_le (fuel n : ℕ) (parent : Value) (isArr : Bool) (s : List UInt8) :
    3 * completedEntries fuel n parent isArr s ≤ s.length := by
  induction n generalizing fuel parent s with
  | zero => simp [completedEntries]
  | succ n ih =>
    cases fuel with
    | zero => simp [completedEntries]
    | succ fuel =>
      rw [completedEntries]
      split
      · next next t h =>
        obtain ⟨cs, rfl, hcs⟩ := unpackEntry_takes _ _ _ _ _ _ h
        have := ih fuel next t
        rw [List.length_append]
        omega
      · simp

/-- A loop that returns ran all its rounds. -/
theorem completedEntries_eq {fuel n : ℕ} {parent v : Value} {isArr : Bool} {s t : List UInt8}
    (h : unpackItems fuel n parent isArr s = .ok (some (v, t))) :
    completedEntries fuel n parent isArr s = n := by
  induction n generalizing fuel parent s with
  | zero => simp [completedEntries]
  | succ n ih =>
    cases fuel with
    | zero =>
      rw [unpackItems] at h
      cases h
    | succ fuel =>
      rw [unpackItems_succ] at h
      obtain ⟨next, u, hentry, hrest⟩ := bind_eq_ok.mp h
      simp only [completedEntries, hentry, ih hrest]

theorem unpackItems_forward (fuel n : ℕ) (parent : Value) (isArr : Bool) :
    Takes (unpackItems fuel n parent isArr) fun cs _ => 3 * n ≤ cs.length := by
  induction n generalizing fuel parent with
  | zero =>
    rw [unpackItems]
    exact (Takes.pure parent).mono fun cs v _ => Nat.zero_le _
  | succ n ih =>
    cases fuel with
    | zero =>
      intro s v t h
      rw [unpackItems] at h
      cases h
    | succ fuel =>
      rw [unpackItems_succ]
      refine ((unpackEntry_takes fuel parent isArr).bind fun next => ih fuel next).mono ?_
      rintro cs v ⟨us, vs, next, rfl, hus, hvs⟩
      rw [List.length_append]
      omega

/-! ## Blocks and values -/

/-- A parent the setter of its block can append to. -/
def Accepting (isArr : Bool) (parent : Value) : Prop :=
  ∃ m items, parent = m items ∧ Appends m isArr ∧ items.Room

theorem accepting_arr : Accepting true (valueArr 0) :=
  ⟨.arr, ⟨0, [], 0⟩, rfl, appends_arr, (empty_wf 0).room⟩

theorem accepting_obj {cls : Ptr} {clen : ℕ} {obj : Value} (h : valueObj cls clen 0 = .ok obj) :
    Accepting false obj := by
  obtain ⟨p, -, h⟩ := bind_ok h
  cases h
  exact ⟨.obj p clen, ⟨0, [], 0⟩, rfl, appends_obj p clen, (empty_wf 0).room⟩

theorem unpackSet_accepting {isArr : Bool} {parent : Value} {key : UnpackKey} {cs : List UInt8}
    (hp : Accepting isArr parent) (hk : KeyTaken isArr cs key) (child : Value) :
    ∃ next, unpackSet parent isArr key child = .ok next ∧ Accepting isArr next := by
  obtain ⟨m, items, rfl, hm, hroom⟩ := hp
  obtain ⟨-, kv, hkv, hint, -, hsame⟩ := hk
  obtain ⟨w, hw, -, hwroom⟩ := KvVec.append_room hroom { kv with val := some child }
  refine ⟨m w, ?_, m, w, rfl, hm, hwroom⟩
  rw [hsame, hm kv hkv hint, hw]
  rfl

theorem unpackEntry_settles {fuel : ℕ} {parent : Value} {isArr : Bool} {s : List UInt8}
    (hone : ∀ s, s.length < fuel → Settles (unpackOne fuel) s) (hp : Accepting isArr parent)
    (hs : s.length < fuel + 1) : Settles (unpackEntry fuel parent isArr) s := by
  refine (unpackKey_settles s).bind fun key t hread => ?_
  obtain ⟨ks, rfl, hkey⟩ := unpackKey_takes isArr _ _ _ hread
  obtain ⟨-, kv, -, -, hle, -⟩ := id hkey
  have := encodeKey_length kv.isIntKey kv.ikey kv.skey
  rw [List.length_append] at hs
  refine (hone t (by omega)).bind fun child u _ => ?_
  obtain ⟨next, hnext, -⟩ := unpackSet_accepting hp hkey child
  exact Settles.lift hnext

theorem unpackEntry_accepting {fuel : ℕ} {parent next : Value} {isArr : Bool} {s t : List UInt8}
    (hp : Accepting isArr parent)
    (h : unpackEntry fuel parent isArr s = .ok (some (next, t))) : Accepting isArr next := by
  obtain ⟨key, u, hread, hchild⟩ := bind_eq_ok.mp h
  obtain ⟨child, u', -, hlift⟩ := bind_eq_ok.mp hchild
  obtain ⟨ks, -, hkey⟩ := unpackKey_takes isArr _ _ _ hread
  obtain ⟨_, -, -, hset⟩ := Takes.lift _ _ _ _ hlift
  obtain ⟨next', hnext, haccept⟩ := unpackSet_accepting hp hkey child
  rw [hset] at hnext
  cases hnext
  exact haccept

theorem unpackItems_settles {fuel n : ℕ} {parent : Value} {isArr : Bool} {s : List UInt8}
    (hone : ∀ k, k < fuel → ∀ s, s.length < k → Settles (unpackOne k) s)
    (hp : Accepting isArr parent) (hs : s.length < fuel) :
    Settles (unpackItems fuel n parent isArr) s := by
  induction n generalizing fuel parent s with
  | zero =>
    rw [unpackItems]
    exact Settles.pure _
  | succ n ih =>
    cases fuel with
    | zero => exact absurd hs (Nat.not_lt_zero _)
    | succ fuel =>
      rw [unpackItems_succ]
      refine (unpackEntry_settles (hone fuel (Nat.lt_succ_self _)) hp hs).bind fun next t h => ?_
      obtain ⟨cs, rfl, hcs⟩ := unpackEntry_takes _ _ _ _ _ _ h
      rw [List.length_append] at hs
      exact ih (fun k hk => hone k (hk.trans (Nat.lt_succ_self _)))
        (unpackEntry_accepting hp h) (by omega)

theorem unpackKvBlock_settles {fuel : ℕ} {parent : Value} {isArr : Bool} {s : List UInt8}
    (hone : ∀ k, k < fuel → ∀ s, s.length < k → Settles (unpackOne k) s)
    (hp : Accepting isArr parent) (hs : s.length ≤ fuel) :
    Settles (unpackKvBlock fuel parent isArr) s := by
  refine (varintRead_settles s).bind fun n t hread => unpackItems_settles hone hp ?_
  obtain ⟨us, rfl, -, hle⟩ := varintRead_takes _ _ _ hread
  have := varintWrite_length_pos n
  rw [List.length_append] at hs
  omega

theorem unpackOne_settles (fuel : ℕ) (s : List UInt8) (hs : s.length < fuel) :
    Settles (unpackOne fuel) s := by
  induction fuel using Nat.strong_induction_on generalizing s with
  | _ fuel ih =>
    cases fuel with
    | zero => exact absurd hs (Nat.not_lt_zero _)
    | succ fuel =>
      have hone : ∀ k, k < fuel → ∀ s, s.length < k → Settles (unpackOne k) s :=
        fun k hk s hs => ih k (hk.trans (Nat.lt_succ_self _)) s hs
      rw [unpackOne_succ]
      refine (readByte_settles s).bind fun b t hb => ?_
      obtain ⟨us, rfl, rfl⟩ := readByte_takes _ _ _ hb
      rw [List.length_append, List.length_singleton] at hs
      cases ValTag.ofByte b with
      | none => exact Settles.reject
      | some tag =>
        cases tag with
        | null => exact Settles.pure _
        | bool => exact (readByte_settles t).bind fun _ _ _ => Settles.pure _
        | long => exact (varintRead_settles t).bind fun _ _ _ => Settles.pure _
        | double => exact (readDouble_settles t).bind fun _ _ _ => Settles.pure _
        | str =>
          refine (readBytes_settles t).bind fun bs _ _ => Settles.lift
            (a := .str (blob bs) bs.length) ?_
          rw [valueStr, dupBytes_some]
          rfl
        | arr => exact unpackKvBlock_settles hone accepting_arr (by omega)
        | obj =>
          refine (readBytes_settles t).bind fun cls u hcls => ?_
          obtain ⟨vs, rfl, -⟩ := readBytes_takes _ _ _ hcls
          rw [List.length_append] at hs
          have hmake : valueObj (some cls) cls.length 0 =
              .ok (.obj (blob cls) cls.length ⟨0, [], 0⟩) := by
            rw [valueObj, dupBytes_some]
            rfl
          refine (Settles.lift hmake).bind fun obj w hlift => ?_
          obtain ⟨ws, rfl, rfl, hobj⟩ := Takes.lift _ _ _ _ hlift
          rw [List.nil_append] at hs
          exact unpackKvBlock_settles hone (accepting_obj hobj) (by omega)
        | err => exact unpackErr_settles t

theorem valueUnpack_settles (buf : List UInt8) : ∃ r, valueUnpack buf = .ok r := by
  obtain ⟨r, hr⟩ := unpackOne_settles (buf.length + 1) buf (Nat.lt_succ_self _)
  rw [valueUnpack, hr]
  cases r with
  | none => exact ⟨_, rfl⟩
  | some p => exact ⟨_, rfl⟩

/-- A block that declares more entries than a third of the bytes left for them is refused. -/
theorem unpackKvBlock_declared {fuel : ℕ} {parent : Value} {isArr : Bool} {s u : List UInt8}
    {n : UInt64} (hp : Accepting isArr parent) (hs : s.length ≤ fuel)
    (hread : varintRead s = .ok (some (n, u))) (hn : u.length < 3 * n.toNat) :
    unpackKvBlock fuel parent isArr s = .ok none := by
  obtain ⟨r, hr⟩ := unpackKvBlock_settles (fun k _ => unpackOne_settles k) hp hs
  cases r with
  | none => exact hr
  | some p =>
    rw [unpackKvBlock, bind_ok hread] at hr
    have hround := completedEntries_eq hr
    have := completedEntries_le fuel n.toNat parent isArr u
    omega

/-- The parents `unpack_one` hands to `unpack_kv_block`. -/
inductive FreshParent : Bool → Value → Prop
  | arr : FreshParent true (valueArr 0)
  | obj {cls : Ptr} {clen : ℕ} {obj : Value} (h : valueObj cls clen 0 = .ok obj) :
    FreshParent false obj

theorem FreshParent.accepting {isArr : Bool} {parent : Value} (h : FreshParent isArr parent) :
    Accepting isArr parent := by
  cases h with
  | arr => exact accepting_arr
  | obj h => exact accepting_obj h

/-- The cursor only moves forward, and not past the end. -/
def Forward {α : Type} (d : Decoder Fault UInt8 α) : Prop := Takes d fun _ _ => True

theorem unpackKvBlock_forward (fuel : ℕ) (parent : Value) (isArr : Bool) :
    Forward (unpackKvBlock fuel parent isArr) :=
  (varintRead_takes.bind fun n => unpackItems_forward fuel n.toNat parent isArr).mono
    fun _ _ _ => trivial

theorem readers_forward : Forward varintRead ∧ Forward readByte ∧ Forward readBytes ∧
    Forward readDouble ∧ Forward unpackErr ∧ Forward unpackKey :=
  ⟨varintRead_takes.mono fun _ _ _ => trivial, readByte_takes.mono fun _ _ _ => trivial,
    readBytes_takes.mono fun _ _ _ => trivial, readDouble_takes.mono fun _ _ _ => trivial,
    unpackErr_takes.mono fun _ _ _ => trivial, (unpackKey_takes true).mono fun _ _ _ => trivial⟩

/-- The reader is safe on every buffer. It returns without a fault; what a value or an entry takes
is off the front of what is left, at least one byte for a value and three for an entry; a count
or a length the input cannot hold is refused, whatever 64-bit number it is. -/
theorem valueUnpack_safe :
    (∀ buf, ∃ r, valueUnpack buf = .ok r) ∧
    (Forward varintRead ∧ Forward readByte ∧ Forward readBytes ∧ Forward readDouble ∧
      Forward unpackErr ∧ Forward unpackKey) ∧
    (∀ fuel parent isArr, Forward (unpackKvBlock fuel parent isArr)) ∧
    (∀ fuel, Takes (unpackOne fuel) fun cs _ => 1 ≤ cs.length) ∧
    (∀ fuel parent isArr, Takes (unpackEntry fuel parent isArr) fun cs _ => 3 ≤ cs.length) ∧
    (∀ fuel n parent isArr s, 3 * completedEntries fuel n parent isArr s ≤ s.length) ∧
    (∀ fuel parent isArr s n u, FreshParent isArr parent → s.length ≤ fuel →
      varintRead s = .ok (some (n, u)) → u.length < 3 * n.toNat →
      unpackKvBlock fuel parent isArr s = .ok none) ∧
    ∀ s len u, varintRead s = .ok (some (len, u)) →
      readBytes s = if u.length < len.toNat then .ok none
        else .ok (some (u.take len.toNat, u.drop len.toNat)) := by
  refine ⟨valueUnpack_settles, readers_forward, unpackKvBlock_forward,
    fun fuel => (unpackOne_takes fuel).mono fun cs v h => ?_,
    unpackEntry_takes, completedEntries_le, fun fuel parent isArr s n u hp hs hread hn => ?_,
    fun s len u hread => readBytes_declared hread⟩
  · exact (encode_length_pos v).trans h.le
  · exact unpackKvBlock_declared hp.accepting hs hread hn

/-- An array that declares 2^64 - 1 entries. -/
theorem valueUnpack_safe_count :
    unpackKvBlock 12 (valueArr 0) true (List.replicate 9 0xff ++ [0x01, 0x00]) = .ok none :=
  valueUnpack_safe.2.2.2.2.2.2.1 12 (valueArr 0) true (List.replicate 9 0xff ++ [0x01, 0x00])
    0xffffffffffffffff [0x00] .arr (by decide) (by decide) (by decide)

end Parallax
