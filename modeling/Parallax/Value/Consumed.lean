import Parallax.Library.Consumption
import Parallax.Value.RoundTrip

/-! What `value_unpack` takes off arbitrary bytes. Every piece of the reader reads the bytes it
took the same way whatever follows them, and what it made of them has an encoding that is read
the same way and is no longer. -/
namespace Parallax
open Memory Codec Codec.Decoder
set_option autoImplicit false
set_option maxHeartbeats 250000

/-! ## Varints -/

theorem varintRead_takes : Takes varintRead fun cs u =>
    Reads varintRead cs u ∧ (varintWrite u).length ≤ cs.length := by
  intro s u t h
  obtain ⟨c, rfl, hlen, rfl⟩ := varintRead_some h
  refine ⟨c.bytes, rfl, fun rest => varintRead_code c rest hlen, ?_⟩
  rw [c.bytes_length, varintWrite_length_le_iff, UInt64.toNat_ofNat', pow_mul, ← c.bytes_length]
  exact (Nat.mod_le _ _).trans_lt (groupsSum_lt c.bytes)

/-! ## Bytes and strings -/

theorem encodeBytes_length_mono {bs cs : List UInt8} (h : bs.length ≤ cs.length)
    (hc : cs.length < 2 ^ 64) : (encodeBytes bs).length ≤ (encodeBytes cs).length := by
  have hb : bs.length < 2 ^ 64 := lt_of_le_of_lt h hc
  have := varintWrite_length_mono (u := UInt64.ofNat bs.length) (w := UInt64.ofNat cs.length) (by
    rw [UInt64.toNat_ofNat', UInt64.toNat_ofNat', Nat.mod_eq_of_lt hb, Nat.mod_eq_of_lt hc]
    exact h)
  rw [encodeBytes, encodeBytes, List.length_append, List.length_append]
  omega

theorem readByte_takes : Takes readByte fun cs b => cs = [b] :=
  (Takes.guard (fun _ => rfl) (Takes.next Fault.outOfBounds)).mono fun _ _ h => h.1

theorem readBytes_takes : Takes readBytes fun cs bs =>
    Reads readBytes cs bs ∧ (encodeBytes bs).length ≤ cs.length ∧ bs.length < 2 ^ 64 := by
  intro s bs t h
  obtain ⟨n, u, hlen, htake⟩ := bind_eq_ok.mp h
  obtain ⟨len, u', hread, hcheck⟩ := bind_eq_ok.mp hlen
  obtain ⟨us, rfl, hus, hle⟩ := varintRead_takes _ _ _ hread
  obtain ⟨r, w, hr, hcheck⟩ := bind_eq_ok.mp hcheck
  cases hr
  split_ifs at hcheck with hshort
  · cases hcheck
  cases hcheck
  obtain ⟨bs, rfl, rfl, hn⟩ := Takes.take _ _ _ _ _ htake
  have hofNat : UInt64.ofNat bs.length = len := by rw [hn, UInt64.ofNat_toNat]
  refine ⟨us ++ bs, (List.append_assoc ..).symm, fun rest => ?_, ?_, by
    rw [hn]
    exact len.toNat_lt⟩
  · rw [readBytes, readLength, List.append_assoc, bind_ok (t := bs ++ rest) (a := len.toNat), ← hn]
    · exact Reads.take _ bs rest
    · rw [bind_ok (hus _), bind_ok (d := remaining) (t := bs ++ rest) rfl, if_neg (by simp [← hn])]
      rfl
  · rw [encodeBytes, hofNat, List.length_append, List.length_append]
    exact Nat.add_le_add_right hle _

theorem readDouble_takes : Takes readDouble fun cs d => Reads readDouble cs d ∧ cs.length = 8 := by
  refine (Takes.guard (fun _ => rfl) ((Takes.take Fault.outOfBounds 8).bind fun bytes =>
    Takes.pure (doubleBits bytes))).mono ?_
  rintro cs d ⟨⟨us, vs, bytes, rfl, ⟨rfl, hlen⟩, rfl, rfl⟩, -⟩
  rw [List.append_nil]
  have h := (Reads.take Fault.outOfBounds bytes).bind_nil
    (f := fun bytes => Pure.pure (doubleBits bytes)) (Reads.pure _)
  rw [hlen] at h
  exact ⟨h.guard (by omega), hlen⟩

/-! ## What was taken and what would be written -/

/-- Given fuel for it, `d` reads both what it took, `cs`, and `bs`, which is no longer, as `a`. -/
structure Canonical {α : Type} (d : ℕ → Decoder Fault UInt8 α) (cs bs : List UInt8) (a : α) :
    Prop where
  again : ∀ fuel, cs.length ≤ fuel → Reads (d fuel) cs a
  back : ∀ fuel, bs.length ≤ fuel → Reads (d fuel) bs a
  le : bs.length ≤ cs.length

/-- The fuelled reader, as `Canonical` counts its fuel. -/
abbrev unpackFuelled (fuel : ℕ) : Decoder Fault UInt8 Value := unpackOne (fuel + 1)

/-- A body of tag `t`, taken from the input, against the one that would be written. -/
def BodyTaken (t : ValTag) (cs : List UInt8) (v : Value) : Prop :=
  ∃ bs, encode v = t.toByte :: bs ∧
    Canonical (fun fuel => unpackTag (unpackKvBlock fuel) (some t)) cs bs v

/-- A string of an error, before and after the constructor copies it. -/
def CstrTaken (cs : List UInt8) (p : Ptr) : Prop :=
  Reads readCstr cs p ∧ ∃ cut, dupCstr p = .ok (cstr cut) ∧ CStrWf (cstr cut) ∧
    (encodeBytes (cstrContents (cstr cut))).length ≤ cs.length

theorem readCstr_takes : Takes readCstr CstrTaken := by
  refine (readBytes_takes.bind fun bs => Takes.pure (some (bs ++ [0]))).mono ?_
  rintro cs p ⟨us, vs, bs, rfl, ⟨hread, hle, hlt⟩, rfl, rfl⟩
  obtain ⟨cut, hdup, hnul, hcut⟩ := dupCstr_terminated bs
  rw [List.append_nil]
  refine ⟨hread.bind_nil (Reads.pure _), cut, hdup, .cstr cut hnul (by omega), ?_⟩
  rw [cstrContents_cstr hnul]
  exact (encodeBytes_length_mono hcut hlt).trans hle

theorem unpackErr_takes : Takes unpackErr (BodyTaken .err) := by
  refine (readCstr_takes.bind fun cls => readCstr_takes.bind fun msg => varintRead_takes.bind
    fun code => readCstr_takes.bind fun tr => Takes.lift (valueErr cls msg code.toInt64 tr)).mono ?_
  rintro cs v ⟨cs₁, _, cls, rfl, ⟨rc, c, hc, wc, lc⟩, cs₂, _, msg, rfl, ⟨rm, m, hm, wm, lm⟩,
    cs₃, _, code, rfl, ⟨ru, lu⟩, cs₄, _, tr, rfl, ⟨rt, t, ht, wt, lt⟩, rfl, hv⟩
  have hread : Reads unpackErr (cs₁ ++ (cs₂ ++ (cs₃ ++ (cs₄ ++ [])))) v :=
    rc.bind (rm.bind (ru.bind (rt.bind (.lift hv))))
  simp only [valueErr, hc, hm, ht, ok_bind] at hv
  cases hv
  have hback := unpackErr_reads code.toInt64 wc wm wt
  refine ⟨_, rfl, fun _ _ => hread, fun _ _ => hback, ?_⟩
  simp only [List.length_append, List.length_nil, UInt64.toUInt64_toInt64]
  omega

/-! ## Entries -/

/-- The key of an entry: `kv` is the entry its setter stores it under. -/
def KeyTaken (isArr : Bool) (cs : List UInt8) (key : UnpackKey) : Prop :=
  Reads unpackKey cs key ∧ ∃ kv, EntryWf kv ∧ (isArr = false → kv.isIntKey = false) ∧
    (encodeKey kv.isIntKey kv.ikey kv.skey).length ≤ cs.length ∧
    ∀ parent child, unpackSet parent isArr key child = unpackSet parent isArr (unpackedKey kv) child

theorem unpackKey_int {b : UInt8} (hb : b ≠ 0) {vs : List UInt8} {k : UInt64}
    (h : Reads varintRead vs k) :
    Reads unpackKey ([b] ++ vs) ⟨true, k.toInt64, none, 0⟩ := by
  refine (readByte_reads b).bind ?_
  rw [if_pos hb]
  exact h.bind_nil (Reads.pure _)

/-- The flag may be any nonzero byte, and an object files an int key under the empty string. -/
theorem keyTaken_int (isArr : Bool) {b : UInt8} (hb : b ≠ 0) {vs : List UInt8} {k : UInt64}
    (h : Reads varintRead vs k) (hle : (varintWrite k).length ≤ vs.length) :
    KeyTaken isArr ([b] ++ vs) ⟨true, k.toInt64, none, 0⟩ := by
  refine ⟨unpackKey_int hb h, ?_⟩
  cases isArr with
  | true =>
    refine ⟨intEntry k.toInt64 none, .int _ _, by simp, ?_, fun parent child => rfl⟩
    simp only [intEntry, encodeKey, if_true, List.length_cons, List.length_append,
      UInt64.toUInt64_toInt64, List.length_nil]
    omega
  | false =>
    refine ⟨strKv [] none, .str [] _ (by norm_num), fun _ => rfl, ?_, fun parent child => ?_⟩
    · have hpos := varintWrite_length_pos k
      have hempty : (encodeKey false 0 (blob [])).length = 2 := by
        simp [encodeKey, encodeBytes, contents_blob, varintWrite]
      rw [List.length_append]
      simp only [strKv, hempty, List.length_singleton]
      omega
    · rfl

theorem keyTaken_str (isArr : Bool) {vs bs : List UInt8} (h : Reads readBytes vs bs)
    (hle : (encodeBytes bs).length ≤ vs.length) (hlt : bs.length < 2 ^ 64) :
    KeyTaken isArr ([0] ++ vs) ⟨false, 0, some bs, bs.length⟩ := by
  refine ⟨(readByte_reads 0).bind (h.bind_nil (Reads.pure _)), strKv bs none, .str bs _ hlt,
    fun _ => rfl, ?_, fun parent child => ?_⟩
  · simp only [strKv, encodeKey, contents_blob, Bool.false_eq_true, if_false, List.length_cons,
      List.length_append, List.length_nil]
    omega
  · simp [unpackedKey, strKv]

theorem unpackKey_takes (isArr : Bool) : Takes unpackKey (KeyTaken isArr) := by
  have hint : Takes (do
      let k ← varintRead
      return (⟨true, k.toInt64, none, 0⟩ : UnpackKey)) _ :=
    varintRead_takes.bind fun k => Takes.pure _
  have hstr : Takes (do
      let bs ← readBytes
      return (⟨false, 0, some bs, bs.length⟩ : UnpackKey)) _ :=
    readBytes_takes.bind fun bs => Takes.pure _
  intro s key t h
  obtain ⟨b, u, hb, hkey⟩ := bind_eq_ok.mp h
  obtain ⟨us, rfl, rfl⟩ := readByte_takes _ _ _ hb
  split_ifs at hkey with hflag
  · obtain ⟨vs, rfl, ks, _, k, rfl, ⟨hread, hle⟩, rfl, rfl⟩ := hint _ _ _ hkey
    rw [List.append_nil]
    exact ⟨[b] ++ ks, (List.append_assoc ..).symm, keyTaken_int isArr hflag hread hle⟩
  · rw [not_not] at hflag
    subst hflag
    obtain ⟨vs, rfl, ks, _, bs, rfl, ⟨hread, hle, hlt⟩, rfl, rfl⟩ := hstr _ _ _ hkey
    rw [List.append_nil]
    exact ⟨[0] ++ ks, (List.append_assoc ..).symm, keyTaken_str isArr hread hle hlt⟩

/-- The setter of a block, `m` being the parent around its item block. -/
def Appends (m : KvVec Entry → Value) (isArr : Bool) : Prop :=
  ∀ kv, EntryWf kv → (isArr = false → kv.isIntKey = false) → ∀ items child,
    unpackSet (m items) isArr (unpackedKey kv) child =
      (items.append { kv with val := some child }).map m

theorem appends_arr : Appends .arr true := fun _ h _ items child => unpackSet_arr h items child

theorem appends_obj (cls : Ptr) (clen : ℕ) : Appends (.obj cls clen) false :=
  fun _ h hs items child => unpackSet_obj h (hs rfl) cls clen items child

/-- What the loop took for `n` entries, and the entries it added to the block. -/
def ItemsTaken (m : KvVec Entry → Value) (isArr : Bool) (n : ℕ) (items : KvVec Entry)
    (cs : List UInt8) (v : Value) : Prop :=
  ∃ out new, v = m out ∧ out.entries = items.entries ++ new ∧ new.length = n ∧
    3 * n ≤ cs.length ∧
    Canonical (fun fuel => unpackItems fuel n (m items) isArr) cs (encodeItems new) v

theorem encode_length_pos (v : Value) : 1 ≤ (encode v).length := by
  cases v <;> simp [encode]

theorem unpackItems_reads_cons {ks vs is : List UInt8} {key : UnpackKey} {child parent out : Value}
    {parent' : Value} {isArr : Bool} {n fuel : ℕ} (hkey : Reads unpackKey ks key)
    (hset : unpackSet parent isArr key child = .ok parent')
    (hchild : Reads (unpackOne fuel) vs child)
    (hitems : Reads (unpackItems fuel n parent' isArr) is out) :
    Reads (unpackItems (fuel + 1) (n + 1) parent isArr) (ks ++ (vs ++ is)) out := by
  rw [unpackItems]
  exact hkey.bind (hchild.bind (Reads.nil_bind (.lift hset) hitems))

/-- The loop's first entry in front of the others, as taken and as it would be written. -/
theorem canonical_items {ks vs is bs cs : List UInt8} {key key' : UnpackKey}
    {child parent parent' out : Value} {isArr : Bool} {n : ℕ}
    (hkey : Reads unpackKey ks key) (hkey' : Reads unpackKey bs key')
    (hle : bs.length ≤ ks.length) (hpos : 2 ≤ bs.length)
    (hset : unpackSet parent isArr key child = .ok parent')
    (hset' : unpackSet parent isArr key' child = .ok parent')
    (hchild : Canonical unpackFuelled vs (encode child) child)
    (hitems : Canonical (fun fuel => unpackItems fuel n parent' isArr) is cs out) :
    Canonical (fun fuel => unpackItems fuel (n + 1) parent isArr) (ks ++ (vs ++ is))
      (bs ++ (encode child ++ cs)) out := by
  refine ⟨fun fuel hf => ?_, fun fuel hf => ?_, ?_⟩
  · simp only [List.length_append] at hf
    obtain ⟨fuel, rfl⟩ : ∃ f, fuel = f + 2 := ⟨fuel - 2, by omega⟩
    exact unpackItems_reads_cons hkey hset (hchild.again fuel (by omega))
      (hitems.again (fuel + 1) (by omega))
  · simp only [List.length_append] at hf
    obtain ⟨fuel, rfl⟩ : ∃ f, fuel = f + 2 := ⟨fuel - 2, by omega⟩
    exact unpackItems_reads_cons hkey' hset' (hchild.back fuel (by omega))
      (hitems.back (fuel + 1) (by omega))
  · have := hchild.le
    have := hitems.le
    simp only [List.length_append]
    omega

theorem unpackItems_takes {m : KvVec Entry → Value} {isArr : Bool} (hm : Appends m isArr)
    {fuel : ℕ} (hone : ∀ k, k < fuel → Takes (unpackOne k) fun cs v =>
      Canonical unpackFuelled cs (encode v) v) (n : ℕ) (items : KvVec Entry) :
    Takes (unpackItems fuel n (m items) isArr) (ItemsTaken m isArr n items) := by
  induction n generalizing fuel items with
  | zero =>
    have hzero : ∀ fuel, unpackItems fuel 0 (m items) isArr = pure (m items) := fun fuel => by
      rw [unpackItems]
    rw [hzero]
    refine (Takes.pure _).mono ?_
    rintro cs v ⟨rfl, rfl⟩
    exact ⟨items, [], rfl, (List.append_nil _).symm, rfl, le_rfl,
      fun k _ => hzero k ▸ Reads.pure _, fun k _ => hzero k ▸ Reads.pure _, le_rfl⟩
  | succ n ih =>
    cases fuel with
    | zero =>
      intro s v t h
      rw [unpackItems] at h
      cases h
    | succ fuel =>
      intro s v t h
      rw [unpackItems] at h
      obtain ⟨key, u, hkey, h₁⟩ := bind_eq_ok.mp h
      obtain ⟨child, u', hchild, h₂⟩ := bind_eq_ok.mp h₁
      obtain ⟨parent, u'', hlift, hrest⟩ := bind_eq_ok.mp h₂
      obtain ⟨ks, rfl, rkey, kv, hkv, hint, hle, hsame⟩ := unpackKey_takes isArr _ _ _ hkey
      obtain ⟨vs, rfl, hval⟩ := hone fuel (Nat.lt_succ_self _) _ _ _ hchild
      obtain ⟨_, rfl, rfl, hset⟩ := Takes.lift _ _ _ _ hlift
      have hback := hsame _ child ▸ hset
      obtain ⟨w, hw, rfl⟩ := map_ok (hm kv hkv hint items child ▸ hback)
      obtain ⟨is, rfl, out, new, rfl, hout, rfl, hn, hitems⟩ :=
        ih (fun k hk => hone k (hk.trans (Nat.lt_succ_self _))) w _ _ _ hrest
      have hkpos := encodeKey_length kv.isIntKey kv.ikey kv.skey
      have hvpos := encode_length_pos child
      refine ⟨ks ++ (vs ++ is), by simp only [List.append_assoc, List.nil_append], out,
        { kv with val := some child } :: new, rfl, ?_, rfl, ?_, ?_⟩
      · rw [hout, KvVec.entries_append hw, List.append_assoc]
        rfl
      · have := hval.le
        simp only [List.length_append]
        omega
      · exact canonical_items rkey (unpackKey_reads hkv) hle hkpos hset hback hval hitems

/-! ## Blocks and values -/

/-- A block as taken, and as it would be written. -/
def BlockTaken (m : KvVec Entry → Value) (isArr : Bool) (cs : List UInt8) (v : Value) : Prop :=
  ∃ out, v = m out ∧ Canonical (fun fuel => unpackKvBlock fuel (m ⟨0, [], 0⟩) isArr) cs
    (varintWrite (UInt64.ofNat out.entries.length) ++ encodeItems out.entries) v

theorem unpackKvBlock_takes {m : KvVec Entry → Value} {isArr : Bool} (hm : Appends m isArr)
    {fuel : ℕ} (hone : ∀ k, k < fuel → Takes (unpackOne k) fun cs v =>
      Canonical unpackFuelled cs (encode v) v) :
    Takes (unpackKvBlock fuel (m ⟨0, [], 0⟩) isArr) (BlockTaken m isArr) := by
  refine (varintRead_takes.bind fun n => unpackItems_takes hm hone n.toNat _).mono ?_
  rintro cs v ⟨us, is, n, rfl, ⟨hread, hle⟩, out, new, rfl, hout, hlen, -, hitems⟩
  rw [List.nil_append] at hout
  have hn : UInt64.ofNat out.entries.length = n := by rw [hout, hlen, UInt64.ofNat_toNat]
  refine ⟨out, rfl, fun fuel hf => ?_, fun fuel hf => ?_, ?_⟩
  · rw [List.length_append] at hf
    exact hread.bind (hitems.again fuel (by omega))
  · rw [hn, hout, List.length_append] at hf
    rw [hn, hout]
    exact (varintRead_reads n).bind (hitems.back fuel (by omega))
  · have := hitems.le
    rw [hn, hout, List.length_append, List.length_append]
    omega

/-- A tag whose body needs no fuel. -/
theorem BodyTaken.leaf {t : ValTag} {cs : List UInt8} {v : Value} (bs : List UInt8)
    (he : encode v = t.toByte :: bs)
    (ht : ∀ fuel, Reads (unpackTag (unpackKvBlock fuel) (some t)) cs v)
    (hb : ∀ fuel, Reads (unpackTag (unpackKvBlock fuel) (some t)) bs v)
    (hle : bs.length ≤ cs.length) : BodyTaken t cs v :=
  ⟨bs, he, fun fuel _ => ht fuel, fun fuel _ => hb fuel, hle⟩

theorem unpackTag_takes {fuel : ℕ} (hone : ∀ k, k < fuel → Takes (unpackOne k) fun cs v =>
    Canonical unpackFuelled cs (encode v) v) (t : ValTag) :
    Takes (unpackTag (unpackKvBlock fuel) (some t)) (BodyTaken t) := by
  cases t with
  | null =>
    refine (Takes.pure valueNull).mono ?_
    rintro cs v ⟨rfl, rfl⟩
    exact .leaf [] rfl (fun _ => Reads.pure _) (fun _ => Reads.pure _) le_rfl
  | bool =>
    refine (readByte_takes.bind fun b => Takes.pure (valueBool (b != 0))).mono ?_
    rintro cs v ⟨us, vs, b, rfl, rfl, rfl, rfl⟩
    refine .leaf [if b != 0 then 1 else 0] rfl
      (fun _ => (readByte_reads b).bind (Reads.pure _))
      (fun _ => (readByte_reads _).bind_nil ?_) (by simp)
    cases b != 0 <;> exact Reads.pure _
  | long =>
    refine (varintRead_takes.bind fun i => Takes.pure (valueLong i.toInt64)).mono ?_
    rintro cs v ⟨us, vs, i, rfl, ⟨hread, hle⟩, rfl, rfl⟩
    refine .leaf (varintWrite i) (by rw [valueLong, encode, UInt64.toUInt64_toInt64])
      (fun _ => hread.bind (Reads.pure _))
      (fun _ => (varintRead_reads i).bind_nil (Reads.pure _)) ?_
    rwa [List.append_nil]
  | double =>
    refine (readDouble_takes.bind fun d => Takes.pure (valueDouble d)).mono ?_
    rintro cs v ⟨us, vs, d, rfl, ⟨hread, hlen⟩, rfl, rfl⟩
    refine .leaf (doubleBytes d) rfl (fun _ => hread.bind (Reads.pure _))
      (fun _ => (readDouble_reads d).bind_nil (Reads.pure _)) ?_
    rw [List.append_nil, hlen]
    rfl
  | str =>
    refine (readBytes_takes.bind fun bs => Takes.lift (valueStr (some bs) bs.length)).mono ?_
    rintro cs v ⟨us, vs, bs, rfl, ⟨hread, hle, hlt⟩, rfl, hv⟩
    refine .leaf (encodeBytes bs) ?_ (fun _ => hread.bind (.lift hv))
      (fun _ => (readBytes_reads bs hlt).bind_nil (.lift hv)) (by rwa [List.append_nil])
    rw [valueStr, dupBytes_some] at hv
    cases hv
    rw [encode, contents_blob]
  | arr =>
    refine (unpackKvBlock_takes appends_arr hone).mono ?_
    rintro cs v ⟨out, rfl, hblock⟩
    exact ⟨_, rfl, hblock⟩
  | obj =>
    intro s v t h
    obtain ⟨cls, u, hcls, h₁⟩ := bind_eq_ok.mp h
    obtain ⟨obj, u', hobj, hrest⟩ := bind_eq_ok.mp h₁
    obtain ⟨us, rfl, hread, hle, hlt⟩ := readBytes_takes _ _ _ hcls
    obtain ⟨_, rfl, rfl, hmake⟩ := Takes.lift _ _ _ _ hobj
    obtain rfl : Value.obj (blob cls) cls.length ⟨0, [], 0⟩ = obj := by
      rw [valueObj, dupBytes_some] at hmake
      exact Except.ok.inj hmake
    obtain ⟨vs, rfl, out, rfl, hblock⟩ :=
      unpackKvBlock_takes (appends_obj (blob cls) cls.length) hone _ _ _ hrest
    refine ⟨us ++ vs, by rw [List.nil_append, List.append_assoc], _,
      by rw [encode, contents_blob], ?_, ?_, ?_⟩
    · intro fuel hf
      rw [List.length_append] at hf
      exact hread.bind (Reads.nil_bind (.lift hmake) (hblock.again fuel (by omega)))
    · intro fuel hf
      rw [List.length_append] at hf
      exact (readBytes_reads cls hlt).bind
        (Reads.nil_bind (.lift hmake) (hblock.back fuel (by omega)))
    · have := hblock.le
      simp only [List.length_append] at this ⊢
      omega
  | err => exact unpackErr_takes

/-- What `unpack_one` accepts it took off the front, at least a byte of it; it reads those bytes
the same way whatever follows them, and the encoding of what it made of them likewise. -/
theorem unpackOne_takes (fuel : ℕ) : Takes (unpackOne fuel) fun cs v =>
    Canonical unpackFuelled cs (encode v) v := by
  induction fuel using Nat.strong_induction_on with
  | _ fuel ih =>
    cases fuel with
    | zero =>
      intro s v t h
      rw [unpackOne] at h
      cases h
    | succ fuel =>
      intro s v t h
      rw [unpackOne_succ] at h
      obtain ⟨b, u, hb, hbody⟩ := bind_eq_ok.mp h
      obtain ⟨_, rfl, rfl⟩ := readByte_takes _ _ _ hb
      cases ht : ValTag.ofByte b with
      | none =>
        rw [ht] at hbody
        cases hbody
      | some tag =>
        rw [ht] at hbody
        obtain ⟨cs, rfl, bs, he, hbody⟩ :=
          unpackTag_takes (fun k hk => ih k (hk.trans (Nat.lt_succ_self _))) tag _ _ _ hbody
        refine ⟨[b] ++ cs, (List.append_assoc ..).symm, fun fuel hf => ?_, fun fuel hf => ?_, ?_⟩
        · rw [List.length_append] at hf
          rw [unpackFuelled, unpackOne_succ]
          refine (readByte_reads b).bind ?_
          rw [ht]
          exact hbody.again fuel (by omega)
        · rw [he, List.length_cons] at hf
          rw [unpackFuelled, unpackOne_succ, he]
          refine (readByte_reads _).bind ?_
          rw [ValTag.ofByte_toByte]
          exact hbody.back fuel (by omega)
        · have := hbody.le
          rw [he, List.length_append, List.length_cons, List.length_singleton]
          omega

end Parallax
