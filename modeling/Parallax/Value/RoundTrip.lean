import Parallax.Value.Invariant
import Parallax.Value.Varint

/-! The packed format as a function from trees to bytes, and the two halves of the round trip:
the writer appends exactly these bytes, the reader turns them back into the tree whatever
follows them. -/
namespace Parallax
open Memory Codec Codec.Decoder
set_option autoImplicit false
set_option maxHeartbeats 250000

/-! ## Trees up to what the format does not carry -/

/-- The tree with each block trimmed to its entries. -/
def trimmed (entries : List Entry) : KvVec Entry := ⟨entries.length, entries, entries.length⟩

def fillCstr (p : Ptr) : Ptr := some (p.getD [0])

mutual

/-- A NULL child becomes `VAL_NULL` and an absent string of an error the empty string. -/
def Value.filled : Value → Value
  | .arr ⟨slots, entries, cap⟩ => .arr ⟨slots, filledItems entries, cap⟩
  | .obj cls clen ⟨slots, entries, cap⟩ => .obj cls clen ⟨slots, filledItems entries, cap⟩
  | .err cls msg code trace => .err (fillCstr cls) (fillCstr msg) code (fillCstr trace)
  | .null => .null
  | .bool b => .bool b
  | .long i => .long i
  | .double d => .double d
  | .str p len => .str p len

def filledPtr : Option Value → Value
  | none => valueNull
  | some v => v.filled

def filledItems : List Entry → List Entry
  | [] => []
  | ⟨isIntKey, ikey, skey, skeyLen, val⟩ :: rest =>
    ⟨isIntKey, ikey, skey, skeyLen, some (filledPtr val)⟩ :: filledItems rest

end

mutual

/-- The tree without its capacities. -/
def Value.uncapped : Value → Value
  | .arr ⟨_, entries, _⟩ => .arr (trimmed (uncappedItems entries))
  | .obj cls clen ⟨_, entries, _⟩ => .obj cls clen (trimmed (uncappedItems entries))
  | .null => .null
  | .bool b => .bool b
  | .long i => .long i
  | .double d => .double d
  | .str p len => .str p len
  | .err cls msg code trace => .err cls msg code trace

def uncappedPtr : Option Value → Option Value
  | none => none
  | some v => some v.uncapped

def uncappedItems : List Entry → List Entry
  | [] => []
  | ⟨isIntKey, ikey, skey, skeyLen, val⟩ :: rest =>
    ⟨isIntKey, ikey, skey, skeyLen, uncappedPtr val⟩ :: uncappedItems rest

end

theorem uncappedItems_map (entries : List Entry) : uncappedItems entries =
    entries.map fun kv => { kv with val := uncappedPtr kv.val } := by
  induction entries with
  | nil => rfl
  | cons kv entries ih => exact congrArg _ ih

theorem uncappedItems_append (as bs : List Entry) :
    uncappedItems (as ++ bs) = uncappedItems as ++ uncappedItems bs := by
  rw [uncappedItems_map, uncappedItems_map, uncappedItems_map, List.map_append]

/-! ## The format -/

def encodeBytes (bs : List UInt8) : List UInt8 := varintWrite (UInt64.ofNat bs.length) ++ bs

def contents (p : Ptr) : List UInt8 := p.getD []

def cstrContents (p : Ptr) : List UInt8 := (contents p).takeWhile (· ≠ 0)

def encodeKey (isIntKey : Bool) (ikey : Int64) (skey : Ptr) : List UInt8 :=
  if isIntKey then 1 :: varintWrite ikey.toUInt64 else 0 :: encodeBytes (contents skey)

mutual

def encode : Value → List UInt8
  | .null => [ValTag.null.toByte]
  | .bool b => [ValTag.bool.toByte, if b then 1 else 0]
  | .long i => ValTag.long.toByte :: varintWrite i.toUInt64
  | .double d => ValTag.double.toByte :: doubleBytes d
  | .str p _ => ValTag.str.toByte :: encodeBytes (contents p)
  | .arr ⟨_, entries, _⟩ =>
    ValTag.arr.toByte :: (varintWrite (UInt64.ofNat entries.length) ++ encodeItems entries)
  | .obj cls _ ⟨_, entries, _⟩ =>
    ValTag.obj.toByte :: (encodeBytes (contents cls) ++
      (varintWrite (UInt64.ofNat entries.length) ++ encodeItems entries))
  | .err cls msg code trace =>
    ValTag.err.toByte :: (encodeBytes (cstrContents cls) ++ (encodeBytes (cstrContents msg) ++
      (varintWrite code.toUInt64 ++ encodeBytes (cstrContents trace))))

def encodePtr : Option Value → List UInt8
  | none => [ValTag.null.toByte]
  | some v => encode v

def encodeItems : List Entry → List UInt8
  | [] => []
  | ⟨isIntKey, ikey, skey, _, val⟩ :: rest =>
    encodeKey isIntKey ikey skey ++ (encodePtr val ++ encodeItems rest)

end

/-! ## The writer -/

@[simp] theorem contents_blob (bs : List UInt8) : contents (blob bs) = bs := by
  cases bs <;> rfl

theorem cstrContents_cstr {s : List UInt8} (h : (0 : UInt8) ∉ s) : cstrContents (cstr s) = s :=
  takeWhile_cstr h []

theorem wbufBytes_blob (b : Wbuf) (bs : List UInt8) :
    wbufBytes b (blob bs) bs.length = .ok (b ++ bs) := by
  unfold wbufBytes
  split
  · rw [load_blob]
    rfl
  · have : bs = [] := List.eq_nil_of_length_eq_zero (by omega)
    rw [this, List.append_nil]

theorem wbufBytes_cstr (b : Wbuf) (s : List UInt8) :
    wbufBytes b (cstr s) s.length = .ok (b ++ s) := by
  unfold wbufBytes
  split
  · rw [load_cstr]
    rfl
  · have : s = [] := List.eq_nil_of_length_eq_zero (by omega)
    rw [this, List.append_nil]

theorem cstrLen_wbufBytes {p : Ptr} (h : CStrWf p) :
    cstrLen p = .ok (cstrContents p).length ∧
      ∀ b, wbufBytes b p (cstrContents p).length = .ok (b ++ cstrContents p) := by
  cases h with
  | null => exact ⟨rfl, fun b => by simp [cstrContents, contents, wbufBytes]⟩
  | cstr s h0 _ =>
    rw [cstrContents_cstr h0]
    exact ⟨strlen_cstr h0, fun b => wbufBytes_cstr b s⟩

theorem packErr_eq {cls msg trace : Ptr} {code : Int64} (hc : CStrWf cls) (hm : CStrWf msg)
    (ht : CStrWf trace) (b : Wbuf) :
    packErr cls msg code trace (wbufU8 b ValTag.err.toByte) =
      .ok (b ++ encode (.err cls msg code trace)) := by
  obtain ⟨lc, wc⟩ := cstrLen_wbufBytes hc
  obtain ⟨lm, wm⟩ := cstrLen_wbufBytes hm
  obtain ⟨lt, wt⟩ := cstrLen_wbufBytes ht
  simp [packErr, lc, lm, lt, wc, wm, wt, wbufVarint, wbufU8, encode, encodeBytes]

theorem packKey_eq {kv : Entry} (h : EntryWf kv) (b : Wbuf) :
    packKey kv.isIntKey kv.ikey kv.skey kv.skeyLen b =
      .ok (b ++ encodeKey kv.isIntKey kv.ikey kv.skey) := by
  cases h with
  | int k c => simp [packKey, intEntry, encodeKey, wbufU8, wbufVarint]
  | str key c _ =>
    simp [packKey, strKv, encodeKey, wbufU8, wbufVarint, wbufBytes_blob, encodeBytes]

theorem packItems_eq {entries : List Entry} (hk : ∀ kv ∈ entries, EntryWf kv)
    (hc : ∀ kv ∈ entries, ∀ c, kv.val = some c → ∀ b, packValue c b = .ok (b ++ encode c))
    (b : Wbuf) : packItems entries b = .ok (b ++ encodeItems entries) := by
  induction entries generalizing b with
  | nil => simp [packItems, encodeItems]
  | cons kv rest ih =>
    have hkey := packKey_eq (hk kv (List.mem_cons_self ..)) b
    have hrest := ih (fun e he => hk e (List.mem_cons_of_mem _ he))
      (fun e he => hc e (List.mem_cons_of_mem _ he))
    have hval : ∀ b, packOne kv.val b = .ok (b ++ encodePtr kv.val) := by
      intro b
      cases hv : kv.val with
      | none => rfl
      | some c => exact hc kv (List.mem_cons_self ..) c hv b
    obtain ⟨isIntKey, ikey, skey, skeyLen, val⟩ := kv
    simp only [packItems, hkey, ok_bind, hval, hrest, encodeItems, List.append_assoc]

/-- The writer appends the encoding of a well-formed tree. -/
theorem packValue_eq {v : Value} (h : v.Wf) (b : Wbuf) : packValue v b = .ok (b ++ encode v) := by
  induction h generalizing b with
  | null => rfl
  | bool x => simp [packValue, encode, wbufU8]
  | long i => simp [packValue, encode, wbufU8, wbufVarint]
  | double d => simp [packValue, encode, wbufU8, wbufDouble]
  | str bs _ =>
    simp [packValue, encode, wbufU8, wbufVarint, wbufBytes_blob, encodeBytes]
  | arr items hv hk hc ih =>
    have := packItems_eq hk ih
    simp [packValue, encode, wbufU8, wbufVarint, this]
  | obj cls props _ hv hk hs hc ih =>
    have := packItems_eq hk ih
    simp [packValue, encode, wbufU8, wbufVarint, wbufBytes_blob, encodeBytes, this]
  | err cls msg code trace hc hm ht => exact packErr_eq hc hm ht b

theorem valuePack_eq {v : Value} (h : v.Wf) : valuePack (some v) = .ok (encode v) :=
  packValue_eq h []

/-! ## The reader, one piece of the format at a time -/

theorem readByte_reads (b : UInt8) : Reads readByte [b] b :=
  (Reads.next _ b).guard (by simp)

theorem readLength_reads (bs : List UInt8) (h : bs.length < 2 ^ 64) (rest : List UInt8) :
    readLength (encodeBytes bs ++ rest) = .ok (some (bs.length, bs ++ rest)) := by
  have hn : (UInt64.ofNat bs.length).toNat = bs.length := by
    rw [UInt64.toNat_ofNat', Nat.mod_eq_of_lt h]
  rw [readLength, encodeBytes, List.append_assoc, bind_ok (varintRead_reads _ _),
    bind_ok (d := remaining) (t := bs ++ rest) rfl, hn, if_neg (by simp)]
  rfl

theorem readBytes_reads (bs : List UInt8) (h : bs.length < 2 ^ 64) :
    Reads readBytes (encodeBytes bs) bs := by
  intro rest
  rw [readBytes, bind_ok (readLength_reads bs h rest)]
  exact Reads.take _ bs rest

theorem readCstr_reads (bs : List UInt8) (h : bs.length < 2 ^ 64) :
    Reads readCstr (encodeBytes bs) (cstr bs) :=
  (readBytes_reads bs h).bind_nil (.pure _)

/-- After `k` bytes the loop of `read_double` holds the low `k` bytes of the pattern. -/
theorem doubleBits_prefix (d : UInt64) (k : ℕ) (hk : k ≤ 8) :
    (doubleBits ((List.range k).map fun i => (d >>> UInt64.ofNat (i * 8)).toUInt8)).toNat =
      d.toNat % 2 ^ (k * 8) := by
  induction k with
  | zero => simp [doubleBits, Nat.mod_one]
  | succ k ih =>
    have ih := ih (by omega)
    have hbyte : ((d >>> UInt64.ofNat (k * 8)).toUInt8).toUInt64.toNat =
        d.toNat / 2 ^ (k * 8) % 2 ^ 8 := by
      rw [UInt8.toNat_toUInt64, UInt64.toNat_toUInt8, Word.toNat_shiftRight d _ (by omega)]
    have hstep := Word.mod_add_group d.toNat (k * 8) 8
    have hfit : d.toNat % 2 ^ (k * 8 + 8) < 2 ^ 64 :=
      lt_of_le_of_lt (Nat.mod_le _ _) d.toNat_lt
    have hor := Word.toNat_or_shiftLeft _ ((d >>> UInt64.ofNat (k * 8)).toUInt8).toUInt64 (k * 8)
      (by omega) (lt_of_eq_of_lt ih (Nat.mod_lt _ (by positivity))) (by rw [hbyte]; omega)
    rw [hbyte, ih, hstep] at hor
    rw [show (k + 1) * 8 = k * 8 + 8 by ring, ← hor, List.range_succ, List.map_append]
    simp [doubleBits, List.zipIdx_append]

theorem doubleBits_bytes (d : UInt64) : doubleBits (doubleBytes d) = d := by
  apply UInt64.toNat_inj.mp
  have h := doubleBits_prefix d 8 le_rfl
  rwa [Nat.mod_eq_of_lt d.toNat_lt] at h

theorem readDouble_reads (d : UInt64) : Reads readDouble (doubleBytes d) d := by
  have h8 : (doubleBytes d).length = 8 := rfl
  have h := (Reads.take Fault.outOfBounds (doubleBytes d)).bind_nil
    (f := fun bytes => Pure.pure (doubleBits bytes)) (Reads.pure _)
  rw [doubleBits_bytes, h8] at h
  exact h.guard (by rw [h8]; omega)

/-! ## The reader on whole trees -/

theorem readCstr_contents {p : Ptr} (h : CStrWf p) :
    Reads readCstr (encodeBytes (cstrContents p)) (fillCstr p) ∧
      dupCstr (fillCstr p) = .ok (fillCstr p) := by
  cases h with
  | null =>
    exact ⟨readCstr_reads [] (by norm_num), dupCstr_cstr (s := []) (by simp) []⟩
  | cstr s h0 h =>
    rw [cstrContents_cstr h0]
    exact ⟨readCstr_reads s h, dupCstr_cstr h0 []⟩

theorem unpackErr_reads {cls msg trace : Ptr} (code : Int64) (hc : CStrWf cls) (hm : CStrWf msg)
    (ht : CStrWf trace) :
    Reads unpackErr (encodeBytes (cstrContents cls) ++ (encodeBytes (cstrContents msg) ++
      (varintWrite code.toUInt64 ++ encodeBytes (cstrContents trace))))
      (.err (fillCstr cls) (fillCstr msg) code (fillCstr trace)) := by
  obtain ⟨rc, dc⟩ := readCstr_contents hc
  obtain ⟨rm, dm⟩ := readCstr_contents hm
  obtain ⟨rt, dt⟩ := readCstr_contents ht
  refine rc.bind (rm.bind ((varintRead_reads _).bind (rt.bind_nil (.lift ?_))))
  simp only [valueErr, dc, dm, dt, ok_bind, Int64.toInt64_toUInt64]
  rfl

/-- The reader gets back the key of a well-formed entry, in the form its setter takes. -/
def unpackedKey (kv : Entry) : UnpackKey :=
  if kv.isIntKey then ⟨true, kv.ikey, none, 0⟩
  else ⟨false, 0, some (contents kv.skey), (contents kv.skey).length⟩

theorem unpackKey_reads {kv : Entry} (h : EntryWf kv) :
    Reads unpackKey (encodeKey kv.isIntKey kv.ikey kv.skey) (unpackedKey kv) := by
  cases h with
  | int k c =>
    refine (readByte_reads 1).bind ?_
    simpa [unpackedKey, intEntry] using (varintRead_reads k.toUInt64).bind_nil
      (f := fun k => Pure.pure (⟨true, k.toInt64, none, 0⟩ : UnpackKey)) (Reads.pure _)
  | str key c h =>
    refine (readByte_reads 0).bind ?_
    simpa [unpackedKey, strKv, encodeBytes] using (readBytes_reads key h).bind_nil
      (f := fun bs => Pure.pure (⟨false, 0, some bs, bs.length⟩ : UnpackKey)) (Reads.pure _)

theorem unpackSet_arr {kv : Entry} (h : EntryWf kv) (items : KvVec Entry) (child : Value) :
    unpackSet (.arr items) true (unpackedKey kv) child =
      (items.append { kv with val := some child }).map .arr := by
  cases h with
  | int k c => rfl
  | str key c _ =>
    simp only [unpackSet, unpackedKey, strKv, contents_blob, Bool.false_eq_true, if_true, if_false,
      valueArrSetStr, strEntry_some, ok_bind]
    rfl

theorem unpackSet_obj {kv : Entry} (h : EntryWf kv) (hs : kv.isIntKey = false) (cls : Ptr)
    (clen : ℕ) (props : KvVec Entry) (child : Value) :
    unpackSet (.obj cls clen props) false (unpackedKey kv) child =
      (props.append { kv with val := some child }).map (.obj cls clen) := by
  cases h with
  | int k c => cases hs
  | str key c _ =>
    simp only [unpackSet, unpackedKey, strKv, contents_blob, Bool.false_eq_true, if_false,
      valueObjSet, strEntry_some, ok_bind]
    rfl

/-- `v` is read back, up to its capacities, as `filledPtr v`. -/
def ReadsBack (v : Option Value) : Prop :=
  ∃ w, w.uncapped = (filledPtr v).uncapped ∧
    ∀ fuel, (encodePtr v).length < fuel → Reads (unpackOne fuel) (encodePtr v) w

theorem encodeKey_length (isIntKey : Bool) (ikey : Int64) (skey : Ptr) :
    2 ≤ (encodeKey isIntKey ikey skey).length := by
  unfold encodeKey encodeBytes
  split
  · have := varintWrite_length_pos ikey.toUInt64
    rw [List.length_cons]
    omega
  · have := varintWrite_length_pos (UInt64.ofNat (contents skey).length)
    rw [List.length_cons, List.length_append]
    omega

/-- The entry loop: `m` is the parent around its item block, which the setter appends to. -/
theorem unpackItems_reads {m : KvVec Entry → Value} {b : Bool} {entries : List Entry}
    (hk : ∀ kv ∈ entries, EntryWf kv)
    (hset : ∀ kv ∈ entries, ∀ items child, unpackSet (m items) b (unpackedKey kv) child =
      (items.append { kv with val := some child }).map m)
    (hc : ∀ kv ∈ entries, ReadsBack kv.val) (items : KvVec Entry) (hw : items.Wf)
    (hn : items.n + entries.length < 2 ^ 64) :
    ∃ out : KvVec Entry, uncappedItems out.entries =
        uncappedItems items.entries ++ uncappedItems (filledItems entries) ∧
      ∀ fuel, (encodeItems entries).length ≤ fuel →
        Reads (unpackItems fuel entries.length (m items) b) (encodeItems entries) (m out) := by
  induction entries generalizing items with
  | nil =>
    refine ⟨items, by simp [filledItems, uncappedItems], fun fuel _ => ?_⟩
    rw [List.length_nil, unpackItems, encodeItems]
    exact Reads.pure _
  | cons kv rest ih =>
    obtain ⟨isIntKey, ikey, skey, skeyLen, val⟩ := kv
    obtain ⟨c, hcu, hcr⟩ : ReadsBack val := hc _ (List.mem_cons_self ..)
    set kv : Entry := ⟨isIntKey, ikey, skey, skeyLen, val⟩
    obtain ⟨w, happ, hent, hwf⟩ := KvVec.append_ok hw { kv with val := some c }
    have hwn : w.n = items.n + 1 := by simp [KvVec.n, hent]
    rw [List.length_cons] at hn
    obtain ⟨out, hout, hread⟩ := ih (fun e he => hk e (List.mem_cons_of_mem _ he))
      (fun e he => hset e (List.mem_cons_of_mem _ he))
      (fun e he => hc e (List.mem_cons_of_mem _ he)) w (hwf (by omega)) (by omega)
    have hkey := unpackKey_reads (hk kv (List.mem_cons_self ..))
    have hput := hset kv (List.mem_cons_self ..) items c
    rw [happ] at hput
    refine ⟨out, ?_, fun fuel hf => ?_⟩
    · rw [hout, hent, uncappedItems_append, List.append_assoc]
      simp [uncappedItems, filledItems, uncappedPtr, hcu, kv]
    · have hpos := encodeKey_length isIntKey ikey skey
      rw [encodeItems, List.length_append, List.length_append] at hf
      obtain ⟨fuel, rfl⟩ : ∃ f, fuel = f + 1 := ⟨fuel - 1, by omega⟩
      rw [encodeItems, List.length_cons, unpackItems]
      exact hkey.bind ((hcr fuel (by omega)).bind
        (Reads.nil_bind (.lift hput) (hread fuel (by omega))))

theorem readsBack_tag {v : Option Value} {w : Value} {t : ValTag} {bs : List UInt8}
    (he : encodePtr v = t.toByte :: bs) (hw : w.uncapped = (filledPtr v).uncapped)
    (h : ∀ fuel, bs.length ≤ fuel → Reads (unpackTag (unpackKvBlock fuel) (some t)) bs w) :
    ReadsBack v := by
  refine ⟨w, hw, fun fuel hf => ?_⟩
  rw [he, List.length_cons] at hf
  obtain ⟨fuel, rfl⟩ : ∃ f, fuel = f + 1 := ⟨fuel - 1, by omega⟩
  rw [he, unpackOne_succ]
  refine (readByte_reads _).bind ?_
  rw [ValTag.ofByte_toByte]
  exact h fuel (by omega)

theorem readsBack_none : ReadsBack none :=
  readsBack_tag (t := .null) rfl rfl fun _ _ => Reads.pure valueNull

theorem unpackKvBlock_reads {m : KvVec Entry → Value} {b : Bool} {entries : List Entry}
    (hk : ∀ kv ∈ entries, EntryWf kv)
    (hset : ∀ kv ∈ entries, ∀ items child, unpackSet (m items) b (unpackedKey kv) child =
      (items.append { kv with val := some child }).map m)
    (hc : ∀ kv ∈ entries, ReadsBack kv.val) (hn : entries.length < 2 ^ 64) :
    ∃ out : KvVec Entry, uncappedItems out.entries = uncappedItems (filledItems entries) ∧
      ∀ fuel, (varintWrite (UInt64.ofNat entries.length) ++ encodeItems entries).length ≤ fuel →
        Reads (unpackKvBlock fuel (m ⟨0, [], 0⟩) b)
          (varintWrite (UInt64.ofNat entries.length) ++ encodeItems entries) (m out) := by
  obtain ⟨out, hout, hread⟩ := unpackItems_reads hk hset hc ⟨0, [], 0⟩ (empty_wf 0)
    (by simpa [KvVec.n] using hn)
  have hlen : (UInt64.ofNat entries.length).toNat = entries.length := by
    rw [UInt64.toNat_ofNat', Nat.mod_eq_of_lt hn]
  refine ⟨out, hout, fun fuel hf => (varintRead_reads _).bind ?_⟩
  rw [List.length_append] at hf
  rw [hlen]
  exact hread fuel (by omega)

theorem readsBack_vals {entries : List Entry}
    (h : ∀ kv ∈ entries, ∀ c, kv.val = some c → ReadsBack (some c)) :
    ∀ kv ∈ entries, ReadsBack kv.val := by
  intro kv hkv
  cases hval : kv.val with
  | none => exact readsBack_none
  | some c => exact h kv hkv c hval

/-- The reader turns the encoding of a well-formed tree back into it. -/
theorem readsBack {v : Value} (h : v.Wf) : ReadsBack (some v) := by
  induction h with
  | null => exact readsBack_tag (t := .null) rfl rfl fun _ _ => Reads.pure valueNull
  | bool b =>
    refine readsBack_tag (w := .bool b) (t := .bool) rfl rfl fun _ _ => ?_
    refine (readByte_reads _).bind_nil ?_
    cases b <;> exact Reads.pure _
  | long i =>
    refine readsBack_tag (w := .long i) (t := .long) rfl rfl fun _ _ => ?_
    refine (varintRead_reads _).bind_nil ?_
    rw [Int64.toInt64_toUInt64]
    exact Reads.pure _
  | double d =>
    exact readsBack_tag (w := .double d) (t := .double) rfl rfl fun _ _ =>
      (readDouble_reads d).bind_nil (Reads.pure _)
  | str bs h =>
    refine readsBack_tag (w := .str (blob bs) bs.length) (t := .str) rfl rfl fun _ _ => ?_
    rw [contents_blob]
    refine (readBytes_reads bs h).bind_nil (.lift ?_)
    rw [valueStr, dupBytes_some]
    rfl
  | arr items hv hk hc ih =>
    obtain ⟨slots, entries, cap⟩ := items
    obtain ⟨out, hout, hread⟩ := unpackKvBlock_reads (m := .arr) (b := true) hk
      (fun kv hkv items child => unpackSet_arr (hk kv hkv) items child) (readsBack_vals ih) hv.n_lt
    exact readsBack_tag (w := .arr out) (t := .arr) rfl
      (by simp [Value.uncapped, filledPtr, Value.filled, hout]) hread
  | obj cls props h hv hk hs hc ih =>
    obtain ⟨slots, entries, cap⟩ := props
    obtain ⟨out, hout, hread⟩ := unpackKvBlock_reads (m := .obj (blob cls) cls.length)
      (b := false) hk
      (fun kv hkv items child => unpackSet_obj (hk kv hkv) (hs kv hkv) _ _ items child)
      (readsBack_vals ih) hv.n_lt
    refine readsBack_tag (w := .obj (blob cls) cls.length out) (t := .obj) rfl
      (by simp [Value.uncapped, filledPtr, Value.filled, hout]) fun fuel hf => ?_
    rw [contents_blob] at hf ⊢
    simp only [List.length_append] at hf
    have hfuel := hread fuel (by simp only [List.length_append]; omega)
    refine (readBytes_reads cls h).bind (Reads.nil_bind (.lift ?_) hfuel)
    rw [valueObj, dupBytes_some]
    rfl
  | err cls msg code trace hc hm ht =>
    exact readsBack_tag (w := .err (fillCstr cls) (fillCstr msg) code (fillCstr trace)) (t := .err)
      rfl rfl fun _ _ => unpackErr_reads code hc hm ht

theorem valueUnpack_encode {v : Value} (h : v.Wf) :
    ∃ w, valueUnpack (encode v) = .ok (some w) ∧ w.uncapped = v.filled.uncapped := by
  obtain ⟨w, hw, hread⟩ := readsBack h
  refine ⟨w, ?_, hw⟩
  have := (hread ((encode v).length + 1) (Nat.lt_succ_self _)).whole
  simp only [encodePtr] at this
  rw [valueUnpack, this]
  rfl

/-- Decode undoes encode on every tree the constructors and builders produce, and encoding tells
apart any two of them that differ in more than a NULL child or an absent error string. -/
theorem valueUnpack_valuePack :
    (∀ v, Built v → ∃ buf w, valuePack (some v) = .ok buf ∧ valueUnpack buf = .ok (some w) ∧
      w.uncapped = v.filled.uncapped) ∧
    ∀ v v', Built v → Built v' → valuePack (some v) = valuePack (some v') →
      v.filled.uncapped = v'.filled.uncapped := by
  refine ⟨fun v hv => ?_, fun v v' hv hv' he => ?_⟩
  · obtain ⟨w, hu, hw⟩ := valueUnpack_encode hv.wf
    exact ⟨encode v, w, valuePack_eq hv.wf, hu, hw⟩
  · rw [valuePack_eq hv.wf, valuePack_eq hv'.wf, Except.ok.injEq] at he
    obtain ⟨w, hu, hw⟩ := valueUnpack_encode hv.wf
    obtain ⟨w', hu', hw'⟩ := valueUnpack_encode hv'.wf
    rw [he, hu', Except.ok.injEq, Option.some.injEq] at hu
    rw [← hw, ← hw', hu]

/-- A NULL child under the empty key, then an error without strings under a negative key. -/
def sparseTree : Value :=
  .arr ⟨4, [strKv [] none, intEntry (-1) (some (.err none none 7 none))], 4⟩

theorem sparseTree_built : Built sparseTree := by
  have hs : Built (.arr ⟨4, [strKv [] none], 4⟩) :=
    @BuiltFrom.setStr _ _ (valueArr 0) _ none none 0 (.arr 0) (by simp) (fun _ h => by cases h) rfl
      (by norm_num [Value.n, KvVec.n])
  have he : Built (.err none none 7 none) :=
    @BuiltFrom.err _ _ none none none 7 _ (fun _ h => by cases h) (fun _ h => by cases h)
      (fun _ h => by cases h) rfl
  exact .setInt (k := -1) (c := some (.err none none 7 none)) hs
    (fun x h => by cases h; exact he) rfl (by norm_num [sparseTree, Value.n, KvVec.n])

theorem valueUnpack_valuePack_sparse : ∃ buf w, valuePack (some sparseTree) = .ok buf ∧
    valueUnpack buf = .ok (some w) ∧ w.uncapped = sparseTree.filled.uncapped :=
  valueUnpack_valuePack.1 sparseTree sparseTree_built

end Parallax
