import Parallax.Value.Safety

/-! The packed format delimits itself, and what `value_unpack` accepts has one shortest form: no
cut or padded encoding is accepted, and packing an accepted buffer again never makes it longer. -/
namespace Parallax
open Memory Codec Codec.Decoder
set_option autoImplicit false
set_option maxHeartbeats 250000

/-- An accepted buffer is one value and nothing else. -/
theorem valueUnpack_eq_some {buf : List UInt8} {v : Value} :
    valueUnpack buf = .ok (some v) ↔ unpackOne (buf.length + 1) buf = .ok (some (v, [])) := by
  unfold valueUnpack
  constructor
  · intro h
    split at h
    · next w s hone =>
      split_ifs at h with hs
      · rw [List.isEmpty_iff] at hs
        subst hs
        cases h
        exact hone
      · cases h
    · cases h
    · cases h
  · intro h
    rw [h]
    rfl

theorem valueUnpack_taken {buf : List UInt8} {v : Value} (h : valueUnpack buf = .ok (some v)) :
    Canonical unpackFuelled buf (encode v) v := by
  obtain ⟨cs, hcs, hv⟩ := unpackOne_takes _ _ _ _ (valueUnpack_eq_some.mp h)
  rw [List.append_nil] at hcs
  exact hcs ▸ hv

/-! ## Cut and padded encodings -/

/-- What `value_pack` writes for a NULL pointer or a tree. -/
theorem valuePack_reads {v : Option Value} (hv : ChildWf v) :
    valuePack v = .ok (encodePtr v) ∧ ReadsBack v := by
  cases v with
  | none => exact ⟨rfl, readsBack_none⟩
  | some v => exact ⟨valuePack_eq (hv v rfl), readsBack (hv v rfl)⟩

theorem valueUnpack_cut {v : Option Value} (hv : ReadsBack v) {p q : List UInt8}
    (hp : encodePtr v = p ++ q) (hq : q ≠ []) : valueUnpack p = .ok none := by
  obtain ⟨r, hr⟩ := valueUnpack_settles p
  cases r with
  | none => exact hr
  | some w =>
    obtain ⟨u, -, hread⟩ := hv
    have hwhole := (hread (p.length + q.length + 1) (by
      rw [hp, List.length_append]
      exact Nat.lt_succ_self _)).whole
    have hcut := (valueUnpack_taken hr).again (p.length + q.length) (Nat.le_add_right _ _) q
    rw [hp] at hwhole
    rw [unpackFuelled, hwhole, Except.ok.injEq, Option.some.injEq, Prod.mk.injEq] at hcut
    exact absurd hcut.2.symm hq

theorem valueUnpack_padded {v : Option Value} (hv : ReadsBack v) {x : List UInt8} (hx : x ≠ []) :
    valueUnpack (encodePtr v ++ x) = .ok none := by
  obtain ⟨u, -, hread⟩ := hv
  have h := hread ((encodePtr v ++ x).length + 1) (by
    rw [List.length_append]
    omega) x
  rw [valueUnpack, h]
  dsimp only
  rw [if_neg (by simpa using hx)]

/-- No buffer cut short of an encoding, and none with bytes after one, is accepted as anything; so
no encoding is the beginning of another. -/
theorem valuePack_selfDelimiting :
    (∀ v : Option Value, (∀ x, v = some x → Built x) → ∃ buf, valuePack v = .ok buf ∧
      (∀ p, p <+: buf → p ≠ buf → valueUnpack p = .ok none) ∧
      ∀ x, x ≠ [] → valueUnpack (buf ++ x) = .ok none) ∧
    ∀ (v v' : Option Value) (buf buf' : List UInt8), (∀ x, v = some x → Built x) →
      (∀ x, v' = some x → Built x) → valuePack v = .ok buf → valuePack v' = .ok buf' →
      buf <+: buf' → buf = buf' := by
  have hwf : ∀ v : Option Value, (∀ x, v = some x → Built x) → ChildWf v :=
    fun v hv x hx => (hv x hx).wf
  refine ⟨fun v hv => ?_, fun v v' buf buf' hv hv' hb hb' hpre => ?_⟩
  · obtain ⟨hpack, hread⟩ := valuePack_reads (hwf v hv)
    refine ⟨encodePtr v, hpack, ?_, fun x hx => valueUnpack_padded hread hx⟩
    rintro p ⟨q, hq⟩ hp
    refine valueUnpack_cut hread hq.symm ?_
    rintro rfl
    exact hp (by rwa [List.append_nil] at hq)
  · obtain ⟨hpack, ⟨w, -, hread⟩⟩ := valuePack_reads (hwf v hv)
    obtain ⟨hpack', hread'⟩ := valuePack_reads (hwf v' hv')
    rw [hpack, Except.ok.injEq] at hb
    rw [hpack', Except.ok.injEq] at hb'
    subst hb hb'
    obtain ⟨q, hq⟩ := hpre
    by_contra hne
    have hcut := valueUnpack_cut hread' hq.symm (by
      rintro rfl
      exact hne (by rwa [List.append_nil] at hq))
    rw [valueUnpack, (hread _ (Nat.lt_succ_self _)).whole] at hcut
    cases hcut

theorem valuePack_selfDelimiting_sparse : ∃ buf, valuePack (some sparseTree) = .ok buf ∧
    (∀ p, p <+: buf → p ≠ buf → valueUnpack p = .ok none) ∧
    ∀ x, x ≠ [] → valueUnpack (buf ++ x) = .ok none :=
  valuePack_selfDelimiting.1 (some sparseTree) fun x hx => by
    cases hx
    exact sparseTree_built

/-! ## The size of a tree -/

mutual

def Value.nodes : Value → ℕ
  | .arr ⟨_, entries, _⟩ => nodesItems entries + 1
  | .obj _ _ ⟨_, entries, _⟩ => nodesItems entries + 1
  | .null => 1
  | .bool _ => 1
  | .long _ => 1
  | .double _ => 1
  | .str _ _ => 1
  | .err _ _ _ _ => 1

def nodesPtr : Option Value → ℕ
  | none => 0
  | some v => v.nodes

def nodesItems : List Entry → ℕ
  | [] => 0
  | ⟨_, _, _, _, val⟩ :: rest => nodesPtr val + nodesItems rest

end

mutual

/-- The bytes of the strings, class names, error strings and keys of a tree. -/
def Value.stringBytes : Value → ℕ
  | .str _ len => len
  | .arr ⟨_, entries, _⟩ => stringBytesItems entries
  | .obj _ clen ⟨_, entries, _⟩ => clen + stringBytesItems entries
  | .err cls msg _ trace =>
    (cstrContents cls).length + (cstrContents msg).length + (cstrContents trace).length
  | .null => 0
  | .bool _ => 0
  | .long _ => 0
  | .double _ => 0

def stringBytesPtr : Option Value → ℕ
  | none => 0
  | some v => v.stringBytes

def stringBytesItems : List Entry → ℕ
  | [] => 0
  | ⟨_, _, _, skeyLen, val⟩ :: rest => skeyLen + stringBytesPtr val + stringBytesItems rest

end

theorem encodeBytes_length (bs : List UInt8) : bs.length + 1 ≤ (encodeBytes bs).length := by
  have := varintWrite_length_pos (UInt64.ofNat bs.length)
  rw [encodeBytes, List.length_append]
  omega

theorem EntryWf.skeyLen_le {kv : Entry} (h : EntryWf kv) :
    kv.skeyLen ≤ (encodeKey kv.isIntKey kv.ikey kv.skey).length := by
  cases h with
  | int k c => exact Nat.zero_le _
  | str key c _ =>
    have := encodeBytes_length key
    simp only [strKv, encodeKey, contents_blob, Bool.false_eq_true, if_false, List.length_cons]
    omega

theorem sizeItems_le {entries : List Entry} (hk : ∀ kv ∈ entries, EntryWf kv)
    (hc : ∀ kv ∈ entries, ∀ c, kv.val = some c → c.nodes + c.stringBytes ≤ (encode c).length) :
    nodesItems entries + stringBytesItems entries ≤ (encodeItems entries).length := by
  induction entries with
  | nil => simp [nodesItems, stringBytesItems]
  | cons kv rest ih =>
    have hkey := (hk kv (List.mem_cons_self ..)).skeyLen_le
    have hrest := ih (fun e he => hk e (List.mem_cons_of_mem _ he))
      (fun e he => hc e (List.mem_cons_of_mem _ he))
    have hval : nodesPtr kv.val + stringBytesPtr kv.val ≤ (encodePtr kv.val).length := by
      cases hv : kv.val with
      | none => simp [nodesPtr, stringBytesPtr]
      | some c => exact hc kv (List.mem_cons_self ..) c hv
    obtain ⟨isIntKey, ikey, skey, skeyLen, val⟩ := kv
    rw [nodesItems, stringBytesItems, encodeItems, List.length_append, List.length_append]
    dsimp only at hkey hval
    omega

/-- Every node has its tag in the encoding, and every string its bytes. -/
theorem Value.Wf.size_le {v : Value} (h : v.Wf) :
    v.nodes + v.stringBytes ≤ (encode v).length := by
  induction h with
  | null => simp [Value.nodes, Value.stringBytes, encode]
  | bool b => simp [Value.nodes, Value.stringBytes, encode]
  | long i => simp [Value.nodes, Value.stringBytes, encode]
  | double d => simp [Value.nodes, Value.stringBytes, encode]
  | str bs _ =>
    have := encodeBytes_length bs
    simp only [Value.nodes, Value.stringBytes, encode, contents_blob, List.length_cons]
    omega
  | arr items hv hk hc ih =>
    have := sizeItems_le hk ih
    simp only [Value.nodes, Value.stringBytes, encode, List.length_cons, List.length_append]
    omega
  | obj cls props _ hv hk hs hc ih =>
    have := sizeItems_le hk ih
    have := encodeBytes_length cls
    simp only [Value.nodes, Value.stringBytes, encode, contents_blob, List.length_cons,
      List.length_append]
    omega
  | err cls msg code trace _ _ _ =>
    have := encodeBytes_length (cstrContents cls)
    have := encodeBytes_length (cstrContents msg)
    have := encodeBytes_length (cstrContents trace)
    simp only [Value.nodes, Value.stringBytes, encode, List.length_cons, List.length_append]
    omega

/-! ## Packing an accepted buffer again -/

/-- `value_pack` after `value_unpack`; `none` when the buffer is not accepted. -/
def repack (buf : List UInt8) : Except Fault (Option (List UInt8)) := do
  match ← valueUnpack buf with
  | none => return none
  | some v => (valuePack (some v)).map some

/-- An accepted buffer is packed again into one that decodes to the same tree, capacities included,
and is no longer; packing that one changes nothing. The tree is no larger than the buffer. -/
theorem repack_canonical {b : List UInt8} {v : Value} (h : valueUnpack b = .ok (some v)) :
    ∃ buf, repack b = .ok (some buf) ∧ valuePack (some v) = .ok buf ∧
      valueUnpack buf = .ok (some v) ∧ buf.length ≤ b.length ∧ repack buf = .ok (some buf) ∧
      v.nodes + v.stringBytes ≤ b.length := by
  have hwf := valueUnpack_wf h
  have hpack := valuePack_eq hwf
  have htaken := valueUnpack_taken h
  have hback : valueUnpack (encode v) = .ok (some v) :=
    valueUnpack_eq_some.mpr (htaken.back _ le_rfl).whole
  have hrepack : ∀ buf, valueUnpack buf = .ok (some v) → repack buf = .ok (some (encode v)) := by
    intro buf hbuf
    rw [repack, hbuf, ok_bind]
    dsimp only
    rw [hpack]
    rfl
  exact ⟨encode v, hrepack b h, hpack, hback, htaken.le, hrepack _ hback,
    hwf.size_le.trans htaken.le⟩

/-- An object with one property under an int key, its count and its flag written the long way. -/
theorem repack_canonical_lenient :
    ∃ buf, repack [6, 0, 0x81, 0, 9, 5, 1, 7] = .ok (some buf) ∧
      valuePack (some (.obj none 0 ⟨4, [strKv [] (some (.bool true))], 4⟩)) = .ok buf ∧
      valueUnpack buf = .ok (some (.obj none 0 ⟨4, [strKv [] (some (.bool true))], 4⟩)) ∧
      buf.length ≤ 8 ∧ repack buf = .ok (some buf) ∧
      (Value.obj none 0 ⟨4, [strKv [] (some (.bool true))], 4⟩).nodes +
        (Value.obj none 0 ⟨4, [strKv [] (some (.bool true))], 4⟩).stringBytes ≤ 8 :=
  repack_canonical (b := [6, 0, 0x81, 0, 9, 5, 1, 7]) rfl

end Parallax
