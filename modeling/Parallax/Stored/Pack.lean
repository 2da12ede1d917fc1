import Parallax.Stored.Session
import Parallax.Value.RoundTrip

/-! `value_pack` on the heap: it writes the same bytes as without the heap, the tree stays as it is,
and `value_unpack` of the bytes is a copy on blocks of its own. Of the `wbuf_t` only the bytes are
here; its block is in `Value.WriteBuffer`. -/
namespace Parallax.Stored
open Memory Separation Separation.Assertion
set_option autoImplicit false
set_option maxHeartbeats 250000

/-! ## Recursive pack -/

/-- What `pack_kv_block` writes of a row before its child. -/
def packRowKey (kv : Row) (b : Wbuf) : Code Wbuf := do
  let b := wbufU8 b (if kv.isIntKey then 1 else 0)
  if kv.isIntKey then return wbufVarint b kv.ikey.toUInt64
  else do
    let b := wbufVarint b (UInt64.ofNat kv.skeyLen)
    let skey ← (Source.block kv.skey).view
    attempt (wbufBytes b skey kv.skeyLen)

def packKvBlock (pack : Option ℕ → Wbuf → Code Wbuf) (items : Items) (b : Wbuf) : Code Wbuf :=
  eachRow (fun kv b => do
    let b ← packRowKey kv b
    pack kv.val b) items.items 0 items.n (wbufVarint b (UInt64.ofNat items.n))

/-- The `switch` of `pack_one`. -/
def packFields (pack : Option ℕ → Wbuf → Code Wbuf) (b : Wbuf) : Node → Code Wbuf
  | .null => return wbufU8 b ValTag.null.toByte
  | .bool x => return wbufU8 (wbufU8 b ValTag.bool.toByte) (if x then 1 else 0)
  | .long i => return wbufVarint (wbufU8 b ValTag.long.toByte) i.toUInt64
  | .double d => return wbufDouble (wbufU8 b ValTag.double.toByte) d
  | .str p len => do
    let b := wbufVarint (wbufU8 b ValTag.str.toByte) (UInt64.ofNat len)
    let p ← (Source.block p).view
    attempt (wbufBytes b p len)
  | .arr items => packKvBlock pack items (wbufU8 b ValTag.arr.toByte)
  | .obj cls clen props => do
    let b := wbufVarint (wbufU8 b ValTag.obj.toByte) (UInt64.ofNat clen)
    let cls ← (Source.block cls).view
    let b ← attempt (wbufBytes b cls clen)
    packKvBlock pack props b
  | .err cls msg code trace => do
    let b := wbufU8 b ValTag.err.toByte
    let cls ← (Source.block cls).view
    let msg ← (Source.block msg).view
    let trace ← (Source.block trace).view
    attempt (packErr cls msg code trace b)

/-- `pack_one`, with fuel for the calls in each other. -/
def packOne : ℕ → Option ℕ → Wbuf → Code Wbuf
  | _, none, b => return wbufU8 b ValTag.null.toByte
  | 0, some _, _ => attempt (.error .outOfFuel)
  | fuel + 1, some v, b => do
    let node ← readNode (some v)
    packFields (packOne fuel) b node

/-- No call is deeper in others than there are blocks. -/
def valuePack (v : Option ℕ) : Code Wbuf := do
  let blocks ← liveBlocks
  packOne blocks v []

/-! ## A block of entries -/

/-- What `pack_kv_block` makes of one entry. -/
def PacksEntry (kv : Entry) (b b' : Wbuf) : Prop :=
  ∃ m, packKey kv.isIntKey kv.ikey kv.skey kv.skeyLen b = .ok m ∧ Parallax.packOne kv.val m = .ok b'

theorem packItems_along {entries : List Entry} {b b' : Wbuf} (h : packItems entries b = .ok b') :
    Along PacksEntry entries b b' := by
  induction entries generalizing b with
  | nil =>
    rw [packItems] at h
    exact (Except.ok.inj h).symm
  | cons kv entries ih =>
    rw [packItems] at h
    obtain ⟨m, hm, h⟩ := bind_ok h
    obtain ⟨next, hnext, h⟩ := bind_ok h
    exact ⟨next, ⟨m, hm, hnext⟩, ih h⟩

theorem packRowKey_reads {kv : Entry} {row : Row} {b m : Wbuf} (hof : RowOf kv row)
    (h : packKey kv.isIntKey kv.ikey kv.skey kv.skeyLen b = .ok m) :
    Reads (chars kv.skey row.skey) (packRowKey row b) m := by
  unfold packRowKey
  unfold packKey at h
  rw [hof.1, hof.2.1, hof.2.2]
  by_cases hint : kv.isIntKey = true
  · rw [if_pos hint] at h ⊢
    cases h
    exact Reads.ret _ _
  · rw [if_neg hint] at h ⊢
    exact (Source.shows_chars kv.skey row.skey).view.andThen (Reads.attempt h)

/-- The function packs the trees behind these entries. -/
def Packs (pack : Option ℕ → Wbuf → Code Wbuf) (entries : List Entry) : Prop :=
  ∀ kv ∈ entries, ∀ b b', Parallax.packOne kv.val b = .ok b' → ∀ q,
    Reads (child kv.val q) (pack q b) b'

theorem packKvBlock_reads {pack : Option ℕ → Wbuf → Code Wbuf} {v : KvVec Entry} {items : Items}
    {b b' : Wbuf} (hpack : Packs pack v.entries)
    (h : packItems v.entries (wbufVarint b (UInt64.ofNat v.entries.length)) = .ok b') :
    Reads (stored v items) (packKvBlock pack items b) b' := by
  have hsteps : Steps (fun kv b => packRowKey kv b >>= fun b => pack kv.val b) PacksEntry
      v.entries := by
    rintro kv hkv row acc next hof ⟨m, hm, hnext⟩
    refine (packRowKey_reads hof hm).part (Reads.perm _ (mul_comm _ _) (Reads.frame ?_ _))
    exact hpack kv hkv m next hnext row.val
  refine Reads.of_fact stored_count fun hn => ?_
  have hloop : Reads (stored v items) _ b' := eachStored_reads hsteps (packItems_along h)
  unfold packKvBlock
  rw [hn] at hloop ⊢
  exact hloop

/-! ## A tree -/

theorem packFields_reads {fuel : ℕ} (hchild : ∀ c b b', Parallax.packOne c b = .ok b' →
      nodesPtr c ≤ fuel → ∀ q, Reads (child c q) (packOne fuel q b) b')
    {v : Value} {b b' : Wbuf} (hv : v.nodes ≤ fuel + 1) (h : packValue v b = .ok b') {a : ℕ} :
    Reads (tree v a) (readNode (some a) >>= packFields (packOne fuel) b) b' := by
  have hentries {items : KvVec Entry} (hn : nodesItems items.entries + 1 ≤ fuel + 1) :
      Packs (packOne fuel) items.entries := fun kv hkv m next hnext q =>
    hchild kv.val m next hnext ((nodes_le_items hkv).trans (Nat.le_of_succ_le_succ hn)) q
  cases v with
  | null =>
    rw [packValue] at h
    cases h
    exact node_leaf rfl
  | bool x =>
    rw [packValue] at h
    cases h
    exact node_leaf rfl
  | long i =>
    rw [packValue] at h
    cases h
    exact node_leaf rfl
  | double d =>
    rw [packValue] at h
    cases h
    exact node_leaf rfl
  | str p len =>
    rw [packValue] at h
    rw [tree_str]
    refine Reads.iSup fun q => node_part ?_
    exact (Source.shows_chars p q).view.andThen (Reads.attempt h)
  | arr items =>
    rw [packValue] at h
    rw [tree_arr]
    exact Reads.iSup fun q => node_part (packKvBlock_reads (hentries hv) h)
  | obj cls clen props =>
    rw [packValue] at h
    obtain ⟨m, hm, h⟩ := bind_ok h
    rw [tree_obj]
    refine Reads.iSup fun c => Reads.iSup fun q => node_part (view_part ?_)
    refine (Reads.attempt hm).andThen (Reads.perm _ (mul_comm _ _) ?_)
    exact (packKvBlock_reads (hentries hv) h).frame _
  | err cls msg code trace =>
    rw [packValue] at h
    rw [tree_err]
    refine Reads.iSup fun c => Reads.iSup fun m => Reads.iSup fun t => node_part (view_part ?_)
    refine Reads.perm (chars msg m * (chars cls c * chars trace t)) (by ac_rfl) (view_part ?_)
    refine Reads.perm (chars trace t * (chars cls c * chars msg m)) (by ac_rfl) (view_part ?_)
    exact Reads.attempt h

theorem packOne_reads (fuel : ℕ) (c : Option Value) (b b' : Wbuf)
    (h : Parallax.packOne c b = .ok b') (hc : nodesPtr c ≤ fuel) (q : Option ℕ) :
    Reads (child c q) (packOne fuel q b) b' := by
  cases c with
  | none =>
    rw [Parallax.packOne] at h
    cases h
    cases q with
    | some a => exact Reads.bot
    | none =>
      have hnone : packOne fuel none b = pure (wbufU8 b ValTag.null.toByte) := by
        cases fuel <;> rfl
      rw [hnone]
      exact Reads.ret _ _
  | some v =>
    cases q with
    | none => exact Reads.bot
    | some a =>
      rw [Parallax.packOne] at h
      cases fuel with
      | zero => exact absurd ((nodes_pos v).trans_le hc) (lt_irrefl 0)
      | succ fuel => exact packFields_reads (packOne_reads fuel) hc h

/-- The bytes of a tree are written, and the tree stays. -/
theorem valuePack_reads {c : Option Value} {bs : Wbuf} (h : Parallax.valuePack c = .ok bs)
    (q : Option ℕ) : Reads (child c q) (valuePack q) bs :=
  Reads.liveBlocks (child_weighs c q) fun blocks hc => packOne_reads blocks c [] bs h hc q

/-! ## A copy by way of the bytes -/

section Copy
variable [Allocator Block]

/-- `value_pack` of a tree writes its encoding, and `value_unpack` of the encoding: the tree stays
where it is, and there is one more on blocks of its own, which is the same but for what the format
does not keep: a NULL child is read back as null, an absent string of an error as the empty one. -/
theorem valuePack_copies {v : Value} (hv : Built v) {a : ℕ} {own rest : Separation.Heap Block}
    (hown : tree v a own) (hd : own.Disjoint rest) :
    ∃ w b copy, valuePack (some a) (own ∪ rest) = .ok (encode v, own ∪ rest) ∧
      valueUnpack (encode v) (own ∪ rest) = .ok (some b, copy ∪ (own ∪ rest)) ∧
      copy.Disjoint (own ∪ rest) ∧ tree w b copy ∧ w.uncapped = v.filled.uncapped ∧
      valueFree (some b) (copy ∪ (own ∪ rest)) = .ok ((), own ∪ rest) := by
  obtain ⟨w, hunpack, hw⟩ := valueUnpack_encode hv.wf
  have hpack := valuePack_reads (valuePack_eq hv.wf) (some a) own rest hown hd
  obtain ⟨q, copy, hrun, hcopy, htree⟩ := (valueUnpack_spec hunpack).adds (own ∪ rest)
  cases q with
  | none => exact htree.elim
  | some b =>
    exact ⟨w, b, copy, hpack, hrun, hcopy, htree, hw, valueFree_gives_back htree hcopy⟩

end Copy

/-- An object of a class `C` whose property `p` is an array: a string under `k`, an error without
strings under a negative key, and a NULL child under the empty key. -/
def nestedSession : List ClientCall :=
  [.str (some [0x61]) 1, .arr 0, .setStr 1 (some [0x6b]) 1 0, .err none none 7 none, .setInt 1 (-1) 2,
    .setStr 1 none 0 9, .obj (some [0x43]) 1 0, .objSet 3 (some [0x70]) 1 1]

def nestedArray : Value :=
  .arr ⟨4, [strKv [0x6b] (some (.str (some [0x61]) 1)),
    intEntry (-1) (some (.err none none 7 none)), strKv [] none], 4⟩

def nestedTree : Value := .obj (some [0x43]) 1 ⟨4, [strKv [0x70] (some nestedArray)], 4⟩

theorem nestedSession_gives :
    treeRun nestedSession [] = .ok [none, none, none, some nestedTree] := rfl

theorem nestedTree_built : Built nestedTree := by
  have hroom : ∀ n < 5, n < 2 ^ 64 := by omega
  have hletter (b : UInt8) : Fits (some [b]) := fun _ h => by
    cases h
    norm_num
  have hnone : Fits none := fun _ h => by cases h
  have hstr : Built (.str (some [0x61]) 1) :=
    @BuiltFrom.str _ _ (some [0x61]) 1 _ (hletter 0x61) rfl
  have herr : Built (.err none none 7 none) :=
    @BuiltFrom.err _ _ none none none 7 _ hnone hnone hnone rfl
  have hkey : Built (.arr ⟨4, [strKv [0x6b] (some (.str (some [0x61]) 1))], 4⟩) :=
    @BuiltFrom.setStr _ _ _ _ _ (some [0x6b]) 1 (.arr 0) (fun _ h => Option.some.inj h ▸ hstr)
      (hletter 0x6b) rfl (hroom 1 (by norm_num))
  have hneg : Built (.arr ⟨4, [strKv [0x6b] (some (.str (some [0x61]) 1)),
      intEntry (-1) (some (.err none none 7 none))], 4⟩) :=
    .setInt (k := -1) hkey (fun _ h => Option.some.inj h ▸ herr) rfl (hroom 2 (by norm_num))
  have harr : Built nestedArray :=
    @BuiltFrom.setStr _ _ _ _ none none 0 hneg (fun _ h => by cases h) hnone rfl
      (hroom 3 (by norm_num))
  have hobj : Built (.obj (some [0x43]) 1 ⟨0, [], 0⟩) :=
    @BuiltFrom.obj _ _ (some [0x43]) 1 0 _ (hletter 0x43) rfl
  exact @BuiltFrom.objSet _ _ _ _ _ (some [0x70]) 1 hobj (fun _ h => Option.some.inj h ▸ harr)
    (hletter 0x70) rfl (hroom 1 (by norm_num))

theorem valuePack_copies_nested : ∃ a own w b copy,
    @run (Allocator.above Block) nestedSession [] ∅ = .ok ([none, none, none, some a], own ∪ ∅) ∧
      valuePack (some a) (own ∪ ∅) = .ok (encode nestedTree, own ∪ ∅) ∧
      @valueUnpack (Allocator.above Block) (encode nestedTree) (own ∪ ∅) =
        .ok (some b, copy ∪ (own ∪ ∅)) ∧
      copy.Disjoint (own ∪ ∅) ∧ tree w b copy ∧ w.uncapped = nestedTree.filled.uncapped ∧
      valueFree (some b) (copy ∪ (own ∪ ∅)) = .ok ((), own ∪ ∅) := by
  let _ : Allocator Block := Allocator.above Block
  have hsession : Triple (owned [] []) (run nestedSession [])
      (owned [none, none, none, some nestedTree]) := run_spec nestedSession_gives
  have hspec : Triple 1 (run nestedSession []) (owned [none, none, none, some nestedTree]) :=
    hsession
  obtain ⟨slots, own, hrun, hd, hown⟩ := hspec.adds ∅
  obtain ⟨slots₁, rfl, hown₁⟩ := owned_none_cons hown
  obtain ⟨slots₂, rfl, hown₂⟩ := owned_none_cons hown₁
  obtain ⟨slots₃, rfl, hown₃⟩ := owned_none_cons hown₂
  obtain ⟨a, rfl, htree⟩ := owned_singleton hown₃
  obtain ⟨w, b, copy, hcopies⟩ := valuePack_copies nestedTree_built htree hd
  exact ⟨a, own, w, b, copy, hrun, hcopies⟩

end Parallax.Stored
