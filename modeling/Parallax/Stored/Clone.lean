import Parallax.Stored.Release
import Parallax.Value.Clone

/-! `value/clone.c` on the heap: a copy has blocks of its own, and the source keeps all of its. -/
namespace Parallax.Stored
open Memory Separation Separation.Assertion
set_option autoImplicit false
set_option maxHeartbeats 250000

/-! ## clone_kv_block and value_clone -/

/-- `v->as.arr` or `v->as.obj` gets another item block. -/
def Node.withItems : Node → Items → Node
  | .arr _, b => .arr b
  | .obj cls clen _, b => .obj cls clen b
  | v, _ => v

section Code
variable [Allocator Block]

def cloneKey (skey : Option ℕ) (skeyLen : ℕ) : Code (Option ℕ) :=
  if skey ≠ none ∧ 0 < skeyLen then do
    let p ← mallocBytes skeyLen
    copyBytes p (.block skey) skeyLen
    return some p
  else return none

/-- The loop of `clone_kv_block`, from `src[i]` on, over as many rows as are left. -/
def cloneRows (clone : Option ℕ → Code (Option ℕ)) (src : Option ℕ) (dst : ℕ) : ℕ → ℕ → Code Unit
  | _, 0 => return ()
  | i, left + 1 => do
    let kv ← readRow src i
    let skey ← cloneKey kv.skey kv.skeyLen
    let val ← clone kv.val
    storeRow (some dst) i ⟨kv.isIntKey, kv.ikey, skey, kv.skeyLen, val⟩
    cloneRows clone src dst (i + 1) left

def cloneKvBlock (clone : Option ℕ → Code (Option ℕ)) (src : Option ℕ) (n : ℕ) :
    Code (Option ℕ) :=
  if n = 0 then return none
  else do
    let dst ← malloc (.items (calloc zeroRow n))
    cloneRows clone src dst 0 n
    return some dst

/-- A fresh array or object gets the copied block. -/
def cloneInto (clone : Option ℕ → Code (Option ℕ)) (dst : ℕ) (src : Items) : Code ℕ := do
  let items ← cloneKvBlock clone src.items src.n
  let node ← readNode (some dst)
  write (some dst) (.node (node.withItems ⟨items, src.n, src.n⟩))
  return dst

/-- The `switch` of `value_clone`. -/
def cloneFields (clone : Option ℕ → Code (Option ℕ)) : Node → Code ℕ
  | .null => valueNull
  | .bool b => valueBool b
  | .long i => valueLong i
  | .double d => valueDouble d
  | .str p len => valueStr (.block p) len
  | .arr b => do
    let dst ← valueArr 0
    cloneInto clone dst b
  | .obj cls clen b => do
    let dst ← valueObj (.block cls) clen 0
    cloneInto clone dst b
  | .err cls msg code trace => valueErr (.block cls) (.block msg) code (.block trace)

/-- `value_clone`, with fuel for the calls in each other. -/
def cloneValue : ℕ → Option ℕ → Code (Option ℕ)
  | _, none => return none
  | 0, some _ => attempt (.error .outOfFuel)
  | fuel + 1, some src => do
    let node ← readNode (some src)
    let dst ← cloneFields (cloneValue fuel) node
    return some dst

/-- No call is deeper in others than there are blocks. -/
def valueClone (src : Option ℕ) : Code (Option ℕ) := do
  let blocks ← liveBlocks
  cloneValue blocks src

end Code

/-! ## A copy of an item block -/

/-- The entry of a copy. -/
def copied (kv : Entry) (key : Ptr) (c : Option Value) : Entry :=
  ⟨kv.isIntKey, kv.ikey, key, kv.skeyLen, c⟩

theorem cloneItems_inv {kv : Entry} {entries items : List Entry}
    (h : cloneItems (kv :: entries) = .ok items) :
    ∃ key c rest, Parallax.cloneKey kv.skey kv.skeyLen = .ok key ∧
      Parallax.valueClone kv.val = .ok c ∧ cloneItems entries = .ok rest ∧
      items = copied kv key c :: rest := by
  rw [cloneItems] at h
  obtain ⟨key, hkey, h⟩ := bind_ok h
  obtain ⟨c, hc, h⟩ := bind_ok h
  obtain ⟨rest, hrest, h⟩ := bind_ok h
  cases h
  exact ⟨key, c, rest, hkey, hc, hrest, rfl⟩

theorem cloneItems_length {entries items : List Entry} (h : cloneItems entries = .ok items) :
    items.length = entries.length := by
  induction entries generalizing items with
  | nil =>
    rw [cloneItems] at h
    cases h
    rfl
  | cons kv entries ih =>
    obtain ⟨key, c, rest, -, -, hrest, rfl⟩ := cloneItems_inv h
    exact congrArg Nat.succ (ih hrest)

section
variable [Allocator Block]

theorem cloneKey_spec {p r : Ptr} {len : ℕ} {q : Option ℕ} (h : Parallax.cloneKey p len = .ok r) :
    Triple (chars p q) (cloneKey q len) fun t => chars r t * chars p q := by
  have hshows := Source.shows_chars p q
  refine Triple.of_fact hshows.isNull fun hnull => ?_
  have hnone : q = none ↔ p = none := by
    rw [← Option.isNone_iff_eq_none, ← Option.isNone_iff_eq_none]
    exact Bool.eq_iff_iff.mp hnull
  unfold Parallax.cloneKey at h
  unfold cloneKey
  split at h
  · next hcopy =>
    obtain ⟨bs, hl, rfl⟩ := map_ok h
    rw [if_pos ⟨fun hq => hcopy.1 (hnone.mp hq), hcopy.2⟩]
    have hlen := (load_ok hl).1
    have hcopied := memcpy_fresh bs hlen.le
    rw [hlen, Nat.sub_self, List.replicate_zero, List.append_nil] at hcopied
    refine Triple.malloc_bind fun a => ?_
    refine Triple.perm (pointsTo a _ * (chars p q * 1)) (by rw [mul_one])
      (copyBytes_bind hshows hl hcopied ?_)
    rw [mul_one]
    exact Triple.pure le_rfl
  · next hcopy =>
    cases h
    rw [if_neg fun hq => hcopy ⟨fun hp => hq.1 (hnone.mpr hp), hq.2⟩]
    exact Triple.pure (one_mul _).ge

/-- The function copies the trees behind these entries, which stay. -/
def Clones (clone : Option ℕ → Code (Option ℕ)) (entries : List Entry) : Prop :=
  ∀ kv ∈ entries, ∀ c, Parallax.valueClone kv.val = .ok c → ∀ q,
    Triple (child kv.val q) (clone q) fun r => child c r * child kv.val q

/-- The key and the child of a row, copied. -/
theorem copyRow_bind {clone : Option ℕ → Code (Option ℕ)} {kv : Entry} {key : Ptr}
    {c : Option Value} (hkey : Parallax.cloneKey kv.skey kv.skeyLen = .ok key)
    (hclone : ∀ q, Triple (child kv.val q) (clone q) fun r => child c r * child kv.val q)
    (row : Row) {β : Type} {F : Assertion Block} {Q : β → Assertion Block} (f : Row → Code β)
    (hf : ∀ row', Triple (entryAt (copied kv key c) row' * (entryAt kv row * F)) (f row') Q) :
    Triple (entryAt kv row * F) (cloneKey row.skey row.skeyLen >>= fun skey =>
      clone row.val >>= fun val => f ⟨row.isIntKey, row.ikey, skey, row.skeyLen, val⟩) Q := by
  refine Triple.iSup_mul fun hrow => ?_
  refine Triple.seq (F := child kv.val row.val * F) (hrow.2.2 ▸ cloneKey_spec hkey)
    (mul_assoc _ _ _) fun skey => ?_
  refine Triple.seq (F := chars key skey * chars kv.skey row.skey * F) (hclone row.val)
    (by ac_rfl) fun val => ?_
  refine (hf ⟨row.isIntKey, row.ikey, skey, row.skeyLen, val⟩).pre ?_
  calc child c val * child kv.val row.val * (chars key skey * chars kv.skey row.skey * F)
      = chars key skey * child c val * (chars kv.skey row.skey * child kv.val row.val * F) := by
        ac_rfl
    _ ≤ _ := mul_le_mul' (le_iSup_of_le hrow le_rfl) (mul_le_mul' (le_iSup_of_le hrow le_rfl) le_rfl)

/-- The rows from the next one on are copied behind the copies. -/
theorem cloneRows_spec {clone : Option ℕ → Code (Option ℕ)} {all : List Row} {cap n dst : ℕ}
    {q : Option ℕ} {entries items : List Entry} (hclone : Clones clone entries)
    (h : cloneItems entries = .ok items) {i : ℕ} (done : List Entry) (rows : List Row)
    (hrows : rows.length = i) (hdone : done.length = i) (hroom : i + entries.length = n) :
    Triple (itemBlock all cap q * entriesAt entries (all.drop i) *
        (itemBlock rows n (some dst) * entriesAt done rows))
      (cloneRows clone q dst i entries.length) fun _ =>
        itemBlock all cap q * entriesAt entries (all.drop i) *
          ⨆ rows', itemBlock rows' n (some dst) * entriesAt (done ++ items) rows' := by
  induction entries generalizing i items done rows with
  | nil =>
    rw [cloneItems] at h
    cases h
    rw [List.append_nil]
    exact Triple.pure (mul_le_mul' le_rfl (le_iSup_of_le rows le_rfl))
  | cons kv entries ih =>
    obtain ⟨hkv, hrest⟩ := List.forall_mem_cons.mp hclone
    obtain ⟨key, c, items', hkey, hc, hitems, rfl⟩ := cloneItems_inv h
    refine Triple.perm (entriesAt (kv :: entries) (all.drop i) * (itemBlock all cap q *
      (itemBlock rows n (some dst) * entriesAt done rows))) (by ac_rfl) (rows_cons fun row hrow => ?_)
    rw [entriesAt_drop hrow]
    have hslot : rows.length < n := by
      rw [hrows, ← hroom, List.length_cons]
      omega
    have hstore := storeCell_spec Block.rows (a := dst) hslot
    rw [hrows] at hstore
    refine Triple.perm (itemBlock all cap q * (entryAt kv row *
      (entriesAt entries (all.drop (i + 1)) * (itemBlock rows n (some dst) * entriesAt done rows))))
      (by ac_rfl) (readRow_bind hrow ?_)
    refine Triple.perm (entryAt kv row * (itemBlock all cap q *
      entriesAt entries (all.drop (i + 1)) * (itemBlock rows n (some dst) * entriesAt done rows)))
      (by ac_rfl) (copyRow_bind hkey (hkv c hc) row
        (fun row => storeRow (some dst) i row >>= fun _ =>
          cloneRows clone q dst (i + 1) entries.length) fun row' => ?_)
    refine Triple.seq (F := entryAt kv row * (itemBlock all cap q *
      entriesAt entries (all.drop (i + 1)) * (entriesAt done rows *
        entryAt (copied kv key c) row'))) (hstore row') (by ac_rfl) fun _ => ?_
    rw [← entriesAt_snoc (hrows.trans hdone.symm)]
    have hrows' : (rows ++ [row']).length = i + 1 := by
      rw [List.length_append, hrows, List.length_singleton]
    have hdone' : (done ++ [copied kv key c]).length = i + 1 := by
      rw [List.length_append, hdone, List.length_singleton]
    have hroom' : i + 1 + entries.length = n := by
      rw [← hroom, List.length_cons]
      omega
    have hnext := ih hrest hitems _ _ hrows' hdone' hroom'
    rw [List.append_assoc] at hnext
    refine Triple.perm _ (by ac_rfl) ((hnext.frame (entryAt kv row)).post fun _ => ?_)
    exact le_of_eq (by ac_rfl)

theorem cloneKvBlock_spec {clone : Option ℕ → Code (Option ℕ)} {v : KvVec Entry} {b : Items}
    {items : List Entry} (hclone : Clones clone v.entries) (h : cloneItems v.entries = .ok items) :
    Triple (stored v b) (cloneKvBlock clone b.items b.n) fun q =>
      stored ⟨items.length, items, items.length⟩ ⟨q, b.n, b.n⟩ * stored v b := by
  have hlen := cloneItems_length h
  refine Triple.of_fact (p := b.n = v.entries.length) ?_ fun hn => ?_
  · intro s hs
    obtain ⟨rows, hs⟩ := iSup_iff.mp hs
    exact (iSup_iff.mp hs).1.2.1
  have hnew : b.n = items.length := hn.trans hlen.symm
  unfold cloneKvBlock
  split
  · next hzero =>
    have hnil := List.length_eq_zero_iff.mp (hnew.symm.trans hzero)
    subst hnil
    refine Triple.pure ((one_mul (stored v b)).ge.trans (mul_le_mul' ?_ le_rfl))
    exact (one_mul (1 : Assertion Block)).ge.trans (le_iSup₂_of_le [] ⟨rfl, hnew, hnew⟩
      (mul_le_mul' (le_iSup_of_le ⟨hnew, rfl⟩ le_rfl) le_rfl))
  · next hpos =>
    refine Triple.malloc_bind fun dst => ?_
    rw [mul_comm]
    refine Triple.iSup_mul fun rows => Triple.iSup_mul fun hv => ?_
    have hfresh : pointsTo dst (Block.items (calloc zeroRow b.n)) ≤ itemBlock [] b.n (some dst) :=
      le_itemBlock (Nat.pos_of_ne_zero hpos) (calloc_length _ _) List.nil_prefix
    have hloop : Triple (itemBlock rows b.cap b.items * entriesAt v.entries rows *
        (itemBlock [] b.n (some dst) * entriesAt [] [])) (cloneRows clone b.items dst 0 b.n)
        fun _ => itemBlock rows b.cap b.items * entriesAt v.entries rows *
          ⨆ rows', itemBlock rows' b.n (some dst) * entriesAt items rows' := by
      rw [hn]
      exact cloneRows_spec hclone h [] [] rfl rfl (Nat.zero_add v.entries.length)
    rw [entriesAt_nil, mul_one] at hloop
    refine Triple.bind (hloop.pre (mul_le_mul' le_rfl hfresh)) fun _ => Triple.pure ?_
    rw [mul_comm]
    refine mul_le_mul' (iSup_le fun rows' => ?_) (le_iSup₂_of_le rows hv le_rfl)
    exact le_iSup₂_of_le rows' ⟨rfl, hnew, hnew⟩ le_rfl

theorem cloneInto_spec {clone : Option ℕ → Code (Option ℕ)} {v : KvVec Entry} {b : Items}
    {items : List Entry} (hclone : Clones clone v.entries) (h : cloneItems v.entries = .ok items)
    {node : Items → Node} (hnode : ∀ b b', (node b).withItems b' = node b') {dst : ℕ} :
    Triple (pointsTo dst (.node (node ⟨none, 0, 0⟩)) * stored v b) (cloneInto clone dst b) fun a =>
      (⨆ b', pointsTo a (.node (node b')) * stored ⟨items.length, items, items.length⟩ b') *
        stored v b := by
  refine Triple.seq (cloneKvBlock_spec hclone h) (mul_comm _ _) fun q => ?_
  refine Triple.perm (pointsTo dst (.node (node ⟨none, 0, 0⟩)) * (stored _ ⟨q, b.n, b.n⟩ * stored v b))
    (mul_comm _ _) (readNode_bind ?_)
  rw [hnode]
  refine Triple.write_bind (Triple.pure ?_)
  rw [← mul_assoc]
  exact mul_le_mul' (le_iSup_of_le ⟨q, b.n, b.n⟩ le_rfl) le_rfl

/-- A copy into what `value_arr(0)` or `value_obj(..., 0)` gave. -/
theorem cloneInto_fresh {clone : Option ℕ → Code (Option ℕ)} {v : KvVec Entry} {b b0 : Items}
    {items : List Entry} (hclone : Clones clone v.entries) (h : cloneItems v.entries = .ok items)
    (node : Items → Node) (hnode : ∀ b b', (node b).withItems b' = node b') {dst : ℕ} :
    Triple (pointsTo dst (.node (node b0)) * stored ⟨0, [], 0⟩ b0 * stored v b)
      (cloneInto clone dst b) fun a => (⨆ b', pointsTo a (.node (node b')) *
        stored ⟨items.length, items, items.length⟩ b') * stored v b := by
  have hempty : pointsTo dst (.node (node b0)) * stored ⟨0, [], 0⟩ b0 * stored v b ≤
      (⨆ _ : b0 = ⟨none, 0, 0⟩, 1) * (pointsTo dst (.node (node b0)) * stored v b) := by
    rw [mul_comm (pointsTo dst _), mul_assoc]
    exact mul_le_mul' stored_empty le_rfl
  refine Triple.pre (Triple.iSup_mul fun hb0 => ?_) hempty
  subst hb0
  rw [one_mul]
  exact cloneInto_spec hclone h hnode

end

/-! ## A copy of a tree -/

/-- A node is read, and stays. -/
theorem readNode_keep {a : ℕ} {node : Node} {P : Assertion Block} {f : Node → Code ℕ} {w : Value}
    (h : Triple P (f node) fun t => tree w t * P) :
    Triple (pointsTo a (.node node) * P) (readNode (some a) >>= f) fun t =>
      tree w t * (pointsTo a (.node node) * P) := by
  refine readNode_bind (Triple.perm _ (mul_comm _ _) ((h.frame _).post fun t => ?_))
  exact le_of_eq (by ac_rfl)

theorem readNode_keep_leaf {a : ℕ} {node : Node} {f : Node → Code ℕ} {w : Value}
    (h : Triple 1 (f node) (tree w)) :
    Triple (pointsTo a (.node node)) (readNode (some a) >>= f) fun t =>
      tree w t * pointsTo a (.node node) := by
  have hkeep := readNode_keep (a := a) (P := 1) (h.post fun t => (mul_one (tree w t)).ge)
  rwa [mul_one] at hkeep

section
variable [Allocator Block]

theorem cloneFields_spec {fuel : ℕ} (hclone : ∀ c r, Parallax.valueClone c = .ok r →
      nodesPtr c ≤ fuel → ∀ q, Triple (child c q) (cloneValue fuel q) fun t => child r t * child c q)
    {v w : Value} (hv : v.nodes ≤ fuel + 1) (h : Parallax.cloneValue v = .ok w) {a : ℕ} :
    Triple (tree v a) (readNode (some a) >>= cloneFields (cloneValue fuel)) fun t =>
      tree w t * tree v a := by
  have hentries {items : KvVec Entry} (hn : nodesItems items.entries + 1 ≤ fuel + 1) :
      Clones (cloneValue fuel) items.entries := fun kv hkv c hc q =>
    hclone kv.val c hc ((nodes_le_items hkv).trans (Nat.le_of_succ_le_succ hn)) q
  cases v with
  | null =>
    rw [Parallax.cloneValue] at h
    cases h
    exact readNode_keep_leaf valueNull_spec
  | bool b =>
    rw [Parallax.cloneValue] at h
    cases h
    exact readNode_keep_leaf (valueBool_spec b)
  | long i =>
    rw [Parallax.cloneValue] at h
    cases h
    exact readNode_keep_leaf (valueLong_spec i)
  | double d =>
    rw [Parallax.cloneValue] at h
    cases h
    exact readNode_keep_leaf (valueDouble_spec d)
  | str p len =>
    rw [Parallax.cloneValue] at h
    rw [tree_str]
    refine Triple.iSup fun q => ?_
    refine (readNode_keep (valueStr_spec (Source.shows_chars p q) h)).post fun t => ?_
    exact mul_le_mul' le_rfl (le_iSup_of_le q le_rfl)
  | arr items =>
    rw [Parallax.cloneValue] at h
    obtain ⟨items', hitems, h⟩ := bind_ok h
    cases h
    rw [tree_arr]
    refine Triple.iSup fun b => ?_
    refine (readNode_keep (P := stored items b) (w := .arr ⟨items'.length, items', items'.length⟩)
      ?_).post fun t => mul_le_mul' le_rfl (le_iSup_of_le b le_rfl)
    refine Triple.seq (valueArr_spec 0) (one_mul _).symm fun dst => ?_
    rw [Parallax.valueArr, tree_arr]
    refine Triple.iSup_mul fun b0 => ?_
    refine (cloneInto_fresh (hentries hv) hitems .arr fun _ _ => rfl).post fun t => ?_
    rw [tree_arr]
  | obj cls clen props =>
    rw [Parallax.cloneValue] at h
    obtain ⟨cls', hcls, h⟩ := bind_ok h
    obtain ⟨props', hprops, h⟩ := bind_ok h
    cases h
    rw [tree_obj]
    refine Triple.iSup fun c => Triple.iSup fun b => ?_
    refine (readNode_keep (P := chars cls c * stored props b)
      (w := .obj cls' clen ⟨props'.length, props', props'.length⟩) ?_).post fun t =>
        mul_le_mul' le_rfl (le_iSup₂_of_le c b le_rfl)
    have hobj : Parallax.valueObj cls clen 0 = .ok (.obj cls' clen ⟨0, [], 0⟩) := by
      rw [Parallax.valueObj, hcls]
      rfl
    refine Triple.seq (valueObj_spec (Source.shows_chars cls c) hobj) rfl fun dst => ?_
    rw [tree_obj, mul_assoc]
    refine Triple.iSup_mul fun c' => Triple.iSup_mul fun b0 => ?_
    refine Triple.perm (pointsTo dst (.node (.obj c' clen b0)) * stored ⟨0, [], 0⟩ b0 *
      stored props b * (chars cls' c' * chars cls c)) (by ac_rfl) ?_
    refine ((cloneInto_fresh (hentries hv) hprops (.obj c' clen) fun _ _ => rfl).frame _).post
      fun t => ?_
    rw [tree_obj, mul_mul_mul_comm, mul_comm (stored props b)]
    refine mul_le_mul' ?_ le_rfl
    rw [Assertion.iSup_mul]
    exact iSup_le fun b' => le_iSup₂_of_le c' b' (le_of_eq (by ac_rfl))
  | err cls msg code trace =>
    rw [Parallax.cloneValue] at h
    rw [tree_err]
    refine Triple.iSup fun c => Triple.iSup fun m => Triple.iSup fun t => ?_
    refine (readNode_keep (valueErr_spec (Source.shows_chars cls c) (Source.shows_chars msg m)
      (Source.shows_chars trace t) h)).post fun r => ?_
    exact mul_le_mul' le_rfl (le_iSup₂_of_le c m (le_iSup_of_le t le_rfl))

theorem cloneValue_spec (fuel : ℕ) (c r : Option Value) (h : Parallax.valueClone c = .ok r)
    (hc : nodesPtr c ≤ fuel) (q : Option ℕ) :
    Triple (child c q) (cloneValue fuel q) fun t => child r t * child c q := by
  cases c with
  | none =>
    rw [Parallax.valueClone] at h
    cases h
    cases q with
    | some a => exact Triple.bot
    | none =>
      have hnone : cloneValue fuel none = pure none := by
        cases fuel <;> rfl
      rw [hnone]
      exact Triple.pure (mul_one (1 : Assertion Block)).ge
  | some v =>
    cases q with
    | none => exact Triple.bot
    | some a =>
      rw [Parallax.valueClone] at h
      obtain ⟨w, hw, rfl⟩ := map_ok h
      cases fuel with
      | zero => exact absurd ((nodes_pos v).trans_le hc) (lt_irrefl 0)
      | succ fuel =>
        have hfields := cloneFields_spec (cloneValue_spec fuel) hc hw (a := a)
        have hall := hfields.bind (f := fun dst => pure (some dst))
          (R := fun t => child (some w) t * tree v a) fun dst => Triple.pure le_rfl
        rwa [bind_assoc] at hall

theorem valueClone_spec {c r : Option Value} (h : Parallax.valueClone c = .ok r) (q : Option ℕ) :
    Triple (child c q) (valueClone q) fun t => child r t * child c q :=
  Triple.liveBlocks_bind (child_weighs c q) fun blocks hc => cloneValue_spec blocks c r h hc q

end

end Parallax.Stored
