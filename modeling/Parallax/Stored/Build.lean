import Parallax.Stored.Layout

/-! The constructors and builders of `value/value.c` on the heap, each against the one on trees. -/
namespace Parallax.Stored
open Memory Separation Separation.Assertion
set_option autoImplicit false
set_option maxHeartbeats 250000

/-! ## value.c -/

section Code
variable [Allocator Block]

def dupBytes (src : Source) (len : ℕ) : Code (Option ℕ) :=
  if len = 0 then return none
  else do
    let p ← mallocBytes len
    copyBytes p src len
    return some p

def dupCstr (src : Source) : Code (Option ℕ) :=
  if src.isNull then return none
  else do
    let p ← src.view
    let len ← attempt (strlen p)
    let p ← mallocBytes (len + 1)
    copyBytes p src (len + 1)
    return some p

def allocValue (tag : ValTag) : Code ℕ := malloc (.node (Node.zero tag))

def valueNull : Code ℕ := allocValue .null

def valueBool (b : Bool) : Code ℕ := do
  let v ← allocValue .bool
  write (some v) (.node (.bool b))
  return v

def valueLong (i : Int64) : Code ℕ := do
  let v ← allocValue .long
  write (some v) (.node (.long i))
  return v

def valueDouble (d : UInt64) : Code ℕ := do
  let v ← allocValue .double
  write (some v) (.node (.double d))
  return v

def valueStr (src : Source) (len : ℕ) : Code ℕ := do
  let v ← allocValue .str
  let p ← dupBytes src len
  write (some v) (.node (.str p len))
  return v

/-- The block of `value_arr` and `value_obj`. -/
def initItems (initialCap : ℕ) : Code Items :=
  if 0 < initialCap then do
    let items ← malloc (.items (calloc zeroRow initialCap))
    return ⟨some items, 0, initialCap⟩
  else return ⟨none, 0, 0⟩

def valueArr (initialCap : ℕ) : Code ℕ := do
  let v ← allocValue .arr
  let b ← initItems initialCap
  write (some v) (.node (.arr b))
  return v

def valueObj (cls : Source) (clen initialCap : ℕ) : Code ℕ := do
  let v ← allocValue .obj
  let cls ← dupBytes cls clen
  let b ← initItems initialCap
  write (some v) (.node (.obj cls clen b))
  return v

def valueErr (cls msg : Source) (code : Int64) (trace : Source) : Code ℕ := do
  let v ← allocValue .err
  let cls ← dupCstr cls
  let msg ← dupCstr msg
  let trace ← dupCstr trace
  write (some v) (.node (.err cls msg code trace))
  return v

def grow (b : Items) : Code Items := do
  let newCap := if b.cap = 0 then 4 else b.cap * 2
  let newItems ← reallocCells Block.rows b.items newCap
  let rows ← readItems (some newItems)
  let rows ← attempt (memset zeroRow rows b.cap (newCap - b.cap))
  write (some newItems) (.items rows)
  return { b with items := some newItems, cap := newCap }

def reserve (b : Items) : Code Items := if b.n = b.cap then grow b else return b

/-- `items[n++]`, and the stores into it. -/
def fill (b : Items) (row : Row) : Code Items := do
  storeRow b.items b.n row
  return { b with n := b.n + 1 }

/-- The loop of `next_int_key`, from `items[i]` on, over as many rows as are left. -/
def maxIntKey (items : Option ℕ) : ℕ → ℕ → Int64 → Code Int64
  | _, 0, max => return max
  | i, left + 1, max => do
    let kv ← readRow items i
    maxIntKey items (i + 1) left (if kv.isIntKey ∧ max < kv.ikey then kv.ikey else max)

def nextIntKey (b : Items) : Code Int64 := do
  let max ← maxIntKey b.items 0 b.n (-1)
  if max = Int64.maxValue then attempt (.error .signedOverflow) else return max + 1

def valueArrPush (arr : ℕ) (child : Option ℕ) : Code Unit := do
  match ← readNode (some arr) with
  | .arr b => do
    let key ← nextIntKey b
    let b ← reserve b
    let b ← fill b ⟨true, key, none, 0, child⟩
    write (some arr) (.node (.arr b))
  | _ => attempt (.error .failedAssert)

def valueArrSetInt (arr : ℕ) (key : Int64) (child : Option ℕ) : Code Unit := do
  match ← readNode (some arr) with
  | .arr b => do
    let b ← reserve b
    let b ← fill b ⟨true, key, none, 0, child⟩
    write (some arr) (.node (.arr b))
  | _ => attempt (.error .failedAssert)

def valueArrSetStr (arr : ℕ) (key : Source) (klen : ℕ) (child : Option ℕ) : Code Unit := do
  match ← readNode (some arr) with
  | .arr b => do
    let b ← reserve b
    let skey ← dupBytes key klen
    let b ← fill b ⟨false, 0, skey, klen, child⟩
    write (some arr) (.node (.arr b))
  | _ => attempt (.error .failedAssert)

def valueObjSet (obj : ℕ) (key : Source) (klen : ℕ) (child : Option ℕ) : Code Unit := do
  match ← readNode (some obj) with
  | .obj cls clen b => do
    let b ← reserve b
    let skey ← dupBytes key klen
    let b ← fill b ⟨false, 0, skey, klen, child⟩
    write (some obj) (.node (.obj cls clen b))
  | _ => attempt (.error .failedAssert)

end Code

/-! ## Copied strings -/

section
variable [Allocator Block]
variable {src : Source} {p q : Ptr} {A : Assertion Block}

theorem dupBytes_spec (hs : src.Shows p A) {len : ℕ} (hq : Parallax.dupBytes p len = .ok q) :
    Triple A (dupBytes src len) fun a => chars q a * A := by
  unfold Parallax.dupBytes at hq
  unfold dupBytes
  split at hq
  · next hzero =>
    cases hq
    rw [if_pos hzero]
    exact Triple.pure (one_mul A).ge
  · next hpos =>
    obtain ⟨bs, hl, rfl⟩ := map_ok hq
    rw [if_neg hpos]
    refine Triple.perm (A * 1) (mul_one A).symm (mallocCopy_bind hs hl fun a => ?_)
    rw [mul_one]
    exact Triple.pure le_rfl

theorem dupCstr_spec (hs : src.Shows p A) (hq : Parallax.dupCstr p = .ok q) :
    Triple A (dupCstr src) fun a => chars q a * A := by
  refine Triple.of_fact hs.isNull fun hnull => ?_
  cases p with
  | none =>
    cases hq
    rw [dupCstr, if_pos (by rw [hnull]; rfl)]
    exact Triple.pure (one_mul A).ge
  | some os =>
    obtain ⟨len, hstr, hq⟩ := bind_ok hq
    obtain ⟨bs, hl, rfl⟩ := map_ok hq
    rw [dupCstr, if_neg (by rw [hnull]; exact Bool.false_ne_true)]
    refine Triple.perm (A * 1) (mul_one A).symm (hs.view_bind (Triple.attempt_bind hstr ?_))
    refine mallocCopy_bind hs hl fun a => ?_
    rw [mul_one]
    exact Triple.pure le_rfl

end

/-! ## Constructors -/

section
variable [Allocator Block]

theorem valueNull_spec : Triple 1 valueNull (tree Parallax.valueNull) := by
  have hend (a : ℕ) : Triple (pointsTo a (.node .null) * 1) (pure a) (tree Parallax.valueNull) :=
    Triple.pure (mul_one _).le
  have hnull := Triple.malloc_bind hend
  rwa [bind_pure] at hnull

theorem valueBool_spec (b : Bool) : Triple 1 (valueBool b) (tree (Parallax.valueBool b)) := by
  refine Triple.malloc_bind fun a => Triple.write_bind (Triple.pure ?_)
  rw [mul_one]
  exact le_rfl

theorem valueLong_spec (i : Int64) : Triple 1 (valueLong i) (tree (Parallax.valueLong i)) := by
  refine Triple.malloc_bind fun a => Triple.write_bind (Triple.pure ?_)
  rw [mul_one]
  exact le_rfl

theorem valueDouble_spec (d : UInt64) :
    Triple 1 (valueDouble d) (tree (Parallax.valueDouble d)) := by
  refine Triple.malloc_bind fun a => Triple.write_bind (Triple.pure ?_)
  rw [mul_one]
  exact le_rfl

variable {src : Source} {p : Ptr} {A : Assertion Block}

theorem valueStr_spec (hs : src.Shows p A) {len : ℕ} {v : Value}
    (hv : Parallax.valueStr p len = .ok v) :
    Triple A (valueStr src len) fun a => tree v a * A := by
  obtain ⟨q, hq, hv⟩ := bind_ok hv
  cases hv
  refine Triple.malloc_bind fun a => Triple.seq (dupBytes_spec hs hq) (mul_comm _ _) fun c => ?_
  refine Triple.perm (pointsTo a _ * (chars q c * A)) (mul_comm _ _) (Triple.write_bind ?_)
  refine Triple.pure ?_
  rw [← mul_assoc, tree_str]
  exact le_iSup_mul (P := fun c => pointsTo a (.node (.str c len)) * chars q c) c

theorem initItems_spec (initialCap : ℕ) :
    Triple 1 (initItems initialCap) (stored ⟨initialCap, [], initialCap⟩) := by
  unfold initItems
  split
  · next hpos =>
    refine Triple.malloc_bind fun a => Triple.pure ?_
    refine le_iSup₂_of_le [] ⟨rfl, rfl, rfl⟩ ?_
    exact mul_le_mul' (le_itemBlock hpos (calloc_length _ _) List.nil_prefix) le_rfl
  · next hpos =>
    have hzero : initialCap = 0 := by omega
    subst hzero
    refine Triple.pure (le_iSup₂_of_le [] ⟨rfl, rfl, rfl⟩ ?_)
    exact (mul_one (1 : Assertion Block)).ge.trans (mul_le_mul' (le_iSup_of_le ⟨rfl, rfl⟩ le_rfl) le_rfl)

theorem valueArr_spec (initialCap : ℕ) :
    Triple 1 (valueArr initialCap) (tree (Parallax.valueArr initialCap)) := by
  refine Triple.malloc_bind fun a => Triple.seq (initItems_spec initialCap) (mul_comm _ _) fun b => ?_
  refine Triple.perm (pointsTo a _ * stored _ b) (mul_comm _ _) (Triple.write_bind (Triple.pure ?_))
  rw [Parallax.valueArr, tree_arr]
  exact le_iSup_of_le b le_rfl

theorem valueObj_spec (hs : src.Shows p A) {clen initialCap : ℕ} {v : Value}
    (hv : Parallax.valueObj p clen initialCap = .ok v) :
    Triple A (valueObj src clen initialCap) fun a => tree v a * A := by
  obtain ⟨q, hq, hv⟩ := bind_ok hv
  cases hv
  refine Triple.malloc_bind fun a => Triple.seq (dupBytes_spec hs hq) (mul_comm _ _) fun c => ?_
  refine Triple.seq (initItems_spec initialCap) (one_mul _).symm fun b => ?_
  refine Triple.perm (pointsTo a _ * (chars q c * stored _ b * A)) (by ac_rfl)
    (Triple.write_bind (Triple.pure ?_))
  rw [← mul_assoc, tree_obj]
  exact mul_le_mul' (le_iSup₂_of_le c b le_rfl) le_rfl

theorem valueErr_spec {cls msg trace : Source} {pc pm pt : Ptr} {C M T : Assertion Block}
    (hc : cls.Shows pc C) (hm : msg.Shows pm M) (ht : trace.Shows pt T) {code : Int64} {v : Value}
    (hv : Parallax.valueErr pc pm code pt = .ok v) :
    Triple (C * (M * T)) (valueErr cls msg code trace) fun a => tree v a * (C * (M * T)) := by
  obtain ⟨qc, hqc, hv⟩ := bind_ok hv
  obtain ⟨qm, hqm, hv⟩ := bind_ok hv
  obtain ⟨qt, hqt, hv⟩ := bind_ok hv
  cases hv
  refine Triple.malloc_bind fun a => ?_
  refine Triple.seq (F := pointsTo a _ * (M * T)) (dupCstr_spec hc hqc) (by ac_rfl) fun c => ?_
  refine Triple.seq (F := chars qc c * C * (pointsTo a _ * T)) (dupCstr_spec hm hqm) (by ac_rfl)
    fun m => ?_
  refine Triple.seq (F := chars qm m * M * (chars qc c * C * pointsTo a _)) (dupCstr_spec ht hqt)
    (by ac_rfl) fun t => ?_
  refine Triple.perm (pointsTo a _ * (chars qc c * (chars qm m * chars qt t) * (C * (M * T))))
    (by ac_rfl) (Triple.write_bind (Triple.pure ?_))
  rw [← mul_assoc, tree_err]
  exact mul_le_mul' (le_iSup₂_of_le c m (le_iSup_of_le t le_rfl)) le_rfl

end

/-! ## Growth -/

section
variable {v w : KvVec Entry} {b : Items}

/-- A store behind the rows, into a slot that is there. -/
theorem fill_spec (hslot : v.n < v.slots) (kv : Entry) (row : Row) :
    Triple (stored v b * entryAt kv row) (fill b row)
      (stored { v with entries := v.entries ++ [kv] }) := by
  refine Triple.iSup_mul fun rows => Triple.iSup_mul fun ⟨hslots, hn, hcap⟩ => ?_
  refine Triple.of_fact (p := rows.length = v.entries.length) ?_ fun hrows => ?_
  · rintro _ ⟨_, -, -, -, ⟨-, u, -, -, -, hu⟩, -⟩
    exact entriesAt_length u hu
  have hroom : b.n < b.cap := by
    rw [hn, hcap, ← hslots]
    exact hslot
  obtain ⟨items, n, cap⟩ := b
  cases items with
  | none =>
    refine Triple.perm ((⨆ _ : cap = 0 ∧ rows = [], 1) * (entriesAt v.entries rows * entryAt kv row))
      (mul_assoc _ _ _) (Triple.iSup_mul fun hnil => ?_)
    exact absurd hnil.1 (Nat.ne_of_gt (Nat.lt_of_le_of_lt (Nat.zero_le _) hroom))
  | some a =>
    have hat : rows.length = n := hrows.trans hn.symm
    subst hat
    refine Triple.perm (itemBlock rows cap (some a) * (entriesAt v.entries rows * entryAt kv row))
      (mul_assoc _ _ _) (Triple.seq (storeCell_spec Block.rows hroom row) rfl fun _ => Triple.pure ?_)
    refine le_iSup₂_of_le (rows ++ [row]) ⟨hslots, ?_, hcap⟩ ?_
    · show rows.length + 1 = (v.entries ++ [kv]).length
      rw [List.length_append, List.length_singleton, ← hrows]
    · rw [entriesAt_snoc hrows]

theorem append_cases {kv : Entry} (h : v.append kv = .ok w) :
    ∃ r, r = (if v.n = v.cap then v.grow else v) ∧ r.n < r.slots ∧
      w = { r with entries := r.entries ++ [kv] } := by
  unfold KvVec.append at h
  dsimp only at h
  by_cases hslot : (if v.n = v.cap then v.grow else v).n < (if v.n = v.cap then v.grow else v).slots
  · rw [if_pos hslot] at h
    cases h
    exact ⟨_, rfl, hslot, rfl⟩
  · rw [if_neg hslot] at h
    cases h

variable [Allocator Block]

theorem grow_spec : Triple (stored v b) (grow b) (stored v.grow) := by
  refine Triple.iSup fun rows => Triple.iSup fun ⟨_, hn, hcap⟩ => ?_
  refine Triple.of_fact (p := rows.length ≤ b.cap) ?_ fun hrows => ?_
  · rintro _ ⟨u, _, -, -, hu, -⟩
    exact array_length u hu
  have hnew : v.grow.cap = if b.cap = 0 then 4 else b.cap * 2 := by
    rw [hcap]
    rfl
  have hle : b.cap ≤ if b.cap = 0 then 4 else b.cap * 2 := by
    split <;> omega
  have hpos : 0 < if b.cap = 0 then 4 else b.cap * 2 := by
    split <;> omega
  refine Triple.seq (reallocCells_spec b.items hpos (hrows.trans hle)) rfl fun a => ?_
  refine Triple.iSup_mul fun cells => Triple.iSup_mul fun ⟨_, hlength, hcells⟩ => ?_
  have hin : b.cap + ((if b.cap = 0 then 4 else b.cap * 2) - b.cap) ≤ cells.length := by
    rw [hlength]
    omega
  obtain ⟨cells', hset, hlen, hbegins⟩ := memset_ok zeroRow hcells hrows hin
  refine readCells_bind (Triple.attempt_bind hset (Triple.write_bind (Triple.pure ?_)))
  refine le_iSup₂_of_le rows ⟨rfl, hn, hnew.symm⟩ (mul_le_mul' ?_ le_rfl)
  exact le_itemBlock hpos (hlen.trans hlength) hbegins

theorem reserve_spec :
    Triple (stored v b) (reserve b) (stored (if v.n = v.cap then v.grow else v)) := by
  refine Triple.of_fact (p := b.n = v.n ∧ b.cap = v.cap) ?_ fun ⟨hn, hcap⟩ => ?_
  · intro s hs
    obtain ⟨rows, hs⟩ := iSup_iff.mp hs
    obtain ⟨h, -⟩ := iSup_iff.mp hs
    exact h.2
  rw [reserve, hn, hcap]
  split
  · exact grow_spec
  · exact Triple.pure le_rfl

end

/-! ## The builders -/

section
variable {v w : KvVec Entry} {b : Items}

/-- What `next_int_key` makes of one more row. -/
def maxKey (max : Int64) (row : Row) : Int64 :=
  if row.isIntKey ∧ max < row.ikey then row.ikey else max

theorem maxKey_rows {entries : List Entry} {rows : List Row} (h : List.Forall₂ RowOf entries rows)
    (max : Int64) : rows.foldl maxKey max =
      entries.foldl (fun max kv => if kv.isIntKey ∧ max < kv.ikey then kv.ikey else max) max := by
  induction h generalizing max with
  | nil => rfl
  | cons hrow _ ih =>
    rw [List.foldl_cons, List.foldl_cons, ih, maxKey, hrow.1, hrow.2.1]

theorem maxIntKey_spec {rows : List Row} {cap : ℕ} {q : Option ℕ} {left i : ℕ}
    (hleft : i + left = rows.length) (max : Int64) :
    Triple (itemBlock rows cap q) (maxIntKey q i left max) fun k =>
      ⨆ _ : k = (rows.drop i).foldl maxKey max, itemBlock rows cap q := by
  induction left generalizing i max with
  | zero =>
    refine Triple.pure (le_iSup_of_le ?_ le_rfl)
    rw [List.drop_eq_nil_of_le (by omega)]
    rfl
  | succ left ih =>
    have hin : i < rows.length := by omega
    refine Triple.perm (itemBlock rows cap q * 1) (mul_one _).symm ?_
    refine readRow_bind (List.getElem?_eq_getElem hin) ?_
    rw [mul_one, List.drop_eq_getElem_cons hin, List.foldl_cons]
    exact ih (by omega) _

theorem nextIntKey_spec {key : Int64} (h : Parallax.nextIntKey v.entries = .ok key) :
    Triple (stored v b) (nextIntKey b) fun k => ⨆ _ : k = key, stored v b := by
  refine Triple.iSup fun rows => Triple.iSup fun hv => ?_
  refine Triple.of_fact (p := List.Forall₂ RowOf v.entries rows) ?_ fun hrows => ?_
  · rintro _ ⟨_, u, -, -, -, hu⟩
    exact entriesAt_rows u hu
  have hlen : 0 + b.n = rows.length := by
    rw [Nat.zero_add, hv.2.1]
    exact hrows.length_eq
  refine Triple.seq (maxIntKey_spec hlen (-1)) rfl fun max => Triple.iSup_mul fun hmax => ?_
  have hmax' : max = Parallax.maxIntKey v.entries := hmax.trans (maxKey_rows hrows (-1))
  subst hmax'
  unfold Parallax.nextIntKey at h
  dsimp only at h
  split at h
  · cases h
  · next hover =>
    cases h
    rw [if_neg hover]
    exact Triple.pure (le_iSup_of_le rfl (le_iSup₂_of_le rows hv le_rfl))

theorem le_entryAt_int (key : Int64) (c : Option Value) (q : Option ℕ) :
    child c q ≤ entryAt (intEntry key c) ⟨true, key, none, 0, q⟩ :=
  (one_mul (child c q)).ge.trans (le_iSup_of_le ⟨rfl, rfl, rfl⟩ le_rfl)

theorem le_entryAt_str (skey : Ptr) (klen : ℕ) (c : Option Value) (r q : Option ℕ) :
    chars skey r * child c q ≤ entryAt ⟨false, 0, skey, klen, c⟩ ⟨false, 0, r, klen, q⟩ :=
  le_iSup_of_le ⟨rfl, rfl, rfl⟩ le_rfl

variable [Allocator Block]
variable {β : Type} {F : Assertion Block} {Q : β → Assertion Block} {f : Items → Code β}

theorem append_int_bind {key : Int64} {c : Option Value} (q : Option ℕ)
    (h : v.append (intEntry key c) = .ok w) (hf : ∀ b', Triple (stored w b' * F) (f b') Q) :
    Triple (stored v b * (child c q * F))
      (reserve b >>= fun b => fill b ⟨true, key, none, 0, q⟩ >>= f) Q := by
  obtain ⟨r, hr, hslot, rfl⟩ := append_cases h
  refine Triple.seq reserve_spec rfl fun b' => ?_
  rw [← hr]
  refine Triple.seq (F := F) (fill_spec hslot _ _) rfl hf |>.pre ?_
  rw [← mul_assoc]
  exact mul_le_mul' (mul_le_mul' le_rfl (le_entryAt_int key c q)) le_rfl

theorem append_str_bind {src : Source} {p : Ptr} {A : Assertion Block} (hs : src.Shows p A)
    {klen : ℕ} {c : Option Value} (q : Option ℕ) {kv : Entry}
    (hkv : strEntry p klen c = .ok kv) (h : v.append kv = .ok w)
    (hf : ∀ b', Triple (stored w b' * (A * F)) (f b') Q) :
    Triple (stored v b * (child c q * (A * F)))
      (reserve b >>= fun b => dupBytes src klen >>= fun skey =>
        fill b ⟨false, 0, skey, klen, q⟩ >>= f) Q := by
  obtain ⟨skey, hskey, hkv⟩ := bind_ok hkv
  cases hkv
  obtain ⟨r, hr, hslot, rfl⟩ := append_cases h
  refine Triple.seq reserve_spec rfl fun b' => ?_
  rw [← hr]
  refine Triple.seq (F := stored r b' * (child c q * F)) (dupBytes_spec hs hskey) (by ac_rfl)
    fun t => ?_
  refine Triple.seq (F := A * F) (fill_spec hslot _ _) rfl hf |>.pre ?_
  calc chars skey t * A * (stored r b' * (child c q * F))
      = stored r b' * (chars skey t * child c q) * (A * F) := by ac_rfl
    _ ≤ _ := mul_le_mul' (mul_le_mul' le_rfl (le_entryAt_str skey klen c t q)) le_rfl

end

section
variable [Allocator Block]
variable {v w : Value} {c : Option Value} {a : ℕ} {q : Option ℕ}

theorem valueArrPush_spec (h : Parallax.valueArrPush v c = .ok w) :
    Triple (tree v a * child c q) (valueArrPush a q) fun _ => tree w a := by
  cases v with
  | arr items =>
    obtain ⟨key, hkey, h⟩ := bind_ok h
    obtain ⟨items', happ, h⟩ := bind_ok h
    cases h
    rw [tree_arr]
    refine Triple.iSup_mul fun b => ?_
    refine Triple.perm (pointsTo a (.node (.arr b)) * (stored items b * child c q)) (mul_assoc _ _ _)
      (readNode_bind ?_)
    refine Triple.seq (F := pointsTo a (.node (.arr b)) * child c q) (nextIntKey_spec hkey)
      (by ac_rfl) fun k => Triple.iSup_mul fun hk => ?_
    subst hk
    refine Triple.perm (stored items b * (child c q * pointsTo a (.node (.arr b)))) (by ac_rfl)
      (append_int_bind q happ fun b' => ?_)
    refine Triple.perm (pointsTo a _ * stored items' b') (mul_comm _ _) ?_
    refine Triple.post (Triple.frame Triple.write (stored items' b')) fun _ => ?_
    rw [tree_arr]
    exact le_iSup_of_le b' le_rfl
  | _ => cases h

theorem valueArrSetInt_spec {key : Int64} (h : Parallax.valueArrSetInt v key c = .ok w) :
    Triple (tree v a * child c q) (valueArrSetInt a key q) fun _ => tree w a := by
  cases v with
  | arr items =>
    obtain ⟨items', happ, h⟩ := bind_ok h
    cases h
    rw [tree_arr]
    refine Triple.iSup_mul fun b => ?_
    refine Triple.perm (pointsTo a (.node (.arr b)) * (stored items b * child c q)) (mul_assoc _ _ _)
      (readNode_bind ?_)
    refine Triple.perm (stored items b * (child c q * pointsTo a (.node (.arr b)))) (by ac_rfl)
      (append_int_bind q happ fun b' => ?_)
    refine Triple.perm (pointsTo a _ * stored items' b') (mul_comm _ _) ?_
    refine Triple.post (Triple.frame Triple.write (stored items' b')) fun _ => ?_
    rw [tree_arr]
    exact le_iSup_of_le b' le_rfl
  | _ => cases h

variable {src : Source} {p : Ptr} {A : Assertion Block} {klen : ℕ}

theorem valueArrSetStr_spec (hs : src.Shows p A) (h : Parallax.valueArrSetStr v p klen c = .ok w) :
    Triple (tree v a * (child c q * A)) (valueArrSetStr a src klen q) fun _ => tree w a * A := by
  cases v with
  | arr items =>
    obtain ⟨kv, hkv, h⟩ := bind_ok h
    obtain ⟨items', happ, h⟩ := bind_ok h
    cases h
    rw [tree_arr]
    refine Triple.iSup_mul fun b => ?_
    refine Triple.perm (pointsTo a (.node (.arr b)) * (stored items b * (child c q * A)))
      (mul_assoc _ _ _) (readNode_bind ?_)
    refine Triple.perm (stored items b * (child c q * (A * pointsTo a (.node (.arr b)))))
      (by ac_rfl) (append_str_bind hs q hkv happ fun b' => ?_)
    refine Triple.perm (pointsTo a _ * (stored items' b' * A)) (by ac_rfl) ?_
    refine Triple.post (Triple.frame Triple.write (stored items' b' * A)) fun _ => ?_
    rw [tree_arr, ← mul_assoc]
    exact mul_le_mul' (le_iSup_of_le b' le_rfl) le_rfl
  | _ => cases h

theorem valueObjSet_spec (hs : src.Shows p A) (h : Parallax.valueObjSet v p klen c = .ok w) :
    Triple (tree v a * (child c q * A)) (valueObjSet a src klen q) fun _ => tree w a * A := by
  cases v with
  | obj cls clen props =>
    obtain ⟨kv, hkv, h⟩ := bind_ok h
    obtain ⟨props', happ, h⟩ := bind_ok h
    cases h
    rw [tree_obj]
    refine Triple.iSup_mul fun t => Triple.iSup_mul fun b => ?_
    refine Triple.perm (pointsTo a (.node (.obj t clen b)) *
      (chars cls t * stored props b * (child c q * A))) (mul_assoc _ _ _) (readNode_bind ?_)
    refine Triple.perm (stored props b * (child c q * (A * (pointsTo a (.node (.obj t clen b)) *
      chars cls t)))) (by ac_rfl) (append_str_bind hs q hkv happ fun b' => ?_)
    refine Triple.perm (pointsTo a _ * (chars cls t * stored props' b' * A)) (by ac_rfl) ?_
    refine Triple.post (Triple.frame Triple.write (chars cls t * stored props' b' * A)) fun _ => ?_
    rw [tree_obj, ← mul_assoc]
    exact mul_le_mul' (le_iSup₂_of_le t b' le_rfl) le_rfl
  | _ => cases h

/-! ### Of bytes that are not on the heap -/

theorem valueStr_object {len : ℕ} (h : Parallax.valueStr p len = .ok v) :
    Triple 1 (valueStr (.object p) len) (tree v) :=
  (valueStr_spec (Source.shows_object p) h).post fun _ => (mul_one _).le

theorem valueObj_object {clen initialCap : ℕ} (h : Parallax.valueObj p clen initialCap = .ok v) :
    Triple 1 (valueObj (.object p) clen initialCap) (tree v) :=
  (valueObj_spec (Source.shows_object p) h).post fun _ => (mul_one _).le

theorem valueArrSetStr_object (h : Parallax.valueArrSetStr v p klen c = .ok w) :
    Triple (tree v a * child c q) (valueArrSetStr a (.object p) klen q) fun _ => tree w a := by
  have hset := valueArrSetStr_spec (a := a) (q := q) (Source.shows_object p) h
  simpa only [mul_one] using hset

theorem valueObjSet_object (h : Parallax.valueObjSet v p klen c = .ok w) :
    Triple (tree v a * child c q) (valueObjSet a (.object p) klen q) fun _ => tree w a := by
  have hset := valueObjSet_spec (a := a) (q := q) (Source.shows_object p) h
  simpa only [mul_one] using hset

end

end Parallax.Stored
