import Parallax.Stored.Capture
import Parallax.Bridge.EmptyKey
import Parallax.Bridge.Transfer

/-! `px_value_to_zval` on the heap: it makes the same PHP value of a tree as without the heap, and
the tree stays as it is. With the capture before it and the release after it, a value goes through
the heap and leaves it as it was. -/
namespace Parallax.Stored
open Memory Bridge Separation Separation.Assertion Walks OrderedMap
set_option autoImplicit false
set_option maxHeartbeats 250000

/-! ## value_to_zval_inner -/

section Code
variable (classes : ClassTable)

/-- The rows from `items[i]` on go into the target, as many as are left. -/
def putRows {τ : Type} (convert : Option ℕ → Code Php) (put : Row → Php → τ → Code τ)
    (items : Option ℕ) : ℕ → ℕ → τ → Code τ
  | _, 0, target => return target
  | i, left + 1, target => do
    let kv ← readRow items i
    let child ← convert kv.val
    let target ← put kv child target
    putRows convert put items (i + 1) left target

/-- `add_assoc_zval_ex` with all it reads of the key: the macro `ZEND_HANDLE_NUMERIC_STR` looks at
the byte behind a `-` without a look at the length. -/
def addAssocZvalEx (target : Elements) (key : Ptr) (len : ℕ) (child : Php) :
    Except Fault Elements := do
  let first ← load key 1
  let _ ← load key (if first = [0x2d] then 2 else 1)
  Bridge.addAssocZvalEx target key len child

def putElement (kv : Row) (child : Php) (target : Elements) : Code Elements :=
  if kv.isIntKey then return addIndexZval target kv.ikey.toUInt64 child
  else do
    let key ← (Source.block kv.skey).view
    attempt (addAssocZvalEx target key kv.skeyLen child)

def putProperty (ce : WorkerClass) (kv : Row) (child : Php) (target : Option NewObject) :
    Code (Option NewObject) := do
  let key ← (Source.block kv.skey).view
  let name ← attempt (load key kv.skeyLen)
  attempt (updateProperty ce target name child)

def kvBlockToArray (convert : Option ℕ → Code Php) (b : Items) : Code Php := do
  let elements ← putRows convert putElement b.items 0 b.n []
  return .array elements

def kvBlockToObject (convert : Option ℕ → Code Php) (b : Items) (ce : WorkerClass) : Code Php := do
  let obj ← putRows convert (putProperty ce) b.items 0 b.n (objectInitEx ce)
  return finished ce obj

/-- The `switch` of `value_to_zval_inner`. -/
def convertFields (convert : Option ℕ → Code Php) : Node → Code Php
  | .null => return .null
  | .bool b => return .bool b
  | .long i => return .long i
  | .double d => return .double d
  | .str p len => do
    let p ← (Source.block p).view
    attempt (stringZval p len)
  | .arr b => kvBlockToArray convert b
  | .obj cls clen b => do
    let cls ← (Source.block cls).view
    let name ← attempt (load cls clen)
    kvBlockToObject convert b (resolveClass classes name)
  | .err cls msg code trace => do
    let cls ← (Source.block cls).view
    let msg ← (Source.block msg).view
    let trace ← (Source.block trace).view
    attempt (errorToZval cls msg code trace)

/-- `value_to_zval_inner`, with fuel for the calls in each other. -/
def valueToZvalInner : ℕ → Option ℕ → Code Php
  | _, none => return .null
  | 0, some _ => attempt (.error .outOfFuel)
  | fuel + 1, some v => do
    let node ← readNode (some v)
    convertFields classes (valueToZvalInner fuel) node

/-- No call is deeper in others than there are blocks. -/
def pxValueToZval (v : Option ℕ) : Code Php := do
  let blocks ← liveBlocks
  valueToZvalInner classes blocks v

end Code

/-! ## The key `-` -/

/-- The block of a key is not the one byte `-`, behind which the engine reads on. -/
def Dashless (kv : Entry) : Prop := kv.isIntKey = true ∨ kv.skey ≠ some [0x2d]

def KeysDashless : Value → Prop
  | .arr items => ∀ kv ∈ items.entries, Dashless kv
  | _ => True

/-- No array in the tree has an entry under the key `-`. -/
def NoDashKey (v : Value) : Prop := Everywhere children KeysDashless v

/-- A child that may be NULL, and what is asked of it if it is there. -/
def NoDashPtr (c : Option Value) : Prop := ∀ x, c = some x → NoDashKey x

theorem noDashKey_arr {items : KvVec Entry} : NoDashKey (.arr items) ↔
    (∀ kv ∈ items.entries, Dashless kv) ∧ ∀ kv ∈ items.entries, NoDashPtr kv.val := by
  rw [NoDashKey, everywhere_iff]
  exact and_congr_right fun _ => forall_filterMap_val

theorem noDashKey_obj {cls : Ptr} {clen : ℕ} {props : KvVec Entry} :
    NoDashKey (.obj cls clen props) ↔ ∀ kv ∈ props.entries, NoDashPtr kv.val := by
  rw [NoDashKey, everywhere_iff]
  exact (and_iff_right trivial).trans forall_filterMap_val

/-- Behind any other key the engine reads nothing. -/
theorem addAssocZvalEx_eq {target next : Elements} {key : Ptr} {len : ℕ} {child : Php}
    (hkey : key ≠ some [0x2d]) (h : Bridge.addAssocZvalEx target key len child = .ok next) :
    addAssocZvalEx target key len child = .ok next := by
  obtain ⟨first, hfirst, -⟩ := bind_ok h
  have hpeek : ∃ bs, load key (if first = [0x2d] then 2 else 1) = .ok bs := by
    obtain ⟨-, hread⟩ := load_ok hfirst
    obtain ⟨os, rfl, hlen, rfl⟩ := hread Nat.one_pos
    by_cases hdash : os.take 1 = [0x2d]
    · rw [if_pos hdash]
      -- The block starts with `-` and is not that byte alone, so there is one more.
      match os, hkey, hdash with
      | [b], hkey, hdash => exact absurd (congrArg some hdash) hkey
      | b :: b' :: os, _, _ => exact ⟨_, load_some _ _ (by simp)⟩
    · rw [if_neg hdash]
      exact ⟨_, hfirst⟩
  obtain ⟨bs, hpeek⟩ := hpeek
  rw [addAssocZvalEx, hfirst, ok_bind, hpeek, ok_bind, h]

/-- Behind `-` it reads the byte after the block. -/
example (target : Elements) (child : Php) :
    addAssocZvalEx target (some [0x2d]) 1 child = .error .outOfBounds := rfl

/-! ## The loops -/

section Loops
variable {classes : ClassTable} {τ : Type}

/-- The entries go into the target one by one. -/
def Puts (classes : ClassTable) (put : Entry → Php → τ → Except Fault τ) :
    List Entry → τ → τ → Prop
  | [], target, target' => target' = target
  | kv :: entries, target, target' => ∃ child next, ptrToZval classes kv.val = .ok child ∧
      put kv child target = .ok next ∧ Puts classes put entries next target'

/-- The function makes PHP values of the trees behind these entries. -/
def Converts (classes : ClassTable) (convert : Option ℕ → Code Php) (entries : List Entry) : Prop :=
  ∀ kv ∈ entries, ∀ php, ptrToZval classes kv.val = .ok php → ∀ q,
    Reads (child kv.val q) (convert q) php

/-- One row: its child is converted, and goes into the target. -/
theorem putRows_eq (convert : Option ℕ → Code Php) (put : Row → Php → τ → Code τ) (q : Option ℕ)
    (i n : ℕ) (target : τ) : putRows convert put q i n target =
      eachRow (fun kv target => convert kv.val >>= fun child => put kv child target) q i n
        target := by
  induction n generalizing i target with
  | zero => rfl
  | succ n ih => simp only [putRows, eachRow, ih, bind_assoc]

theorem Puts.along {put : Entry → Php → τ → Except Fault τ} {entries : List Entry}
    {target target' : τ} (h : Puts classes put entries target target') :
    Along (fun kv target next => ∃ child, ptrToZval classes kv.val = .ok child ∧
      put kv child target = .ok next) entries target target' := by
  induction entries generalizing target with
  | nil => exact h
  | cons kv entries ih =>
    obtain ⟨child, next, hchild, hnext, htarget⟩ := h
    exact ⟨next, ⟨child, hchild, hnext⟩, ih htarget⟩

/-- All rows of an item block. -/
theorem putStored_spec {convert : Option ℕ → Code Php} {put : Row → Php → τ → Code τ}
    {put' : Entry → Php → τ → Except Fault τ}
    {v : KvVec Entry} {b : Items} {target target' : τ}
    (hput : ∀ kv ∈ v.entries, ∀ (row : Row) (php : Php) (target next : τ), RowOf kv row →
      put' kv php target = .ok next → Reads (chars kv.skey row.skey) (put row php target) next)
    (hconvert : Converts classes convert v.entries) (h : Puts classes put' v.entries target target') :
    Reads (stored v b) (putRows convert put b.items 0 b.n target) target' := by
  rw [putRows_eq]
  refine eachStored_reads ?_ h.along
  rintro kv hkv row target next hof ⟨php, hphp, hnext⟩
  refine Reads.perm _ (mul_comm _ _) ((hconvert kv hkv php hphp row.val).part ?_)
  exact Reads.perm _ (mul_comm _ _) ((hput kv hkv row php target next hof hnext).frame _)

/-- `kv_block_to_array` for one entry. -/
def element (kv : Entry) (child : Php) (target : Elements) : Except Fault Elements :=
  if kv.isIntKey then .ok (addIndexZval target kv.ikey.toUInt64 child)
  else Bridge.addAssocZvalEx target kv.skey kv.skeyLen child

/-- `kv_block_to_object` for one entry. -/
def property (ce : WorkerClass) (kv : Entry) (child : Php) (target : Option NewObject) :
    Except Fault (Option NewObject) := do
  let name ← load kv.skey kv.skeyLen
  updateProperty ce target name child

theorem arrayItems_puts {entries : List Entry} {target target' : Elements}
    (h : arrayItems classes entries target = .ok target') :
    Puts classes element entries target target' := by
  induction entries generalizing target with
  | nil =>
    rw [arrayItems] at h
    exact (Except.ok.inj h).symm
  | cons kv entries ih =>
    rw [arrayItems] at h
    obtain ⟨child, hchild, h⟩ := bind_ok h
    refine ⟨child, ?_⟩
    unfold element
    by_cases hint : kv.isIntKey = true
    · rw [if_pos hint] at h ⊢
      exact ⟨_, hchild, rfl, ih h⟩
    · rw [if_neg hint] at h ⊢
      obtain ⟨next, hnext, h⟩ := bind_ok h
      exact ⟨next, hchild, hnext, ih h⟩

theorem objectItems_puts {ce : WorkerClass} {entries : List Entry}
    {target target' : Option NewObject}
    (h : objectItems classes ce entries target = .ok target') :
    Puts classes (property ce) entries target target' := by
  induction entries generalizing target with
  | nil =>
    rw [objectItems] at h
    exact (Except.ok.inj h).symm
  | cons kv entries ih =>
    rw [objectItems] at h
    obtain ⟨child, hchild, h⟩ := bind_ok h
    obtain ⟨name, hname, h⟩ := bind_ok h
    obtain ⟨next, hnext, h⟩ := bind_ok h
    refine ⟨child, next, hchild, ?_, ih h⟩
    rw [property, hname]
    exact hnext

theorem putElement_spec {kv : Entry} (hkey : Dashless kv) (row : Row) (php : Php)
    (target next : Elements) (hof : RowOf kv row) (h : element kv php target = .ok next) :
    Reads (chars kv.skey row.skey) (putElement row php target) next := by
  unfold putElement
  unfold element at h
  rw [hof.1, hof.2.1, hof.2.2]
  split at h
  · next hint =>
    cases h
    rw [if_pos hint]
    exact Reads.ret _ _
  · next hstr =>
    rw [if_neg hstr]
    have hput := addAssocZvalEx_eq (hkey.resolve_left hstr) h
    exact (Source.shows_chars kv.skey row.skey).view.andThen (Reads.attempt hput)

theorem putProperty_spec (ce : WorkerClass) (kv : Entry) (row : Row) (php : Php)
    (target next : Option NewObject) (hof : RowOf kv row) (h : property ce kv php target = .ok next) :
    Reads (chars kv.skey row.skey) (putProperty ce row php target) next := by
  obtain ⟨name, hname, h⟩ := bind_ok h
  refine (Source.shows_chars kv.skey row.skey).view.andThen ?_
  rw [hof.2.2]
  exact (Reads.attempt hname).andThen (Reads.attempt h)

theorem kvBlockToArray_spec {convert : Option ℕ → Code Php} {v : KvVec Entry} {b : Items}
    {elements : Elements} (hkeys : ∀ kv ∈ v.entries, Dashless kv)
    (hconvert : Converts classes convert v.entries)
    (h : arrayItems classes v.entries [] = .ok elements) :
    Reads (stored v b) (kvBlockToArray convert b) (.array elements) :=
  (putStored_spec (fun kv hkv => putElement_spec (hkeys kv hkv)) hconvert
    (arrayItems_puts h)).andThen (Reads.ret _ _)

theorem kvBlockToObject_spec {convert : Option ℕ → Code Php} {v : KvVec Entry} {b : Items}
    {ce : WorkerClass} {obj : Option NewObject} (hconvert : Converts classes convert v.entries)
    (h : objectItems classes ce v.entries (objectInitEx ce) = .ok obj) :
    Reads (stored v b) (kvBlockToObject convert b ce) (finished ce obj) :=
  (putStored_spec (fun kv _ => putProperty_spec ce kv) hconvert
    (objectItems_puts h)).andThen (Reads.ret _ _)

end Loops

/-! ## A tree -/

section Tree
variable {classes : ClassTable}

theorem convertFields_spec {fuel : ℕ}
    (hchild : ∀ c php, NoDashPtr c → ptrToZval classes c = .ok php → nodesPtr c ≤ fuel →
      ∀ q, Reads (child c q) (valueToZvalInner classes fuel q) php)
    {v : Value} {php : Php} (hdash : NoDashKey v) (hv : v.nodes ≤ fuel + 1)
    (h : valueToZval classes v = .ok php) {a : ℕ} :
    Reads (tree v a)
      (readNode (some a) >>= convertFields classes (valueToZvalInner classes fuel)) php := by
  have hentries {items : KvVec Entry} (hkids : ∀ kv ∈ items.entries, NoDashPtr kv.val)
      (hn : nodesItems items.entries + 1 ≤ fuel + 1) :
      Converts classes (valueToZvalInner classes fuel) items.entries := fun kv hkv php hphp q =>
    hchild kv.val php (hkids kv hkv) hphp
      ((nodes_le_items hkv).trans (Nat.le_of_succ_le_succ hn)) q
  cases v with
  | null =>
    rw [valueToZval] at h
    cases h
    exact node_leaf rfl
  | bool b =>
    rw [valueToZval] at h
    cases h
    exact node_leaf rfl
  | long i =>
    rw [valueToZval] at h
    cases h
    exact node_leaf rfl
  | double d =>
    rw [valueToZval] at h
    cases h
    exact node_leaf rfl
  | str p len =>
    rw [valueToZval] at h
    rw [tree_str]
    refine Reads.iSup fun q => node_part ?_
    exact (Source.shows_chars p q).view.andThen (Reads.attempt h)
  | arr items =>
    rw [valueToZval] at h
    obtain ⟨elements, helements, rfl⟩ := map_ok h
    obtain ⟨hkeys, hkids⟩ := noDashKey_arr.mp hdash
    rw [tree_arr]
    exact Reads.iSup fun b =>
      node_part (kvBlockToArray_spec hkeys (hentries hkids hv) helements)
  | obj cls clen props =>
    rw [valueToZval] at h
    obtain ⟨name, hname, h⟩ := bind_ok h
    obtain ⟨obj, hobj, h⟩ := bind_ok h
    cases h
    rw [tree_obj]
    refine Reads.iSup fun c => Reads.iSup fun b => node_part (view_part ?_)
    refine (Reads.attempt hname).andThen (Reads.perm _ (mul_comm _ _) ?_)
    exact (kvBlockToObject_spec (hentries (noDashKey_obj.mp hdash) hv) hobj).frame _
  | err cls msg code trace =>
    rw [valueToZval] at h
    rw [tree_err]
    refine Reads.iSup fun c => Reads.iSup fun m => Reads.iSup fun t => node_part (view_part ?_)
    refine Reads.perm (chars msg m * (chars cls c * chars trace t)) (by ac_rfl) (view_part ?_)
    refine Reads.perm (chars trace t * (chars cls c * chars msg m)) (by ac_rfl) (view_part ?_)
    exact Reads.attempt h

theorem valueToZvalInner_spec (fuel : ℕ) (c : Option Value) (php : Php) (hdash : NoDashPtr c)
    (h : ptrToZval classes c = .ok php) (hc : nodesPtr c ≤ fuel) (q : Option ℕ) :
    Reads (child c q) (valueToZvalInner classes fuel q) php := by
  cases c with
  | none =>
    rw [ptrToZval] at h
    cases h
    cases q with
    | some a => exact Reads.bot
    | none =>
      have hnone : valueToZvalInner classes fuel none = pure .null := by
        cases fuel <;> rfl
      rw [hnone]
      exact Reads.ret _ _
  | some v =>
    cases q with
    | none => exact Reads.bot
    | some a =>
      rw [ptrToZval] at h
      cases fuel with
      | zero => exact absurd ((nodes_pos v).trans_le hc) (lt_irrefl 0)
      | succ fuel => exact convertFields_spec (valueToZvalInner_spec fuel) (hdash v rfl) hc h

/-- A tree is made a PHP value of, and stays. -/
theorem pxValueToZval_spec {c : Option Value} {php : Php} (hdash : NoDashPtr c)
    (h : Bridge.pxValueToZval classes c = .ok php) (q : Option ℕ) :
    Reads (child c q) (pxValueToZval classes q) php :=
  Reads.liveBlocks (child_weighs c q) fun blocks hc =>
    valueToZvalInner_spec blocks c php hdash h hc q

end Tree

/-! ## Through the heap -/

theorem noDashKey_leaf {v : Value} (hkids : children v = []) (hkeys : KeysDashless v) :
    NoDashKey v := by
  refine everywhere_iff.mpr ⟨hkeys, ?_⟩
  rw [hkids]
  exact List.forall_mem_nil _

section Through
variable [Allocator Block]

end Through

end Parallax.Stored
