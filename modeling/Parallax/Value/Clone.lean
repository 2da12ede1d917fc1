import Parallax.Value.Invariant

/-! `value/clone.c`: a deep copy. The block of a copy has as many slots as the copy has entries. -/
namespace Parallax
open Memory
set_option autoImplicit false
set_option maxHeartbeats 250000

/-! ## clone_kv_block and value_clone -/

def cloneKey (skey : Ptr) (skeyLen : ℕ) : Except Fault Ptr :=
  if skey ≠ none ∧ 0 < skeyLen then (load skey skeyLen).map some else .ok none

mutual

def valueClone : Option Value → Except Fault (Option Value)
  | none => .ok none
  | some v => (cloneValue v).map some

/-- The `switch` of `value_clone`. -/
def cloneValue : Value → Except Fault Value
  | .null => .ok valueNull
  | .bool b => .ok (valueBool b)
  | .long i => .ok (valueLong i)
  | .double d => .ok (valueDouble d)
  | .str p len => valueStr p len
  | .arr ⟨_, entries, _⟩ => do
    let items ← cloneItems entries
    return .arr ⟨items.length, items, items.length⟩
  | .obj cls clen ⟨_, entries, _⟩ => do
    let cls ← dupBytes cls clen
    let props ← cloneItems entries
    return .obj cls clen ⟨props.length, props, props.length⟩
  | .err cls msg code trace => valueErr cls msg code trace

/-- The loop of `clone_kv_block`. -/
def cloneItems : List Entry → Except Fault (List Entry)
  | [] => .ok []
  | ⟨isIntKey, ikey, skey, skeyLen, val⟩ :: rest => do
    let key ← cloneKey skey skeyLen
    let child ← valueClone val
    let rest ← cloneItems rest
    return ⟨isIntKey, ikey, key, skeyLen, child⟩ :: rest

end

/-! ## A copy is made, and keeps the invariant -/

theorem cloneKey_blob (key : List UInt8) : cloneKey (blob key) key.length = .ok (blob key) := by
  unfold cloneKey
  cases key with
  | nil => rfl
  | cons b key =>
    rw [if_pos ⟨by simp [blob_cons], Nat.succ_pos _⟩, load_blob]
    rfl

theorem cloneItems_cons {kv : Entry} (h : EntryWf kv) {child : Option Value}
    (hchild : valueClone kv.val = .ok child) (rest : List Entry) :
    cloneItems (kv :: rest) = (cloneItems rest).map ({ kv with val := child } :: ·) := by
  cases h with
  | int k c =>
    rw [intEntry, cloneItems, show cloneKey none 0 = .ok none from rfl, ok_bind]
    rw [show valueClone c = .ok child from hchild, ok_bind]
    cases cloneItems rest <;> rfl
  | str key c hlen =>
    rw [strKv, cloneItems, cloneKey_blob, ok_bind]
    rw [show valueClone c = .ok child from hchild, ok_bind]
    cases cloneItems rest <;> rfl

theorem EntryWf.with_child {kv : Entry} (h : EntryWf kv) (child : Option Value) :
    EntryWf { kv with val := child } := by
  cases h with
  | int k c => exact .int k child
  | str key c hlen => exact .str key child hlen

theorem valueClone_child {c : Option Value}
    (h : ∀ x, c = some x → ∃ w, cloneValue x = .ok w ∧ w.Wf) :
    ∃ w, valueClone c = .ok w ∧ ChildWf w := by
  cases c with
  | none => exact ⟨none, by rw [valueClone], fun x hx => by cases hx⟩
  | some x =>
    obtain ⟨w, hw, hwf⟩ := h x rfl
    refine ⟨some w, ?_, fun y hy => ?_⟩
    · rw [valueClone, hw]
      rfl
    · cases hy
      exact hwf

theorem cloneItems_ok {entries : List Entry} (hk : ∀ kv ∈ entries, EntryWf kv)
    (hc : ∀ kv ∈ entries, ∀ x, kv.val = some x → ∃ w, cloneValue x = .ok w ∧ w.Wf) :
    ∃ items, cloneItems entries = .ok items ∧ items.length = entries.length ∧
      ∀ kv ∈ items, (EntryWf kv ∧ ChildWf kv.val) ∧ ∃ e ∈ entries, kv.isIntKey = e.isIntKey := by
  induction entries with
  | nil => exact ⟨[], by rw [cloneItems], rfl, List.forall_mem_nil _⟩
  | cons e rest ih =>
    obtain ⟨hke, hk⟩ := List.forall_mem_cons.mp hk
    obtain ⟨hce, hc⟩ := List.forall_mem_cons.mp hc
    obtain ⟨child, hchild, hwf⟩ := valueClone_child hce
    obtain ⟨items, hitems, hlen, hall⟩ := ih hk hc
    refine ⟨{ e with val := child } :: items, ?_, congrArg Nat.succ hlen,
      List.forall_mem_cons.mpr ⟨⟨⟨hke.with_child child, hwf⟩, e, List.mem_cons_self .., rfl⟩, ?_⟩⟩
    · rw [cloneItems_cons hke hchild, hitems]
      rfl
    · intro kv hkv
      obtain ⟨hkvwf, e', he', hkey⟩ := hall kv hkv
      exact ⟨hkvwf, e', List.mem_cons_of_mem _ he', hkey⟩

theorem CStrWf.dup {p : Ptr} (h : CStrWf p) : dupCstr p = .ok p := by
  cases h with
  | null => rfl
  | cstr s h0 _ => exact dupCstr_cstr h0 []

theorem block_wf {items : List Entry} (hn : items.length < 2 ^ 64) :
    (⟨items.length, items, items.length⟩ : KvVec Entry).Wf := ⟨rfl, le_rfl, hn⟩

/-- A tree with the invariant is copied to one with the invariant. -/
theorem cloneValue_ok {v : Value} (h : v.Wf) : ∃ w, cloneValue v = .ok w ∧ w.Wf := by
  induction h with
  | null => exact ⟨valueNull, by rw [cloneValue], .null⟩
  | bool b => exact ⟨valueBool b, by rw [cloneValue], .bool b⟩
  | long i => exact ⟨valueLong i, by rw [cloneValue], .long i⟩
  | double d => exact ⟨valueDouble d, by rw [cloneValue], .double d⟩
  | str bs hlen =>
    refine ⟨.str (blob bs) bs.length, ?_, .str bs hlen⟩
    rw [cloneValue, valueStr, dupBytes_blob]
    rfl
  | arr items hv hk _ ih =>
    obtain ⟨slots, entries, cap⟩ := items
    obtain ⟨dst, hdst, hlen, hall⟩ := cloneItems_ok hk ih
    refine ⟨.arr ⟨dst.length, dst, dst.length⟩, ?_, .arr _ (block_wf ?_) ?_ ?_⟩
    · rw [cloneValue, hdst]
      rfl
    · rw [hlen]
      exact hv.n_lt
    · exact fun kv hkv => (hall kv hkv).1.1
    · exact fun kv hkv => (hall kv hkv).1.2
  | obj cls props hcls hv hk hs _ ih =>
    obtain ⟨slots, entries, cap⟩ := props
    obtain ⟨dst, hdst, hlen, hall⟩ := cloneItems_ok hk ih
    refine ⟨.obj (blob cls) cls.length ⟨dst.length, dst, dst.length⟩, ?_,
      .obj cls _ hcls (block_wf ?_) ?_ ?_ ?_⟩
    · rw [cloneValue, dupBytes_blob, ok_bind, hdst]
      rfl
    · rw [hlen]
      exact hv.n_lt
    · exact fun kv hkv => (hall kv hkv).1.1
    · intro kv hkv
      obtain ⟨-, e, he, hkey⟩ := hall kv hkv
      rw [hkey]
      exact hs e he
    · exact fun kv hkv => (hall kv hkv).1.2
  | err cls msg code trace hc hm ht =>
    refine ⟨.err cls msg code trace, ?_, .err cls msg code trace hc hm ht⟩
    rw [cloneValue, valueErr, hc.dup, ok_bind, hm.dup, ok_bind, ht.dup]
    rfl

theorem valueClone_ok {v : Value} (h : v.Wf) :
    ∃ w, valueClone (some v) = .ok (some w) ∧ w.Wf := by
  obtain ⟨w, hw, hwf⟩ := cloneValue_ok h
  refine ⟨w, ?_, hwf⟩
  rw [valueClone, hw]
  rfl

theorem Value.Wf.clone {v w : Value} (h : v.Wf) (hw : valueClone (some v) = .ok (some w)) :
    w.Wf := by
  obtain ⟨w', hw', hwf⟩ := valueClone_ok h
  rw [hw'] at hw
  cases hw
  exact hwf

end Parallax
