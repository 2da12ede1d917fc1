import Parallax.Value.Growth
import Parallax.Bridge.Rebuild

/-! An array as its builders, `value_arr_get_str` and `kv_block_to_array` see it. A set appends, a
lookup takes the first entry of a key, and the PHP array keeps the last one. -/
namespace Parallax.Bridge
open Memory OrderedMap
set_option autoImplicit false
set_option maxHeartbeats 250000

/-! ## Arrays and their calls -/

/-- What every call has: a child that was made before, and a key whose object has a `size_t`. -/
structure CallSound (c : BuildCall) : Prop where
  child : ∀ x, c.child = some x → Produced x
  key : ∀ key, c.keyArg? = some key → Fits key.key

/-- An array, with the calls that made it of `value_arr(cap)`. -/
structure BuiltArray where
  cap : ℕ
  calls : List BuildCall
  arr : Value
  arr_eq : BuildCall.applyAll calls (valueArr cap) = .ok arr
  sound : ∀ c ∈ calls, CallSound c
  length_lt : calls.length < 2 ^ 64

/-- What a call sets under a string key. -/
def setUnder (k : List UInt8) : BuildCall → Option (Option Value)
  | .setStr key child => if key.bytes = k then some child else none
  | _ => none

/-- The children set under the key, in their order. -/
def BuiltArray.under (h : BuiltArray) (k : List UInt8) : List (Option Value) :=
  h.calls.filterMap (setUnder k)

theorem under_entry {k : List UInt8} {c : BuildCall} {items : KvVec Entry} (h : c.Suits (.arr items)) :
    entryUnder k (c.entry items.entries) = setUnder k c := by
  cases c with
  | push c => exact under_int k _ c
  | setInt key c => exact under_int k key c
  | setStr key c => exact under_str k key.bytes c
  | objSet key c => cases h

/-! ## The entries of a built array -/

theorem apply_arr_ok {c : BuildCall} {items : KvVec Entry} {a : Value}
    (h : c.apply (.arr items) = .ok a) : c.Suits (.arr items) ∧ ∃ w, a = .arr w ∧
      items.append (c.entry items.entries) = .ok w := by
  have hdef : c.Defined (.arr items) := by
    by_contra hdef
    rw [BuildCall.apply_undefined hdef] at h
    cases h
  rw [BuildCall.apply_eq, BuildCall.outcome_append hdef.1 hdef.2] at h
  obtain ⟨w, hw, rfl⟩ := map_ok h
  exact ⟨hdef.1, w, rfl, hw⟩

theorem CallSound.wf {c : BuildCall} {v a : Value} (h : CallSound c) (hv : v.Wf)
    (ha : c.apply v = .ok a) (hn : a.n < 2 ^ 64) : a.Wf :=
  BuildCall.apply_wf hv (fun x hx => (h.child x hx).wf) h.key ha hn

/-- Calls on an array append their entries, in their order. -/
theorem applyAll_arr {calls : List BuildCall} {items : KvVec Entry} {a : Value}
    (hwf : (Value.arr items).Wf) (hsound : ∀ c ∈ calls, CallSound c)
    (hn : items.n + calls.length < 2 ^ 64) (h : BuildCall.applyAll calls (.arr items) = .ok a) :
    ∃ w, a = .arr w ∧ a.Wf ∧ ∀ k, w.entries.filterMap (entryUnder k) =
      items.entries.filterMap (entryUnder k) ++ calls.filterMap (setUnder k) := by
  induction calls generalizing items with
  | nil =>
    cases h
    exact ⟨items, rfl, hwf, fun k => (List.append_nil _).symm⟩
  | cons c calls ih =>
    obtain ⟨hc, hsound⟩ := List.forall_mem_cons.mp hsound
    rw [BuildCall.applyAll_cons] at h
    obtain ⟨x, hx, h⟩ := bind_ok h
    obtain ⟨hsuits, w, rfl, hw⟩ := apply_arr_ok hx
    have hcount := KvVec.n_append hw
    rw [List.length_cons] at hn
    have hwn : (Value.arr w).n < 2 ^ 64 := by
      show w.n < 2 ^ 64
      omega
    obtain ⟨z, hz, hzwf, hall⟩ := ih (hc.wf hwf hx hwn) hsound (by omega) h
    refine ⟨z, hz, hzwf, fun k => ?_⟩
    rw [hall, KvVec.entries_append hw, List.filterMap_append, List.append_assoc, List.filterMap_cons,
      under_entry hsuits, List.filterMap_nil, List.filterMap_cons]
    cases setUnder k c <;> rfl

theorem BuiltArray.entries (h : BuiltArray) : ∃ items, h.arr = .arr items ∧ h.arr.Wf ∧
    ∀ k, items.entries.filterMap (entryUnder k) = h.under k := by
  have hn : (⟨h.cap, [], h.cap⟩ : KvVec Entry).n + h.calls.length < 2 ^ 64 :=
    (Nat.zero_add _).trans_lt h.length_lt
  exact applyAll_arr (valueArr_wf h.cap) h.sound hn h.arr_eq

/-! ## The PHP array -/

section Array
variable (classes : ClassTable) (k : List UInt8)

/-- What stands under the key in an array that had `start` there: the child, converted. -/
def Held (start : Option Php) (elements : Elements) : Option (Option Value) → Prop
  | none => get (.str k) elements = start
  | some child => ∃ t, ptrToZval classes child = .ok t ∧ get (.str k) elements = some t

variable {classes k}

theorem symtableKey_ne {name : List UInt8} (h : name ≠ k) : ArrayKey.str k ≠ symtableKey name := by
  unfold symtableKey
  cases decimalIndex name with
  | none => exact fun heq => h (ArrayKey.str.inj heq).symm
  | some idx => exact ArrayKey.noConfusion

theorem addAssocZvalEx_ok {target t : Elements} {name : List UInt8} {child : Php}
    (h : addAssocZvalEx target (blob name) name.length child = .ok t) :
    t = put (symtableKey name) child target := by
  obtain ⟨_, -, h⟩ := bind_ok h
  rw [load_blob, ok_bind] at h
  cases h
  rfl

/-- A child put first is held, unless another one comes behind it. -/
theorem Held.cons {start : Option Php} {elements : Elements} {child : Option Value} {t : Php}
    {rest : List (Option Value)} (ht : ptrToZval classes child = .ok t)
    (h : Held classes k (some t) elements rest.getLast?) :
    Held classes k start elements (child :: rest).getLast? := by
  cases hlast : rest.getLast? with
  | none =>
    rw [hlast] at h
    rw [List.getLast?_cons, hlast]
    exact ⟨t, ht, h⟩
  | some last =>
    rw [hlast] at h
    rw [List.getLast?_cons, hlast]
    exact h

/-- The array holds the last child under the key, when that is no int key in a PHP array. -/
theorem arrayItems_held (hnum : decimalIndex k = none) {entries : List Entry}
    (hk : ∀ kv ∈ entries, EntryWf kv) {target elements : Elements}
    (h : arrayItems classes entries target = .ok elements) :
    Held classes k (get (.str k) target) elements
      (entries.filterMap (entryUnder k)).getLast? := by
  induction entries generalizing target with
  | nil =>
    rw [arrayItems] at h
    cases h
    rfl
  | cons kv rest ih =>
    obtain ⟨hkv, hrest⟩ := List.forall_mem_cons.mp hk
    rw [List.filterMap_cons]
    cases hkv with
    | int i c =>
      rw [intEntry, arrayItems] at h
      obtain ⟨t, -, h⟩ := bind_ok h
      have hheld := ih hrest h
      rw [addIndexZval, get_put_of_ne ArrayKey.noConfusion] at hheld
      rw [under_int]
      exact hheld
    | str name c _ =>
      rw [strKv, arrayItems] at h
      obtain ⟨t, ht, h⟩ := bind_ok h
      obtain ⟨target', hput, h⟩ := bind_ok h
      have hheld := ih hrest h
      rw [addAssocZvalEx_ok hput] at hheld
      rw [under_str]
      by_cases hname : name = k
      · subst hname
        have hkey : symtableKey name = .str name := by
          rw [symtableKey, hnum]
        rw [hkey, get_put_self] at hheld
        rw [if_pos rfl]
        exact Held.cons ht hheld
      · rw [get_put_of_ne (symtableKey_ne hname)] at hheld
        rw [if_neg hname]
        exact hheld

theorem arrayItems_rebuildable {items : KvVec Entry} (h : (Value.arr items).Wf) :
    (∃ elements, arrayItems classes items.entries [] = .ok elements) ↔
      Rebuildable classes (.arr items) := by
  cases h with
  | arr _ _ hk hc =>
    rw [rebuildable_arr, ← forall₂_and]
    exact arrayItems_yields hk (fun kv hkv x hx => valueToZval_yields (hc kv hkv x hx)) []

end Array

/-! ## The lookup, the sets and the array -/

/-- A lookup gives the child set last, NULL when there is none, and the PHP array has that child. -/
structure BuiltArray.Agrees (h : BuiltArray) (classes : ClassTable) (key : KeyArg) : Prop where
  recent : valueArrGetStr (some h.arr) key.key key.klen = .ok (h.under key.bytes).getLast?.join
  null_iff : valueArrGetStr (some h.arr) key.key key.klen = .ok none ↔ h.under key.bytes = []
  held : ∃ elements, arrayItems classes h.arr.items.entries [] = .ok elements ∧
    Held classes key.bytes none elements (h.under key.bytes).getLast?

theorem BuiltArray.getStr (h : BuiltArray) (key : KeyArg) :
    valueArrGetStr (some h.arr) key.key key.klen = .ok (h.under key.bytes).head?.join := by
  obtain ⟨items, harr, hwf, hunder⟩ := h.entries
  rw [harr] at hwf ⊢
  cases hwf with
  | arr _ _ hk _ => rw [← hunder]; exact getStrLoop_eq hk key.load_eq

theorem BuiltArray.held_iff (h : BuiltArray) (classes : ClassTable) {k : List UInt8}
    (hnum : decimalIndex k = none) :
    (∃ elements, arrayItems classes h.arr.items.entries [] = .ok elements ∧
      Held classes k none elements (h.under k).getLast?) ↔ Rebuildable classes h.arr := by
  obtain ⟨items, harr, hwf, hunder⟩ := h.entries
  rw [harr] at hwf ⊢
  refine Iff.trans ⟨?_, ?_⟩ (arrayItems_rebuildable hwf)
  · rintro ⟨elements, helements, -⟩
    exact ⟨elements, helements⟩
  · rintro ⟨elements, helements⟩
    refine ⟨elements, helements, ?_⟩
    cases hwf with
    | arr _ _ hk _ => rw [← hunder]; exact arrayItems_held hnum hk helements

/-- When the first of some optional values is the last, and tells whether there are any. -/
theorem head?_join_iff {α : Type} (l : List (Option α)) :
    (l.head?.join = l.getLast?.join ∧ (l.head?.join = none ↔ l = [])) ↔
      l = [] ∨ ∃ a, l.head? = some (some a) ∧ l.getLast? = some (some a) := by
  cases l with
  | nil => exact iff_of_true ⟨rfl, iff_of_true rfl rfl⟩ (Or.inl rfl)
  | cons c rest =>
    have hlast : (c :: rest).getLast? = some (rest.getLast?.getD c) := List.getLast?_cons
    rw [hlast]
    constructor
    · rintro ⟨hsame, hnull⟩
      have hc : c = rest.getLast?.getD c := hsame
      obtain ⟨a, ha⟩ : ∃ a, c = some a :=
        Option.ne_none_iff_exists'.mp fun hnone => List.cons_ne_nil _ _ (hnull.mp hnone)
      exact .inr ⟨a, congrArg some ha, congrArg some (hc.symm.trans ha)⟩
    · rintro (hnil | ⟨a, hhead, htail⟩)
      · cases hnil
      · have hc : c = some a := Option.some.inj hhead
        have hl : rest.getLast?.getD c = some a := Option.some.inj htail
        refine ⟨hc.trans hl.symm, iff_of_false (fun hnone => ?_) (List.cons_ne_nil _ _)⟩
        rw [show (c :: rest).head?.join = c from rfl, hc] at hnone
        cases hnone

/-- Lookups agree with the sets and with the PHP array exactly when the child set first under the key
is also the one set last, and is not NULL, or none was set; and when there is a PHP array at all. -/
theorem getStr_agrees_iff (h : BuiltArray) (classes : ClassTable) (key : KeyArg)
    (hnum : decimalIndex key.bytes = none) :
    h.Agrees classes key ↔ (h.under key.bytes = [] ∨ ∃ child,
      (h.under key.bytes).head? = some (some child) ∧
        (h.under key.bytes).getLast? = some (some child)) ∧ Rebuildable classes h.arr := by
  have hheld := h.held_iff classes hnum
  rw [← head?_join_iff, ← hheld]
  constructor
  · rintro ⟨hrecent, hnull, harray⟩
    rw [h.getStr key] at hrecent hnull
    exact ⟨⟨Except.ok.inj hrecent, Except.ok.injEq _ _ ▸ hnull⟩, harray⟩
  · rintro ⟨⟨hrecent, hnull⟩, harray⟩
    refine ⟨?_, ?_, harray⟩
    · rw [h.getStr key, hrecent]
    · rw [h.getStr key, Except.ok.injEq]
      exact hnull

def keyA : KeyArg := ⟨some (ascii ['a']), 1, ascii ['a'], rfl⟩

/-- `value_arr_set_str(arr, "a", 1, value_long(i))` for each of the numbers. -/
def setsOfA (numbers : List Int64) : List BuildCall :=
  numbers.map fun i => .setStr keyA (some (.long i))

theorem setsOfA_sound (numbers : List Int64) : ∀ c ∈ setsOfA numbers, CallSound c := by
  intro c hc
  obtain ⟨i, -, rfl⟩ := List.mem_map.mp hc
  refine ⟨fun x hx => ?_, fun key hkey bs hbs => ?_⟩
  · cases hx
    exact .long i
  · cases hkey
    cases hbs
    decide

def onceSet : BuiltArray where
  cap := 0
  calls := setsOfA [1]
  arr := .arr ⟨4, [strKv (ascii ['a']) (some (.long 1))], 4⟩
  arr_eq := rfl
  sound := setsOfA_sound [1]
  length_lt := by decide

theorem getStr_agrees_onceSet : onceSet.Agrees noClasses keyA := by
  have hnum : decimalIndex keyA.bytes = none := by decide
  refine (getStr_agrees_iff onceSet noClasses keyA hnum).mpr ⟨.inr ⟨.long 1, rfl, rfl⟩, ?_⟩
  refine rebuildable_arr.mpr ⟨List.forall_mem_singleton.mpr (Or.inr ?_),
    List.forall_mem_singleton.mpr fun x hx => ?_⟩
  · exact Nat.one_ne_zero
  · cases hx
    exact rebuildable_leaf rfl trivial trivial

def twiceSet : BuiltArray where
  cap := 0
  calls := setsOfA [1, 2]
  arr := .arr ⟨4, [strKv (ascii ['a']) (some (.long 1)), strKv (ascii ['a']) (some (.long 2))], 4⟩
  arr_eq := rfl
  sound := setsOfA_sound [1, 2]
  length_lt := by decide

/-- With 1 and then 2 under `"a"` a lookup gives 1, and the PHP array holds 2. -/
theorem not_getStr_agrees :
    (¬ ∀ h classes key, decimalIndex key.bytes = none → BuiltArray.Agrees h classes key) ∧
      valueArrGetStr (some twiceSet.arr) keyA.key keyA.klen = .ok (some (.long 1)) ∧
      arrayItems noClasses twiceSet.arr.items.entries [] =
        .ok [(.str (ascii ['a']), .long 2)] := by
  have hget : valueArrGetStr (some twiceSet.arr) keyA.key keyA.klen = .ok (some (.long 1)) := rfl
  refine ⟨fun h => ?_, hget, rfl⟩
  have hrecent := (h twiceSet noClasses keyA (by decide)).recent
  rw [hget] at hrecent
  cases hrecent

end Parallax.Bridge
