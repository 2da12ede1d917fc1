import Parallax.Value.Value

/-! The trees the constructors and builders can produce, and the representation invariant they
keep: zero-length strings are NULL, an item block has `cap` slots for its `n` entries, and the
strings of an error are NUL-terminated. -/
namespace Parallax
open Memory
set_option autoImplicit false
set_option maxHeartbeats 250000

/-! ## The invariant -/

/-- The entry `value_arr_set_str` and `value_obj_set` write for the key bytes `key`. -/
def strKv (key : List UInt8) (child : Option Value) : Entry :=
  ⟨false, 0, blob key, key.length, child⟩

/-- An entry has an int key and no string, or a string key and no int. -/
inductive EntryWf : Entry → Prop
  | int (k : Int64) (c : Option Value) : EntryWf (intEntry k c)
  | str (key : List UInt8) (c : Option Value) (h : key.length < 2 ^ 64) : EntryWf (strKv key c)

/-- A block with `cap` slots, enough for its entries. -/
structure KvVec.Room {α : Type} (v : KvVec α) : Prop where
  slots_eq : v.slots = v.cap
  n_le : v.n ≤ v.cap

structure KvVec.Wf {α : Type} (v : KvVec α) : Prop where
  slots_eq : v.slots = v.cap
  n_le : v.n ≤ v.cap
  n_lt : v.n < 2 ^ 64

/-- A `char *` field of an error: NULL or one NUL, at the end. -/
inductive CStrWf : Ptr → Prop
  | null : CStrWf none
  | cstr (s : List UInt8) (h0 : (0 : UInt8) ∉ s) (h : s.length < 2 ^ 64) : CStrWf (cstr s)

inductive Value.Wf : Value → Prop
  | null : Wf .null
  | bool (b : Bool) : Wf (.bool b)
  | long (i : Int64) : Wf (.long i)
  | double (d : UInt64) : Wf (.double d)
  | str (bs : List UInt8) (h : bs.length < 2 ^ 64) : Wf (.str (blob bs) bs.length)
  | arr (items : KvVec Entry) (hv : items.Wf) (hk : ∀ kv ∈ items.entries, EntryWf kv)
      (hc : ∀ kv ∈ items.entries, ∀ c, kv.val = some c → Wf c) : Wf (.arr items)
  | obj (cls : List UInt8) (props : KvVec Entry) (h : cls.length < 2 ^ 64) (hv : props.Wf)
      (hk : ∀ kv ∈ props.entries, EntryWf kv) (hs : ∀ kv ∈ props.entries, kv.isIntKey = false)
      (hc : ∀ kv ∈ props.entries, ∀ c, kv.val = some c → Wf c) :
      Wf (.obj (blob cls) cls.length props)
  | err (cls msg : Ptr) (code : Int64) (trace : Ptr) (hc : CStrWf cls) (hm : CStrWf msg)
      (ht : CStrWf trace) : Wf (.err cls msg code trace)

/-- A child pointer: NULL, or a tree with the invariant. -/
def ChildWf (c : Option Value) : Prop := ∀ x, c = some x → x.Wf

def Value.n : Value → ℕ
  | .arr items => items.n
  | .obj _ _ props => props.n
  | _ => 0

/-! ## What the constructors and builders can produce -/

section Built
variable (source : Value → Prop) (derived : Value → Value → Prop)

/-- A tree some sequence of constructor and builder calls returns, given trees that come from
elsewhere, alone or out of another tree. The premises on sizes say only that objects and counts
have `size_t` sizes. -/
inductive BuiltFrom : Value → Prop
  | source {v : Value} (h : source v) : BuiltFrom v
  | derived {v w : Value} (hv : BuiltFrom v) (h : derived v w) : BuiltFrom w
  | null : BuiltFrom valueNull
  | bool (b : Bool) : BuiltFrom (valueBool b)
  | long (i : Int64) : BuiltFrom (valueLong i)
  | double (d : UInt64) : BuiltFrom (valueDouble d)
  | str {p : Ptr} {len : ℕ} {v : Value} (hp : Fits p) (h : valueStr p len = .ok v) : BuiltFrom v
  | arr (cap : ℕ) : BuiltFrom (valueArr cap)
  | obj {cls : Ptr} {clen cap : ℕ} {v : Value} (hp : Fits cls)
      (h : valueObj cls clen cap = .ok v) : BuiltFrom v
  | err {cls msg trace : Ptr} {code : Int64} {v : Value} (hc : Fits cls) (hm : Fits msg)
      (ht : Fits trace) (h : valueErr cls msg code trace = .ok v) : BuiltFrom v
  | push {a v : Value} {c : Option Value} (ha : BuiltFrom a)
      (hc : ∀ x, c = some x → BuiltFrom x) (h : valueArrPush a c = .ok v) (hn : v.n < 2 ^ 64) :
      BuiltFrom v
  | setInt {a v : Value} {c : Option Value} {k : Int64} (ha : BuiltFrom a)
      (hc : ∀ x, c = some x → BuiltFrom x) (h : valueArrSetInt a k c = .ok v)
      (hn : v.n < 2 ^ 64) : BuiltFrom v
  | setStr {a v : Value} {c : Option Value} {key : Ptr} {klen : ℕ} (ha : BuiltFrom a)
      (hc : ∀ x, c = some x → BuiltFrom x) (hp : Fits key)
      (h : valueArrSetStr a key klen c = .ok v) (hn : v.n < 2 ^ 64) : BuiltFrom v
  | objSet {o v : Value} {c : Option Value} {key : Ptr} {klen : ℕ} (ho : BuiltFrom o)
      (hc : ∀ x, c = some x → BuiltFrom x) (hp : Fits key)
      (h : valueObjSet o key klen c = .ok v) (hn : v.n < 2 ^ 64) : BuiltFrom v

end Built

/-- A tree made by constructors and builders alone. -/
abbrev Built : Value → Prop := BuiltFrom (fun _ => False) (fun _ _ => False)

/-! ## One lemma for each operation -/

theorem dupBytes_ok {src p : Ptr} {len : ℕ} (hf : Fits src) (h : dupBytes src len = .ok p) :
    ∃ bs, p = blob bs ∧ bs.length = len ∧ len < 2 ^ 64 := by
  unfold dupBytes at h
  split at h
  · next hz =>
    subst hz
    cases h
    exact ⟨[], rfl, rfl, by norm_num⟩
  · next hz =>
    obtain ⟨bs, hl, rfl⟩ := map_ok h
    obtain ⟨hlen, hsrc⟩ := load_ok hl
    obtain ⟨os, rfl, hle, -⟩ := hsrc (Nat.pos_of_ne_zero hz)
    have hne : bs ≠ [] := fun hb => hz (by rw [← hlen, hb]; rfl)
    exact ⟨bs, (blob_of_ne_nil hne).symm, hlen, lt_of_le_of_lt hle (hf os rfl)⟩

/-- What can be read is copied. -/
theorem dupBytes_load {p : Ptr} {len : ℕ} {bs : List UInt8} (h : load p len = .ok bs) :
    dupBytes p len = .ok (blob bs) := by
  obtain ⟨hlen, -⟩ := load_ok h
  subst hlen
  unfold dupBytes
  cases bs with
  | nil => rfl
  | cons b bs =>
    rw [if_neg (List.length_pos_of_mem (List.mem_cons_self ..)).ne', h]
    rfl

theorem dupBytes_blob (bs : List UInt8) : dupBytes (blob bs) bs.length = .ok (blob bs) :=
  dupBytes_load (load_blob bs)

theorem dupBytes_some (bs : List UInt8) : dupBytes (some bs) bs.length = .ok (blob bs) :=
  dupBytes_load (load_self bs)

theorem dupCstr_cstr {s : List UInt8} (h : (0 : UInt8) ∉ s) (rest : List UInt8) :
    dupCstr (some (s ++ 0 :: rest)) = .ok (cstr s) := by
  have hr : load (some (s ++ 0 :: rest)) (s.length + 1) = .ok (s ++ [0]) := by
    have := load_append (s ++ [0]) rest
    simpa using this
  simp only [dupCstr, strlen_object h, ok_bind, hr]
  rfl

/-- A string ends at its first NUL, and a terminated copy has one. -/
theorem dupCstr_terminated (bs : List UInt8) :
    ∃ cut, dupCstr (some (bs ++ [0])) = .ok (cstr cut) ∧ (0 : UInt8) ∉ cut ∧
      cut.length ≤ bs.length := by
  obtain ⟨cut, rest, hcut, hnul⟩ := List.eq_append_cons_of_mem
    (show (0 : UInt8) ∈ bs ++ [0] from List.mem_append_right _ (List.mem_singleton.mpr rfl))
  have := congrArg List.length hcut
  simp only [List.length_append, List.length_cons, List.length_nil] at this
  exact ⟨cut, by rw [hcut, dupCstr_cstr hnul], hnul, by omega⟩

theorem dupCstr_ok {src p : Ptr} (hf : Fits src) (h : dupCstr src = .ok p) : CStrWf p := by
  cases src with
  | none => cases h; exact .null
  | some bs =>
    obtain ⟨n, hn, -⟩ := bind_ok h
    obtain ⟨s, rest, he, hs, -⟩ := strlen_ok hn
    cases he
    rw [dupCstr_cstr hs] at h
    cases h
    refine .cstr s hs ?_
    have := hf _ rfl
    simp only [List.length_append, List.length_cons] at this
    omega

namespace KvVec
variable {α : Type}

theorem Wf.room {v : KvVec α} (h : v.Wf) : v.Room := ⟨h.slots_eq, h.n_le⟩

theorem grow_room {v : KvVec α} (h : v.Room) :
    v.grow.Room ∧ v.n < (if v.n = v.cap then v.grow else v).slots := by
  have hs := h.slots_eq
  have hn := h.n_le
  constructor
  · refine ⟨rfl, ?_⟩
    show v.n ≤ if v.cap = 0 then 4 else v.cap * 2
    split <;> omega
  · by_cases hc : v.n = v.cap
    · rw [if_pos hc]
      show v.n < if v.cap = 0 then 4 else v.cap * 2
      split <;> omega
    · rw [if_neg hc]
      omega

theorem append_room {v : KvVec α} (h : v.Room) (kv : α) :
    ∃ w, v.append kv = .ok w ∧ w.entries = v.entries ++ [kv] ∧ w.Room := by
  obtain ⟨hg, hlt⟩ := grow_room h
  have hn : (v.entries ++ [kv]).length = v.n + 1 := by
    rw [List.length_append, List.length_singleton, n]
  by_cases hc : v.n = v.cap
  · rw [if_pos hc] at hlt
    have hgn : v.grow.n = v.n := rfl
    refine ⟨{ v.grow with entries := v.entries ++ [kv] }, ?_, rfl, rfl, ?_⟩
    · simp only [append, if_pos hc, hgn, if_pos hlt]
      rfl
    · have := hg.slots_eq
      show (v.entries ++ [kv]).length ≤ v.grow.cap
      omega
  · rw [if_neg hc] at hlt
    refine ⟨{ v with entries := v.entries ++ [kv] }, ?_, rfl, h.slots_eq, ?_⟩
    · simp only [append, if_neg hc, if_pos hlt]
    · have hs := h.slots_eq
      show (v.entries ++ [kv]).length ≤ v.cap
      omega

theorem entries_append {v w : KvVec α} {kv : α} (h : v.append kv = .ok w) :
    w.entries = v.entries ++ [kv] := by
  unfold KvVec.append at h
  dsimp only at h
  split_ifs at h <;> cases h <;> rfl

theorem n_append {v w : KvVec α} {kv : α} (h : v.append kv = .ok w) : w.n = v.n + 1 := by
  rw [n, entries_append h, List.length_append]
  rfl

theorem append_ok {v : KvVec α} (h : v.Wf) (kv : α) :
    ∃ w, v.append kv = .ok w ∧ w.entries = v.entries ++ [kv] ∧
      (w.n < 2 ^ 64 → w.Wf) := by
  obtain ⟨w, hw, hent, hroom⟩ := append_room h.room kv
  exact ⟨w, hw, hent, fun hn => ⟨hroom.slots_eq, hroom.n_le, hn⟩⟩

end KvVec

theorem strEntry_ok {key : Ptr} {klen : ℕ} {c : Option Value} {kv : Entry} (hf : Fits key)
    (h : strEntry key klen c = .ok kv) :
    ∃ bs, kv = strKv bs c ∧ bs.length = klen ∧ bs.length < 2 ^ 64 := by
  obtain ⟨p, hp, he⟩ := bind_ok h
  obtain ⟨bs, rfl, hl, hlt⟩ := dupBytes_ok hf hp
  cases he
  exact ⟨bs, by rw [strKv, hl], hl, hl ▸ hlt⟩

theorem strEntry_load {key : Ptr} {klen : ℕ} {bs : List UInt8} (h : load key klen = .ok bs)
    (c : Option Value) : strEntry key klen c = .ok (strKv bs c) := by
  obtain ⟨rfl, -⟩ := load_ok h
  rw [strEntry, dupBytes_load h]
  rfl

theorem strEntry_some (bs : List UInt8) (c : Option Value) :
    strEntry (some bs) bs.length c = .ok (strKv bs c) := strEntry_load (load_self bs) c

theorem entries_append {P : Entry → Prop} {entries : List Entry} {kv : Entry}
    (h : ∀ e ∈ entries, P e) (hk : P kv) : ∀ e ∈ entries ++ [kv], P e := by
  intro e he
  rcases List.mem_append.mp he with he | he
  · exact h e he
  · rw [List.mem_singleton.mp he]
    exact hk

theorem Value.Wf.arr_append {items w : KvVec Entry} {kv : Entry} (h : (Value.arr items).Wf)
    (hk : EntryWf kv) (hc : ChildWf kv.val) (hw : items.append kv = .ok w) (hn : w.n < 2 ^ 64) :
    (Value.arr w).Wf := by
  cases h with
  | arr _ hv hks hcs =>
    obtain ⟨w', hw', hent, hwf⟩ := KvVec.append_ok hv kv
    rw [hw'] at hw
    cases hw
    refine .arr _ (hwf hn) ?_ ?_
    · rw [hent]; exact entries_append hks hk
    · rw [hent]; exact entries_append hcs hc

theorem Value.Wf.obj_append {cls : Ptr} {clen : ℕ} {props w : KvVec Entry} {kv : Entry}
    (h : (Value.obj cls clen props).Wf) (hk : EntryWf kv) (hs : kv.isIntKey = false)
    (hc : ChildWf kv.val) (hw : props.append kv = .ok w) (hn : w.n < 2 ^ 64) :
    (Value.obj cls clen w).Wf := by
  cases h with
  | obj cls _ hcl hv hks hss hcs =>
    obtain ⟨w', hw', hent, hwf⟩ := KvVec.append_ok hv kv
    rw [hw'] at hw
    cases hw
    refine .obj cls _ hcl (hwf hn) ?_ ?_ ?_
    · rw [hent]; exact entries_append hks hk
    · rw [hent]; exact entries_append hss hs
    · rw [hent]; exact entries_append hcs hc

theorem empty_wf (cap : ℕ) : (⟨cap, [], cap⟩ : KvVec Entry).Wf :=
  ⟨rfl, Nat.zero_le _, by norm_num [KvVec.n]⟩

theorem valueArr_wf (cap : ℕ) : (valueArr cap).Wf :=
  .arr _ (empty_wf cap) (by simp) (by simp)

theorem valueStr_wf {p : Ptr} {len : ℕ} {v : Value} (hf : Fits p) (h : valueStr p len = .ok v) :
    v.Wf := by
  obtain ⟨q, hq, he⟩ := bind_ok h
  obtain ⟨bs, rfl, rfl, hlt⟩ := dupBytes_ok hf hq
  cases he
  exact .str bs hlt

theorem valueObj_wf {cls : Ptr} {clen cap : ℕ} {v : Value} (hf : Fits cls)
    (h : valueObj cls clen cap = .ok v) : v.Wf := by
  obtain ⟨q, hq, he⟩ := bind_ok h
  obtain ⟨bs, rfl, rfl, hlt⟩ := dupBytes_ok hf hq
  cases he
  exact .obj bs _ hlt (empty_wf cap) (by simp) (by simp) (by simp)

theorem valueErr_wf {cls msg trace : Ptr} {code : Int64} {v : Value} (hc : Fits cls)
    (hm : Fits msg) (ht : Fits trace) (h : valueErr cls msg code trace = .ok v) : v.Wf := by
  obtain ⟨c, hc', h⟩ := bind_ok h
  obtain ⟨m, hm', h⟩ := bind_ok h
  obtain ⟨t, ht', h⟩ := bind_ok h
  cases h
  exact .err _ _ _ _ (dupCstr_ok hc hc') (dupCstr_ok hm hm') (dupCstr_ok ht ht')

theorem valueArrPush_wf {a v : Value} {c : Option Value} (ha : a.Wf) (hc : ChildWf c)
    (h : valueArrPush a c = .ok v) (hn : v.n < 2 ^ 64) : v.Wf := by
  cases a with
  | arr items =>
    obtain ⟨k, -, h⟩ := bind_ok h
    obtain ⟨w, hw, h⟩ := bind_ok h
    cases h
    exact ha.arr_append (.int k c) hc hw hn
  | _ => cases h

theorem valueArrSetInt_wf {a v : Value} {c : Option Value} {k : Int64} (ha : a.Wf)
    (hc : ChildWf c) (h : valueArrSetInt a k c = .ok v) (hn : v.n < 2 ^ 64) : v.Wf := by
  cases a with
  | arr items =>
    obtain ⟨w, hw, h⟩ := bind_ok h
    cases h
    exact ha.arr_append (.int k c) hc hw hn
  | _ => cases h

theorem valueArrSetStr_wf {a v : Value} {c : Option Value} {key : Ptr} {klen : ℕ} (ha : a.Wf)
    (hc : ChildWf c) (hp : Fits key) (h : valueArrSetStr a key klen c = .ok v)
    (hn : v.n < 2 ^ 64) : v.Wf := by
  cases a with
  | arr items =>
    obtain ⟨kv, hkv, h⟩ := bind_ok h
    obtain ⟨bs, rfl, -, hlt⟩ := strEntry_ok hp hkv
    obtain ⟨w, hw, h⟩ := bind_ok h
    cases h
    exact ha.arr_append (.str bs c hlt) hc hw hn
  | _ => cases h

theorem valueObjSet_wf {o v : Value} {c : Option Value} {key : Ptr} {klen : ℕ} (ho : o.Wf)
    (hc : ChildWf c) (hp : Fits key) (h : valueObjSet o key klen c = .ok v)
    (hn : v.n < 2 ^ 64) : v.Wf := by
  cases o with
  | obj cls clen props =>
    obtain ⟨kv, hkv, h⟩ := bind_ok h
    obtain ⟨bs, rfl, -, hlt⟩ := strEntry_ok hp hkv
    obtain ⟨w, hw, h⟩ := bind_ok h
    cases h
    exact ho.obj_append (.str bs c hlt) rfl hc hw hn
  | _ => cases h

/-- Every tree the constructors and builders produce has the invariant, if what comes from elsewhere
has it. -/
theorem BuiltFrom.wf {source : Value → Prop} {derived : Value → Value → Prop}
    (hsource : ∀ v, source v → v.Wf) (hderived : ∀ v w, v.Wf → derived v w → w.Wf) {v : Value}
    (h : BuiltFrom source derived v) : v.Wf := by
  induction h with
  | source h => exact hsource _ h
  | derived _ h ih => exact hderived _ _ ih h
  | null => exact .null
  | bool b => exact .bool b
  | long i => exact .long i
  | double d => exact .double d
  | str hp h => exact valueStr_wf hp h
  | arr cap => exact valueArr_wf cap
  | obj hp h => exact valueObj_wf hp h
  | err hc hm ht h => exact valueErr_wf hc hm ht h
  | push _ _ h hn iha ihc => exact valueArrPush_wf iha ihc h hn
  | setInt _ _ h hn iha ihc => exact valueArrSetInt_wf iha ihc h hn
  | setStr _ _ hp h hn iha ihc => exact valueArrSetStr_wf iha ihc hp h hn
  | objSet _ _ hp h hn iho ihc => exact valueObjSet_wf iho ihc hp h hn

theorem Built.wf {v : Value} (h : Built v) : v.Wf :=
  BuiltFrom.wf (fun _ hf => hf.elim) (fun _ _ _ hf => hf.elim) h

end Parallax
