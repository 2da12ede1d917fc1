import Parallax.Value.RoundTrip
import Parallax.Value.Clone
import Parallax.Value.Unpacked
import Parallax.Bridge.CaptureExact
import Parallax.Bridge.Materialise

/-! Empty strings are stored as NULL. Every consumer of a snapshot is held against that: all but
one never read through such a pointer, and the array builder does so for an empty key. -/
namespace Parallax.Bridge
open Memory Walks OrderedMap
set_option autoImplicit false
set_option maxHeartbeats 250000

/-! ## Where snapshots come from -/

/-- Strings and tables have `size_t` sizes. -/
def SizedAt (h : Heap) : Zval → Prop
  | .string s => s.length < 2 ^ 64
  | .array a => (h.array a).length < 2 ^ 64 ∧
      ∀ e ∈ h.array a, ∀ key, e.1 = .str key → key.length < 2 ^ 64
  | .object o => (h.object o).ce.name.length < 2 ^ 64 ∧ (h.properties o).length < 2 ^ 64 ∧
      ∀ p ∈ h.properties o, p.1.length < 2 ^ 64
  | _ => True

theorem Unfolding.wf {h : Heap} {zv : Zval} {v : Value} (hu : Unfolding h zv v)
    (hs : Everywhere h.kids (SizedAt h) zv) : v.Wf := by
  induction hu with
  | null => exact .null
  | true => exact .bool Bool.true
  | false => exact .bool Bool.false
  | long i => exact .long i
  | double d => exact .double d
  | string s => exact .str s (everywhere_iff.mp hs).1
  | array a vs items hentries hroom hlen _ ih =>
    obtain ⟨⟨hn, hkey⟩, hkids⟩ := everywhere_iff.mp hs
    have hentry : ∀ kv ∈ items.entries, EntryWf kv ∧ ChildWf kv.val := by
      intro kv hkv
      rw [hentries] at hkv
      obtain ⟨⟨⟨key, zv⟩, c⟩, hx, rfl⟩ := mem_zipWith hkv
      have hmem := (List.of_mem_zip hx).1
      have hc := ih _ hx (hkids zv (List.mem_map_of_mem hmem))
      have hchild : ChildWf (some c) := fun y hy => Option.some.inj hy ▸ hc
      cases key with
      | int idx => exact ⟨.int _ _, hchild⟩
      | str key => exact ⟨.str _ _ (hkey _ hmem key rfl), hchild⟩
    have hcount : items.n < 2 ^ 64 := by
      rw [KvVec.n, hentries, List.length_zipWith]
      omega
    exact .arr items ⟨hroom.slots_eq, hroom.n_le, hcount⟩ (fun kv hkv => (hentry kv hkv).1)
      (fun kv hkv => (hentry kv hkv).2)
  | object o vs props hentries hroom hlen _ ih =>
    obtain ⟨⟨hcls, hn, hname⟩, hkids⟩ := everywhere_iff.mp hs
    have hentry : ∀ kv ∈ props.entries,
        EntryWf kv ∧ kv.isIntKey = Bool.false ∧ ChildWf kv.val := by
      intro kv hkv
      rw [hentries] at hkv
      obtain ⟨⟨p, c⟩, hx, rfl⟩ := mem_zipWith hkv
      have hmem := (List.of_mem_zip hx).1
      have hc := ih _ hx (hkids p.2 (List.mem_map_of_mem hmem))
      exact ⟨.str _ _ (hname p hmem), rfl, fun y hy => Option.some.inj hy ▸ hc⟩
    have hcount : props.n < 2 ^ 64 := by
      rw [KvVec.n, hentries, List.length_zipWith]
      omega
    exact .obj _ props hcls ⟨hroom.slots_eq, hroom.n_le, hcount⟩ (fun kv hkv => (hentry kv hkv).1)
      (fun kv hkv => (hentry kv hkv).2.1) (fun kv hkv => (hentry kv hkv).2.2)

/-- A tree that was unpacked, or captured. -/
def Received (v : Value) : Prop :=
  (∃ buf, valueUnpack buf = .ok (some v)) ∨
    ∃ h zv, Everywhere h.kids (SizedAt h) zv ∧ pxZvalToValue h zv = .ok v

/-- A snapshot: made by the constructors and builders, unpacked, captured, or a copy. -/
abbrev Produced : Value → Prop :=
  BuiltFrom Received fun v w => valueClone (some v) = .ok (some w)

theorem Produced.wf {v : Value} (h : Produced v) : v.Wf := by
  refine BuiltFrom.wf (fun v hv => ?_) (fun v w hv hw => hv.clone hw) h
  rcases hv with ⟨buf, hbuf⟩ | ⟨h, zv, hs, hzv⟩
  · exact valueUnpack_wf hbuf
  · exact (pxZvalToValue_unfolding hzv).wf hs

/-! ## Reads through NULL -/

/-- No read went through a NULL pointer. -/
def NullSafe {α : Type} (x : Except Fault α) : Prop := x ≠ .error .nullRead

theorem nullSafe_ok {α : Type} (a : α) : NullSafe (.ok a) := fun h => by cases h

theorem nullSafe_of_ok {α : Type} {x : Except Fault α} {a : α} (h : x = .ok a) : NullSafe x := by
  rw [h]
  exact nullSafe_ok a

theorem NullSafe.bind {α β : Type} {x : Except Fault α} {f : α → Except Fault β}
    (hx : NullSafe x) (hf : ∀ a, x = .ok a → NullSafe (f a)) : NullSafe (x >>= f) := by
  cases x with
  | error e => exact fun h => hx (by cases h; rfl)
  | ok a => exact hf a rfl

theorem NullSafe.map {α β : Type} {x : Except Fault α} (hx : NullSafe x) (f : α → β) :
    NullSafe (x.map f) := by
  cases x with
  | error e => exact fun h => hx (by cases h; rfl)
  | ok a => exact nullSafe_ok (f a)

/-- Nothing that reads the snapshot reads through NULL: the packer, the copy, the lookup under a
key the caller has, and the conversion in a thread with whatever classes. -/
def ConsumersSafe (v : Value) : Prop :=
  NullSafe (valuePack (some v)) ∧ NullSafe (valueClone (some v)) ∧
    (∀ key klen bs, load key klen = .ok bs → NullSafe (valueArrGetStr (some v) key klen)) ∧
    ∀ classes, NullSafe (pxValueToZval classes (some v))

def children : Value → List Value
  | .arr items => items.entries.filterMap Kv.val
  | .obj _ _ props => props.entries.filterMap Kv.val
  | _ => []

def KeysNonempty : Value → Prop
  | .arr items => ∀ kv ∈ items.entries, kv.isIntKey = true ∨ kv.skeyLen ≠ 0
  | _ => True

/-- No array in the tree has an entry under the empty string. -/
def NoEmptyKey (v : Value) : Prop := Everywhere children KeysNonempty v

theorem forall_filterMap_val {entries : List Entry} {P : Value → Prop} :
    (∀ y ∈ entries.filterMap Kv.val, P y) ↔ ∀ kv ∈ entries, ∀ x, kv.val = some x → P x := by
  constructor
  · exact fun h kv hkv x hx => h x (List.mem_filterMap.mpr ⟨kv, hkv, hx⟩)
  · intro h y hy
    obtain ⟨kv, hkv, hx⟩ := List.mem_filterMap.mp hy
    exact h kv hkv y hx

theorem noEmptyKey_arr {items : KvVec Entry} :
    NoEmptyKey (.arr items) ↔ (∀ kv ∈ items.entries, kv.isIntKey = true ∨ kv.skeyLen ≠ 0) ∧
      ∀ kv ∈ items.entries, ∀ x, kv.val = some x → NoEmptyKey x := by
  rw [NoEmptyKey, everywhere_iff]
  exact and_congr_right fun _ => forall_filterMap_val

theorem noEmptyKey_obj {cls : Ptr} {clen : ℕ} {props : KvVec Entry} :
    NoEmptyKey (.obj cls clen props) ↔
      ∀ kv ∈ props.entries, ∀ x, kv.val = some x → NoEmptyKey x := by
  rw [NoEmptyKey, everywhere_iff]
  exact (and_iff_right trivial).trans forall_filterMap_val

theorem noEmptyKey_leaf {v : Value} (hkids : children v = []) (hkeys : KeysNonempty v) :
    NoEmptyKey v := by
  refine everywhere_iff.mpr ⟨hkeys, ?_⟩
  rw [hkids]
  exact List.forall_mem_nil _

/-! ## Lookups -/

/-- The child of an entry under the key. -/
def entryUnder (k : List UInt8) (kv : Entry) : Option (Option Value) :=
  if kv.isIntKey = false ∧ contents kv.skey = k then some kv.val else none

theorem under_int (k : List UInt8) (key : Int64) (c : Option Value) :
    entryUnder k (intEntry key c) = none := if_neg fun h => Bool.noConfusion h.1

theorem under_str (k key : List UInt8) (c : Option Value) :
    entryUnder k (strKv key c) = if key = k then some c else none := by
  unfold entryUnder strKv
  dsimp only
  rw [contents_blob]
  exact if_congr (and_iff_right rfl) rfl rfl

theorem memEq_blob {name k : List UInt8} {key : Ptr} {klen : ℕ} (hlen : name.length = klen)
    (hkey : load key klen = .ok k) : memEq (blob name) key klen = .ok (name == k) := by
  rw [memEq, ← hlen, load_blob, ok_bind, hlen, hkey]
  rfl

/-- The scan stops at the first entry under the key. -/
theorem getStrLoop_eq {entries : List Entry} (hk : ∀ kv ∈ entries, EntryWf kv) {key : Ptr}
    {klen : ℕ} {k : List UInt8} (hkey : load key klen = .ok k) :
    getStrLoop key klen entries = .ok (entries.filterMap (entryUnder k)).head?.join := by
  obtain ⟨hklen, -⟩ := load_ok hkey
  induction entries with
  | nil => rfl
  | cons kv rest ih =>
    obtain ⟨hkv, hrest⟩ := List.forall_mem_cons.mp hk
    rw [getStrLoop, List.filterMap_cons]
    cases hkv with
    | int i c =>
      rw [under_int, if_pos (show (intEntry i c).isIntKey = true ∨ _ from Or.inl rfl)]
      exact ih hrest
    | str name c _ =>
      rw [under_str]
      by_cases hlen : name.length = klen
      · have hscan : ¬ ((strKv name c).isIntKey = true ∨ (strKv name c).skeyLen ≠ klen) := by
          rintro (hint | hne)
          · cases hint
          · exact hne hlen
        have hsame : memEq (strKv name c).skey key klen = .ok (name == k) := memEq_blob hlen hkey
        rw [if_neg hscan, hsame, ok_bind]
        by_cases hname : name = k
        · rw [if_pos hname, if_pos (beq_iff_eq.mpr hname)]
          rfl
        · rw [if_neg hname, if_neg fun h => hname (beq_iff_eq.mp h)]
          exact ih hrest
      · have hname : name ≠ k := fun h => hlen (h ▸ hklen)
        rw [if_pos (show (strKv name c).isIntKey = true ∨ (strKv name c).skeyLen ≠ klen from
          Or.inr hlen), if_neg hname]
        exact ih hrest

/-! ## The consumers that are always safe -/

theorem valueArrGetStr_ok {v : Value} (h : v.Wf) {key : Ptr} {klen : ℕ} {bs : List UInt8}
    (hkey : load key klen = .ok bs) : ∃ r, valueArrGetStr (some v) key klen = .ok r := by
  cases h with
  | arr items _ hk _ => exact ⟨_, getStrLoop_eq hk hkey⟩
  | _ => exact ⟨none, rfl⟩

/-! ## The conversion -/

theorem errorText_ok {p : Ptr} (h : CStrWf p) : ∃ s, errorText p = .ok s := by
  cases h with
  | null => exact ⟨[], rfl⟩
  | cstr s h0 _ =>
    refine ⟨s, ?_⟩
    unfold errorText
    rw [if_neg (by simp [cstr])]
    dsimp only
    rw [strlen_cstr h0, ok_bind, load_cstr]

theorem updateProperty_some (ce : WorkerClass) (obj : NewObject) (name : ZStr) (val : Php) :
    ∃ obj', updateProperty ce (some obj) name val = .ok (some obj') := ⟨_, rfl⟩

theorem errorToZval_ok {cls msg trace : Ptr} (code : Int64) (hc : CStrWf cls) (hm : CStrWf msg)
    (ht : CStrWf trace) : ∃ t, errorToZval cls msg code trace = .ok t := by
  obtain ⟨c, hc⟩ := errorText_ok hc
  obtain ⟨m, hm⟩ := errorText_ok hm
  obtain ⟨t, ht⟩ := errorText_ok ht
  unfold errorToZval
  rw [hc, hm, ht]
  exact ⟨_, rfl⟩

theorem stringZval_blob (bs : List UInt8) : stringZval (blob bs) bs.length = .ok (.string bs) := by
  unfold stringZval
  cases bs with
  | nil => rfl
  | cons b bs =>
    rw [if_neg (by simp [blob_cons]), load_blob]
    rfl

section Convert
variable {classes : ClassTable}

/-- A nonempty key is stored, an empty one is read through NULL. -/
theorem addAssocZvalEx_blob (target : Elements) (key : List UInt8) (child : Php) :
    (key ≠ [] ∧ ∃ t, addAssocZvalEx target (blob key) key.length child = .ok t) ∨
      (key = [] ∧ addAssocZvalEx target (blob key) key.length child = .error .nullRead) := by
  unfold addAssocZvalEx
  cases key with
  | nil => exact Or.inr ⟨rfl, rfl⟩
  | cons b key =>
    have hfirst : load (blob (b :: key)) 1 = .ok [b] := by
      rw [blob_cons, load_some _ _ (by simp)]
      rfl
    refine Or.inl ⟨List.cons_ne_nil _ _, ?_⟩
    rw [hfirst, ok_bind, load_blob, ok_bind]
    exact ⟨_, rfl⟩

theorem ptrToZval_nullSafe {c : Option Value}
    (h : ∀ x, c = some x → NullSafe (valueToZval classes x)) : NullSafe (ptrToZval classes c) := by
  cases c with
  | none =>
    rw [ptrToZval]
    exact nullSafe_ok _
  | some x =>
    rw [ptrToZval]
    exact h x rfl

theorem arrayItems_nullSafe {entries : List Entry} (hk : ∀ kv ∈ entries, EntryWf kv)
    (hkeys : ∀ kv ∈ entries, kv.isIntKey = true ∨ kv.skeyLen ≠ 0)
    (hc : ∀ kv ∈ entries, ∀ x, kv.val = some x → NullSafe (valueToZval classes x))
    (target : Elements) : NullSafe (arrayItems classes entries target) := by
  induction entries generalizing target with
  | nil =>
    rw [arrayItems]
    exact nullSafe_ok _
  | cons kv rest ih =>
    obtain ⟨hkv, hkrest⟩ := List.forall_mem_cons.mp hk
    obtain ⟨hkey, hkeysrest⟩ := List.forall_mem_cons.mp hkeys
    obtain ⟨hval, hcrest⟩ := List.forall_mem_cons.mp hc
    have hchild := ptrToZval_nullSafe hval
    cases hkv with
    | int k c =>
      rw [intEntry, arrayItems]
      exact hchild.bind fun t _ => ih hkrest hkeysrest hcrest _
    | str key c _ =>
      rw [strKv, arrayItems]
      refine hchild.bind fun t _ => ?_
      rw [if_neg Bool.false_ne_true]
      rcases addAssocZvalEx_blob target key t with ⟨-, t', ht'⟩ | ⟨rfl, -⟩
      · rw [ht', ok_bind]
        exact ih hkrest hkeysrest hcrest t'
      · rcases hkey with hkey | hkey
        · cases hkey
        · exact absurd rfl hkey

theorem objectItems_nullSafe (ce : WorkerClass) {entries : List Entry}
    (hk : ∀ kv ∈ entries, EntryWf kv) (hs : ∀ kv ∈ entries, kv.isIntKey = false)
    (hc : ∀ kv ∈ entries, ∀ x, kv.val = some x → NullSafe (valueToZval classes x))
    (target : Option NewObject) : NullSafe (objectItems classes ce entries target) := by
  induction entries generalizing target with
  | nil =>
    rw [objectItems]
    exact nullSafe_ok _
  | cons kv rest ih =>
    obtain ⟨hkv, hkrest⟩ := List.forall_mem_cons.mp hk
    obtain ⟨hstr, hsrest⟩ := List.forall_mem_cons.mp hs
    obtain ⟨hval, hcrest⟩ := List.forall_mem_cons.mp hc
    have hchild := ptrToZval_nullSafe hval
    cases hkv with
    | int k c => cases hstr
    | str key c _ =>
      rw [strKv, objectItems]
      refine hchild.bind fun t _ => ?_
      rw [load_blob, ok_bind]
      cases target with
      | none => exact fun h => by cases h
      | some obj =>
        obtain ⟨obj', hobj⟩ := updateProperty_some ce obj key t
        rw [hobj, ok_bind]
        exact ih hkrest hsrest hcrest _

/-- Without empty keys the conversion is safe, whatever the classes. -/
theorem valueToZval_nullSafe {v : Value} (h : v.Wf) (hn : NoEmptyKey v) :
    NullSafe (valueToZval classes v) := by
  induction h with
  | str bs _ =>
    rw [valueToZval, stringZval_blob]
    exact nullSafe_ok _
  | arr items _ hk _ ih =>
    obtain ⟨hkeys, hkids⟩ := noEmptyKey_arr.mp hn
    obtain ⟨slots, entries, cap⟩ := items
    rw [valueToZval]
    have hsafe := arrayItems_nullSafe hk hkeys
      (fun kv hkv x hx => ih kv hkv x hx (hkids kv hkv x hx))
    exact (hsafe []).map _
  | obj cls props _ _ hk hs _ ih =>
    have hkids := noEmptyKey_obj.mp hn
    obtain ⟨slots, entries, cap⟩ := props
    rw [valueToZval, load_blob, ok_bind]
    have hitems := fun kv hkv x hx => ih kv hkv x hx (hkids kv hkv x hx)
    exact (objectItems_nullSafe _ hk hs hitems _).bind fun _ _ => nullSafe_ok _
  | err cls msg code trace hc hm ht =>
    obtain ⟨t, ht⟩ := errorToZval_ok code hc hm ht
    rw [valueToZval, ht]
    exact nullSafe_ok t
  | _ =>
    rw [valueToZval]
    exact nullSafe_ok _

end Convert

/-! ## An empty key is fatal -/

/-- Done, or stopped at a read through NULL, as `P` says. -/
def Settles {α : Type} (P : Prop) (x : Except Fault α) : Prop :=
  (P ∧ ∃ a, x = .ok a) ∨ (¬ P ∧ x = .error .nullRead)

theorem settles_ok {α : Type} {P : Prop} (hp : P) (a : α) : Settles P (.ok a : Except Fault α) :=
  Or.inl ⟨hp, a, rfl⟩

theorem Settles.congr {α : Type} {P Q : Prop} {x : Except Fault α} (h : Settles P x)
    (hpq : P ↔ Q) : Settles Q x := by
  unfold Settles
  rw [← hpq]
  exact h

theorem Settles.bind {α β : Type} {P Q : Prop} {x : Except Fault α} {f : α → Except Fault β}
    (hx : Settles P x) (hf : ∀ a, Settles Q (f a)) : Settles (P ∧ Q) (x >>= f) := by
  rcases hx with ⟨hp, a, rfl⟩ | ⟨hp, rfl⟩
  · exact (hf a).congr (and_iff_right hp).symm
  · exact Or.inr ⟨fun hpq => hp hpq.1, rfl⟩

theorem Settles.map {α β : Type} {P : Prop} {x : Except Fault α} (hx : Settles P x) (f : α → β) :
    Settles P (x.map f) := by
  rcases hx with ⟨hp, a, rfl⟩ | ⟨hp, rfl⟩
  · exact settles_ok hp (f a)
  · exact Or.inr ⟨hp, rfl⟩

/-- A thread that has no classes: every object is made of `stdClass`. -/
def noClasses : ClassTable := fun _ => none

theorem ptrToZval_settles {c : Option Value}
    (h : ∀ x, c = some x → Settles (NoEmptyKey x) (valueToZval noClasses x)) :
    Settles (∀ x, c = some x → NoEmptyKey x) (ptrToZval noClasses c) := by
  cases c with
  | none =>
    rw [ptrToZval]
    exact settles_ok (fun x hx => by cases hx) _
  | some x =>
    rw [ptrToZval]
    exact (h x rfl).congr ⟨fun hn y hy => Option.some.inj hy ▸ hn, fun hn => hn x rfl⟩

theorem arrayItems_settles {entries : List Entry} (hk : ∀ kv ∈ entries, EntryWf kv)
    (hc : ∀ kv ∈ entries, ∀ x, kv.val = some x →
      Settles (NoEmptyKey x) (valueToZval noClasses x)) (target : Elements) :
    Settles (∀ kv ∈ entries, (kv.isIntKey = true ∨ kv.skeyLen ≠ 0) ∧
      ∀ x, kv.val = some x → NoEmptyKey x) (arrayItems noClasses entries target) := by
  induction entries generalizing target with
  | nil =>
    rw [arrayItems]
    exact settles_ok (List.forall_mem_nil _) _
  | cons kv rest ih =>
    obtain ⟨hkv, hkrest⟩ := List.forall_mem_cons.mp hk
    obtain ⟨hval, hcrest⟩ := List.forall_mem_cons.mp hc
    have hchild := ptrToZval_settles hval
    have hrest := ih hkrest hcrest
    rw [List.forall_mem_cons]
    cases hkv with
    | int k c =>
      rw [intEntry, arrayItems]
      refine (hchild.bind fun t => hrest _).congr (and_congr_left fun _ => ?_)
      exact (and_iff_right (Or.inl rfl)).symm
    | str key c _ =>
      rw [strKv, arrayItems]
      have hkey (t : Php) (f : Elements → Except Fault Elements) {Q : Prop}
          (hf : ∀ target, Settles Q (f target)) :
          Settles (key ≠ [] ∧ Q) (addAssocZvalEx target (blob key) key.length t >>= f) := by
        refine Settles.bind ?_ hf
        rcases addAssocZvalEx_blob target key t with ⟨hne, t', ht'⟩ | ⟨heq, hfault⟩
        · exact Or.inl ⟨hne, t', ht'⟩
        · exact Or.inr ⟨fun hne => hne heq, hfault⟩
      refine (hchild.bind fun t => hkey t _ hrest).congr ?_
      have hlen : (Bool.false = true ∨ key.length ≠ 0) ↔ key ≠ [] := by
        rw [or_iff_right Bool.false_ne_true, ne_eq, List.length_eq_zero_iff]
      rw [← and_assoc, and_comm (b := key ≠ []), ← hlen]
      exact Iff.rfl

theorem objectItems_settles {entries : List Entry} (hk : ∀ kv ∈ entries, EntryWf kv)
    (hs : ∀ kv ∈ entries, kv.isIntKey = false)
    (hc : ∀ kv ∈ entries, ∀ x, kv.val = some x →
      Settles (NoEmptyKey x) (valueToZval noClasses x)) (ce : WorkerClass) (target : NewObject) :
    Settles (∀ kv ∈ entries, ∀ x, kv.val = some x → NoEmptyKey x)
      (objectItems noClasses ce entries (some target)) := by
  induction entries generalizing target with
  | nil =>
    rw [objectItems]
    exact settles_ok (List.forall_mem_nil _) _
  | cons kv rest ih =>
    obtain ⟨hkv, hkrest⟩ := List.forall_mem_cons.mp hk
    obtain ⟨hstr, hsrest⟩ := List.forall_mem_cons.mp hs
    obtain ⟨hval, hcrest⟩ := List.forall_mem_cons.mp hc
    have hrest := ih hkrest hsrest hcrest
    rw [List.forall_mem_cons]
    cases hkv with
    | int k c => cases hstr
    | str key c _ =>
      rw [strKv, objectItems]
      refine (ptrToZval_settles hval).bind fun t => ?_
      rw [load_blob, ok_bind]
      obtain ⟨obj', hobj⟩ := updateProperty_some ce target key t
      rw [hobj, ok_bind]
      exact hrest obj'

theorem valueToZval_settles {v : Value} (h : v.Wf) :
    Settles (NoEmptyKey v) (valueToZval noClasses v) := by
  induction h with
  | str bs _ =>
    rw [valueToZval, stringZval_blob]
    exact settles_ok (noEmptyKey_leaf rfl (by trivial)) _
  | arr items _ hk _ ih =>
    obtain ⟨slots, entries, cap⟩ := items
    rw [valueToZval]
    refine ((arrayItems_settles hk ih []).map _).congr ?_
    rw [noEmptyKey_arr, ← forall₂_and]
  | obj cls props _ _ hk hs _ ih =>
    obtain ⟨slots, entries, cap⟩ := props
    rw [valueToZval, load_blob, ok_bind]
    have hitems := objectItems_settles hk hs ih stdClass ⟨[], []⟩
    refine (hitems.bind (Q := True) fun _ => settles_ok trivial _).congr ?_
    rw [noEmptyKey_obj, and_true]
  | err cls msg code trace hc hm ht =>
    obtain ⟨t, ht⟩ := errorToZval_ok code hc hm ht
    rw [valueToZval, ht]
    exact settles_ok (noEmptyKey_leaf rfl (by trivial)) t
  | _ =>
    rw [valueToZval]
    exact settles_ok (noEmptyKey_leaf rfl (by trivial)) _

/-! ## Exactly the empty key -/

/-- The consumers of a snapshot are safe exactly when no array in it has an empty key; all but the
array builder are safe in any case. -/
theorem consumersSafe_iff {v : Value} (h : Produced v) : ConsumersSafe v ↔ NoEmptyKey v := by
  have hwf := h.wf
  constructor
  · rintro ⟨-, -, -, hconvert⟩
    have hsafe := hconvert noClasses
    rw [pxValueToZval, ptrToZval] at hsafe
    rcases valueToZval_settles hwf with ⟨hn, -⟩ | ⟨-, hfault⟩
    · exact hn
    · exact absurd hfault hsafe
  · intro hn
    obtain ⟨w, hclone, -⟩ := valueClone_ok hwf
    refine ⟨nullSafe_of_ok (valuePack_eq hwf), nullSafe_of_ok hclone, ?_, ?_⟩
    · intro key klen bs hkey
      obtain ⟨r, hr⟩ := valueArrGetStr_ok hwf hkey
      exact nullSafe_of_ok hr
    · intro classes
      rw [pxValueToZval, ptrToZval]
      exact valueToZval_nullSafe hwf hn

/-! ### An array with the empty key -/

def emptyKeyHeap : Heap where
  array := fun _ => [(.str [], .long 1)]
  object := fun _ =>
    ⟨⟨stdClass.name, false, .null, [], List.nodup_nil⟩, fun _ => .undef, none, List.nodup_nil,
      fun _ _ => List.not_mem_nil⟩
  reference := fun _ => .null

def emptyKeyTree : Value := .arr ⟨1, [strKv [] (some (.long 1))], 1⟩

theorem emptyKeyTree_captured : pxZvalToValue emptyKeyHeap (.array 0) = .ok emptyKeyTree := rfl

theorem emptyKeyTree_produced : Produced emptyKeyTree := by
  refine .source (Or.inr ⟨emptyKeyHeap, .array 0, ?_, emptyKeyTree_captured⟩)
  have hkeys : SizedAt emptyKeyHeap (.array 0) := by
    refine ⟨by decide, List.forall_mem_singleton.mpr fun key hkey => ?_⟩
    cases hkey
    decide
  have hlong : Everywhere emptyKeyHeap.kids (SizedAt emptyKeyHeap) (.long 1) :=
    everywhere_iff.mpr ⟨trivial, List.forall_mem_nil _⟩
  exact everywhere_iff.mpr ⟨hkeys, List.forall_mem_singleton.mpr hlong⟩

theorem consumersSafe_iff_emptyKey : ConsumersSafe emptyKeyTree ↔ NoEmptyKey emptyKeyTree :=
  consumersSafe_iff emptyKeyTree_produced

/-- A captured array is rebuilt through a NULL read. -/
theorem not_consumersSafe_emptyKey :
    Produced emptyKeyTree ∧ pxZvalToValue emptyKeyHeap (.array 0) = .ok emptyKeyTree ∧
      ¬ ConsumersSafe emptyKeyTree :=
  ⟨emptyKeyTree_produced, emptyKeyTree_captured, fun h => h.2.2.2 noClasses rfl⟩

end Parallax.Bridge
