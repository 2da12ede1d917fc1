import Parallax.Bridge.EmptyKey
import Parallax.Bridge.Transfer

/-! When the conversion of a snapshot goes through: `object_init_ex` may leave no object, and the
property stores do not look. -/
namespace Parallax.Bridge
open Memory Walks OrderedMap
set_option autoImplicit false
set_option maxHeartbeats 250000

/-! ## What can be rebuilt -/

section Classes
variable (classes : ClassTable)

/-- An object without properties, or of a class that is missing or can be instantiated. -/
def InstantiableAt : Value → Prop
  | .obj cls clen props => props.entries = [] ∨
      ∀ name, load cls clen = .ok name → (resolveClass classes name).instantiable = true
  | _ => True

/-- No array in the tree has an entry under the empty string, and every object of it that has
properties is of a class the receiving thread lacks or makes objects of. -/
def Rebuildable (v : Value) : Prop :=
  Everywhere children (fun v => KeysNonempty v ∧ InstantiableAt classes v) v

variable {classes}

theorem rebuildable_arr {items : KvVec Entry} :
    Rebuildable classes (.arr items) ↔
      (∀ kv ∈ items.entries, kv.isIntKey = true ∨ kv.skeyLen ≠ 0) ∧
        ∀ kv ∈ items.entries, ∀ x, kv.val = some x → Rebuildable classes x := by
  rw [Rebuildable, everywhere_iff]
  exact and_congr (and_iff_left trivial) forall_filterMap_val

theorem rebuildable_obj {cls : List UInt8} {props : KvVec Entry} :
    Rebuildable classes (.obj (blob cls) cls.length props) ↔
      (props.entries = [] ∨ (resolveClass classes cls).instantiable = true) ∧
        ∀ kv ∈ props.entries, ∀ x, kv.val = some x → Rebuildable classes x := by
  rw [Rebuildable, everywhere_iff]
  refine and_congr ((and_iff_right trivial).trans (or_congr_right ?_)) forall_filterMap_val
  rw [load_blob]
  exact ⟨fun h => h cls rfl, fun h name hname => by cases hname; exact h⟩

theorem rebuildable_leaf {v : Value} (hkids : children v = []) (hkeys : KeysNonempty v)
    (hclass : InstantiableAt classes v) : Rebuildable classes v := by
  refine everywhere_iff.mpr ⟨⟨hkeys, hclass⟩, ?_⟩
  rw [hkids]
  exact List.forall_mem_nil _

end Classes

/-! ## Results under a condition -/

/-- There is a result exactly under `P`. -/
def Yields {α : Type} (P : Prop) (x : Except Fault α) : Prop := (∃ a, x = .ok a) ↔ P

theorem yields_ok {α : Type} {P : Prop} (hp : P) (a : α) : Yields P (.ok a : Except Fault α) :=
  ⟨fun _ => hp, fun _ => ⟨a, rfl⟩⟩

theorem yields_error {α : Type} {P : Prop} (hp : ¬ P) (e : Fault) :
    Yields P (.error e : Except Fault α) := by
  refine ⟨?_, fun h => absurd h hp⟩
  rintro ⟨a, h⟩
  cases h

theorem Yields.congr {α : Type} {P Q : Prop} {x : Except Fault α} (h : Yields P x) (hpq : P ↔ Q) :
    Yields Q x := Iff.trans h hpq

theorem Yields.bind {α β : Type} {P Q : Prop} {x : Except Fault α} {f : α → Except Fault β}
    (hx : Yields P x) (hf : ∀ a, Yields Q (f a)) : Yields (P ∧ Q) (x >>= f) := by
  cases x with
  | error e => exact yields_error (fun hpq => by obtain ⟨_, h⟩ := hx.mpr hpq.1; cases h) e
  | ok a => exact (hf a).congr (and_iff_right (hx.mp ⟨a, rfl⟩)).symm

theorem Yields.map {α β : Type} {P : Prop} {x : Except Fault α} (hx : Yields P x) (f : α → β) :
    Yields P (x.map f) := by
  cases x with
  | error e => exact yields_error (fun hp => by obtain ⟨_, h⟩ := hx.mpr hp; cases h) e
  | ok a => exact yields_ok (hx.mp ⟨a, rfl⟩) (f a)

/-! ## The conversion -/

section Convert
variable {classes : ClassTable} {R : Value → Prop}

theorem ptrToZval_yields {c : Option Value}
    (h : ∀ x, c = some x → Yields (R x) (valueToZval classes x)) :
    Yields (∀ x, c = some x → R x) (ptrToZval classes c) := by
  cases c with
  | none =>
    rw [ptrToZval]
    exact yields_ok (fun x hx => by cases hx) _
  | some x =>
    rw [ptrToZval]
    exact (h x rfl).congr ⟨fun hr y hy => Option.some.inj hy ▸ hr, fun hr => hr x rfl⟩

theorem addAssocZvalEx_yields (target : Elements) (key : List UInt8) (child : Php) :
    Yields (key.length ≠ 0) (addAssocZvalEx target (blob key) key.length child) := by
  rcases addAssocZvalEx_blob target key child with ⟨hne, t, ht⟩ | ⟨rfl, hfault⟩
  · rw [ht]
    exact yields_ok (fun hz => hne (List.length_eq_zero_iff.mp hz)) t
  · rw [hfault]
    exact yields_error (fun hne => hne rfl) _

theorem arrayItems_yields {entries : List Entry} (hk : ∀ kv ∈ entries, EntryWf kv)
    (hc : ∀ kv ∈ entries, ∀ x, kv.val = some x → Yields (R x) (valueToZval classes x))
    (target : Elements) :
    Yields (∀ kv ∈ entries, (kv.isIntKey = true ∨ kv.skeyLen ≠ 0) ∧ ∀ x, kv.val = some x → R x)
      (arrayItems classes entries target) := by
  induction entries generalizing target with
  | nil =>
    rw [arrayItems]
    exact yields_ok (List.forall_mem_nil _) _
  | cons kv rest ih =>
    obtain ⟨hkv, hkrest⟩ := List.forall_mem_cons.mp hk
    obtain ⟨hval, hcrest⟩ := List.forall_mem_cons.mp hc
    have hchild := ptrToZval_yields hval
    have hrest := ih hkrest hcrest
    rw [List.forall_mem_cons]
    cases hkv with
    | int k c =>
      rw [intEntry, arrayItems]
      refine (hchild.bind fun t => hrest _).congr (and_congr_left fun _ => ?_)
      exact (and_iff_right (Or.inl rfl)).symm
    | str key c _ =>
      rw [strKv, arrayItems]
      refine (hchild.bind fun t => (addAssocZvalEx_yields _ key t).bind hrest).congr ?_
      constructor
      · rintro ⟨hx, hkey, hall⟩
        exact ⟨⟨Or.inr hkey, hx⟩, hall⟩
      · rintro ⟨⟨hkey, hx⟩, hall⟩
        exact ⟨hx, hkey.resolve_left Bool.false_ne_true, hall⟩

theorem objectItems_yields {entries : List Entry} (hk : ∀ kv ∈ entries, EntryWf kv)
    (hs : ∀ kv ∈ entries, kv.isIntKey = false)
    (hc : ∀ kv ∈ entries, ∀ x, kv.val = some x → Yields (R x) (valueToZval classes x))
    (ce : WorkerClass) (target : Option NewObject) :
    Yields ((entries = [] ∨ target.isSome = true) ∧ ∀ kv ∈ entries, ∀ x, kv.val = some x → R x)
      (objectItems classes ce entries target) := by
  induction entries generalizing target with
  | nil =>
    rw [objectItems]
    exact yields_ok ⟨Or.inl rfl, List.forall_mem_nil _⟩ _
  | cons kv rest ih =>
    obtain ⟨hkv, hkrest⟩ := List.forall_mem_cons.mp hk
    obtain ⟨hstr, hsrest⟩ := List.forall_mem_cons.mp hs
    obtain ⟨hval, hcrest⟩ := List.forall_mem_cons.mp hc
    have hchild := ptrToZval_yields hval
    rw [List.forall_mem_cons]
    cases hkv with
    | int k c => cases hstr
    | str key c _ =>
      rw [strKv, objectItems]
      cases target with
      | none =>
        refine (hchild.bind (Q := False) fun t => ?_).congr (by simp)
        rw [load_blob, ok_bind]
        exact yields_error id _
      | some obj =>
        refine (hchild.bind fun t => ?_).congr (and_iff_right (Or.inr rfl)).symm
        obtain ⟨obj', hobj⟩ := updateProperty_some ce obj key t
        rw [load_blob, ok_bind, hobj, ok_bind]
        exact (ih hkrest hsrest hcrest (some obj')).congr (and_iff_right (Or.inr rfl))

theorem objectInitEx_isSome (ce : WorkerClass) :
    (objectInitEx ce).isSome = true ↔ ce.instantiable = true := by
  unfold objectInitEx
  cases ce.instantiable with
  | true => exact Iff.rfl
  | false => exact Iff.rfl

theorem valueToZval_yields {v : Value} (h : v.Wf) :
    Yields (Rebuildable classes v) (valueToZval classes v) := by
  induction h with
  | str bs _ =>
    rw [valueToZval, stringZval_blob]
    exact yields_ok (rebuildable_leaf rfl (by trivial) (by trivial)) _
  | arr items _ hk _ ih =>
    obtain ⟨slots, entries, cap⟩ := items
    rw [valueToZval]
    refine ((arrayItems_yields hk ih []).map _).congr ?_
    rw [rebuildable_arr, ← forall₂_and]
  | obj cls props _ _ hk hs _ ih =>
    obtain ⟨slots, entries, cap⟩ := props
    rw [valueToZval, load_blob, ok_bind]
    have hitems := objectItems_yields hk hs ih (resolveClass classes cls)
      (objectInitEx (resolveClass classes cls))
    refine (hitems.bind (Q := True) fun _ => yields_ok trivial _).congr ?_
    rw [rebuildable_obj, and_true, objectInitEx_isSome]
  | err cls msg code trace hc hm ht =>
    obtain ⟨t, ht⟩ := errorToZval_ok code hc hm ht
    rw [valueToZval, ht]
    exact yields_ok (rebuildable_leaf rfl (by trivial) (by trivial)) t
  | _ =>
    rw [valueToZval]
    exact yields_ok (rebuildable_leaf rfl (by trivial) (by trivial)) _

end Convert

/-! ## A defined value -/

/-- The conversion of a snapshot yields a value exactly when the tree can be rebuilt. -/
theorem pxValueToZval_defined_iff {v : Value} (h : Produced v) (classes : ClassTable) :
    (∃ t, pxValueToZval classes (some v) = .ok t) ↔ Rebuildable classes v := by
  rw [pxValueToZval, ptrToZval]
  exact valueToZval_yields h.wf

/-! ### The case of an enumeration -/

/-- `E::A`, as it is captured: an object with one property, of a class without instances. -/
def enumCase : Value :=
  .obj (blob (ascii ['E'])) 1 ⟨4, [strKv (ascii ['n']) (some (.str (blob (ascii ['A'])) 1))], 4⟩

theorem enumCase_captured : pxZvalToValue sampleHeap (.object 1) = .ok enumCase := rfl

theorem enumCase_produced : Produced enumCase := by
  refine .source (Or.inr ⟨sampleHeap, .object 1, ?_, enumCase_captured⟩)
  have hname : SizedAt sampleHeap (.string (ascii ['A'])) := by
    show (ascii ['A']).length < 2 ^ 64
    decide
  have hstr : Everywhere sampleHeap.kids (SizedAt sampleHeap) (.string (ascii ['A'])) :=
    everywhere_iff.mpr ⟨hname, List.forall_mem_nil _⟩
  have hobj : SizedAt sampleHeap (.object 1) := by
    refine ⟨by decide, by decide, List.forall_mem_singleton.mpr ?_⟩
    decide
  exact everywhere_iff.mpr ⟨hobj, List.forall_mem_singleton.mpr hstr⟩

theorem pxValueToZval_defined_iff_enumCase : Rebuildable noClasses enumCase :=
  (pxValueToZval_defined_iff enumCase_produced noClasses).mp ⟨_, rfl⟩

/-- In a thread that knows the enumeration the first store goes to a zval that holds no object. -/
theorem not_defined_enumCase :
    (¬ ∀ v, Produced v → ∀ classes, ∃ t, pxValueToZval classes (some v) = .ok t) ∧
      sampleClasses (ascii ['E']) =
        some ⟨ascii ['E'], false, [(ascii ['n'], none)], fun _ _ => true⟩ ∧
      pxValueToZval sampleClasses (some enumCase) = .error .nullObject := by
  have hfault : pxValueToZval sampleClasses (some enumCase) = .error .nullObject := rfl
  refine ⟨fun h => ?_, rfl, hfault⟩
  obtain ⟨t, ht⟩ := h enumCase enumCase_produced sampleClasses
  rw [hfault] at ht
  cases ht

end Parallax.Bridge
