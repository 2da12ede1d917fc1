import Parallax.Bridge.Rebuild

/-! The names of declared properties. A snapshot records a property under its
`zend_property_info.name`, and the new object's slots stand under those names too; the store looks
a property up by the name its class declares it with and turns the mangled ones away. -/
namespace Parallax.Bridge
open Memory Walks OrderedMap
set_option autoImplicit false
set_option maxHeartbeats 250000

/-! ## The parts of a value -/

/-- A value inside another one, and its snapshot inside the snapshot of that. -/
inductive Part (h : Heap) : Zval → Value → Zval → Value → Prop
  | here (zv : Zval) (v : Value) : Part h zv v zv v
  | element {a i : ℕ} {items : KvVec Entry} {e : ArrayKey × Zval} {c v : Value} {zv : Zval}
      (he : (h.array a)[i]? = some e) (hc : items.entries[i]? = some (elementEntry e c))
      (hpart : Part h e.2 c zv v) : Part h (.array a) (.arr items) zv v
  | property {o i clen : ℕ} {cls : Ptr} {props : KvVec Entry} {p : ZStr × Zval} {c v : Value}
      {zv : Zval} (hp : (h.properties o)[i]? = some p)
      (hc : props.entries[i]? = some (propertyEntry p c)) (hpart : Part h p.2 c zv v) :
      Part h (.object o) (.obj cls clen props) zv v

theorem zipWith_entry {α : Type} {entry : α → Value → Entry}
    (hentry : ∀ x c d, entry x c = entry x d → c = d) {xs : List α} {vs : List Value} {i : ℕ} {x : α}
    {c : Value} (hx : xs[i]? = some x) (hc : (xs.zipWith entry vs)[i]? = some (entry x c)) :
    (x, c) ∈ xs.zip vs := by
  obtain ⟨y, d, hy, hd, heq⟩ := List.getElem?_zipWith_eq_some.mp hc
  rw [hx] at hy
  cases hy
  rw [← hentry x d c heq]
  exact List.mem_of_getElem? (List.getElem?_zip_eq_some.mpr ⟨hx, hd⟩)

theorem elementEntry_inj (e : ArrayKey × Zval) (c d : Value)
    (h : elementEntry e c = elementEntry e d) : c = d := by
  obtain ⟨key, zv⟩ := e
  cases key with
  | int idx => exact Option.some.inj (congrArg Kv.val h)
  | str key => exact Option.some.inj (congrArg Kv.val h)

theorem propertyEntry_inj (p : ZStr × Zval) (c d : Value)
    (h : propertyEntry p c = propertyEntry p d) : c = d :=
  Option.some.inj (congrArg Kv.val h)

/-- What holds of everything in the value holds of the part, and its snapshot unfolds it. -/
theorem Part.unfolding {h : Heap} {good : Zval → Prop} {zv zv' : Zval} {v w : Value}
    (hpart : Part h zv v zv' w) (hu : Unfolding h zv v) (hgood : Everywhere h.kids good zv) :
    Unfolding h zv' w ∧ Everywhere h.kids good zv' := by
  induction hpart with
  | here => exact ⟨hu, hgood⟩
  | element he hc _ ih =>
    cases hu with
    | array a vs items hentries _ _ hkids =>
      rw [hentries] at hc
      have hx := zipWith_entry elementEntry_inj he hc
      exact ih (hkids _ hx)
        ((everywhere_iff.mp hgood).2 _ (List.mem_map_of_mem (List.of_mem_zip hx).1))
  | property hp hc _ ih =>
    cases hu with
    | object o vs props hentries _ _ hkids =>
      rw [hentries] at hc
      have hx := zipWith_entry propertyEntry_inj hp hc
      exact ih (hkids _ hx)
        ((everywhere_iff.mp hgood).2 _ (List.mem_map_of_mem (List.of_mem_zip hx).1))

/-! ## The stores -/

section Stores
variable {classes : ClassTable} {ce : WorkerClass}

/-- What `zend_update_property_ex` makes of an object. -/
def NewObject.update (ce : WorkerClass) (obj : NewObject) (name : ZStr) (val : Php) : NewObject :=
  if name.head? = some 0 ∨ ce.accepts name val = false then obj else obj.store name val

theorem updateProperty_update (obj : NewObject) (name : ZStr) (val : Php) :
    updateProperty ce (some obj) name val = .ok (some (obj.update ce name val)) := rfl

theorem keys_store (obj : NewObject) (name : ZStr) (val : Php) :
    keys (obj.store name val).slots = keys obj.slots := by
  unfold NewObject.store
  by_cases hmem : name ∈ keys obj.slots
  · rw [if_pos hmem]
    exact keys_put_of_mem hmem _
  · rw [if_neg hmem]

theorem keys_update (obj : NewObject) (name : ZStr) (val : Php) :
    keys (obj.update ce name val).slots = keys obj.slots := by
  unfold NewObject.update
  by_cases hrefused : name.head? = some 0 ∨ ce.accepts name val = false
  · rw [if_pos hrefused]
  · rw [if_neg hrefused]
    exact keys_store obj name val

theorem mem_update_of_ne {name name' : ZStr} (hne : name' ≠ name) (obj : NewObject) (val : Php)
    (x : Option Php) : (name', x) ∈ (obj.update ce name val).slots ↔ (name', x) ∈ obj.slots := by
  unfold NewObject.update NewObject.store
  by_cases hrefused : name.head? = some 0 ∨ ce.accepts name val = false
  · rw [if_pos hrefused]
  · rw [if_neg hrefused]
    by_cases hmem : name ∈ keys obj.slots
    · rw [if_pos hmem]
      exact mem_put_of_ne hne _ _ _
    · rw [if_neg hmem]

/-- The store of a property reaches the slot of its name: the slot is there, the name is not a
mangled one, and the class lets the value in. -/
def Reaches (ce : WorkerClass) (name : ZStr) (val : Php) : Prop :=
  name ∈ keys ce.defaults ∧ name.head? ≠ some 0 ∧ ce.accepts name val = true

theorem mem_update_self {obj : NewObject} (hkeys : keys obj.slots = keys ce.defaults) (name : ZStr)
    (val : Php) :
    (name, some val) ∈ (obj.update ce name val).slots ↔
      Reaches ce name val ∨ (name, some val) ∈ obj.slots := by
  unfold NewObject.update NewObject.store Reaches
  rw [← hkeys]
  by_cases hrefused : name.head? = some 0 ∨ ce.accepts name val = false
  · rw [if_pos hrefused]
    refine (or_iff_right ?_).symm
    rintro ⟨-, hname, haccept⟩
    rcases hrefused with h0 | hno
    · exact hname h0
    · rw [hno] at haccept
      cases haccept
  · rw [if_neg hrefused]
    obtain ⟨hname, haccept⟩ := not_or.mp hrefused
    by_cases hmem : name ∈ keys obj.slots
    · rw [if_pos hmem]
      exact iff_of_true (mem_put_self _ _ _)
        (Or.inl ⟨hmem, hname, Bool.eq_true_of_not_eq_false haccept⟩)
    · rw [if_neg hmem]
      exact (or_iff_right fun hreach => hmem hreach.1).symm

/-- The loop of `kv_block_to_object` over children that are rebuilt already. -/
def updateAll (ce : WorkerClass) (obj : NewObject) (ps : List (ZStr × Php)) : NewObject :=
  ps.foldl (fun obj p => obj.update ce p.1 p.2) obj

theorem mem_updateAll_of_not_mem {ps : List (ZStr × Php)} {name : ZStr} (hnot : name ∉ keys ps)
    (obj : NewObject) (x : Option Php) :
    (name, x) ∈ (updateAll ce obj ps).slots ↔ (name, x) ∈ obj.slots := by
  induction ps generalizing obj with
  | nil => exact Iff.rfl
  | cons p ps ih =>
    have hp : name ≠ p.1 := List.ne_of_not_mem_cons hnot
    exact (ih (List.not_mem_of_not_mem_cons hnot) _).trans (mem_update_of_ne hp obj p.2 x)

/-- With every name once, a slot ends with the value recorded for it exactly when that store
reaches it or it held the value before. -/
theorem mem_updateAll {ps : List (ZStr × Php)} (hnodup : (keys ps).Nodup) {name : ZStr} {val : Php}
    (hmem : (name, val) ∈ ps) {obj : NewObject} (hkeys : keys obj.slots = keys ce.defaults) :
    (name, some val) ∈ (updateAll ce obj ps).slots ↔
      Reaches ce name val ∨ (name, some val) ∈ obj.slots := by
  induction ps generalizing obj with
  | nil => cases hmem
  | cons p ps ih =>
    obtain ⟨hp, hnodup⟩ := List.nodup_cons.mp hnodup
    rcases List.mem_cons.mp hmem with rfl | hmem
    · exact (mem_updateAll_of_not_mem hp _ _).trans (mem_update_self hkeys name val)
    · have hne : name ≠ p.1 := fun heq => hp (heq ▸ List.mem_map_of_mem hmem)
      have hkeys' : keys (obj.update ce p.1 p.2).slots = keys ce.defaults :=
        (keys_update obj p.1 p.2).trans hkeys
      exact (ih hnodup hmem hkeys').trans (or_congr_right (mem_update_of_ne hne obj p.2 _))

/-- An entry and the property it is rebuilt to. -/
def RebuiltEntry (classes : ClassTable) (kv : Entry) (p : ZStr × Php) : Prop :=
  ∃ c, kv = strKv p.1 (some c) ∧ valueToZval classes c = .ok p.2

theorem objectItems_updateAll {entries : List Entry}
    (hs : ∀ kv ∈ entries, ∃ name c, kv = strKv name (some c)) {obj : NewObject}
    {r : Option NewObject} (h : objectItems classes ce entries (some obj) = .ok r) :
    ∃ ps, List.Forall₂ (RebuiltEntry classes) entries ps ∧ r = some (updateAll ce obj ps) := by
  induction entries generalizing obj with
  | nil =>
    rw [objectItems] at h
    cases h
    exact ⟨[], .nil, rfl⟩
  | cons kv rest ih =>
    obtain ⟨⟨name, c, rfl⟩, hrest⟩ := List.forall_mem_cons.mp hs
    rw [strKv, objectItems, ptrToZval] at h
    obtain ⟨t, ht, h⟩ := bind_ok h
    rw [load_blob, ok_bind, updateProperty_update, ok_bind] at h
    obtain ⟨ps, hps, hobj⟩ := ih hrest h
    exact ⟨(name, t) :: ps, .cons ⟨c, rfl, ht⟩ hps, hobj⟩

end Stores

/-! ## The declared properties of an object -/

section Declared
variable (classes : ClassTable) (h : Heap) (o : ℕ) (props : KvVec Entry)

/-- Where the object's class is known, every declared property that was recorded ends in the slot
of that name of the new object. -/
def KeepsFields : Prop :=
  ∀ c, classes (h.object o).ce.name = some c →
    ∀ name child, name ∈ declaredNames (h.object o).ce.propertiesInfo →
      strKv name (some child) ∈ props.entries →
      ∃ obj t, objectItems classes c props.entries (objectInitEx c) = .ok (some obj) ∧
        valueToZval classes child = .ok t ∧ (name, some t) ∈ obj.slots

/-- Where the object's class is known, and unless no declared property was recorded: an object can
be made of it, what the properties hold can be rebuilt, and of each declared one that was recorded
the name is declared there and not mangled and the value passes its type, or it is the default. -/
def FieldsFit : Prop :=
  ∀ c, classes (h.object o).ce.name = some c →
    ∀ name child, name ∈ declaredNames (h.object o).ce.propertiesInfo →
      strKv name (some child) ∈ props.entries →
      c.instantiable = true ∧
        (∀ kv ∈ props.entries, ∀ x, kv.val = some x → Rebuildable classes x) ∧
        ∃ t, valueToZval classes child = .ok t ∧
          (Reaches c name t ∨ (name, some t) ∈ c.defaults)

end Declared

section Node
variable {classes : ClassTable} {h : Heap}

theorem strKv_inj {name name' : ZStr} {c c' : Value}
    (heq : strKv name (some c) = strKv name' (some c')) : name = name' ∧ c = c' := by
  have hkey : blob name = blob name' := congrArg Kv.skey heq
  have hlen : name.length = name'.length := congrArg Kv.skeyLen heq
  have hload := load_blob name
  rw [hkey, hlen, load_blob] at hload
  exact ⟨(Except.ok.inj hload).symm, Option.some.inj (congrArg Kv.val heq)⟩

theorem forall₂_mem {α β : Type} {R : α → β → Prop} {as : List α} {bs : List β}
    (h : List.Forall₂ R as bs) {a : α} (ha : a ∈ as) : ∃ b ∈ bs, R a b := by
  induction h with
  | nil => cases ha
  | cons hr _ ih =>
    rcases List.mem_cons.mp ha with rfl | ha
    · exact ⟨_, List.mem_cons_self .., hr⟩
    · obtain ⟨b, hb, hr⟩ := ih ha
      exact ⟨b, List.mem_cons_of_mem _ hb, hr⟩

/-- The names under which an object's snapshot has its entries. -/
theorem keys_rebuilt {ps : List (ZStr × Zval)} {vs : List Value} (hlen : vs.length = ps.length)
    {ts : List (ZStr × Php)}
    (hts : List.Forall₂ (RebuiltEntry classes) (ps.zipWith propertyEntry vs) ts) :
    keys ts = keys ps := by
  induction ps generalizing vs ts with
  | nil =>
    cases hts
    rfl
  | cons p ps ih =>
    cases vs with
    | nil => cases hlen
    | cons v vs =>
      cases hts with
      | cons hhead htail =>
        obtain ⟨c, heq, -⟩ := hhead
        have hname := (strKv_inj heq).1
        have hrest := ih (Nat.succ.inj hlen) htail
        exact (congrArg₂ List.cons hname hrest.symm).symm

variable (classes) in
theorem objectItems_wf {cls : Ptr} {clen : ℕ} {props : KvVec Entry}
    (hwf : (Value.obj cls clen props).Wf) (ce : WorkerClass) :
    Yields ((props.entries = [] ∨ (objectInitEx ce).isSome = true) ∧
        ∀ kv ∈ props.entries, ∀ x, kv.val = some x → Rebuildable classes x)
      (objectItems classes ce props.entries (objectInitEx ce)) := by
  generalize hv : Value.obj cls clen props = v at hwf
  cases hwf with
  | obj cls props _ _ hk hs hc =>
    cases hv
    exact objectItems_yields hk hs (fun kv hkv x hx => valueToZval_yields (hc kv hkv x hx)) ce _
  | _ => cases hv

theorem keepsFields_iff {o : ℕ} {cls : Ptr} {clen : ℕ} {props : KvVec Entry}
    (hu : Unfolding h (.object o) (.obj cls clen props))
    (hs : Everywhere h.kids (SizedAt h) (.object o)) :
    KeepsFields classes h o props ↔ FieldsFit classes h o props := by
  have hwf := hu.wf hs
  cases hu with
  | object o vs props hentries hroom hlen hkids =>
    have hstr : ∀ kv ∈ props.entries, ∃ name c, kv = strKv name (some c) := by
      intro kv hkv
      rw [hentries] at hkv
      obtain ⟨x, -, rfl⟩ := mem_zipWith hkv
      exact ⟨_, _, rfl⟩
    unfold KeepsFields FieldsFit
    refine forall₂_congr fun c _ => forall₂_congr fun name child =>
      forall₂_congr fun _ hmem => ?_
    have hyields := objectItems_wf classes hwf c
    have hne : props.entries ≠ [] := List.ne_nil_of_mem hmem
    -- a finished object, and what its slot of that name holds
    have hslot : ∀ {r : Option NewObject} {t : Php}, c.instantiable = true →
        objectItems classes c props.entries (objectInitEx c) = .ok r →
        valueToZval classes child = .ok t →
        ∃ obj, r = some obj ∧
          ((name, some t) ∈ obj.slots ↔ Reaches c name t ∨ (name, some t) ∈ c.defaults) := by
      intro r t hinst hobj ht
      have hinit : objectInitEx c = some ⟨c.defaults, []⟩ := if_pos hinst
      rw [hinit] at hobj
      obtain ⟨ps, hps, rfl⟩ := objectItems_updateAll hstr hobj
      obtain ⟨⟨name', t'⟩, hp, child', heq, ht'⟩ := forall₂_mem hps hmem
      obtain ⟨rfl, rfl⟩ := strKv_inj heq
      rw [ht] at ht'
      cases ht'
      rw [hentries] at hps
      have hnodup := properties_nodup h o
      rw [← keys, ← keys_rebuilt hlen hps] at hnodup
      exact ⟨_, rfl, mem_updateAll hnodup hp rfl⟩
    constructor
    · rintro ⟨obj, t, hobj, ht, hmem'⟩
      obtain ⟨hsome, hkids⟩ := hyields.mp ⟨_, hobj⟩
      have hinst := (objectInitEx_isSome c).mp (hsome.resolve_left hne)
      obtain ⟨obj', heq, hiff⟩ := hslot hinst hobj ht
      cases heq
      exact ⟨hinst, hkids, t, ht, hiff.mp hmem'⟩
    · rintro ⟨hinst, hkids, t, ht, hfit⟩
      obtain ⟨r, hobj⟩ := hyields.mpr ⟨Or.inr ((objectInitEx_isSome c).mpr hinst), hkids⟩
      obtain ⟨obj, rfl, hiff⟩ := hslot hinst hobj ht
      exact ⟨obj, t, hobj, ht, hiff.mpr hfit⟩

end Node

/-- In a captured value every object of a class known to the receiving thread gets its recorded
declared properties back, each in the slot it came from, exactly when they all fit. -/
theorem fields_kept_iff (classes : ClassTable) {h : Heap} {zv : Zval} {v : Value}
    (hs : Everywhere h.kids (SizedAt h) zv) (hv : pxZvalToValue h zv = .ok v) :
    (∀ o cls clen props, Part h zv v (.object o) (.obj cls clen props) →
        KeepsFields classes h o props) ↔
      ∀ o cls clen props, Part h zv v (.object o) (.obj cls clen props) →
        FieldsFit classes h o props := by
  refine forall₄_congr fun o cls clen props => forall_congr' fun hpart => ?_
  obtain ⟨hu, hsized⟩ := hpart.unfolding (pxZvalToValue_unfolding hv) hs
  exact keepsFields_iff hu hsized

/-! ### A public and a protected property -/

theorem sample_sized : Everywhere sampleHeap.kids (SizedAt sampleHeap) (.object 4) := by
  have hobj : SizedAt sampleHeap (.object 4) := by
    refine ⟨by decide, by decide, List.forall_mem_singleton.mpr ?_⟩
    decide
  exact everywhere_iff.mpr
    ⟨hobj, List.forall_mem_singleton.mpr (everywhere_iff.mpr ⟨trivial, List.forall_mem_nil _⟩)⟩

/-- The snapshot of the object of class `P`, whose property is public. -/
def publicField : Value :=
  .obj (blob (ascii ['P'])) 1 ⟨4, [strKv (ascii ['x']) (some (.bool true))], 4⟩

theorem fields_kept_iff_public :
    (∀ o cls clen props, Part sampleHeap (.object 4) publicField (.object o) (.obj cls clen props) →
        KeepsFields sampleClasses sampleHeap o props) ↔
      ∀ o cls clen props, Part sampleHeap (.object 4) publicField (.object o)
          (.obj cls clen props) → FieldsFit sampleClasses sampleHeap o props :=
  fields_kept_iff sampleClasses sample_sized rfl

/-- `protected $x`, as `zend_property_info` names it. -/
def protectedX : ZStr := 0 :: 0x2a :: 0 :: ascii ['x']

/-- An object of a class `V` with that property, -/
def protectedHeap : Heap where
  array := fun _ => []
  object := fun _ => sample (ascii ['V']) (slotsOf protectedX) (by decide) .true
  reference := fun _ => .null

/-- and the same class in the receiving thread. -/
def protectedClass : WorkerClass := ⟨ascii ['V'], true, [(protectedX, none)], fun _ _ => true⟩

def protectedClasses : ClassTable := fun name =>
  if name = ascii ['V'] then some protectedClass else none

theorem protected_sized : Everywhere protectedHeap.kids (SizedAt protectedHeap) (.object 0) := by
  have hobj : SizedAt protectedHeap (.object 0) := by
    refine ⟨by decide, by decide, List.forall_mem_singleton.mpr ?_⟩
    decide
  exact everywhere_iff.mpr
    ⟨hobj, List.forall_mem_singleton.mpr (everywhere_iff.mpr ⟨trivial, List.forall_mem_nil _⟩)⟩

/-- The property is recorded, and the new object is without it. -/
theorem not_fields_kept :
    (¬ ∀ (classes : ClassTable) (h : Heap) (zv : Zval) (v : Value),
        Everywhere h.kids (SizedAt h) zv → pxZvalToValue h zv = .ok v →
        ∀ o cls clen props, Part h zv v (.object o) (.obj cls clen props) →
          KeepsFields classes h o props) ∧
      pxZvalToValue protectedHeap (.object 0) =
        .ok (.obj (blob (ascii ['V'])) 1 ⟨4, [strKv protectedX (some (.bool true))], 4⟩) ∧
      pxValueToZval protectedClasses
          (some (.obj (blob (ascii ['V'])) 1 ⟨4, [strKv protectedX (some (.bool true))], 4⟩)) =
        .ok (.object (ascii ['V']) []) := by
  have hcapture : pxZvalToValue protectedHeap (.object 0) =
      .ok (.obj (blob (ascii ['V'])) 1 ⟨4, [strKv protectedX (some (.bool true))], 4⟩) := rfl
  refine ⟨fun hall => ?_, hcapture, rfl⟩
  have hkeeps := hall protectedClasses protectedHeap _ _ protected_sized hcapture 0 _ _ _ (.here _ _)
  obtain ⟨obj, t, hobj, -, hmem⟩ :=
    hkeeps protectedClass rfl protectedX (.bool true) (List.mem_cons_self ..)
      (List.mem_cons_self ..)
  have hrefused : objectItems protectedClasses protectedClass
      [strKv protectedX (some (.bool true))] (objectInitEx protectedClass) =
      .ok (some ⟨[(protectedX, none)], []⟩) := rfl
  rw [hrefused] at hobj
  cases hobj
  rcases List.mem_cons.mp hmem with heq | hnil
  · cases heq
  · cases hnil

end Parallax.Bridge
