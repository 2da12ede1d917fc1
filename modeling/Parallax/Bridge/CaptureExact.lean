import Parallax.Library.Walks
import Parallax.Value.Invariant
import Parallax.Bridge.Capture

/-! What `px_zval_to_value` accepts, and the snapshot it makes: the tree unfolding of the value
graph. Rejection goes through every enclosing loop, and the depth bounds the recursion. -/
namespace Parallax.Bridge
open Memory Walks
set_option autoImplicit false
set_option maxHeartbeats 250000

/-! ## The value graph -/

/-- The instance properties that hold a value, a reference followed. -/
def declared (h : Heap) (obj : ZendObject) (infos : List PropertyInfo) : List (ZStr × Zval) :=
  infos.filterMap fun info =>
    if info.isStatic || (obj.slot info.offset).isUndef then none
    else some (info.name, h.deref (obj.slot info.offset))

def dynamic (h : Heap) (table : HashTable) : List (ZStr × Zval) :=
  table.filterMap fun p =>
    if p.2.isUndef then none else p.1.name?.map fun name => (name, h.deref p.2)

/-- The properties of an object, the declared ones first. -/
def Heap.properties (h : Heap) (o : ℕ) : List (ZStr × Zval) :=
  declared h (h.object o) (h.object o).ce.propertiesInfo ++
    dynamic h ((h.object o).properties.getD [])

/-- What lies a step below a value. -/
def Heap.kids (h : Heap) : Zval → List Zval
  | .array a => (h.array a).map Prod.snd
  | .object o => (h.properties o).map Prod.snd
  | _ => []

/-- What a value itself must be. -/
def Capturable (h : Heap) : Zval → Prop
  | .null | .false | .true | .long _ | .double _ | .string _ => True
  | .array a => ∀ e ∈ h.array a, e.2.isReference = false
  | .object o => (h.object o).ce.isClosure = false ∧ (h.object o).ce.createObject ≠ .custom
  | _ => False

/-- What can be captured: everything that lies below the value, to any depth. -/
def Admissible (h : Heap) (top : Zval) : Prop :=
  top.isReference = false ∧ ∀ n zv, Below h.kids n top zv → n ≤ 256 ∧ Capturable h zv

/-! ## The snapshot of a value -/

def elementEntry (e : ArrayKey × Zval) (child : Value) : Entry :=
  match e.1 with
  | .int idx => intEntry idx.toInt64 (some child)
  | .str key => strKv key (some child)

def propertyEntry (p : ZStr × Zval) (child : Value) : Entry := strKv p.1 (some child)

/-- A snapshot that is the tree unfolding of a value: its scalars, every element with its key, and
every object with its class name and its properties, in the order in which they stand. -/
inductive Unfolding (h : Heap) : Zval → Value → Prop
  | null : Unfolding h .null .null
  | true : Unfolding h .true (.bool Bool.true)
  | false : Unfolding h .false (.bool Bool.false)
  | long (i : Int64) : Unfolding h (.long i) (.long i)
  | double (d : UInt64) : Unfolding h (.double d) (.double d)
  | string (s : ZStr) : Unfolding h (.string s) (.str (blob s) s.length)
  | array (a : ℕ) (vs : List Value) (items : KvVec Entry)
      (hentries : items.entries = (h.array a).zipWith elementEntry vs) (hroom : items.Room)
      (hlen : vs.length = (h.array a).length)
      (hkids : ∀ x ∈ (h.array a).zip vs, Unfolding h x.1.2 x.2) :
      Unfolding h (.array a) (.arr items)
  | object (o : ℕ) (vs : List Value) (props : KvVec Entry)
      (hentries : props.entries = (h.properties o).zipWith propertyEntry vs) (hroom : props.Room)
      (hlen : vs.length = (h.properties o).length)
      (hkids : ∀ x ∈ (h.properties o).zip vs, Unfolding h x.1.2 x.2) :
      Unfolding h (.object o) (.obj (blob (h.object o).ce.name) (h.object o).ce.name.length props)

/-! ## Storing children one by one -/

section Store
variable {α : Type} (child : α → Except Stop Value) (entry : α → Value → Entry)

/-- The loop the array and object builders share: a child, then its entry. -/
def storeAll : List α → KvVec Entry → Except Stop (KvVec Entry)
  | [], items => .ok items
  | x :: rest, items => do
    let v ← child x
    let items ← checked (items.append (entry x v))
    storeAll rest items

variable {child entry}

theorem storeAll_append (xs ys : List α) (items : KvVec Entry) :
    storeAll child entry (xs ++ ys) items =
      (storeAll child entry xs items >>= storeAll child entry ys) := by
  induction xs generalizing items with
  | nil => rfl
  | cons x xs ih =>
    rw [List.cons_append, storeAll, storeAll]
    cases child x with
    | error e => rfl
    | ok v =>
      rw [ok_bind, ok_bind]
      cases checked (items.append (entry x v)) with
      | error e => rfl
      | ok w => exact ih w

theorem storeAll_ok {xs : List α} {items w : KvVec Entry} (hroom : items.Room)
    (h : storeAll child entry xs items = .ok w) :
    w.Room ∧ ∃ vs, vs.length = xs.length ∧ w.entries = items.entries ++ xs.zipWith entry vs ∧
      ∀ x ∈ xs.zip vs, child x.1 = .ok x.2 := by
  induction xs generalizing items with
  | nil =>
    cases h
    exact ⟨hroom, [], rfl, (List.append_nil _).symm, List.forall_mem_nil _⟩
  | cons x xs ih =>
    obtain ⟨v, hv, h⟩ := bind_ok h
    obtain ⟨w', hw', hent, hroom'⟩ := KvVec.append_room hroom (entry x v)
    rw [hw'] at h
    obtain ⟨hr, vs, hlen, hw, hkids⟩ := ih hroom' h
    refine ⟨hr, v :: vs, congrArg Nat.succ hlen, ?_, ?_⟩
    · rw [hw, hent, List.append_assoc]
      rfl
    · intro y hy
      rcases List.mem_cons.mp hy with rfl | hy
      · exact hv
      · exact hkids y hy

/-- An outcome that a condition decides: a snapshot as it should be, or a `CaptureError`. -/
def Decides (P : Prop) (R : Value → Prop) (r : Except Stop Value) : Prop :=
  (P ∧ ∃ v, r = .ok v ∧ R v) ∨ (¬ P ∧ ∃ msg, r = .error (.thrown ⟨.captureError, msg⟩))

theorem Decides.congr {P Q : Prop} {R : Value → Prop} {r : Except Stop Value} (h : Decides P R r)
    (hpq : P ↔ Q) : Decides Q R r := by
  unfold Decides
  rw [← hpq]
  exact h

theorem decides_throwException (R : Value → Prop) (msg : List UInt8) :
    Decides False R (throwException msg) := Or.inr ⟨id, msg, rfl⟩

variable (entry) in
theorem storeAll_decides {P : α → Prop} {R : α → Value → Prop} {xs : List α}
    (hchild : ∀ x ∈ xs, Decides (P x) (R x) (child x)) {items : KvVec Entry}
    (hroom : items.Room) :
    ((∀ x ∈ xs, P x) ∧ ∃ w vs, storeAll child entry xs items = .ok w ∧ w.Room ∧
        vs.length = xs.length ∧ w.entries = items.entries ++ xs.zipWith entry vs ∧
        ∀ x ∈ xs.zip vs, R x.1 x.2) ∨
      ((¬ ∀ x ∈ xs, P x) ∧
        ∃ msg, storeAll child entry xs items = .error (.thrown ⟨.captureError, msg⟩)) := by
  induction xs generalizing items with
  | nil =>
    exact Or.inl ⟨List.forall_mem_nil _, items, [], rfl, hroom, rfl, (List.append_nil _).symm,
      List.forall_mem_nil _⟩
  | cons x xs ih =>
    rcases hchild x (List.mem_cons_self ..) with ⟨hp, v, hv, hr⟩ | ⟨hp, msg, hmsg⟩
    · obtain ⟨w', hw', hent, hroom'⟩ := KvVec.append_room hroom (entry x v)
      have hstep : storeAll child entry (x :: xs) items = storeAll child entry xs w' := by
        rw [storeAll, hv, ok_bind, hw']
        rfl
      rw [hstep]
      rcases ih (fun y hy => hchild y (List.mem_cons_of_mem _ hy)) hroom' with
        ⟨hall, w, vs, hw, hwroom, hlen, hwent, hkids⟩ | ⟨hnot, msg, hmsg⟩
      · refine Or.inl ⟨List.forall_mem_cons.mpr ⟨hp, hall⟩, w, v :: vs, hw, hwroom,
          congrArg Nat.succ hlen, ?_, List.forall_mem_cons.mpr ⟨hr, hkids⟩⟩
        rw [hwent, hent, List.append_assoc]
        rfl
      · exact Or.inr ⟨fun hall => hnot (List.forall_mem_cons.mp hall).2, msg, hmsg⟩
    · refine Or.inr ⟨fun hall => hp (hall x (List.mem_cons_self ..)), msg, ?_⟩
      rw [storeAll, hmsg]
      rfl

end Store

/-! ## The loops store the children -/

theorem valueObj_name (name : ZStr) :
    valueObj name.val name.length 0 = .ok (.obj (blob name) name.length ⟨0, [], 0⟩) := by
  unfold valueObj ZStr.val
  rw [dupBytes_load (load_cstr name)]
  rfl

theorem strEntry_cstr (bs : List UInt8) (c : Option Value) :
    strEntry (cstr bs) bs.length c = .ok (strKv bs c) := strEntry_load (load_cstr bs) c

section Loops
variable {inner : Zval → Except Stop Value}

theorem arraySet_eq (items : KvVec Entry) (e : ArrayKey × Zval) (child : Value) :
    checked (arraySet (.arr items) e.1 child) =
      (checked (items.append (elementEntry e child))).map .arr := by
  obtain ⟨key, val⟩ := e
  cases key with
  | int idx =>
    show checked (items.append (elementEntry (.int idx, val) child) >>= fun w =>
      Except.ok (Value.arr w)) = _
    cases items.append (elementEntry (.int idx, val) child) <;> rfl
  | str key =>
    have hset : arraySet (.arr items) (.str key) child =
        (items.append (elementEntry (.str key, val) child) >>= fun w => .ok (Value.arr w)) := by
      unfold arraySet valueArrSetStr ZStr.val
      dsimp only
      rw [strEntry_cstr, ok_bind]
      rfl
    rw [hset]
    cases items.append (elementEntry (.str key, val) child) <;> rfl

theorem objSet_eq (cls : Ptr) (clen : ℕ) (props : KvVec Entry) (p : ZStr × Zval) (child : Value) :
    checked (valueObjSet (.obj cls clen props) p.1.val p.1.length (some child)) =
      (checked (props.append (propertyEntry p child))).map (.obj cls clen) := by
  unfold valueObjSet ZStr.val
  dsimp only
  rw [strEntry_cstr, ok_bind, propertyEntry]
  cases props.append (strKv p.1 (some child)) <;> rfl

/-- The child of an element, or the refusal of a reference slot. -/
def elementChild (inner : Zval → Except Stop Value) (refusal : List UInt8) (e : ArrayKey × Zval) :
    Except Stop Value :=
  if e.2.isReference then throwException refusal else inner e.2

theorem elementsLoop_eq (refusal : List UInt8) (ht : HashTable) (items : KvVec Entry) :
    elementsLoop inner refusal ht (.arr items) =
      (storeAll (elementChild inner refusal) elementEntry ht items).map .arr := by
  induction ht generalizing items with
  | nil => rfl
  | cons e rest ih =>
    rw [elementsLoop, storeAll, elementChild]
    cases e.2.isReference with
    | true => rfl
    | false =>
      rw [if_neg Bool.false_ne_true, if_neg Bool.false_ne_true]
      cases inner e.2 with
      | error s => rfl
      | ok child =>
        rw [ok_bind, ok_bind, arraySet_eq]
        cases checked (items.append (elementEntry e child)) with
        | error s => rfl
        | ok w => exact ih w

theorem declaredLoop_eq (h : Heap) (obj : ZendObject) (infos : List PropertyInfo) (cls : Ptr)
    (clen : ℕ) (props : KvVec Entry) :
    declaredLoop inner h obj infos (.obj cls clen props) =
      (storeAll (inner ·.2) propertyEntry (declared h obj infos) props).map (.obj cls clen) := by
  induction infos generalizing props with
  | nil => rfl
  | cons info rest ih =>
    rw [declaredLoop, declared, List.filterMap_cons]
    cases hstatic : info.isStatic with
    | true => exact ih props
    | false =>
      cases hundef : (obj.slot info.offset).isUndef with
      | true => exact ih props
      | false =>
        simp only [Bool.false_eq_true, if_false, Bool.or_self]
        rw [storeAll]
        dsimp only
        cases inner (h.deref (obj.slot info.offset)) with
        | error s => rfl
        | ok child =>
          rw [ok_bind, ok_bind]
          have hset := objSet_eq cls clen props (info.name, h.deref (obj.slot info.offset)) child
          dsimp only at hset
          rw [hset]
          cases checked (props.append (propertyEntry _ child)) with
          | error s => rfl
          | ok w => exact ih w

theorem alreadyLoop_cons (key name : ZStr) (c : Option Value) (rest : List Entry) :
    alreadyLoop key (strKv name c :: rest) =
      if name = key then .ok true else alreadyLoop key rest := by
  rw [alreadyLoop]
  by_cases hlen : (strKv name c).skeyLen = key.length
  · have hlen' : name.length = key.length := hlen
    have hsame : memEq (strKv name c).skey key.val key.length = .ok (name == key) := by
      unfold memEq ZStr.val strKv
      dsimp only
      rw [← hlen', load_blob, ok_bind, hlen', load_cstr, ok_bind]
      rfl
    rw [if_pos hlen, hsame, ok_bind]
    by_cases hname : name = key
    · rw [hname, beq_self_eq_true, if_pos rfl, if_pos rfl]
      rfl
    · rw [beq_false_of_ne hname, if_neg Bool.false_ne_true, if_neg hname]
  · rw [if_neg hlen, if_neg fun hname => hlen (congrArg List.length hname)]

theorem alreadyLoop_eq {key : ZStr} {entries : List Entry}
    (hnew : ∀ kv ∈ entries, ∃ name c, kv = strKv name c ∧ name ≠ key) :
    alreadyLoop key entries = .ok false := by
  induction entries with
  | nil => rfl
  | cons kv rest ih =>
    obtain ⟨⟨name, c, rfl, hne⟩, hrest⟩ := List.forall_mem_cons.mp hnew
    rw [alreadyLoop_cons, if_neg hne]
    exact ih hrest

theorem names_cons_str (key : ZStr) (slot : Zval) (rest : HashTable) :
    names ((.str key, slot) :: rest) = key :: names rest := rfl

theorem dynamicLoop_eq (h : Heap) {table : HashTable} (hnodup : (names table).Nodup) (cls : Ptr)
    (clen : ℕ) {props : KvVec Entry} (hroom : props.Room)
    (hnew : ∀ kv ∈ props.entries, ∃ name c, kv = strKv name c ∧ name ∉ names table) :
    dynamicLoop inner h table (.obj cls clen props) =
      (storeAll (inner ·.2) propertyEntry (dynamic h table) props).map (.obj cls clen) := by
  induction table generalizing props with
  | nil => rfl
  | cons p rest ih =>
    obtain ⟨key, slot⟩ := p
    rw [dynamic, List.filterMap_cons]
    cases key with
    | int idx =>
      rw [dynamicLoop]
      have hskip := ih hnodup hroom hnew
      cases slot.isUndef <;> exact hskip
    | str key =>
      rw [dynamicLoop]
      rw [names_cons_str] at hnodup hnew
      obtain ⟨hkey, hnodup⟩ := List.nodup_cons.mp hnodup
      have hrest : ∀ kv ∈ props.entries, ∃ name c, kv = strKv name c ∧ name ∉ names rest := by
        intro kv hkv
        obtain ⟨name, c, rfl, hname⟩ := hnew kv hkv
        exact ⟨name, c, rfl, fun hmem => hname (List.mem_cons_of_mem _ hmem)⟩
      cases hundef : slot.isUndef with
      | true => exact ih hnodup hroom hrest
      | false =>
        have hfound : already (.obj cls clen props) key = .ok false := by
          refine alreadyLoop_eq fun kv hkv => ?_
          obtain ⟨name, c, rfl, hname⟩ := hnew kv hkv
          exact ⟨name, c, rfl, fun heq => hname (heq ▸ List.mem_cons_self ..)⟩
        simp only [Bool.false_eq_true, if_false, ArrayKey.name?, Option.map_some]
        rw [hfound, storeAll]
        show (inner (h.deref slot) >>= _) = _
        cases inner (h.deref slot) with
        | error s => rfl
        | ok child =>
          rw [ok_bind, ok_bind]
          have hset := objSet_eq cls clen props (key, h.deref slot) child
          dsimp only at hset
          rw [hset]
          obtain ⟨w, hw, hent, hroom'⟩ :=
            KvVec.append_room hroom (propertyEntry (key, h.deref slot) child)
          rw [hw]
          refine ih hnodup hroom' fun kv hkv => ?_
          rw [hent] at hkv
          rcases List.mem_append.mp hkv with hkv | hkv
          · exact hrest kv hkv
          · rw [List.mem_singleton.mp hkv]
            exact ⟨key, some child, rfl, hkey⟩

theorem mem_zipWith {α β γ : Type} {f : α → β → γ} {as : List α} {bs : List β} {c : γ}
    (h : c ∈ as.zipWith f bs) : ∃ x ∈ as.zip bs, c = f x.1 x.2 := by
  rw [← List.map_uncurry_zip_eq_zipWith] at h
  obtain ⟨x, hx, rfl⟩ := List.mem_map.mp h
  exact ⟨x, hx, rfl⟩

theorem declared_sublist (h : Heap) (obj : ZendObject) (infos : List PropertyInfo) :
    List.Sublist ((declared h obj infos).map Prod.fst) (declaredNames infos) := by
  induction infos with
  | nil => exact List.Sublist.refl []
  | cons info rest ih =>
    rw [declared, declaredNames, List.filterMap_cons, List.filter_cons]
    cases info.isStatic with
    | true => exact ih
    | false =>
      cases (obj.slot info.offset).isUndef with
      | true => exact ih.cons info.name
      | false => exact ih.cons_cons info.name

theorem dynamic_sublist (h : Heap) (table : HashTable) :
    List.Sublist ((dynamic h table).map Prod.fst) (names table) := by
  induction table with
  | nil => exact List.Sublist.refl []
  | cons p rest ih =>
    obtain ⟨key, slot⟩ := p
    rw [dynamic, names, List.filterMap_cons, List.filterMap_cons]
    cases key with
    | int idx => cases slot.isUndef <;> exact ih
    | str key =>
      cases slot.isUndef with
      | true => exact ih.cons key
      | false => exact ih.cons_cons key

theorem properties_nodup (h : Heap) (o : ℕ) : ((h.properties o).map Prod.fst).Nodup := by
  have hdecl := declared_sublist h (h.object o) (h.object o).ce.propertiesInfo
  have hdyn := dynamic_sublist h ((h.object o).properties.getD [])
  rw [Heap.properties, List.map_append]
  refine List.Nodup.append (hdecl.nodup (h.object o).ce.names_nodup)
    (hdyn.nodup (h.object o).names_nodup) fun name hname hname' => ?_
  exact (h.object o).names_other name (hdecl.subset hname) (hdyn.subset hname')

theorem objectToValue_eq (h : Heap) (o : ℕ) (hclosure : (h.object o).ce.isClosure = false)
    (hcreate : (h.object o).ce.createObject ≠ .custom) :
    objectToValue inner h (h.object o) =
      (storeAll (inner ·.2) propertyEntry (h.properties o) ⟨0, [], 0⟩).map
        (.obj (blob (h.object o).ce.name) (h.object o).ce.name.length) := by
  have hroom : (⟨0, [], 0⟩ : KvVec Entry).Room := ⟨rfl, le_rfl⟩
  unfold objectToValue objectToValueWith Heap.properties
  rw [hclosure, if_neg Bool.false_ne_true, if_neg hcreate, valueObj_name, storeAll_append]
  show (declaredLoop _ _ _ _ _ >>= _) = _
  rw [declaredLoop_eq]
  cases hstore : storeAll (inner ·.2) propertyEntry
      (declared h (h.object o) (h.object o).ce.propertiesInfo) ⟨0, [], 0⟩ with
  | error s => rfl
  | ok w =>
    obtain ⟨hwroom, vs, -, hent, -⟩ := storeAll_ok hroom hstore
    rw [ok_bind]
    cases hprops : (h.object o).properties with
    | none => rfl
    | some table =>
      have hnodup := (h.object o).names_nodup
      have hother := (h.object o).names_other
      rw [hprops] at hnodup hother
      refine dynamicLoop_eq h hnodup _ _ hwroom fun kv hkv => ?_
      rw [hent, List.nil_append] at hkv
      obtain ⟨⟨p, c⟩, hx, rfl⟩ := mem_zipWith hkv
      have hp : p.1 ∈ (declared h (h.object o) (h.object o).ce.propertiesInfo).map Prod.fst :=
        List.mem_map_of_mem (List.of_mem_zip hx).1
      exact ⟨p.1, some c, rfl, hother _ ((declared_sublist h _ _).subset hp)⟩

/-! ## Acceptance -/

/-- The snapshot of a table: of every element, under its key and in its place. -/
def Elementwise (h : Heap) (ht : HashTable) (v : Value) : Prop :=
  ∃ vs items, v = .arr items ∧ items.Room ∧ vs.length = ht.length ∧
    items.entries = ht.zipWith elementEntry vs ∧ ∀ x ∈ ht.zip vs, Unfolding h x.1.2 x.2

theorem elementsLoop_decides {P : Zval → Prop} (h : Heap) (ht : HashTable) (refusal : List UInt8)
    (cap : ℕ) (hinner : ∀ zv, Decides (P zv) (Unfolding h zv) (inner zv)) :
    Decides (∀ e ∈ ht, e.2.isReference = false ∧ P e.2) (Elementwise h ht)
      (elementsLoop inner refusal ht (valueArr cap)) := by
  have hroom : (⟨cap, [], cap⟩ : KvVec Entry).Room := ⟨rfl, Nat.zero_le _⟩
  unfold valueArr
  rw [elementsLoop_eq]
  have hchild : ∀ e ∈ ht, Decides (e.2.isReference = false ∧ P e.2) (Unfolding h e.2)
      (elementChild inner refusal e) := by
    intro e _
    unfold elementChild
    cases e.2.isReference with
    | true => exact Or.inr ⟨fun hf => absurd hf.1 (by decide), refusal, rfl⟩
    | false => exact (hinner e.2).congr ⟨fun hp => ⟨rfl, hp⟩, fun hp => hp.2⟩
  rcases storeAll_decides elementEntry hchild hroom with
    ⟨hall, w, vs, hw, hwroom, hlen, hent, hkids⟩ | ⟨hnot, msg, hmsg⟩
  · rw [hw]
    exact Or.inl ⟨hall, .arr w, rfl, vs, w, rfl, hwroom, hlen, hent, hkids⟩
  · rw [hmsg]
    exact Or.inr ⟨hnot, msg, rfl⟩

theorem Decides.mono {P : Prop} {R S : Value → Prop} {r : Except Stop Value} (h : Decides P R r)
    (hrs : ∀ v, R v → S v) : Decides P S r := by
  rcases h with ⟨hp, v, hv, hr⟩ | hno
  · exact Or.inl ⟨hp, v, hv, hrs v hr⟩
  · exact Or.inr hno

theorem arrayToValue_decides {P : Zval → Prop} (h : Heap) (a : ℕ)
    (hinner : ∀ zv, Decides (P zv) (Unfolding h zv) (inner zv)) :
    Decides (Capturable h (.array a) ∧ ∀ y ∈ h.kids (.array a), P y) (Unfolding h (.array a))
      (arrayToValue inner (h.array a)) := by
  have hiff : (∀ e ∈ h.array a, e.2.isReference = false ∧ P e.2) ↔
      Capturable h (.array a) ∧ ∀ y ∈ h.kids (.array a), P y := by
    unfold Capturable Heap.kids
    rw [List.forall_mem_map, ← forall₂_and]
  unfold arrayToValue
  refine ((elementsLoop_decides h _ _ _ hinner).congr hiff).mono ?_
  rintro v ⟨vs, items, rfl, hroom, hlen, hent, hkids⟩
  exact .array a vs items hent hroom hlen hkids

theorem objectToValue_decides {P : Zval → Prop} (h : Heap) (o : ℕ)
    (hinner : ∀ zv, Decides (P zv) (Unfolding h zv) (inner zv)) :
    Decides (Capturable h (.object o) ∧ ∀ y ∈ h.kids (.object o), P y) (Unfolding h (.object o))
      (objectToValue inner h (h.object o)) := by
  cases hclosure : (h.object o).ce.isClosure with
  | true =>
    refine Or.inr ⟨fun hf => ?_, _, if_pos hclosure⟩
    rw [hf.1.1] at hclosure
    cases hclosure
  | false =>
    by_cases hcreate : (h.object o).ce.createObject = .custom
    · refine Or.inr ⟨fun hf => hf.1.2 hcreate, ?_⟩
      unfold objectToValue objectToValueWith
      rw [hclosure, if_neg Bool.false_ne_true, if_pos hcreate]
      exact ⟨_, rfl⟩
    · rw [objectToValue_eq h o hclosure hcreate]
      have hroom : (⟨0, [], 0⟩ : KvVec Entry).Room := ⟨rfl, le_rfl⟩
      have hiff : (∀ p ∈ h.properties o, P p.2) ↔
          Capturable h (.object o) ∧ ∀ y ∈ h.kids (.object o), P y := by
        unfold Capturable Heap.kids
        rw [List.forall_mem_map, and_iff_right ⟨hclosure, hcreate⟩]
      rw [← hiff]
      rcases storeAll_decides propertyEntry (fun p _ => hinner p.2) hroom with
        ⟨hall, w, vs, hw, hwroom, hlen, hent, hkids⟩ | ⟨hnot, msg, hmsg⟩
      · rw [hw]
        exact Or.inl ⟨hall, _, rfl, .object o vs w hent hwroom hlen hkids⟩
      · rw [hmsg]
        exact Or.inr ⟨hnot, msg, rfl⟩

theorem zvalToValueInner_step {h : Heap} {fuel depth : ℕ} {P : Zval → Prop} (hdepth : depth ≤ 256)
    (hinner : ∀ zv, Decides (P zv) (Unfolding h zv) (zvalToValueInner h fuel zv (depth + 1)))
    (zv : Zval) : Decides (Capturable h zv ∧ ∀ y ∈ h.kids zv, P y) (Unfolding h zv)
      (zvalToValueInner h (fuel + 1) zv depth) := by
  have hok {z : Zval} {v : Value} {Q : Prop} (hc : Q) (hu : Unfolding h z v) :
      Decides (Q ∧ ∀ y ∈ ([] : List Zval), P y) (Unfolding h z) (.ok v) :=
    Or.inl ⟨⟨hc, List.forall_mem_nil _⟩, v, rfl, hu⟩
  have hno {z : Zval} {Q : Prop} (msg : List UInt8) :
      Decides (False ∧ Q) (Unfolding h z) (throwCaptureError msg) :=
    Or.inr ⟨fun hf => hf.1, _, rfl⟩
  change Decides _ _ (if 256 < depth then _ else _)
  rw [if_neg (by omega)]
  cases zv with
  | null => exact hok trivial .null
  | true => exact hok trivial .true
  | false => exact hok trivial .false
  | long i => exact hok trivial (.long i)
  | double d => exact hok trivial (.double d)
  | string s =>
    have hs : checked (valueStr s.val s.length) = .ok (.str (blob s) s.length) := by
      unfold valueStr ZStr.val
      rw [dupBytes_load (load_cstr _)]
      rfl
    dsimp only
    rw [hs]
    exact hok trivial (.string s)
  | array a => exact arrayToValue_decides h a hinner
  | object o => exact objectToValue_decides h o hinner
  | undef => exact hno _
  | resource => exact hno _
  | reference r => exact hno _
  | other t => exact hno _

end Loops

/-- With room for `n` more steps a call accepts what lies within `n` steps. -/
theorem zvalToValueInner_decides (h : Heap) (n fuel depth : ℕ) (zv : Zval)
    (hdepth : depth + n = 256) (hfuel : n + 2 ≤ fuel) :
    Decides (Within h.kids (Capturable h) n zv) (Unfolding h zv)
      (zvalToValueInner h fuel zv depth) := by
  obtain ⟨fuel, rfl⟩ : ∃ k, fuel = k + 1 := ⟨fuel - 1, by omega⟩
  induction n generalizing fuel depth zv with
  | zero =>
    -- the children are one step too deep, whatever they are
    obtain ⟨fuel, rfl⟩ : ∃ k, fuel = k + 1 := ⟨fuel - 1, by omega⟩
    have hinner : ∀ z, Decides False (Unfolding h z)
        (zvalToValueInner h (fuel + 1) z (depth + 1)) := by
      intro z
      change Decides _ _ (if 256 < depth + 1 then _ else _)
      rw [if_pos (by omega)]
      exact decides_throwException _ _
    exact (zvalToValueInner_step (by omega) hinner zv).congr within_zero.symm
  | succ n ih =>
    obtain ⟨fuel, rfl⟩ : ∃ k, fuel = k + 1 := ⟨fuel - 1, by omega⟩
    have hinner : ∀ z, Decides (Within h.kids (Capturable h) n z) (Unfolding h z)
        (zvalToValueInner h (fuel + 1) z (depth + 1)) := fun z =>
      ih (depth + 1) z (by omega) fuel (by omega)
    exact (zvalToValueInner_step (by omega) hinner zv).congr within_succ.symm

theorem admissible_iff (h : Heap) (top : Zval) :
    Admissible h top ↔ Within h.kids (Capturable h) 256 top := by
  refine ⟨fun ha => ha.2, fun hw => ⟨?_, hw⟩⟩
  have hc := hw.here
  cases top with
  | reference r => exact hc.elim
  | _ => rfl

theorem pxZvalToValue_decides (h : Heap) (top : Zval) :
    Decides (Admissible h top) (Unfolding h top) (pxZvalToValue h top) :=
  (zvalToValueInner_decides h 256 258 0 top rfl le_rfl).congr (admissible_iff h top).symm

theorem goArgs_decides (h : Heap) (ht : HashTable) :
    Decides (∀ e ∈ ht, e.2.isReference = false ∧ Admissible h e.2) (Elementwise h ht)
      (goArgs h (some ht)) :=
  elementsLoop_decides h ht _ 0 (pxZvalToValue_decides h)

theorem pxZvalToValue_unfolding {h : Heap} {top : Zval} {v : Value}
    (hv : pxZvalToValue h top = .ok v) : Unfolding h top v := by
  rcases pxZvalToValue_decides h top with ⟨-, w, hw, hu⟩ | ⟨-, msg, hmsg⟩
  · rw [hv] at hw
    cases hw
    exact hu
  · rw [hv] at hmsg
    cases hmsg

theorem pxZvalToValue_accepts {h : Heap} {top : Zval} (ha : Admissible h top) :
    ∃ v, pxZvalToValue h top = .ok v := by
  rcases pxZvalToValue_decides h top with ⟨-, v, hv, -⟩ | ⟨hna, -⟩
  · exact ⟨v, hv⟩
  · exact absurd ha hna

theorem pxZvalToValue_refuses {h : Heap} {top : Zval} (hna : ¬ Admissible h top) :
    ∃ msg, pxZvalToValue h top = .error (.thrown ⟨.captureError, msg⟩) := by
  rcases pxZvalToValue_decides h top with ⟨ha, -⟩ | ⟨-, msg, hmsg⟩
  · exact absurd ha hna
  · exact ⟨msg, hmsg⟩

/-- Acceptance is exact, the snapshot is the tree unfolding, with every property of an object once,
and every refusal is a `CaptureError`. -/
theorem pxZvalToValue_exact (h : Heap) (top : Zval) :
    ((∃ v, pxZvalToValue h top = .ok v) ↔ Admissible h top) ∧
      (∀ v, pxZvalToValue h top = .ok v → Unfolding h top v) ∧
      (∀ o, ((h.properties o).map Prod.fst).Nodup) ∧
      (¬ Admissible h top →
        ∃ msg, pxZvalToValue h top = .error (.thrown ⟨.captureError, msg⟩)) := by
  refine ⟨⟨?_, pxZvalToValue_accepts⟩, fun _ => pxZvalToValue_unfolding, properties_nodup h,
    pxZvalToValue_refuses⟩
  rintro ⟨v, hv⟩
  by_contra hna
  obtain ⟨msg, hmsg⟩ := pxZvalToValue_refuses hna
  rw [hmsg] at hv
  cases hv

theorem zvalToValueInner_ne_outOfFuel (h : Heap) {fuel : ℕ} (hfuel : 258 ≤ fuel) (top : Zval) :
    zvalToValueInner h fuel top 0 ≠ .error (.fault .outOfFuel) := by
  rcases zvalToValueInner_decides h 256 fuel 0 top rfl hfuel with ⟨-, v, hv, -⟩ | ⟨-, msg, hmsg⟩
  · rw [hv]
    exact fun hf => by cases hf
  · rw [hmsg]
    exact fun hf => by cases hf

end Parallax.Bridge
