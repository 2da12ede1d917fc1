import Parallax.Bridge.CaptureExact
import Parallax.Bridge.Transfer

/-! `object_to_value` on an object whose property table the engine has rebuilt: what
`obj->properties` holds is given apart from the object, and the two captures are compared. -/
namespace Parallax.Bridge
open Memory Walks
set_option autoImplicit false
set_option maxHeartbeats 250000

/-! ## Property tables -/

/-- A zval that is `IS_INDIRECT`. -/
def indirect : Zval := .other 12

/-- The table `rebuild_object_properties` makes: an indirect entry for each declared property that
is not static, in the order of the engine's list of them, and the dynamic properties behind. -/
def Rebuilt (obj : ZendObject) (table : Option HashTable) : Prop :=
  ∃ order : List ZStr, order.Perm (declaredNames obj.ce.propertiesInfo) ∧
    table = some (order.map (fun name => (.str name, indirect)) ++ obj.properties.getD [])

/-- What `obj->properties` holds for each object, some of them rebuilt. -/
structure PropertyTables (h : Heap) where
  table : ℕ → Option HashTable
  own_or_rebuilt : ∀ o, table o = (h.object o).properties ∨ Rebuilt (h.object o) (table o)

/-- `px_zval_to_value` over these tables. -/
def captureWith {h : Heap} (tables : PropertyTables h) (zv : Zval) : Except Stop Value :=
  zvalToValueWith h tables.table 258 zv 0

/-- Every declared property of the object holds a value. -/
def Initialised (obj : ZendObject) : Prop :=
  ∀ info ∈ obj.ce.propertiesInfo, info.isStatic = false → (obj.slot info.offset).isUndef = false

/-- An object whose table is its own, or one without uninitialised properties. -/
def TableHarmless {h : Heap} (tables : PropertyTables h) : Zval → Prop
  | .object o => tables.table o = (h.object o).properties ∨ Initialised (h.object o)
  | _ => True

/-! ## Two computations compared -/

/-- The second gives what the first gives under `P`, and fails otherwise. -/
def Agrees {ε α : Type} (P : Prop) (x y : Except ε α) : Prop :=
  (P → y = x) ∧ (¬ P → ∃ e, y = .error e)

section Agreement
variable {ε α β : Type} {P Q : Prop}

theorem agrees_refl (hp : P) (x : Except ε α) : Agrees P x x := ⟨fun _ => rfl, fun h => absurd hp h⟩

theorem agrees_error (e : ε) : Agrees P (.error e : Except ε α) (.error e) :=
  ⟨fun _ => rfl, fun _ => ⟨e, rfl⟩⟩

theorem Agrees.congr {x y : Except ε α} (h : Agrees P x y) (hpq : P ↔ Q) : Agrees Q x y :=
  ⟨fun hq => h.1 (hpq.mpr hq), fun hq => h.2 fun hp => hq (hpq.mp hp)⟩

theorem Agrees.bind {x y : Except ε α} {f g : α → Except ε β} (hx : Agrees P x y)
    (hf : ∀ a, Agrees Q (f a) (g a)) : Agrees (P ∧ Q) (x >>= f) (y >>= g) := by
  by_cases hp : P
  · rw [hx.1 hp]
    cases x with
    | error e => exact agrees_error e
    | ok a => exact (hf a).congr (and_iff_right hp).symm
  · obtain ⟨e, he⟩ := hx.2 hp
    rw [he]
    exact ⟨fun hpq => absurd hpq.1 hp, fun _ => ⟨e, rfl⟩⟩

theorem Agrees.map {x y : Except ε α} (h : Agrees P x y) (f : α → β) :
    Agrees P (x.map f) (y.map f) := by
  refine ⟨fun hp => congrArg (Except.map f) (h.1 hp), fun hp => ?_⟩
  obtain ⟨e, he⟩ := h.2 hp
  rw [he]
  exact ⟨e, rfl⟩

theorem storeAll_agrees {R : α → Prop} {child child' : α → Except Stop Value}
    (entry : α → Value → Entry) {xs : List α}
    (hchild : ∀ x ∈ xs, Agrees (R x) (child x) (child' x)) (items : KvVec Entry) :
    Agrees (∀ x ∈ xs, R x) (storeAll child entry xs items) (storeAll child' entry xs items) := by
  induction xs generalizing items with
  | nil => exact agrees_refl (List.forall_mem_nil _) _
  | cons x xs ih =>
    obtain ⟨hx, hxs⟩ := List.forall_mem_cons.mp hchild
    rw [List.forall_mem_cons, storeAll, storeAll]
    refine hx.bind fun v => ?_
    exact ((agrees_refl trivial _).bind fun w => ih hxs w).congr (and_iff_right trivial)

end Agreement

/-! ## The dynamic pass over a rebuilt table -/

section Rebuilt
variable {inner : Zval → Except Stop Value}

/-- The entry of a property of this name. -/
def NamedEntry (kv : Entry) (name : ZStr) : Prop := ∃ c, kv = strKv name c

theorem alreadyLoop_named {entries : List Entry} {captured : List ZStr}
    (h : List.Forall₂ NamedEntry entries captured) (key : ZStr) :
    alreadyLoop key entries = .ok (decide (key ∈ captured)) := by
  induction h with
  | nil => rfl
  | @cons kv name rest captured hkv _ ih =>
    obtain ⟨c, rfl⟩ := hkv
    rw [alreadyLoop_cons, ih]
    by_cases hname : name = key
    · rw [if_pos hname, hname, decide_eq_true (List.mem_cons_self ..)]
    · rw [if_neg hname]
      have hmem : key ∈ name :: captured ↔ key ∈ captured :=
        List.mem_cons.trans (or_iff_right fun heq => hname heq.symm)
      rw [decide_eq_decide.mpr hmem]

theorem named_of_zipWith {xs : List (ZStr × Zval)} {vs : List Value} (hlen : vs.length = xs.length) :
    List.Forall₂ NamedEntry (xs.zipWith propertyEntry vs) (xs.map Prod.fst) := by
  induction xs generalizing vs with
  | nil => exact .nil
  | cons x xs ih =>
    cases vs with
    | nil => cases hlen
    | cons v vs => exact .cons ⟨some v, rfl⟩ (ih (Nat.succ.inj hlen))

theorem dynamicLoop_indirect_cons (h : Heap) {props : KvVec Entry} {captured : List ZStr}
    (hnamed : List.Forall₂ NamedEntry props.entries captured) (cls : Ptr) (clen : ℕ) (name : ZStr)
    (rest : HashTable) :
    dynamicLoop inner h ((.str name, indirect) :: rest) (.obj cls clen props) =
      if name ∈ captured then dynamicLoop inner h rest (.obj cls clen props)
      else (inner indirect >>= fun child =>
        checked (valueObjSet (.obj cls clen props) name.val name.length (some child)) >>=
          dynamicLoop inner h rest) := by
  have hfound : already (.obj cls clen props) name = .ok (decide (name ∈ captured)) :=
    alreadyLoop_named hnamed name
  have hundef : indirect.isUndef = false := rfl
  rw [dynamicLoop, hundef, if_neg Bool.false_ne_true, hfound]
  by_cases hmem : name ∈ captured
  · rw [decide_eq_true hmem, if_pos hmem]
    rfl
  · rw [decide_eq_false hmem, if_neg hmem]
    rfl

/-- The entries of the properties that are captured already are left out, -/
theorem dynamicLoop_captured (h : Heap) {props : KvVec Entry} {captured : List ZStr}
    (hnamed : List.Forall₂ NamedEntry props.entries captured) (cls : Ptr) (clen : ℕ)
    {order : List ZStr} (hall : ∀ name ∈ order, name ∈ captured) (rest : HashTable) :
    dynamicLoop inner h (order.map (fun name => (.str name, indirect)) ++ rest)
        (.obj cls clen props) = dynamicLoop inner h rest (.obj cls clen props) := by
  induction order with
  | nil => rfl
  | cons name order ih =>
    obtain ⟨hname, hall⟩ := List.forall_mem_cons.mp hall
    rw [List.map_cons, List.cons_append, dynamicLoop_indirect_cons h hnamed, if_pos hname]
    exact ih hall

/-- and the first entry of another one is refused for its type. -/
theorem dynamicLoop_uncaptured (h : Heap) (hrefused : ∃ e, inner indirect = .error e)
    {props : KvVec Entry} {captured : List ZStr}
    (hnamed : List.Forall₂ NamedEntry props.entries captured) (cls : Ptr) (clen : ℕ)
    {order : List ZStr} (hmiss : ∃ name ∈ order, name ∉ captured) (rest : HashTable) :
    ∃ e, dynamicLoop inner h (order.map (fun name => (.str name, indirect)) ++ rest)
      (.obj cls clen props) = .error e := by
  induction order with
  | nil =>
    obtain ⟨name, hname, -⟩ := hmiss
    cases hname
  | cons name order ih =>
    rw [List.map_cons, List.cons_append, dynamicLoop_indirect_cons h hnamed]
    by_cases hname : name ∈ captured
    · rw [if_pos hname]
      refine ih ?_
      obtain ⟨other, hother, hnot⟩ := hmiss
      rcases List.mem_cons.mp hother with rfl | hother
      · exact absurd hname hnot
      · exact ⟨other, hother, hnot⟩
    · obtain ⟨e, he⟩ := hrefused
      rw [if_neg hname, he]
      exact ⟨e, rfl⟩

/-! ## One object -/

theorem objectToValueWith_own (h : Heap) (o : ℕ) :
    objectToValueWith inner h (h.object o) (h.object o).properties =
      objectToValue inner h (h.object o) := rfl

/-- The class alone decides on a refusal, whatever the object and its tables hold. -/
theorem class_cases (h : Heap) (obj : ZendObject) :
    (∃ e, ∀ inner dyn, objectToValueWith inner h obj dyn = .error e) ∨
      (obj.ce.isClosure = false ∧ obj.ce.createObject ≠ .custom) := by
  unfold objectToValueWith
  cases obj.ce.isClosure with
  | true => exact Or.inl ⟨_, fun inner dyn => if_pos rfl⟩
  | false =>
    by_cases hcreate : obj.ce.createObject = .custom
    · simp only [Bool.false_eq_true, if_false, if_pos hcreate]
      exact Or.inl ⟨_, fun inner dyn => rfl⟩
    · exact Or.inr ⟨rfl, hcreate⟩

theorem objectToValueWith_eq (h : Heap) (o : ℕ) (hclosure : (h.object o).ce.isClosure = false)
    (hcreate : (h.object o).ce.createObject ≠ .custom) (dyn : Option HashTable) :
    objectToValueWith inner h (h.object o) dyn =
      (storeAll (inner ·.2) propertyEntry
          (declared h (h.object o) (h.object o).ce.propertiesInfo) ⟨0, [], 0⟩ >>= fun w =>
        dynamicLoop inner h (dyn.getD [])
          (.obj (blob (h.object o).ce.name) (h.object o).ce.name.length w)) := by
  unfold objectToValueWith
  rw [hclosure, if_neg Bool.false_ne_true, if_neg hcreate, valueObj_name]
  show (declaredLoop _ _ _ _ _ >>= _) = _
  rw [declaredLoop_eq]
  cases storeAll (inner ·.2) propertyEntry
      (declared h (h.object o) (h.object o).ce.propertiesInfo) ⟨0, [], 0⟩ with
  | error s => rfl
  | ok w =>
    cases dyn with
    | none => rfl
    | some table => rfl

/-- What the declared pass has captured when it ends. -/
theorem declared_named {h : Heap} {obj : ZendObject} {w : KvVec Entry}
    (hstore : storeAll (inner ·.2) propertyEntry (declared h obj obj.ce.propertiesInfo)
      ⟨0, [], 0⟩ = .ok w) :
    List.Forall₂ NamedEntry w.entries ((declared h obj obj.ce.propertiesInfo).map Prod.fst) := by
  have hroom : (⟨0, [], 0⟩ : KvVec Entry).Room := ⟨rfl, le_rfl⟩
  obtain ⟨-, vs, hlen, hent, -⟩ := storeAll_ok hroom hstore
  rw [hent]
  exact named_of_zipWith hlen

theorem declared_names_of_initialised (h : Heap) {obj : ZendObject} {infos : List PropertyInfo}
    (hinit : ∀ info ∈ infos, info.isStatic = false → (obj.slot info.offset).isUndef = false) :
    (declared h obj infos).map Prod.fst = declaredNames infos := by
  induction infos with
  | nil => rfl
  | cons info rest ih =>
    obtain ⟨hinfo, hrest⟩ := List.forall_mem_cons.mp hinit
    rw [declared, declaredNames, List.filterMap_cons, List.filter_cons]
    cases hstatic : info.isStatic with
    | true => exact ih hrest
    | false =>
      rw [hinfo hstatic]
      exact congrArg (info.name :: ·) (ih hrest)

theorem mem_declaredNames {infos : List PropertyInfo} {info : PropertyInfo} (hmem : info ∈ infos)
    (hstatic : info.isStatic = false) : info.name ∈ declaredNames infos :=
  List.mem_map_of_mem (List.mem_filter.mpr ⟨hmem, by rw [hstatic]; rfl⟩)

theorem not_mem_declared (h : Heap) {obj : ZendObject} {infos : List PropertyInfo}
    (hnodup : (declaredNames infos).Nodup) {info : PropertyInfo} (hmem : info ∈ infos)
    (hstatic : info.isStatic = false) (hundef : (obj.slot info.offset).isUndef = true) :
    info.name ∉ (declared h obj infos).map Prod.fst := by
  induction infos with
  | nil => cases hmem
  | cons head rest ih =>
    rcases List.mem_cons.mp hmem with rfl | hmem
    · rw [declaredNames, List.filter_cons, hstatic] at hnodup
      have hrest := (List.nodup_cons.mp hnodup).1
      rw [declared, List.filterMap_cons, hstatic, hundef]
      exact fun hname => hrest ((declared_sublist h obj rest).subset hname)
    · rw [declared, List.filterMap_cons]
      rw [declaredNames, List.filter_cons] at hnodup
      cases hhead : head.isStatic with
      | true =>
        rw [hhead] at hnodup
        exact ih hnodup hmem
      | false =>
        rw [hhead] at hnodup
        obtain ⟨hnew, hnodup⟩ := List.nodup_cons.mp hnodup
        cases (obj.slot head.offset).isUndef with
        | true => exact ih hnodup hmem
        | false =>
          refine List.not_mem_cons_of_ne_of_not_mem (fun heq => hnew ?_) (ih hnodup hmem)
          have hname := mem_declaredNames hmem hstatic
          rw [heq] at hname
          exact hname

theorem objectToValueWith_initialised {h : Heap} {o : ℕ} {table : Option HashTable}
    (hinit : Initialised (h.object o)) (hrebuilt : Rebuilt (h.object o) table) :
    objectToValueWith inner h (h.object o) table = objectToValue inner h (h.object o) := by
  rw [← objectToValueWith_own]
  rcases class_cases h (h.object o) with ⟨e, he⟩ | ⟨hclosure, hcreate⟩
  · rw [he, he]
  · obtain ⟨order, hperm, rfl⟩ := hrebuilt
    rw [objectToValueWith_eq h o hclosure hcreate, objectToValueWith_eq h o hclosure hcreate]
    cases hstore : storeAll (inner ·.2) propertyEntry
        (declared h (h.object o) (h.object o).ce.propertiesInfo) ⟨0, [], 0⟩ with
    | error s => rfl
    | ok w =>
      have hnamed := declared_named hstore
      rw [declared_names_of_initialised h hinit] at hnamed
      exact dynamicLoop_captured h hnamed _ _ (fun _ hname => hperm.subset hname) _

theorem objectToValueWith_uninitialised {h : Heap} {o : ℕ} {table : Option HashTable}
    (hrefused : ∃ e, inner indirect = .error e) (hinit : ¬ Initialised (h.object o))
    (hrebuilt : Rebuilt (h.object o) table) :
    ∃ e, objectToValueWith inner h (h.object o) table = .error e := by
  rcases class_cases h (h.object o) with ⟨e, he⟩ | ⟨hclosure, hcreate⟩
  · exact ⟨e, he inner table⟩
  · obtain ⟨order, hperm, rfl⟩ := hrebuilt
    rw [objectToValueWith_eq h o hclosure hcreate]
    cases hstore : storeAll (inner ·.2) propertyEntry
        (declared h (h.object o) (h.object o).ce.propertiesInfo) ⟨0, [], 0⟩ with
    | error s => exact ⟨s, rfl⟩
    | ok w =>
      refine dynamicLoop_uncaptured h hrefused (declared_named hstore) _ _ ?_ _
      simp only [Initialised, not_forall, Bool.not_eq_false] at hinit
      obtain ⟨info, hmem, hstatic, hundef⟩ := hinit
      exact ⟨info.name, hperm.symm.subset (mem_declaredNames hmem hstatic),
        not_mem_declared h (h.object o).ce.names_nodup hmem hstatic hundef⟩

end Rebuilt

/-! ## The capture -/

theorem zvalToValueWith_indirect {h : Heap} (tables : PropertyTables h) (fuel depth : ℕ) :
    ∃ e, zvalToValueWith h tables.table fuel indirect depth = .error e := by
  cases fuel with
  | zero => exact ⟨_, rfl⟩
  | succ fuel =>
    change ∃ e, (if 256 < depth then _ else _) = _
    by_cases hdepth : 256 < depth
    · rw [if_pos hdepth]
      exact ⟨_, rfl⟩
    · rw [if_neg hdepth]
      exact ⟨_, rfl⟩

section Capture
variable {h : Heap} {tables : PropertyTables h} {inner inner' : Zval → Except Stop Value}
  {P : Zval → Prop}

theorem arrayToValue_agrees (a : ℕ) (hinner : ∀ zv, Agrees (P zv) (inner zv) (inner' zv)) :
    Agrees (∀ y ∈ h.kids (.array a), P y) (arrayToValue inner (h.array a))
      (arrayToValue inner' (h.array a)) := by
  unfold arrayToValue valueArr Heap.kids
  rw [List.forall_mem_map, elementsLoop_eq, elementsLoop_eq]
  refine (storeAll_agrees elementEntry (fun e _ => ?_) _).map _
  unfold elementChild
  cases e.2.isReference with
  | true => exact agrees_error _
  | false => exact hinner e.2

theorem objectToValue_agrees (o : ℕ) (hinner : ∀ zv, Agrees (P zv) (inner zv) (inner' zv)) :
    Agrees (∀ y ∈ h.kids (.object o), P y) (objectToValue inner h (h.object o))
      (objectToValue inner' h (h.object o)) := by
  rcases class_cases h (h.object o) with ⟨e, he⟩ | ⟨hclosure, hcreate⟩
  · rw [← objectToValueWith_own, ← objectToValueWith_own, he, he]
    exact agrees_error e
  · rw [objectToValue_eq h o hclosure hcreate, objectToValue_eq h o hclosure hcreate]
    unfold Heap.kids
    rw [List.forall_mem_map]
    exact (storeAll_agrees propertyEntry (fun p _ => hinner p.2) _).map _

theorem objectToValueWith_agrees (o : ℕ) (hinner : ∀ zv, Agrees (P zv) (inner zv) (inner' zv))
    (hrefused : ∃ e, inner' indirect = .error e) :
    Agrees (TableHarmless tables (.object o) ∧ ∀ y ∈ h.kids (.object o), P y)
      (objectToValue inner h (h.object o))
      (objectToValueWith inner' h (h.object o) (tables.table o)) := by
  have hown := objectToValue_agrees (h := h) o hinner
  rcases tables.own_or_rebuilt o with htable | htable
  · rw [htable, objectToValueWith_own]
    exact hown.congr (and_iff_right (Or.inl htable)).symm
  · by_cases hinit : Initialised (h.object o)
    · rw [objectToValueWith_initialised hinit htable]
      exact hown.congr (and_iff_right (Or.inr hinit)).symm
    · by_cases hsame : tables.table o = (h.object o).properties
      · rw [hsame, objectToValueWith_own]
        exact hown.congr (and_iff_right (Or.inl hsame)).symm
      · exact ⟨fun hharmless => (hharmless.1.elim hsame hinit).elim,
          fun _ => objectToValueWith_uninitialised hrefused hinit htable⟩

end Capture

theorem zvalToValueWith_agrees {h : Heap} (tables : PropertyTables h) (fuel depth : ℕ) (zv : Zval) :
    Agrees (Everywhere h.kids (TableHarmless tables) zv) (zvalToValueInner h fuel zv depth)
      (zvalToValueWith h tables.table fuel zv depth) := by
  induction fuel generalizing zv depth with
  | zero => exact agrees_error _
  | succ fuel ih =>
    rw [everywhere_iff]
    change Agrees _ (if 256 < depth then _ else _) (if 256 < depth then _ else _)
    by_cases hdepth : 256 < depth
    · rw [if_pos hdepth, if_pos hdepth]
      exact agrees_error _
    · have hleaf {P : Zval → Prop} (x : Except Stop Value) :
          Agrees (True ∧ ∀ y ∈ ([] : List Zval), P y) x x :=
        agrees_refl ⟨trivial, List.forall_mem_nil _⟩ x
      rw [if_neg hdepth, if_neg hdepth]
      cases zv with
      | array a => exact (arrayToValue_agrees a (ih (depth + 1))).congr (and_iff_right trivial).symm
      | object o =>
        exact objectToValueWith_agrees o (ih (depth + 1))
          (zvalToValueWith_indirect tables fuel (depth + 1))
      | _ => exact hleaf _

/-- The two captures make the same snapshot, or refuse alike, exactly when the value is refused
anyway or every object in it with a rebuilt table has its declared properties initialised; a
snapshot made in either way is the unfolding of the value, with every property once. -/
theorem captureWith_eq_iff (h : Heap) (tables : PropertyTables h) (zv : Zval) :
    ((captureWith tables zv).toOption = (pxZvalToValue h zv).toOption ↔
        ¬ Admissible h zv ∨ Everywhere h.kids (TableHarmless tables) zv) ∧
      (∀ v, captureWith tables zv = .ok v → Unfolding h zv v) ∧
      (∀ o, ((h.properties o).map Prod.fst).Nodup) := by
  have hagrees : Agrees (Everywhere h.kids (TableHarmless tables) zv) (pxZvalToValue h zv)
      (captureWith tables zv) := zvalToValueWith_agrees tables 258 0 zv
  refine ⟨⟨fun heq => ?_, fun hcond => ?_⟩, fun v hv => ?_, properties_nodup h⟩
  · by_cases hharmless : Everywhere h.kids (TableHarmless tables) zv
    · exact Or.inr hharmless
    · refine Or.inl fun hadm => ?_
      obtain ⟨v, hv⟩ := pxZvalToValue_accepts hadm
      obtain ⟨e, he⟩ := hagrees.2 hharmless
      rw [hv, he] at heq
      cases heq
  · by_cases hharmless : Everywhere h.kids (TableHarmless tables) zv
    · rw [hagrees.1 hharmless]
    · obtain ⟨e, he⟩ := hagrees.2 hharmless
      obtain ⟨msg, hmsg⟩ := pxZvalToValue_refuses (hcond.resolve_right hharmless)
      rw [he, hmsg]
      rfl
  · by_cases hharmless : Everywhere h.kids (TableHarmless tables) zv
    · rw [hagrees.1 hharmless] at hv
      exact pxZvalToValue_unfolding hv
    · obtain ⟨e, he⟩ := hagrees.2 hharmless
      rw [he] at hv
      cases hv

/-! ### An object with an uninitialised property -/

/-- The object of class `C` after the engine has rebuilt its table. -/
def sampleTables : PropertyTables sampleHeap where
  table := fun o =>
    if o = 0 then some [(.str (ascii ['x']), indirect)] else (sampleHeap.object o).properties
  own_or_rebuilt := by
    intro o
    by_cases ho : o = 0
    · subst ho
      exact Or.inr ⟨[ascii ['x']], List.Perm.refl _, rfl⟩
    · exact Or.inl (if_neg ho)

/-- The object is captured without its unset property, and refused once the table is there. -/
theorem not_captureWith_eq :
    (¬ ∀ (h : Heap) (tables : PropertyTables h) (zv : Zval),
        (captureWith tables zv).toOption = (pxZvalToValue h zv).toOption) ∧
      pxZvalToValue sampleHeap (.object 0) = .ok (.obj (blob (ascii ['C'])) 1 ⟨0, [], 0⟩) ∧
      captureWith sampleTables (.object 0) =
        .error (.thrown ⟨.captureError, ascii "unsupported zval type 12".toList⟩) := by
  have hown : pxZvalToValue sampleHeap (.object 0) = .ok (.obj (blob (ascii ['C'])) 1 ⟨0, [], 0⟩) :=
    rfl
  have hrebuilt : captureWith sampleTables (.object 0) =
      .error (.thrown ⟨.captureError, ascii "unsupported zval type 12".toList⟩) := rfl
  refine ⟨fun hall => ?_, hown, hrebuilt⟩
  have heq := hall sampleHeap sampleTables (.object 0)
  rw [hown, hrebuilt] at heq
  cases heq

end Parallax.Bridge
