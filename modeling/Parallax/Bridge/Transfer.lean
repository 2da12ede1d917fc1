import Parallax.Bridge.CaptureExact
import Parallax.Bridge.Materialise

/-! A value captured in one thread and rebuilt in another: what arrives is what was sent, with
every array an ordered map of the same keys and every object its class and its properties. -/
namespace Parallax.Bridge
open Memory Walks OrderedMap
set_option autoImplicit false
set_option maxHeartbeats 250000

/-! ## What a value is -/

/-- The class an object has in the receiving thread. -/
def classNameIn (classes : ClassTable) (name : ZStr) : ZStr :=
  if (classes name).isSome then name else stdClass.name

/-- Children under their keys. -/
def keyed {κ α : Type} (ps : List (κ × α)) (ts : List Php) : List (κ × Php) :=
  ps.zipWith (fun p t => (p.1, t)) ts

/-- The value a zval of the sending thread is, as the receiving thread can have it. -/
inductive Denotes (classes : ClassTable) (h : Heap) : Zval → Php → Prop
  | null : Denotes classes h .null .null
  | true : Denotes classes h .true (.bool Bool.true)
  | false : Denotes classes h .false (.bool Bool.false)
  | long (i : Int64) : Denotes classes h (.long i) (.long i)
  | double (d : UInt64) : Denotes classes h (.double d) (.double d)
  | string (s : ZStr) : Denotes classes h (.string s) (.string s)
  | array (a : ℕ) (ts : List Php) (hlen : ts.length = (h.array a).length)
      (hkids : ∀ x ∈ (h.array a).zip ts, Denotes classes h x.1.2 x.2) :
      Denotes classes h (.array a) (.array (keyed (h.array a) ts))
  | object (o : ℕ) (ts : List Php) (hlen : ts.length = (h.properties o).length)
      (hkids : ∀ x ∈ (h.properties o).zip ts, Denotes classes h x.1.2 x.2) :
      Denotes classes h (.object o)
        (.object (classNameIn classes (h.object o).ce.name) (keyed (h.properties o) ts))

/-! ## What can be sent -/

def KeyWf : ArrayKey → Prop
  | .int _ => True
  | .str key => key ≠ [] ∧ decimalIndex key = none

/-- Distinct keys, the strings among them neither empty nor canonical integers. -/
structure ArrayWf (ht : HashTable) : Prop where
  nodup : (keys ht).Nodup
  keys_wf : ∀ e ∈ ht, KeyWf e.1

/-- An object with public declared properties only, and of a class that is the same one in the
receiving thread, if it has it. -/
structure Plain (classes : ClassTable) (h : Heap) (o : ℕ) : Prop where
  public_names : ∀ name ∈ declaredNames (h.object o).ce.propertiesInfo, name.head? ≠ some 0
  class_name : ∀ c, classes (h.object o).ce.name = some c → c.name = (h.object o).ce.name
  declared_eq : ∀ c, classes (h.object o).ce.name = some c →
    keys c.defaults = declaredNames (h.object o).ce.propertiesInfo

/-- The receiving thread can rebuild a plain object: it makes objects of the class; a declared
property with a default holds a value; and it lets every property be stored. -/
structure Restorable (classes : ClassTable) (h : Heap) (o : ℕ) : Prop
    extends Plain classes h o where
  instantiable : ∀ c, classes (h.object o).ce.name = some c → c.instantiable = true
  initialised : ∀ c, classes (h.object o).ce.name = some c →
    ∀ p ∈ c.defaults, p.1 ∉ keys (h.properties o) → p.2 = none
  accepted : ∀ c, classes (h.object o).ce.name = some c →
    ∀ p ∈ h.properties o, ∀ t, Denotes classes h p.2 t → c.accepts p.1 t = true
  names_wf : ∀ p ∈ h.properties o, p.1.head? ≠ some 0

def SendableAt (classes : ClassTable) (h : Heap) : Zval → Prop
  | .array a => ArrayWf (h.array a)
  | .object o => Restorable classes h o
  | _ => True

abbrev Sendable (classes : ClassTable) (h : Heap) : Zval → Prop :=
  Everywhere h.kids (SendableAt classes h)

/-! ## Arrays -/

section Rebuild
variable {classes : ClassTable} {h : Heap}

theorem load_blob_first {key : ZStr} (hne : key ≠ []) : ∃ b, load (blob key) 1 = .ok [b] := by
  obtain ⟨b, rest, rfl⟩ := List.exists_cons_of_ne_nil hne
  exact ⟨b, by rw [blob_cons, load_some _ _ (by simp)]; rfl⟩

theorem addAssocZvalEx_eq {key : ZStr} (hne : key ≠ []) (hdec : decimalIndex key = none)
    (target : Elements) (child : Php) :
    addAssocZvalEx target (blob key) key.length child = .ok (put (.str key) child target) := by
  obtain ⟨b, hb⟩ := load_blob_first hne
  unfold addAssocZvalEx symtableKey
  rw [hb, ok_bind, load_blob, ok_bind, hdec]
  rfl

theorem arrayItems_cons {e : ArrayKey × Zval} (hkey : KeyWf e.1) {v : Value} {t : Php}
    (hv : valueToZval classes v = .ok t) (rest : List Entry) (target : Elements) :
    arrayItems classes (elementEntry e v :: rest) target =
      arrayItems classes rest (put e.1 t target) := by
  obtain ⟨key, zv⟩ := e
  cases key with
  | int idx =>
    show arrayItems classes (intEntry idx.toInt64 (some v) :: rest) target = _
    rw [intEntry, arrayItems, ptrToZval, hv, ok_bind, if_pos rfl, ok_bind, addIndexZval,
      UInt64.toUInt64_toInt64]
  | str key =>
    show arrayItems classes (strKv key (some v) :: rest) target = _
    rw [strKv, arrayItems, ptrToZval, hv, ok_bind, if_neg Bool.false_ne_true,
      addAssocZvalEx_eq hkey.1 hkey.2, ok_bind]

theorem arrayItems_eq {ht : HashTable} (hkeys : ∀ e ∈ ht, KeyWf e.1) {vs : List Value}
    (hlen : vs.length = ht.length)
    (hkids : ∀ x ∈ ht.zip vs, ∃ t, Denotes classes h x.1.2 t ∧ valueToZval classes x.2 = .ok t)
    (target : Elements) :
    ∃ ts, ts.length = ht.length ∧ (∀ x ∈ ht.zip ts, Denotes classes h x.1.2 x.2) ∧
      arrayItems classes (ht.zipWith elementEntry vs) target =
        .ok (putAll target (keyed ht ts)) := by
  induction ht generalizing vs target with
  | nil => exact ⟨[], rfl, List.forall_mem_nil _, rfl⟩
  | cons e ht ih =>
    obtain ⟨hkey, hkeys⟩ := List.forall_mem_cons.mp hkeys
    cases vs with
    | nil => cases hlen
    | cons v vs =>
      obtain ⟨⟨t, ht', hv⟩, hkids⟩ := List.forall_mem_cons.mp hkids
      obtain ⟨ts, htlen, hden, heq⟩ := ih hkeys (Nat.succ.inj hlen) hkids (put e.1 t target)
      refine ⟨t :: ts, congrArg Nat.succ htlen, List.forall_mem_cons.mpr ⟨ht', hden⟩, ?_⟩
      rw [List.zipWith_cons_cons, arrayItems_cons hkey hv, heq]
      rfl

theorem keys_keyed {κ α : Type} {ps : List (κ × α)} {ts : List Php} (hlen : ts.length = ps.length) :
    keys (keyed ps ts) = keys ps := by
  induction ps generalizing ts with
  | nil => rfl
  | cons p ps ih =>
    cases ts with
    | nil => cases hlen
    | cons t ts => exact congrArg (p.1 :: ·) (ih (Nat.succ.inj hlen))

theorem keyed_length {κ α : Type} {ps : List (κ × α)} {ts : List Php}
    (hlen : ts.length = ps.length) : (keyed ps ts).length = ps.length := by
  rw [keyed, List.length_zipWith, hlen, min_self]

theorem keyed_values {κ α : Type} {ps : List (κ × α)} {ts : List Php}
    (hlen : ts.length = ps.length) : (keyed ps ts).map Prod.snd = ts := by
  induction ps generalizing ts with
  | nil => exact (List.length_eq_zero_iff.mp hlen).symm
  | cons p ps ih =>
    cases ts with
    | nil => cases hlen
    | cons t ts => exact congrArg (t :: ·) (ih (Nat.succ.inj hlen))

/-! ## Objects -/

def storeProps (obj : NewObject) (ps : List (ZStr × Php)) : NewObject :=
  ps.foldl (fun obj p => obj.store p.1 p.2) obj

theorem storeProps_append (obj : NewObject) (ps qs : List (ZStr × Php)) :
    storeProps obj (ps ++ qs) = storeProps (storeProps obj ps) qs := List.foldl_append

theorem storeProps_declared {obj : NewObject} {ps : List (ZStr × Php)}
    (hps : ∀ k ∈ keys ps, k ∈ keys obj.slots) :
    storeProps obj ps =
      { obj with slots := putAll obj.slots (ps.map fun p => (p.1, some p.2)) } := by
  induction ps generalizing obj with
  | nil => rfl
  | cons p ps ih =>
    obtain ⟨hp, hps⟩ := List.forall_mem_cons.mp hps
    have hstore : obj.store p.1 p.2 = { obj with slots := put p.1 (some p.2) obj.slots } :=
      if_pos hp
    show storeProps (obj.store p.1 p.2) ps = _
    rw [hstore]
    have hkeys : ∀ k ∈ keys ps, k ∈ keys (put p.1 (some p.2) obj.slots) := by
      rw [keys_put_of_mem hp]
      exact hps
    exact ih hkeys

theorem storeProps_dynamic {obj : NewObject} {ps : List (ZStr × Php)}
    (hps : ∀ k ∈ keys ps, k ∉ keys obj.slots) :
    storeProps obj ps = { obj with dyn := putAll obj.dyn ps } := by
  induction ps generalizing obj with
  | nil => rfl
  | cons p ps ih =>
    obtain ⟨hp, hps⟩ := List.forall_mem_cons.mp hps
    have hstore : obj.store p.1 p.2 = { obj with dyn := put p.1 p.2 obj.dyn } := if_neg hp
    show storeProps (obj.store p.1 p.2) ps = _
    rw [hstore]
    exact ih hps

/-- An object gets back its properties, first the declared ones and then the others. -/
theorem storeProps_properties {slots : List (ZStr × Option Php)} {ps qs : List (ZStr × Php)}
    (hslots : (keys slots).Nodup) (hps : List.Sublist (keys ps) (keys slots))
    (hunset : ∀ p ∈ slots, p.1 ∉ keys ps → p.2 = none) (hqs : (keys qs).Nodup)
    (hnew : ∀ k ∈ keys qs, k ∉ keys slots) :
    (storeProps ⟨slots, []⟩ (ps ++ qs)).properties = ps ++ qs := by
  have hkeys : keys (ps.map fun p => (p.1, some p.2)) = keys ps := by
    rw [keys, List.map_map]
    rfl
  have hput : ∀ k ∈ keys qs, k ∉ keys (putAll slots (ps.map fun p => (p.1, some p.2))) := by
    intro k hk hmem
    rw [keys_putAll_of_mem (by rw [hkeys]; exact hps.subset)] at hmem
    exact hnew k hk hmem
  rw [storeProps_append, storeProps_declared fun k hk => hps.subset hk, storeProps_dynamic hput,
    putAll_of_new hqs (fun k _ => List.not_mem_nil), List.nil_append]
  unfold NewObject.properties
  dsimp only
  rw [filterMap_putAll (hkeys ▸ hps) hslots, List.filterMap_map]
  · congr 1
    exact List.filterMap_some
  · intro p hp hmem
    rw [hunset p hp (hkeys ▸ hmem)]
    rfl

theorem objectItems_eq (ce : WorkerClass) {ps : List (ZStr × Zval)}
    (hnames : ∀ p ∈ ps, p.1.head? ≠ some 0)
    (haccept : ∀ p ∈ ps, ∀ t, Denotes classes h p.2 t → ce.accepts p.1 t = true) {vs : List Value}
    (hlen : vs.length = ps.length)
    (hkids : ∀ x ∈ ps.zip vs, ∃ t, Denotes classes h x.1.2 t ∧ valueToZval classes x.2 = .ok t)
    (obj : NewObject) :
    ∃ ts, ts.length = ps.length ∧ (∀ x ∈ ps.zip ts, Denotes classes h x.1.2 x.2) ∧
      objectItems classes ce (ps.zipWith propertyEntry vs) (some obj) =
        .ok (some (storeProps obj (keyed ps ts))) := by
  induction ps generalizing vs obj with
  | nil => exact ⟨[], rfl, List.forall_mem_nil _, rfl⟩
  | cons p ps ih =>
    obtain ⟨hname, hnames⟩ := List.forall_mem_cons.mp hnames
    obtain ⟨hacc, haccept⟩ := List.forall_mem_cons.mp haccept
    cases vs with
    | nil => cases hlen
    | cons v vs =>
      obtain ⟨⟨t, ht, hv⟩, hkids⟩ := List.forall_mem_cons.mp hkids
      obtain ⟨ts, htlen, hden, heq⟩ :=
        ih hnames haccept (Nat.succ.inj hlen) hkids (obj.store p.1 t)
      refine ⟨t :: ts, congrArg Nat.succ htlen, List.forall_mem_cons.mpr ⟨ht, hden⟩, ?_⟩
      have hstore : updateProperty ce (some obj) p.1 t = .ok (some (obj.store p.1 t)) := by
        unfold updateProperty
        dsimp only
        rw [if_neg]
        rintro (h0 | h0)
        · exact hname h0
        · rw [hacc t ht] at h0
          cases h0
      rw [List.zipWith_cons_cons, propertyEntry, strKv, objectItems, ptrToZval, hv, ok_bind,
        load_blob, ok_bind, hstore, ok_bind, heq]
      rfl

theorem keyed_append {κ α : Type} (ps qs : List (κ × α)) {ts : List Php}
    (hlen : ts.length = (ps ++ qs).length) :
    ∃ us ws, us.length = ps.length ∧ ws.length = qs.length ∧
      keyed (ps ++ qs) ts = keyed ps us ++ keyed qs ws := by
  rw [List.length_append] at hlen
  have htake : (ts.take ps.length).length = ps.length := by
    rw [List.length_take]
    omega
  have hdrop : (ts.drop ps.length).length = qs.length := by
    rw [List.length_drop]
    omega
  refine ⟨ts.take ps.length, ts.drop ps.length, htake, hdrop, ?_⟩
  unfold keyed
  rw [← List.zipWith_append htake.symm, List.take_append_drop]

theorem restored_properties {o : ℕ} (hr : Restorable classes h o) {c : WorkerClass}
    (hc : classes (h.object o).ce.name = some c) {ts : List Php}
    (hlen : ts.length = (h.properties o).length) :
    (storeProps ⟨c.defaults, []⟩ (keyed (h.properties o) ts)).properties =
      keyed (h.properties o) ts := by
  have hdecl := declared_sublist h (h.object o) (h.object o).ce.propertiesInfo
  have hdyn := dynamic_sublist h ((h.object o).properties.getD [])
  have hslots := hr.declared_eq c hc
  have hkeys := keys_keyed hlen
  obtain ⟨us, ws, hus, hws, hsplit⟩ := keyed_append _ _ hlen
  have hsplit : keyed (h.properties o) ts = _ := hsplit
  have hks := keys_keyed hus
  have hkd := keys_keyed hws
  rw [hsplit]
  refine storeProps_properties ?_ ?_ ?_ ?_ ?_
  · rw [hslots]
    exact (h.object o).ce.names_nodup
  · rw [hslots, hks]
    exact hdecl
  · intro p hp hmem
    refine hr.initialised c hc p hp fun hprop => ?_
    rw [← hkeys, hsplit, keys_append] at hprop
    rcases List.mem_append.mp hprop with hprop | hprop
    · exact hmem hprop
    · rw [hkd] at hprop
      have hname : p.1 ∈ keys c.defaults := List.mem_map_of_mem hp
      rw [hslots] at hname
      exact (h.object o).names_other p.1 hname (hdyn.subset hprop)
  · rw [hkd]
    exact hdyn.nodup (h.object o).names_nodup
  · intro k hk hmem
    rw [hkd] at hk
    rw [hslots] at hmem
    exact (h.object o).names_other k hmem (hdyn.subset hk)

theorem valueToZval_object {o : ℕ} (hr : Restorable classes h o) {vs : List Value}
    {props : KvVec Entry} (hentries : props.entries = (h.properties o).zipWith propertyEntry vs)
    (hlen : vs.length = (h.properties o).length)
    (hkids : ∀ x ∈ (h.properties o).zip vs,
      ∃ t, Denotes classes h x.1.2 t ∧ valueToZval classes x.2 = .ok t) :
    ∃ t, Denotes classes h (.object o) t ∧
      valueToZval classes
        (.obj (blob (h.object o).ce.name) (h.object o).ce.name.length props) = .ok t := by
  obtain ⟨slots, entries, cap⟩ := props
  have hentries : entries = _ := hentries
  rw [valueToZval, load_blob, ok_bind, hentries]
  cases hc : classes (h.object o).ce.name with
  | none =>
    have hce : resolveClass classes (h.object o).ce.name = stdClass := by rw [resolveClass, hc]; rfl
    obtain ⟨ts, htlen, hden, heq⟩ := objectItems_eq stdClass hr.names_wf
      (fun _ _ _ _ => rfl) hlen hkids ⟨[], []⟩
    have hinit : objectInitEx stdClass = some ⟨[], []⟩ := rfl
    have hnodup : (keys (keyed (h.properties o) ts)).Nodup := by
      rw [keys_keyed htlen]
      exact properties_nodup h o
    have hprops : (storeProps ⟨[], []⟩ ([] ++ keyed (h.properties o) ts)).properties =
        [] ++ keyed (h.properties o) ts :=
      storeProps_properties List.nodup_nil (List.Sublist.refl []) (List.forall_mem_nil _) hnodup
        (fun _ _ => List.not_mem_nil)
    rw [List.nil_append] at hprops
    have hname : classNameIn classes (h.object o).ce.name = stdClass.name := by
      rw [classNameIn, hc]
      rfl
    refine ⟨_, .object o ts htlen hden, ?_⟩
    dsimp only
    rw [hce, hinit, heq, ok_bind, finished, hprops, hname]
    rfl
  | some c =>
    have hce : resolveClass classes (h.object o).ce.name = c := by rw [resolveClass, hc]; rfl
    obtain ⟨ts, htlen, hden, heq⟩ := objectItems_eq c hr.names_wf (hr.accepted c hc) hlen
      hkids ⟨c.defaults, []⟩
    have hinit : objectInitEx c = some ⟨c.defaults, []⟩ := if_pos (hr.instantiable c hc)
    have hname : classNameIn classes (h.object o).ce.name = c.name := by
      rw [classNameIn, hc, hr.class_name c hc]
      rfl
    refine ⟨_, .object o ts htlen hden, ?_⟩
    dsimp only
    rw [hce, hinit, heq, ok_bind, finished, restored_properties hr hc htlen, hname]
    rfl

theorem valueToZval_array {ht : HashTable} (hwf : ArrayWf ht) {vs : List Value}
    {items : KvVec Entry} (hentries : items.entries = ht.zipWith elementEntry vs)
    (hlen : vs.length = ht.length)
    (hkids : ∀ x ∈ ht.zip vs, ∃ t, Denotes classes h x.1.2 t ∧ valueToZval classes x.2 = .ok t) :
    ∃ ts, ts.length = ht.length ∧ (∀ x ∈ ht.zip ts, Denotes classes h x.1.2 x.2) ∧
      valueToZval classes (.arr items) = .ok (.array (keyed ht ts)) := by
  obtain ⟨slots, entries, cap⟩ := items
  have hentries : entries = _ := hentries
  obtain ⟨ts, htlen, hden, heq⟩ := arrayItems_eq hwf.keys_wf hlen hkids []
  refine ⟨ts, htlen, hden, ?_⟩
  have hnodup : (keys (keyed ht ts)).Nodup := by
    rw [keys_keyed htlen]
    exact hwf.nodup
  rw [valueToZval, hentries, heq, putAll_of_new hnodup (fun _ _ => List.not_mem_nil)]
  rfl

/-- What is rebuilt from a snapshot is the value it was taken of. -/
theorem Unfolding.rebuilt {zv : Zval} {v : Value} (hu : Unfolding h zv v)
    (hs : Sendable classes h zv) : ∃ t, Denotes classes h zv t ∧ valueToZval classes v = .ok t := by
  induction hu with
  | null => exact ⟨_, .null, by rw [valueToZval]⟩
  | true => exact ⟨_, .true, by rw [valueToZval]⟩
  | false => exact ⟨_, .false, by rw [valueToZval]⟩
  | long i => exact ⟨_, .long i, by rw [valueToZval]⟩
  | double d => exact ⟨_, .double d, by rw [valueToZval]⟩
  | string s =>
    refine ⟨_, .string s, ?_⟩
    rw [valueToZval, stringZval]
    cases s with
    | nil => rfl
    | cons b s => rw [if_neg (by simp [blob_cons]), load_blob]; rfl
  | array a vs items hentries _ hlen _ ih =>
    obtain ⟨hwf, hkids⟩ := everywhere_iff.mp hs
    have hall : ∀ x ∈ (h.array a).zip vs,
        ∃ t, Denotes classes h x.1.2 t ∧ valueToZval classes x.2 = .ok t := fun x hx =>
      ih x hx (hkids _ (List.mem_map_of_mem (List.of_mem_zip hx).1))
    obtain ⟨ts, htlen, hden, heq⟩ := valueToZval_array hwf hentries hlen hall
    exact ⟨_, .array a ts htlen hden, heq⟩
  | object o vs props hentries _ hlen _ ih =>
    obtain ⟨hwf, hkids⟩ := everywhere_iff.mp hs
    have hall : ∀ x ∈ (h.properties o).zip vs,
        ∃ t, Denotes classes h x.1.2 t ∧ valueToZval classes x.2 = .ok t := fun x hx =>
      ih x hx (hkids _ (List.mem_map_of_mem (List.of_mem_zip hx).1))
    exact valueToZval_object hwf hentries hlen hall

end Rebuild

/-! ## Sending -/

theorem goArgs_ok {h : Heap} {ht : HashTable} {v : Value} (hv : goArgs h (some ht) = .ok v) :
    Elementwise h ht v := by
  rcases goArgs_decides h ht with ⟨-, w, hw, hel⟩ | ⟨-, msg, hmsg⟩
  · rw [hv] at hw
    cases hw
    exact hel
  · rw [hv] at hmsg
    cases hmsg

/-- A captured value arrives as it was, and a task is called with the arguments `go()` was given,
as many and in their order. -/
theorem pxValueToZval_pxZvalToValue (classes : ClassTable) (h : Heap) :
    (∀ zv v, Sendable classes h zv → pxZvalToValue h zv = .ok v →
      ∃ t, Denotes classes h zv t ∧ pxValueToZval classes (some v) = .ok t) ∧
    ∀ ht v, ArrayWf ht → (∀ e ∈ ht, Sendable classes h e.2) → goArgs h (some ht) = .ok v →
      ∃ ts args, ts.length = ht.length ∧ (∀ x ∈ ht.zip ts, Denotes classes h x.1.2 x.2) ∧
        pxValueToZval classes (some v) = .ok args ∧ buildArgv args = some (ht.length, ts) := by
  constructor
  · intro zv v hs hv
    obtain ⟨t, ht, heq⟩ := (pxZvalToValue_unfolding hv).rebuilt hs
    refine ⟨t, ht, ?_⟩
    rw [pxValueToZval, ptrToZval, heq]
  · intro ht v hwf hs hv
    obtain ⟨vs, items, rfl, -, hlen, hent, hkids⟩ := goArgs_ok hv
    obtain ⟨ts, htlen, hden, heq⟩ := valueToZval_array hwf hent hlen fun x hx =>
      (hkids x hx).rebuilt (hs x.1 (List.of_mem_zip hx).1)
    refine ⟨ts, .array (keyed ht ts), htlen, hden, ?_, ?_⟩
    · rw [pxValueToZval, ptrToZval, heq]
    · rw [buildArgv, keyed_length htlen, keyed_values htlen]

/-! ### A list with an object -/

/-- The properties of a class, public ones in slots of their own. -/
def slotsOf (name : ZStr) : List PropertyInfo := [⟨name, false, 0⟩]

/-- An object whose one declared property, when it has a name, has `zv` in its slot. -/
def sample (cls : ZStr) (infos : List PropertyInfo) (hinfos : (declaredNames infos).Nodup)
    (zv : Zval) : ZendObject where
  ce := ⟨cls, false, .null, infos, hinfos⟩
  slot := fun _ => zv
  properties := none
  names_nodup := List.nodup_nil
  names_other := fun _ _ => List.not_mem_nil

/-- `C` has its property unset, `E` is the case of an enumeration, the property of `H` holds an
object of a class `M` the receiving thread lacks, and `P` is an object like any other. -/
def sampleHeap : Heap where
  array := fun _ => [(.int (-3), .object 4), (.str (ascii ['k']), .long 1)]
  object := fun
    | 0 => sample (ascii ['C']) (slotsOf (ascii ['x'])) (by decide) .undef
    | 1 => sample (ascii ['E']) (slotsOf (ascii ['n'])) (by decide) (.string (ascii ['A']))
    | 2 => sample (ascii ['H']) (slotsOf (ascii ['b'])) (by decide) (.object 3)
    | 3 => sample (ascii ['M']) [] (by decide) .undef
    | 4 => sample (ascii ['P']) (slotsOf (ascii ['x'])) (by decide) .true
    | _ =>
      { sample stdClass.name [] (by decide) .undef with
        properties := some [(.str [0, 0x61], .long 1)]
        names_nodup := by decide
        names_other := fun _ hname => by cases hname }
  reference := fun _ => .null

def isStdObject : Php → Bool
  | .object cls _ => cls == stdClass.name
  | _ => false

def sampleClasses : ClassTable := fun name =>
  if name = ascii ['C'] then some ⟨name, true, [(ascii ['x'], some (.long 1))], fun _ _ => true⟩
  else if name = ascii ['E'] then some ⟨name, false, [(ascii ['n'], none)], fun _ _ => true⟩
  else if name = ascii ['H'] then
    some ⟨name, true, [(ascii ['b'], none)], fun _ val => !isStdObject val⟩
  else if name = ascii ['P'] then some ⟨name, true, [(ascii ['x'], none)], fun _ _ => true⟩
  else if name = stdClass.name then some stdClass
  else none

theorem sampleClasses_name {name : ZStr} {c : WorkerClass} (hc : sampleClasses name = some c) :
    c.name = name := by
  unfold sampleClasses at hc
  split_ifs at hc with h1 h2 h3 h4 h5
  all_goals cases hc
  all_goals first | rfl | exact h5.symm

theorem sample_plain {o : ℕ} {ds : List (ZStr × Option Php)}
    (hpublic : ∀ name ∈ declaredNames (sampleHeap.object o).ce.propertiesInfo, name.head? ≠ some 0)
    (hds : (sampleClasses (sampleHeap.object o).ce.name).map WorkerClass.defaults = some ds)
    (hkeys : keys ds = declaredNames (sampleHeap.object o).ce.propertiesInfo) :
    Plain sampleClasses sampleHeap o := by
  refine ⟨hpublic, fun c hc => sampleClasses_name hc, fun c hc => ?_⟩
  rw [hc] at hds
  cases hds
  exact hkeys

theorem sample_sendable : Sendable sampleClasses sampleHeap (.array 0) := by
  have hclass : sampleClasses (sampleHeap.object 4).ce.name =
      some ⟨ascii ['P'], true, [(ascii ['x'], none)], fun _ _ => true⟩ := rfl
  have hobj : Restorable sampleClasses sampleHeap 4 := by
    refine ⟨sample_plain (by decide) rfl rfl, ?_, ?_, ?_, by decide⟩
    · intro c hc
      rw [hclass] at hc
      cases hc
      rfl
    · intro c hc
      rw [hclass] at hc
      cases hc
      decide
    · intro c hc
      rw [hclass] at hc
      cases hc
      exact fun _ _ _ _ => rfl
  have hleaf (zv : Zval) (hkids : sampleHeap.kids zv = [])
      (hat : SendableAt sampleClasses sampleHeap zv) :
      Sendable sampleClasses sampleHeap zv :=
    everywhere_iff.mpr ⟨hat, by rw [hkids]; exact List.forall_mem_nil _⟩
  have hobject : Sendable sampleClasses sampleHeap (.object 4) :=
    everywhere_iff.mpr ⟨hobj, List.forall_mem_singleton.mpr (hleaf .true rfl trivial)⟩
  have hkey : KeyWf (.str (ascii ['k'])) := ⟨by decide, by decide⟩
  have harray : ArrayWf (sampleHeap.array 0) :=
    ⟨by decide, List.forall_mem_cons.mpr ⟨trivial, List.forall_mem_singleton.mpr hkey⟩⟩
  exact everywhere_iff.mpr ⟨harray, List.forall_mem_cons.mpr
    ⟨hobject, List.forall_mem_singleton.mpr (hleaf (.long 1) rfl trivial)⟩⟩

theorem pxValueToZval_pxZvalToValue_sample :
    (∃ v t, pxZvalToValue sampleHeap (.array 0) = .ok v ∧
      Denotes sampleClasses sampleHeap (.array 0) t ∧
      pxValueToZval sampleClasses (some v) = .ok t) ∧
    ∃ v ts args, goArgs sampleHeap (some (sampleHeap.array 0)) = .ok v ∧ ts.length = 2 ∧
      pxValueToZval sampleClasses (some v) = .ok args ∧ buildArgv args = some (2, ts) := by
  have hmain := pxValueToZval_pxZvalToValue sampleClasses sampleHeap
  obtain ⟨hwf, hkids⟩ := everywhere_iff.mp sample_sendable
  constructor
  · obtain ⟨t, ht, heq⟩ := hmain.1 (.array 0) _ sample_sendable rfl
    exact ⟨_, t, rfl, ht, heq⟩
  · obtain ⟨ts, args, hlen, -, heq, hargv⟩ := hmain.2 (sampleHeap.array 0) _ hwf
      (fun e he => hkids _ (List.mem_map_of_mem he)) rfl
    exact ⟨_, ts, args, rfl, hlen, heq, hargv⟩

/-! ### What is not rebuilt -/

def PlainAt (classes : ClassTable) (h : Heap) : Zval → Prop
  | .array a => ArrayWf (h.array a)
  | .object o => Plain classes h o
  | _ => True

/-- A captured value of plain objects that does not arrive as it was. -/
def Lost (classes : ClassTable) (h : Heap) (zv : Zval) : Prop :=
  Everywhere h.kids (PlainAt classes h) zv ∧
    ∃ v, pxZvalToValue h zv = .ok v ∧
      ∀ t, Denotes classes h zv t → pxValueToZval classes (some v) ≠ .ok t

def Php.size : Php → ℕ
  | .object _ properties => properties.length
  | _ => 0

theorem ne_of_size {classes : ClassTable} {h : Heap} {o k : ℕ} {v : Value}
    (hsize : (pxValueToZval classes (some v)).map Php.size = .ok k)
    (hne : k ≠ (h.properties o).length) (t : Php) (ht : Denotes classes h (.object o) t) :
    pxValueToZval classes (some v) ≠ .ok t := by
  intro heq
  cases ht with
  | object _ ts hlen _ =>
    rw [heq] at hsize
    have hk : (keyed (h.properties o) ts).length = k := Except.ok.inj hsize
    rw [keyed_length hlen] at hk
    exact hne hk.symm

theorem sample_plainAt (o : ℕ) (hplain : Plain sampleClasses sampleHeap o)
    (hkids : ∀ zv ∈ sampleHeap.kids (.object o),
      Everywhere sampleHeap.kids (PlainAt sampleClasses sampleHeap) zv) :
    Everywhere sampleHeap.kids (PlainAt sampleClasses sampleHeap) (.object o) :=
  everywhere_iff.mpr ⟨hplain, hkids⟩

/-- Lost are: an unset property with a default, the case of an enumeration, an object of a missing
class under a typed property, and a property whose name starts with NUL. -/
theorem pxValueToZval_pxZvalToValue_lost :
    Lost sampleClasses sampleHeap (.object 0) ∧ Lost sampleClasses sampleHeap (.object 1) ∧
      Lost sampleClasses sampleHeap (.object 2) ∧ Lost sampleClasses sampleHeap (.object 5) := by
  have hleaf (zv : Zval) (hkids : sampleHeap.kids zv = [])
      (hat : PlainAt sampleClasses sampleHeap zv) :
      Everywhere sampleHeap.kids (PlainAt sampleClasses sampleHeap) zv :=
    everywhere_iff.mpr ⟨hat, by rw [hkids]; exact List.forall_mem_nil _⟩
  have hmissing : Plain sampleClasses sampleHeap 3 := by
    have hnone : sampleClasses (sampleHeap.object 3).ce.name = none := rfl
    refine ⟨by decide, fun c hc => sampleClasses_name hc, fun c hc => ?_⟩
    rw [hnone] at hc
    cases hc
  refine ⟨⟨?_, _, rfl, ?_⟩, ⟨?_, _, rfl, ?_⟩, ⟨?_, _, rfl, ?_⟩, ⟨?_, _, rfl, ?_⟩⟩
  · exact sample_plainAt 0 (sample_plain (by decide) rfl rfl) (List.forall_mem_nil _)
  · exact ne_of_size rfl (by decide)
  · exact sample_plainAt 1 (sample_plain (by decide) rfl rfl)
      (List.forall_mem_singleton.mpr (hleaf (.string (ascii ['A'])) rfl trivial))
  · exact fun t _ heq => by cases heq
  · exact sample_plainAt 2 (sample_plain (by decide) rfl rfl)
      (List.forall_mem_singleton.mpr (sample_plainAt 3 hmissing (List.forall_mem_nil _)))
  · exact ne_of_size rfl (by decide)
  · exact sample_plainAt 5 (sample_plain (by decide) rfl rfl)
      (List.forall_mem_singleton.mpr (hleaf (.long 1) rfl trivial))
  · exact ne_of_size rfl (by decide)

end Parallax.Bridge
