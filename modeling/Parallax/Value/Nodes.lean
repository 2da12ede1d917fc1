import Parallax.Value.Growth
import Parallax.Value.Unpacked

/-! Calls of the builders on any array or object of a tree, and a tree and its clone under the same
calls. -/
namespace Parallax
open Memory
set_option autoImplicit false
set_option maxHeartbeats 250000

/-! ## Nodes -/

namespace Value

/-- The tree that slot `i` of the block points to. -/
def child? (v : Value) (i : ℕ) : Option Value := v.items.entries[i]?.bind Kv.val

/-- The tree when slot `i` points to another one. -/
def setChild (v : Value) (i : ℕ) (x : Value) : Value :=
  v.withItems { v.items with
    entries := v.items.entries.modify i fun kv => { kv with val := some x } }

/-- The node under a path of slots. -/
def node : Value → List ℕ → Option Value
  | v, [] => some v
  | v, i :: path => (v.child? i).bind fun x => x.node path

/-- Every block of the tree has room. -/
def Roomy (v : Value) : Prop := ∀ block, HasBlock block v → block.Room

end Value

/-- A call on the node under a path, where a path that leads nowhere is a NULL pointer. -/
def BuildCall.applyAt (c : BuildCall) : List ℕ → Value → Except Fault Value
  | [], v => c.apply v
  | i :: path, v =>
    match v.child? i with
    | some x => (c.applyAt path x).map (v.setChild i)
    | none => .error .nullRead

/-- A call of a builder somewhere in a tree. -/
structure NodeCall where
  path : List ℕ
  call : BuildCall

namespace NodeCall

def apply (c : NodeCall) (v : Value) : Except Fault Value := c.call.applyAt c.path v

/-- The calls one after another. -/
def applyAll (calls : List NodeCall) (v : Value) : Except Fault Value :=
  calls.foldlM (fun v c => c.apply v) v

/-- The call is one that C defines. -/
def Defined (c : NodeCall) (v : Value) : Prop := ∃ x, v.node c.path = some x ∧ c.call.Defined x

end NodeCall

/-- A tree that constructors, builders, `value_clone` and `value_unpack` give, where the builders take
any node of such a tree. The premises on sizes say only that objects and counts have `size_t` sizes. -/
inductive Reachable : Value → Prop
  | built {v : Value} (h : Built v) : Reachable v
  | unpacked {buf : List UInt8} {v : Value} (h : valueUnpack buf = .ok (some v)) : Reachable v
  | cloned {v w : Value} (hv : Reachable v) (h : valueClone (some v) = .ok (some w)) : Reachable w
  | called {c : NodeCall} {v a : Value} (hv : Reachable v)
      (hc : ∀ x, c.call.child = some x → Reachable x)
      (hkey : ∀ key, c.call.keyArg? = some key → Fits key.key) (h : c.apply v = .ok a)
      (hn : ∀ x, a.node c.path = some x → x.n < 2 ^ 64) : Reachable a

/-! ## Children -/

namespace Value
variable {v x y : Value} {i j : ℕ}

theorem child?_eq (h : v.child? i = some x) :
    ∃ kv, v.items.entries[i]? = some kv ∧ kv.val = some x := Option.bind_eq_some_iff.mp h

theorem child?_mem (h : v.child? i = some x) : ∃ kv ∈ v.items.entries, kv.val = some x := by
  obtain ⟨kv, hkv, hval⟩ := child?_eq h
  exact ⟨kv, List.mem_of_getElem? hkv, hval⟩

theorem setChild_items (v : Value) (i : ℕ) (x : Value) : (v.setChild i x).items =
    { v.items with entries := v.items.entries.modify i fun kv => { kv with val := some x } } := by
  cases v with
  | arr _ => rfl
  | obj _ _ _ => rfl
  | _ =>
    refine congrArg (fun entries : List Entry => (⟨0, entries, 0⟩ : KvVec Entry)) ?_
    exact (List.modify_nil _ i).symm

theorem setChild_entries (v : Value) (i : ℕ) (x : Value) : (v.setChild i x).items.entries =
    v.items.entries.modify i fun kv => { kv with val := some x } :=
  congrArg KvVec.entries (setChild_items v i x)

theorem setChild_room (h : v.items.Room) (i : ℕ) (x : Value) : (v.setChild i x).items.Room := by
  rw [setChild_items]
  refine ⟨h.slots_eq, ?_⟩
  show (v.items.entries.modify i _).length ≤ v.items.cap
  rw [List.length_modify]
  exact h.n_le

theorem child?_setChild_self (h : v.child? i = some x) (y : Value) :
    (v.setChild i y).child? i = some y := by
  obtain ⟨kv, hkv, -⟩ := child?_eq h
  rw [child?, setChild_entries, List.getElem?_modify_eq, hkv]
  rfl

theorem child?_setChild_ne (h : i ≠ j) (y : Value) : (v.setChild i y).child? j = v.child? j := by
  rw [child?, setChild_entries, List.getElem?_modify_ne _ _ h]
  rfl

theorem withItems_self (v : Value) : v.withItems v.items = v := by
  cases v <;> rfl

theorem withItems_withItems (v : Value) (items items' : KvVec Entry) :
    (v.withItems items).withItems items' = v.withItems items' := by
  cases v <;> rfl

/-- What holds of the entries, and of an entry that gets the new child, holds in the new tree. -/
theorem forall_mem_setChild {P : Entry → Prop} (h : ∀ kv ∈ v.items.entries, P kv)
    (hy : ∀ kv, P kv → P { kv with val := some y }) :
    ∀ kv ∈ (v.setChild i y).items.entries, P kv := by
  intro kv hkv
  rw [setChild_entries] at hkv
  obtain ⟨j, hj⟩ := List.getElem?_of_mem hkv
  rw [List.getElem?_modify] at hj
  obtain ⟨old, hold, rfl⟩ := Option.map_eq_some_iff.mp hj
  have hP := h old (List.mem_of_getElem? hold)
  split
  · exact hy old hP
  · exact hP

end Value

/-! ## Room -/

namespace Value
variable {v x y : Value} {i : ℕ}

theorem roomy_iff : v.Roomy ↔
    v.items.Room ∧ ∀ kv ∈ v.items.entries, ∀ x, kv.val = some x → x.Roomy := by
  constructor
  · intro h
    cases v with
    | arr items => exact ⟨h _ .arr, fun kv hkv x hx block hb => h _ (.arrChild hkv hx hb)⟩
    | obj cls clen props =>
      exact ⟨h _ (.obj cls clen), fun kv hkv x hx block hb => h _ (.objChild hkv hx hb)⟩
    | _ => exact ⟨⟨rfl, le_rfl⟩, fun _ hkv => by cases hkv⟩
  · rintro ⟨hroom, hchild⟩ block hb
    cases hb with
    | arr => exact hroom
    | obj _ _ => exact hroom
    | arrChild hkv hx hb => exact hchild _ hkv _ hx _ hb
    | objChild hkv hx hb => exact hchild _ hkv _ hx _ hb

theorem Roomy.room (h : v.Roomy) : v.items.Room := (roomy_iff.mp h).1

theorem Roomy.child (h : v.Roomy) (hx : v.child? i = some x) : x.Roomy := by
  obtain ⟨kv, hkv, hval⟩ := child?_mem hx
  exact (roomy_iff.mp h).2 kv hkv x hval

theorem Roomy.setChild (h : v.Roomy) (hy : y.Roomy) : (v.setChild i y).Roomy := by
  obtain ⟨hroom, hchild⟩ := roomy_iff.mp h
  refine roomy_iff.mpr ⟨setChild_room hroom i y, forall_mem_setChild hchild fun _ _ x hx => ?_⟩
  cases hx
  exact hy

theorem Wf.roomy (h : v.Wf) : v.Roomy := fun _ hb => (h.block hb).room

end Value

/-! ## The trees that can be reached -/

theorem KvVec.Wf.modify {items : KvVec Entry} (h : items.Wf) (i : ℕ) (f : Entry → Entry) :
    ({ items with entries := items.entries.modify i f } : KvVec Entry).Wf := by
  have hn : (items.entries.modify i f).length = items.n := List.length_modify f items.entries i
  exact ⟨h.slots_eq, hn.trans_le h.n_le, hn.trans_lt h.n_lt⟩

theorem EntryWf.withChild {kv : Entry} (h : EntryWf kv) (y : Value) :
    EntryWf { kv with val := some y } := by
  cases h with
  | int k _ => exact .int k (some y)
  | str key _ hlen => exact .str key (some y) hlen

namespace Value
variable {v x y : Value} {i : ℕ}

theorem Wf.child (h : v.Wf) (hx : v.child? i = some x) : x.Wf := by
  obtain ⟨kv, hkv, hval⟩ := child?_mem hx
  cases h with
  | arr _ _ _ hc => exact hc kv hkv x hval
  | obj _ _ _ _ _ _ hc => exact hc kv hkv x hval
  | _ => cases hkv

theorem Wf.setChild (h : v.Wf) (hy : y.Wf) : (v.setChild i y).Wf := by
  have hchild (kv : Entry) (_ : ∀ x, kv.val = some x → x.Wf) :
      ∀ x, ({ kv with val := some y } : Entry).val = some x → x.Wf := by
    rintro x ⟨⟩
    exact hy
  cases h with
  | arr items hv hk hc =>
    exact .arr _ (hv.modify i _) (forall_mem_setChild (v := .arr items) hk fun _ h => h.withChild y)
      (forall_mem_setChild (v := .arr items) hc hchild)
  | obj cls props hcls hv hk hs hc =>
    have hin {P : Entry → Prop} := @forall_mem_setChild (.obj (blob cls) cls.length props) y i P
    exact .obj cls _ hcls (hv.modify i _) (hin hk fun _ h => h.withChild y) (hin hs fun _ h => h)
      (hin hc hchild)
  | null => exact .null
  | bool b => exact .bool b
  | long k => exact .long k
  | double d => exact .double d
  | str bs hlen => exact .str bs hlen
  | err cls msg code trace hcls hmsg htrace => exact .err cls msg code trace hcls hmsg htrace

end Value

theorem BuildCall.applyAt_wf {c : BuildCall} {path : List ℕ} {v a : Value} (hv : v.Wf)
    (hc : ChildWf c.child) (hkey : ∀ key, c.keyArg? = some key → Fits key.key)
    (h : c.applyAt path v = .ok a) (hn : ∀ x, a.node path = some x → x.n < 2 ^ 64) : a.Wf := by
  induction path generalizing v a with
  | nil => exact apply_wf hv hc hkey h (hn a rfl)
  | cons i path ih =>
    rw [applyAt] at h
    cases hx : v.child? i with
    | none =>
      rw [hx] at h
      cases h
    | some x =>
      rw [hx] at h
      obtain ⟨y, hy, rfl⟩ := map_ok h
      refine hv.setChild (ih (hv.child hx) hy fun z hz => hn z ?_)
      rw [Value.node, Value.child?_setChild_self hx]
      exact hz

theorem Reachable.wf {v : Value} (h : Reachable v) : v.Wf := by
  induction h with
  | built h => exact h.wf
  | unpacked h => exact valueUnpack_wf h
  | cloned _ h ih => exact ih.clone h
  | called _ _ hkey h hn ih ihc => exact BuildCall.applyAt_wf ih ihc hkey h hn

/-! ## What a call changes and what it keeps -/

/-- A call has appended its entry to the block of the node under the path. -/
inductive GrownAt (c : BuildCall) : List ℕ → Value → Value → Prop
  | here {v a : Value} (h : Grown (c.entry v.items.entries) v a) : GrownAt c [] v a
  | child {i : ℕ} {path : List ℕ} {v x y : Value} (hx : v.child? i = some x)
      (h : GrownAt c path x y) : GrownAt c (i :: path) v (v.setChild i y)

/-- Each of the calls has appended its entry. -/
inductive Grows : List NodeCall → Value → Value → Prop
  | nil (v : Value) : Grows [] v v
  | cons {c : NodeCall} {calls : List NodeCall} {v a b : Value} (h : GrownAt c.call c.path v a)
      (hrest : Grows calls a b) : Grows (c :: calls) v b

/-- An entry, but for which tree it points to. -/
def Kv.shell (kv : Entry) : Entry := { kv with val := kv.val.map fun _ => .null }

/-- Every node is where it was, and has the entries it had in front. -/
def Kept (v a : Value) : Prop := ∀ path x, v.node path = some x → ∃ y, a.node path = some y ∧
  y = x.withItems y.items ∧ x.items.entries.map Kv.shell <+: y.items.entries.map Kv.shell

theorem Kept.refl (v : Value) : Kept v v :=
  fun _ x hx => ⟨x, hx, (Value.withItems_self x).symm, List.prefix_rfl⟩

theorem Kept.trans {v a b : Value} (h : Kept v a) (h' : Kept a b) : Kept v b := by
  intro path x hx
  obtain ⟨y, hy, hxy, hsub⟩ := h path x hx
  obtain ⟨z, hz, hyz, hsub'⟩ := h' path y hy
  refine ⟨z, hz, ?_, hsub.trans hsub'⟩
  rw [hxy, Value.withItems_withItems] at hyz
  exact hyz

theorem Grown.kept {kv : Entry} {v a : Value} (h : Grown kv v a) : Kept v a := by
  intro path x hx
  cases path with
  | nil =>
    cases hx
    refine ⟨a, rfl, h.same, ?_⟩
    rw [h.entries, List.map_append]
    exact List.prefix_append _ _
  | cons i path =>
    obtain ⟨u, hu, hx⟩ := Option.bind_eq_some_iff.mp hx
    obtain ⟨old, hold, hval⟩ := Value.child?_eq hu
    have hlt : i < v.items.entries.length := (List.getElem?_eq_some_iff.mp hold).1
    have hsame : a.child? i = v.child? i := by
      rw [Value.child?, h.entries, List.getElem?_append_left hlt]
      rfl
    refine ⟨x, ?_, (Value.withItems_self x).symm, List.prefix_rfl⟩
    rw [Value.node, hsame, hu]
    exact hx

theorem shell_setChild {v x : Value} {i : ℕ} (h : v.child? i = some x) (y : Value) :
    (v.setChild i y).items.entries.map Kv.shell = v.items.entries.map Kv.shell := by
  obtain ⟨kv, hkv, hval⟩ := Value.child?_eq h
  rw [Value.setChild_entries]
  refine List.ext_getElem? fun j => ?_
  rw [List.getElem?_map, List.getElem?_map]
  by_cases hij : i = j
  · subst hij
    rw [List.getElem?_modify_eq, hkv]
    refine congrArg some ?_
    show Kv.shell { kv with val := some y } = Kv.shell kv
    rw [Kv.shell, Kv.shell, hval]
    rfl
  · rw [List.getElem?_modify_ne _ _ hij]

theorem GrownAt.kept {c : BuildCall} {path : List ℕ} {v a : Value} (h : GrownAt c path v a) :
    Kept v a := by
  induction h with
  | here h => exact h.kept
  | @child i _ v x y hx _ ih =>
    intro path z hz
    cases path with
    | nil =>
      cases hz
      refine ⟨v.setChild i y, rfl, ?_, (shell_setChild hx y) ▸ List.prefix_rfl⟩
      rw [Value.setChild_items]
      rfl
    | cons j path =>
      obtain ⟨u, hu, hz⟩ := Option.bind_eq_some_iff.mp hz
      by_cases hij : i = j
      · subst hij
        rw [hx] at hu
        cases hu
        rw [Value.node, Value.child?_setChild_self hx]
        exact ih path z hz
      · refine ⟨z, ?_, (Value.withItems_self z).symm, List.prefix_rfl⟩
        rw [Value.node, Value.child?_setChild_ne hij, hu]
        exact hz

theorem Grows.kept {calls : List NodeCall} {v a : Value} (h : Grows calls v a) : Kept v a := by
  induction h with
  | nil v => exact .refl v
  | cons h _ ih => exact h.kept.trans ih

theorem BuildCall.entry_val (c : BuildCall) (entries : List Entry) :
    (c.entry entries).val = c.child := by
  cases c <;> rfl

theorem GrownAt.roomy {c : BuildCall} {path : List ℕ} {v a : Value} (h : GrownAt c path v a)
    (hv : v.Roomy) (hc : ∀ x, c.child = some x → x.Roomy) : a.Roomy := by
  induction h with
  | here h =>
    refine Value.roomy_iff.mpr ⟨h.room, ?_⟩
    rw [h.entries]
    refine entries_append (Value.roomy_iff.mp hv).2 fun x hx => hc x ?_
    rwa [BuildCall.entry_val] at hx
  | child hx _ ih => exact hv.setChild (ih (hv.child hx))

/-! ## Two trees that differ in their capacities -/

theorem uncappedItems_modify (entries : List Entry) (i : ℕ) (x : Value) :
    uncappedItems (entries.modify i fun kv => { kv with val := some x }) =
      (uncappedItems entries).modify i fun kv => { kv with val := some x.uncapped } := by
  induction entries generalizing i with
  | nil => cases i <;> rfl
  | cons kv entries ih =>
    cases i with
    | zero => rfl
    | succ i => exact congrArg _ (ih i)

theorem Value.child?_uncapped (v : Value) (i : ℕ) :
    v.uncapped.child? i = uncappedPtr (v.child? i) := by
  rw [child?, entries_uncapped, uncappedItems_map, List.getElem?_map, child?]
  cases v.items.entries[i]? <;> rfl

theorem Value.setChild_uncapped (v : Value) (i : ℕ) (x : Value) :
    (v.setChild i x).uncapped =
      v.uncapped.withItems (trimmed ((uncappedItems v.items.entries).modify i fun kv =>
        { kv with val := some x.uncapped })) := by
  rw [setChild, withItems_uncapped]
  dsimp only
  rw [uncappedItems_modify]

/-- Trees that are the same up to capacities have the same nodes up to capacities. -/
theorem Value.child?_alike {v w x : Value} {i : ℕ} (hsame : v.uncapped = w.uncapped)
    (hx : v.child? i = some x) : ∃ y, w.child? i = some y ∧ x.uncapped = y.uncapped := by
  have hptr : uncappedPtr (w.child? i) = some x.uncapped := by
    rw [← child?_uncapped, ← hsame, child?_uncapped, hx]
    rfl
  cases hy : w.child? i with
  | none =>
    rw [hy] at hptr
    cases hptr
  | some y =>
    rw [hy] at hptr
    exact ⟨y, rfl, (Option.some.inj hptr).symm⟩

theorem Value.setChild_alike {v w x y : Value} (hsame : v.uncapped = w.uncapped)
    (hxy : x.uncapped = y.uncapped) (i : ℕ) :
    (v.setChild i x).uncapped = (w.setChild i y).uncapped := by
  rw [setChild_uncapped, setChild_uncapped, ← entries_uncapped, ← entries_uncapped, hsame, hxy]

/-- One call on each of two trees, at the same node. -/
theorem BuildCall.Likewise.applyAt {c c' : BuildCall} (h : c.Likewise c') {path : List ℕ}
    {v w : Value} (hsame : v.uncapped = w.uncapped) (hv : v.Roomy) (hw : w.Roomy) :
    (∃ a b, c.applyAt path v = .ok a ∧ c'.applyAt path w = .ok b ∧ GrownAt c path v a ∧
        GrownAt c' path w b ∧ a.uncapped = b.uncapped) ∨
      ∃ f, c.applyAt path v = .error f ∧ c'.applyAt path w = .error f ∧
        ¬ NodeCall.Defined ⟨path, c⟩ v := by
  induction path generalizing v w with
  | nil =>
    rcases h.apply hsame hv.room hw.room with ⟨a, b, ha, hb, hva, hwb, hab⟩ | ⟨f, ha, hb, hdef⟩
    · exact .inl ⟨a, b, ha, hb, .here hva, .here hwb, hab⟩
    · refine .inr ⟨f, ha, hb, ?_⟩
      rintro ⟨x, ⟨⟩, hx⟩
      exact hdef hx
  | cons i path ih =>
    rw [BuildCall.applyAt, BuildCall.applyAt]
    cases hx : v.child? i with
    | none =>
      have hy : w.child? i = none := by
        by_contra hne
        obtain ⟨y, hy⟩ := Option.ne_none_iff_exists'.mp hne
        obtain ⟨x, hx', -⟩ := Value.child?_alike hsame.symm hy
        rw [hx] at hx'
        cases hx'
      refine .inr ⟨.nullRead, rfl, by rw [hy], ?_⟩
      rintro ⟨x, hnode, -⟩
      rw [Value.node, hx] at hnode
      cases hnode
    | some x =>
      obtain ⟨y, hy, hxy⟩ := Value.child?_alike hsame hx
      rw [hy]
      dsimp only
      rcases ih hxy (hv.child hx) (hw.child hy) with
        ⟨a, b, ha, hb, hva, hwb, hab⟩ | ⟨f, ha, hb, hdef⟩
      · rw [ha, hb]
        exact .inl ⟨v.setChild i a, w.setChild i b, rfl, rfl, .child hx hva, .child hy hwb,
          Value.setChild_alike hsame hab i⟩
      · rw [ha, hb]
        refine .inr ⟨f, rfl, rfl, ?_⟩
        rintro ⟨z, hnode, hz⟩
        rw [Value.node, hx] at hnode
        exact hdef ⟨z, hnode, hz⟩

namespace NodeCall

/-- The same call at the same node, with the same child or a copy of it. -/
structure Likewise (c c' : NodeCall) : Prop where
  path_eq : c.path = c'.path
  call : c.call.Likewise c'.call
  child : ∀ x, c.call.child = some x → Reachable x
  child' : ∀ x, c'.call.child = some x → Reachable x

/-- What calls make of two trees: each call appends its entry, everything else stays, all blocks have
room and the trees are the same up to capacities; or both stop with the same fault, at a call that C
does not define. -/
def SameOutcome (calls calls' : List NodeCall) (v w : Value) :
    Except Fault Value → Except Fault Value → Prop
  | .ok a, .ok b => Grows calls v a ∧ Grows calls' w b ∧ Kept v a ∧ Kept w b ∧ a.Roomy ∧ b.Roomy ∧
    a.uncapped = b.uncapped
  | .error f, .error g => f = g ∧ ∃ pre c rest a,
    calls = pre ++ c :: rest ∧ applyAll pre v = .ok a ∧ ¬ c.Defined a
  | _, _ => False

theorem applyAll_cons (c : NodeCall) (calls : List NodeCall) (v : Value) :
    applyAll (c :: calls) v = c.apply v >>= applyAll calls := List.foldlM_cons

theorem applyAll_alike {calls calls' : List NodeCall} {v w : Value}
    (h : List.Forall₂ Likewise calls calls') (hsame : v.uncapped = w.uncapped) (hv : v.Roomy)
    (hw : w.Roomy) : SameOutcome calls calls' v w (applyAll calls v) (applyAll calls' w) := by
  induction h generalizing v w with
  | nil => exact ⟨.nil v, .nil w, .refl v, .refl w, hv, hw, hsame⟩
  | @cons c c' calls calls' hcall _ ih =>
    obtain ⟨path, call⟩ := c
    obtain ⟨_, call'⟩ := c'
    obtain ⟨rfl, halike, hchild, hchild'⟩ := hcall
    rw [applyAll_cons, applyAll_cons, apply, apply]
    rcases halike.applyAt hsame hv hw with ⟨a, b, ha, hb, hva, hwb, hab⟩ | ⟨f, ha, hb, hdef⟩
    · rw [ha, hb, ok_bind, ok_bind]
      have hrest := ih hab (hva.roomy hv fun x hx => (hchild x hx).wf.roomy)
        (hwb.roomy hw fun x hx => (hchild' x hx).wf.roomy)
      revert hrest
      cases applyAll calls a with
      | ok x =>
        cases applyAll calls' b with
        | ok y =>
          rintro ⟨hax, hby, -, -, hx, hy, hxy⟩
          have hgrows : Grows (⟨path, call⟩ :: calls) v x := .cons hva hax
          have hgrows' : Grows (⟨path, call'⟩ :: calls') w y := .cons hwb hby
          exact ⟨hgrows, hgrows', hgrows.kept, hgrows'.kept, hx, hy, hxy⟩
        | error g => exact fun hrest => hrest
      | error f =>
        cases applyAll calls' b with
        | ok y => exact fun hrest => hrest
        | error g =>
          rintro ⟨hfg, pre, c₀, rest, x, rfl, hx, hdef⟩
          refine ⟨hfg, ⟨path, call⟩ :: pre, c₀, rest, x, rfl, ?_, hdef⟩
          rw [applyAll_cons, apply, ha, ok_bind, hx]
    · rw [ha, hb]
      exact ⟨rfl, [], ⟨path, call⟩, calls, v, rfl, rfl, hdef⟩

end NodeCall

/-- A tree that can be reached has room in all its blocks. Its clone packs to the same bytes, its
block begins with the copies of the entries, and no sequence of calls tells the two apart: each keeps
what it had, every append goes into an allocated cell, and the entries that come are the same. -/
theorem valueClone_indistinguishable {v : Value} (h : Reachable v) :
    (∀ block, HasBlock block v → block.n ≤ block.cap ∧ (block.slots = 0 → block.cap = 0)) ∧
      ∃ w, valueClone (some v) = .ok (some w) ∧
        (∃ bytes, valuePack (some v) = .ok bytes ∧ valuePack (some w) = .ok bytes) ∧
        (∃ b : KvBlock, b.Stores v.items) ∧
        (∃ p, cloneKvBlock v.items.entries = .ok p ∧
          (⟨p, v.items.n, v.items.n⟩ : KvBlock).Stores w.items) ∧
        ∀ calls calls', List.Forall₂ NodeCall.Likewise calls calls' →
          NodeCall.SameOutcome calls calls' v w (NodeCall.applyAll calls v)
            (NodeCall.applyAll calls' w) := by
  have hwf := h.wf
  refine ⟨fun block hblock => ?_, ?_⟩
  · have hb := hwf.block hblock
    exact ⟨hb.n_le, fun hzero => hb.slots_eq.symm.trans hzero⟩
  obtain ⟨w, hw, hwfw⟩ := cloneValue_ok hwf
  have hclone : valueClone (some v) = .ok (some w) := by
    rw [valueClone, hw]
    rfl
  have hsame := cloneValue_uncapped hwf hw
  refine ⟨w, hclone, ⟨encode v, valuePack_eq hwf, ?_⟩,
    KvBlock.exists_stores hwf.room, ?_, fun calls calls' hcalls => ?_⟩
  · rw [valuePack_eq hwfw, ← encode_uncapped w, hsame, encode_uncapped v]
  · exact cloneValue_block hw hsame
  · exact NodeCall.applyAll_alike hcalls hsame.symm hwf.roomy hwfw.roomy

/-- Five calls of `value_arr_push` on `value_arr(3)`, which grows once, and on its clone, which has no
block at first and grows twice. -/
theorem valueClone_indistinguishable_push : ∃ w a b,
    valueClone (some (valueArr 3)) = .ok (some w) ∧
      NodeCall.applyAll (List.replicate 5 ⟨[], .push none⟩) (valueArr 3) = .ok a ∧
      NodeCall.applyAll (List.replicate 5 ⟨[], .push none⟩) w = .ok b ∧
      a.items.cap = 6 ∧ b.items.cap = 8 ∧ a.uncapped = b.uncapped := by
  obtain ⟨-, w, hw, -, -, -, hcalls⟩ := valueClone_indistinguishable (.built (.arr 3))
  have hpush : NodeCall.Likewise ⟨[], .push none⟩ ⟨[], .push none⟩ :=
    ⟨rfl, .push rfl, (fun _ hx => nomatch hx), (fun _ hx => nomatch hx)⟩
  have hsame := hcalls (List.replicate 5 ⟨[], .push none⟩) (List.replicate 5 ⟨[], .push none⟩)
    (List.forall₂_same.mpr fun c hc => List.eq_of_mem_replicate hc ▸ hpush)
  have hclone : valueClone (some (valueArr 3)) = .ok (some (valueArr 0)) := rfl
  rw [hclone] at hw
  cases hw
  exact ⟨_, _, _, hclone, rfl, rfl, rfl, rfl, hsame.2.2.2.2.2.2⟩

end Parallax
