import Parallax.Value.Calls
import Parallax.Value.RoundTrip

/-! The block of a tree under a call of a builder, and two trees under the same call: a tree and its
clone differ in their capacities only, which no call lets anyone see. -/
namespace Parallax
open Memory
set_option autoImplicit false
set_option maxHeartbeats 250000

/-! ## The blocks of a tree -/

/-- The block of an array or an object somewhere in the tree. -/
inductive HasBlock (block : KvVec Entry) : Value → Prop
  | arr : HasBlock block (.arr block)
  | obj (cls : Ptr) (clen : ℕ) : HasBlock block (.obj cls clen block)
  | arrChild {items : KvVec Entry} {kv : Entry} {child : Value} (hkv : kv ∈ items.entries)
      (hval : kv.val = some child) (h : HasBlock block child) : HasBlock block (.arr items)
  | objChild {cls : Ptr} {clen : ℕ} {props : KvVec Entry} {kv : Entry} {child : Value}
      (hkv : kv ∈ props.entries) (hval : kv.val = some child) (h : HasBlock block child) :
      HasBlock block (.obj cls clen props)

theorem Value.Wf.block {v : Value} {block : KvVec Entry} (hb : HasBlock block v) (h : v.Wf) :
    block.Wf := by
  induction hb with
  | arr =>
    cases h
    assumption
  | obj cls clen =>
    cases h
    assumption
  | arrChild hkv hval _ ih =>
    cases h with
    | arr _ _ _ hc => exact ih (hc _ hkv _ hval)
  | objChild hkv hval _ ih =>
    cases h with
    | obj _ _ _ _ _ _ hc => exact ih (hc _ hkv _ hval)

/-! ## Trees up to their capacities -/

theorem uncappedItems_length (entries : List Entry) :
    (uncappedItems entries).length = entries.length := by
  rw [uncappedItems_map, List.length_map]

mutual

/-- Capacities are not packed. -/
theorem encode_uncapped : ∀ v : Value, encode v.uncapped = encode v
  | .arr ⟨_, entries, _⟩ => by
    rw [Value.uncapped, trimmed, encode, encode, uncappedItems_length,
      encodeItems_uncapped entries]
  | .obj _ _ ⟨_, entries, _⟩ => by
    rw [Value.uncapped, trimmed, encode, encode, uncappedItems_length,
      encodeItems_uncapped entries]
  | .null => rfl
  | .bool _ => rfl
  | .long _ => rfl
  | .double _ => rfl
  | .str .. => rfl
  | .err .. => rfl

theorem encodePtr_uncapped : ∀ v : Option Value, encodePtr (uncappedPtr v) = encodePtr v
  | none => rfl
  | some v => encode_uncapped v

theorem encodeItems_uncapped : ∀ entries : List Entry,
    encodeItems (uncappedItems entries) = encodeItems entries
  | [] => rfl
  | ⟨_, _, _, _, val⟩ :: rest => by
    rw [uncappedItems, encodeItems, encodeItems, encodePtr_uncapped val,
      encodeItems_uncapped rest]

end

theorem cloneItems_uncapped {entries items : List Entry} (hk : ∀ kv ∈ entries, EntryWf kv)
    (hc : ∀ kv ∈ entries, ∀ x, kv.val = some x → ∀ w, cloneValue x = .ok w →
      w.uncapped = x.uncapped)
    (h : cloneItems entries = .ok items) : uncappedItems items = uncappedItems entries := by
  induction entries generalizing items with
  | nil =>
    rw [cloneItems] at h
    cases h
    rfl
  | cons kv entries ih =>
    obtain ⟨hkv, hk⟩ := List.forall_mem_cons.mp hk
    obtain ⟨hckv, hc⟩ := List.forall_mem_cons.mp hc
    obtain ⟨child, hchild⟩ : ∃ child, valueClone kv.val = .ok child := by
      obtain ⟨isIntKey, ikey, skey, skeyLen, val⟩ := kv
      rw [cloneItems] at h
      obtain ⟨_, -, h⟩ := bind_ok h
      obtain ⟨child, hchild, -⟩ := bind_ok h
      exact ⟨child, hchild⟩
    have hsame : uncappedPtr child = uncappedPtr kv.val := by
      cases hval : kv.val with
      | none =>
        rw [hval, valueClone] at hchild
        cases hchild
        rfl
      | some x =>
        rw [hval, valueClone] at hchild
        obtain ⟨w, hw, rfl⟩ := map_ok hchild
        exact congrArg some (hckv x hval w hw)
    rw [cloneItems_cons hkv hchild] at h
    obtain ⟨rest, hrest, rfl⟩ := map_ok h
    rw [uncappedItems, uncappedItems, hsame, ih hk hc hrest]

/-- A clone is the tree it is of, up to the capacities. -/
theorem cloneValue_uncapped {v w : Value} (h : v.Wf) (hw : cloneValue v = .ok w) :
    w.uncapped = v.uncapped := by
  induction h generalizing w with
  | null | bool | long | double =>
    rw [cloneValue] at hw
    cases hw
    rfl
  | str bs hlen =>
    rw [cloneValue, valueStr, dupBytes_blob] at hw
    cases hw
    rfl
  | arr items _ hk _ ih =>
    obtain ⟨slots, entries, cap⟩ := items
    rw [cloneValue] at hw
    obtain ⟨copies, hcopies, hw⟩ := bind_ok hw
    cases hw
    rw [Value.uncapped, Value.uncapped, cloneItems_uncapped hk (fun kv hkv x hx w => ih kv hkv x hx)
      hcopies]
  | obj cls props _ _ hk _ _ ih =>
    obtain ⟨slots, entries, cap⟩ := props
    rw [cloneValue, dupBytes_blob, ok_bind] at hw
    obtain ⟨copies, hcopies, hw⟩ := bind_ok hw
    cases hw
    rw [Value.uncapped, Value.uncapped, cloneItems_uncapped hk (fun kv hkv x hx w => ih kv hkv x hx)
      hcopies]
  | err cls msg code trace hc hm ht =>
    rw [cloneValue, valueErr, hc.dup, ok_bind, hm.dup, ok_bind, ht.dup] at hw
    cases hw
    rfl

/-! ## One call -/

/-- One entry has come to the block, behind those it had, and nothing else is different; cell by cell,
it went into a cell that was allocated, and those before stand where they stood. -/
structure Grown (kv : Entry) (v a : Value) : Prop where
  same : a = v.withItems a.items
  entries : a.items.entries = v.items.entries ++ [kv]
  room : a.items.Room
  stored : ∀ b : KvBlock, b.Stores v.items → ∃ b', b.append kv = .ok b' ∧ b'.Stores a.items

theorem Value.withItems_items {c : BuildCall} {v : Value} (h : c.Suits v) (items : KvVec Entry) :
    (v.withItems items).items = items := by
  cases v with
  | arr _ => rfl
  | obj _ _ _ => rfl
  | _ =>
    unfold BuildCall.Suits at h
    split at h <;> cases h

namespace BuildCall

/-- The call is one that C defines. -/
def Defined (c : BuildCall) (v : Value) : Prop := c.Suits v ∧ ¬ c.Overflows v.items.entries

theorem apply_defined {c : BuildCall} {v : Value} (h : c.Defined v) (hroom : v.items.Room) :
    ∃ a, c.apply v = .ok a ∧ Grown (c.entry v.items.entries) v a := by
  obtain ⟨w, hw, hentries, hroom'⟩ := KvVec.append_room hroom (c.entry v.items.entries)
  have hitems := Value.withItems_items h.1 w
  refine ⟨v.withItems w, ?_, ?_, ?_, ?_, fun b hb => ?_⟩
  · rw [apply_eq, outcome_append h.1 h.2, hw]
    rfl
  · rw [hitems]
  · rw [hitems, hentries]
  · rwa [hitems]
  · rw [hitems]
    exact KvBlock.append_stores hb hroom hw

/-- The fault of a call that is not defined. -/
theorem apply_undefined {c : BuildCall} {v : Value} (h : ¬ c.Defined v) :
    c.apply v = .error (if c.Suits v then .signedOverflow else .failedAssert) := by
  rw [apply_eq]
  by_cases hsuits : c.Suits v
  · rw [if_pos hsuits]
    exact outcome_overflow hsuits (by_contra fun ho => h ⟨hsuits, ho⟩)
  · rw [if_neg hsuits]
    exact outcome_refused hsuits

end BuildCall

/-! ## Two trees that differ in their capacities -/

theorem Value.tag_uncapped (v : Value) : v.uncapped.tag = v.tag := by
  cases v <;> rfl

theorem Value.entries_uncapped (v : Value) :
    v.uncapped.items.entries = uncappedItems v.items.entries := by
  cases v <;> rfl

theorem Value.withItems_uncapped (v : Value) (items : KvVec Entry) :
    (v.withItems items).uncapped = v.uncapped.withItems (trimmed (uncappedItems items.entries)) := by
  cases v <;> rfl

theorem maxIntKey_uncapped (entries : List Entry) :
    maxIntKey (uncappedItems entries) = maxIntKey entries := by
  unfold maxIntKey
  generalize (-1 : Int64) = max
  induction entries generalizing max with
  | nil => rfl
  | cons kv entries ih => exact ih _

namespace BuildCall

/-- The same call, with the same child or a copy of it. -/
inductive Likewise : BuildCall → BuildCall → Prop
  | push {child child' : Option Value} (h : uncappedPtr child = uncappedPtr child') :
      Likewise (.push child) (.push child')
  | setInt {key : Int64} {child child' : Option Value}
      (h : uncappedPtr child = uncappedPtr child') :
      Likewise (.setInt key child) (.setInt key child')
  | setStr {key : KeyArg} {child child' : Option Value}
      (h : uncappedPtr child = uncappedPtr child') :
      Likewise (.setStr key child) (.setStr key child')
  | objSet {key : KeyArg} {child child' : Option Value}
      (h : uncappedPtr child = uncappedPtr child') :
      Likewise (.objSet key child) (.objSet key child')

variable {c c' : BuildCall} {v w : Value}

theorem Likewise.entry (h : c.Likewise c') {entries entries' : List Entry}
    (hsame : uncappedItems entries = uncappedItems entries') :
    uncappedItems [c.entry entries] = uncappedItems [c'.entry entries'] := by
  have hmax : maxIntKey entries = maxIntKey entries' := by
    rw [← maxIntKey_uncapped entries, hsame, maxIntKey_uncapped]
  have hitem (isIntKey : Bool) (ikey : Int64) (skey : Ptr) (skeyLen : ℕ)
      {child child' : Option Value} (hchild : uncappedPtr child = uncappedPtr child') :
      uncappedItems [⟨isIntKey, ikey, skey, skeyLen, child⟩] =
        uncappedItems [⟨isIntKey, ikey, skey, skeyLen, child'⟩] :=
    congrArg (fun child => [(⟨isIntKey, ikey, skey, skeyLen, child⟩ : Entry)]) hchild
  cases h with
  | push h =>
    rw [BuildCall.entry, BuildCall.entry, hmax]
    exact hitem _ _ _ _ h
  | setInt h => exact hitem _ _ _ _ h
  | setStr h => exact hitem _ _ _ _ h
  | objSet h => exact hitem _ _ _ _ h

theorem Likewise.suits_iff (h : c.Likewise c') (hsame : v.uncapped = w.uncapped) :
    c.Suits v ↔ c'.Suits w := by
  have htag : v.tag = w.tag := by
    rw [← Value.tag_uncapped v, hsame, Value.tag_uncapped]
  unfold Suits
  rw [htag]
  cases h <;> exact Iff.rfl

theorem Likewise.defined_iff (h : c.Likewise c') (hsame : v.uncapped = w.uncapped) :
    c.Defined v ↔ c'.Defined w := by
  have hmax : maxIntKey v.items.entries = maxIntKey w.items.entries := by
    rw [← maxIntKey_uncapped, ← Value.entries_uncapped, hsame, Value.entries_uncapped,
      maxIntKey_uncapped]
  refine and_congr (h.suits_iff hsame) (not_congr ?_)
  unfold Overflows
  cases h with
  | push _ =>
    dsimp only
    rw [hmax]
  | _ => exact Iff.rfl

/-- One call on each of two trees. -/
theorem Likewise.apply (h : c.Likewise c') (hsame : v.uncapped = w.uncapped)
    (hv : v.items.Room) (hw : w.items.Room) :
    (∃ a b, c.apply v = .ok a ∧ c'.apply w = .ok b ∧ Grown (c.entry v.items.entries) v a ∧
        Grown (c'.entry w.items.entries) w b ∧ a.uncapped = b.uncapped) ∨
      ∃ f, c.apply v = .error f ∧ c'.apply w = .error f ∧ ¬ c.Defined v := by
  by_cases hdef : c.Defined v
  · obtain ⟨a, ha, hgrown⟩ := apply_defined hdef hv
    obtain ⟨b, hb, hgrown'⟩ := apply_defined ((h.defined_iff hsame).mp hdef) hw
    refine .inl ⟨a, b, ha, hb, hgrown, hgrown', ?_⟩
    have hentries : uncappedItems v.items.entries = uncappedItems w.items.entries := by
      rw [← Value.entries_uncapped, hsame, Value.entries_uncapped]
    rw [hgrown.same, hgrown'.same, Value.withItems_uncapped, Value.withItems_uncapped, hsame,
      hgrown.entries, hgrown'.entries, uncappedItems_append, uncappedItems_append, hentries,
      h.entry hentries]
  · have hdef' : ¬ c'.Defined w := fun h' => hdef ((h.defined_iff hsame).mpr h')
    refine .inr ⟨_, apply_undefined hdef, ?_, hdef⟩
    rw [apply_undefined hdef']
    by_cases hsuits : c.Suits v
    · rw [if_pos hsuits, if_pos ((h.suits_iff hsame).mp hsuits)]
    · rw [if_neg hsuits, if_neg fun h' => hsuits ((h.suits_iff hsame).mpr h')]

end BuildCall

/-- The cells of the clone: as many as entries, filled one by one with the copies. -/
theorem cloneValue_block {v w : Value} (hw : cloneValue v = .ok w)
    (hsame : w.uncapped = v.uncapped) :
    ∃ p, cloneKvBlock v.items.entries = .ok p ∧
      (⟨p, v.items.n, v.items.n⟩ : KvBlock).Stores w.items := by
  have hlen : w.items.entries.length = v.items.entries.length := by
    rw [← uncappedItems_length, ← Value.entries_uncapped, hsame, Value.entries_uncapped,
      uncappedItems_length]
  cases v with
  | arr items =>
    obtain ⟨slots, entries, cap⟩ := items
    rw [cloneValue] at hw
    obtain ⟨copies, hcopies, hw⟩ := bind_ok hw
    cases hw
    exact cloneKvBlock_stores hcopies hlen
  | obj cls clen props =>
    obtain ⟨slots, entries, cap⟩ := props
    rw [cloneValue] at hw
    obtain ⟨_, -, hw⟩ := bind_ok hw
    obtain ⟨copies, hcopies, hw⟩ := bind_ok hw
    cases hw
    exact cloneKvBlock_stores hcopies hlen
  | _ =>
    cases w with
    | arr _ => cases hsame
    | obj _ _ _ => cases hsame
    | _ => exact ⟨none, rfl, KvBlock.init_stores 0⟩

end Parallax
