import Parallax.Library.Transition
import Parallax.Value.Growth

/-! The key that `value_arr_push` gives an entry, over the calls that built the array. The scan of
`next_int_key` starts at -1 and takes the largest int key; the one after it is new, where there is one
after it. -/
namespace Parallax
open Memory Transition
set_option autoImplicit false
set_option maxHeartbeats 250000

/-! ## The scan -/

/-- The int keys of entries. -/
def HasIntKey (entries : List Entry) (key : Int64) : Prop :=
  ∃ kv ∈ entries, kv.isIntKey = true ∧ kv.ikey = key

/-- The largest of the int keys, or -1 when all are below. -/
structure IsMaxIntKey (entries : List Entry) (max : Int64) : Prop where
  from_neg_one : -1 ≤ max
  ge : ∀ key, HasIntKey entries key → key ≤ max
  eq_or_mem : max = -1 ∨ HasIntKey entries max

theorem IsMaxIntKey.nil : IsMaxIntKey [] (-1) := by
  refine ⟨Int64.le_refl _, ?_, .inl rfl⟩
  rintro key ⟨kv, hkv, -⟩
  cases hkv

/-- One turn of the loop. -/
theorem IsMaxIntKey.snoc {entries : List Entry} {max : Int64} (h : IsMaxIntKey entries max)
    (kv : Entry) : IsMaxIntKey (entries ++ [kv])
      (if kv.isIntKey ∧ max < kv.ikey then kv.ikey else max) := by
  have hold {key : Int64} (hkey : HasIntKey entries key) : HasIntKey (entries ++ [kv]) key := by
    obtain ⟨kv', hmem, hkv'⟩ := hkey
    exact ⟨kv', List.mem_append_left _ hmem, hkv'⟩
  have hnew {key : Int64} (hkey : HasIntKey (entries ++ [kv]) key) :
      HasIntKey entries key ∨ kv.isIntKey = true ∧ kv.ikey = key := by
    obtain ⟨kv', hmem, hkv'⟩ := hkey
    rcases List.mem_append.mp hmem with hmem | hmem
    · exact .inl ⟨kv', hmem, hkv'⟩
    · rw [List.mem_singleton.mp hmem] at hkv'
      exact .inr hkv'
  split
  · rename_i hlarger
    obtain ⟨hint, hlt⟩ := hlarger
    refine ⟨Int64.le_trans h.from_neg_one (Int64.le_of_lt hlt), fun key hkey => ?_, .inr ?_⟩
    · rcases hnew hkey with hkey | ⟨-, rfl⟩
      · exact Int64.le_trans (h.ge key hkey) (Int64.le_of_lt hlt)
      · exact Int64.le_refl _
    · exact ⟨kv, List.mem_append_right _ (List.mem_singleton_self kv), hint, rfl⟩
  · rename_i hkept
    refine ⟨h.from_neg_one, fun key hkey => ?_, h.eq_or_mem.imp_right hold⟩
    rcases hnew hkey with hkey | ⟨hint, rfl⟩
    · exact h.ge key hkey
    · exact Int64.not_lt.mp fun hlt => hkept ⟨hint, hlt⟩

theorem maxIntKey_isMax (entries : List Entry) : IsMaxIntKey entries (maxIntKey entries) := by
  induction entries using List.reverseRecOn with
  | nil => exact IsMaxIntKey.nil
  | append_singleton entries kv ih =>
    have hscan : maxIntKey (entries ++ [kv]) =
        if kv.isIntKey ∧ maxIntKey entries < kv.ikey then kv.ikey else maxIntKey entries := by
      rw [maxIntKey, List.foldl_append]
      rfl
    rw [hscan]
    exact ih.snoc kv

theorem maxIntKey_eq_maxValue_iff (entries : List Entry) :
    maxIntKey entries = Int64.maxValue ↔ HasIntKey entries Int64.maxValue := by
  have h := maxIntKey_isMax entries
  constructor
  · intro hmax
    rw [hmax] at h
    exact h.eq_or_mem.resolve_left (by decide)
  · intro hkey
    have hle := Int64.le_iff_toInt_le.mp (h.ge _ hkey)
    exact Int64.toInt.inj (Int.le_antisymm (Int64.toInt_le _) hle)

/-! ## The key after it -/

/-- `key` is computed in 64 bits as it is over the integers, and no int key is as large. -/
structure IsFresh (entries : List Entry) (key : Int64) : Prop where
  computed : nextIntKey entries = .ok key
  exact : key.toInt = (maxIntKey entries).toInt + 1
  above : ∀ other, HasIntKey entries other → other < key
  differs : ¬ HasIntKey entries key

theorem nextIntKey_fresh {entries : List Entry} (h : ¬ HasIntKey entries Int64.maxValue) :
    IsFresh entries (maxIntKey entries + 1) := by
  have hmax := maxIntKey_isMax entries
  have hne : maxIntKey entries ≠ Int64.maxValue :=
    fun heq => h ((maxIntKey_eq_maxValue_iff entries).mp heq)
  have hle := Int64.toInt_le (maxIntKey entries)
  have hlt : (maxIntKey entries).toInt ≠ Int64.maxValue.toInt :=
    fun heq => hne (Int64.toInt.inj heq)
  have hlow := Int64.le_iff_toInt_le.mp hmax.from_neg_one
  have hexact : (maxIntKey entries + 1).toInt = (maxIntKey entries).toInt + 1 := by
    rw [Int64.toInt_maxValue] at hle hlt
    have hlow' : -1 ≤ (maxIntKey entries).toInt := hlow
    rw [Int64.toInt_add]
    exact Int.bmod_eq_of_le (by show _ ≤ _ + (1 : ℤ); omega) (by show _ + (1 : ℤ) < _; omega)
  have habove (other : Int64) (hother : HasIntKey entries other) :
      other < maxIntKey entries + 1 := by
    have hother' := Int64.le_iff_toInt_le.mp (hmax.ge other hother)
    rw [Int64.lt_iff_toInt_lt, hexact]
    omega
  exact ⟨if_neg hne, hexact, habove, fun hkey => Int64.lt_irrefl (habove _ hkey)⟩

/-! ## value_arr_push -/

namespace BuildCall

/-- An append gives the entry that it puts at the end a fresh key; other calls give none. -/
def AppendsFresh (v : Value) (c : BuildCall) : Prop :=
  ∀ child, c = .push child → ∃ key items, IsFresh v.items.entries key ∧
    c.apply v = .ok (.arr items) ∧ items.entries = v.items.entries ++ [intEntry key child]

/-- No append to an array that has the largest of all keys. -/
def SparesMaxKey (v : Value) (c : BuildCall) : Prop :=
  ∀ child, c = .push child → ¬ HasIntKey v.items.entries Int64.maxValue

/-- The calls that C defines, one at a time. -/
def step (v : Value) (c : BuildCall) : Option Value := (c.apply v).toOption

/-- What the builders make of an array. -/
structure IsArray (v : Value) : Prop where
  tag_eq : v.tag = .arr
  room : v.items.Room

theorem step_isArray {v w : Value} {c : BuildCall} (h : IsArray v) (hw : step v c = some w) :
    IsArray w := by
  by_cases hdef : c.Defined v
  · obtain ⟨a, ha, hgrown⟩ := apply_defined hdef h.room
    rw [step, ha] at hw
    cases hw
    refine ⟨?_, hgrown.room⟩
    obtain ⟨items, hitems⟩ : ∃ items, v = .arr items := by
      have htag := h.tag_eq
      cases v with
      | arr items => exact ⟨items, rfl⟩
      | _ => cases htag
    rw [hgrown.same, hitems]
    rfl
  · rw [step, apply_undefined hdef] at hw
    cases hw

theorem appendsFresh_iff {v : Value} (h : IsArray v) (c : BuildCall) :
    AppendsFresh v c ↔ SparesMaxKey v c := by
  refine forall_congr' fun child => imp_congr_right fun hc => ?_
  subst hc
  constructor
  · rintro ⟨key, -, hfresh, -⟩ hkey
    -- the increment overflows
    have hcomputed := hfresh.computed
    rw [nextIntKey, if_pos ((maxIntKey_eq_maxValue_iff _).mpr hkey)] at hcomputed
    cases hcomputed
  · intro hspared
    obtain ⟨htag, hroom⟩ := h
    cases v with
    | arr items =>
      have hdef : (push child).Defined (.arr items) :=
        ⟨rfl, fun hover => hspared ((maxIntKey_eq_maxValue_iff _).mp hover)⟩
      obtain ⟨a, ha, hgrown⟩ := apply_defined hdef hroom
      have harr : a = .arr a.items := hgrown.same
      refine ⟨_, a.items, nextIntKey_fresh hspared, ?_, hgrown.entries⟩
      rw [ha, ← harr]
    | _ => cases htag

/-- Over any calls on an array that is made empty: each append gives a fresh key, as long as none is
made when the largest of all keys is there. -/
theorem appends_fresh_iff (initialCap : ℕ) (calls : List BuildCall) :
    Along step AppendsFresh (valueArr initialCap) calls ↔
      Along step SparesMaxKey (valueArr initialCap) calls :=
  along_congr (I := IsArray) (fun _ _ _ h hw => step_isArray h hw)
    (fun _ c h => appendsFresh_iff h c) ⟨rfl, rfl, Nat.zero_le _⟩ calls

/-- `next_int_key` adds one to the largest of all keys. -/
theorem not_appends_fresh_maxValue :
    ¬ Along step AppendsFresh (valueArr 0) [.setInt Int64.maxValue none, .push none] := by
  intro h
  have hset : step (valueArr 0) (.setInt Int64.maxValue none) =
      some (.arr ⟨4, [intEntry Int64.maxValue none], 4⟩) := rfl
  obtain ⟨key, -, hfresh, -⟩ := (h.2 _ hset).1 none rfl
  cases hfresh.computed

end BuildCall

end Parallax
