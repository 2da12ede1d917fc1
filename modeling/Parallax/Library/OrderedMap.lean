import Mathlib.Tactic

/-! Maps that keep the order in which their keys came: a store overwrites the value of a key in
its place, or puts a new key last. -/
namespace Parallax.OrderedMap
set_option autoImplicit false
set_option maxHeartbeats 250000

variable {κ α β : Type}

def keys (m : List (κ × α)) : List κ := m.map Prod.fst

theorem keys_append (m l : List (κ × α)) : keys (m ++ l) = keys m ++ keys l := List.map_append

variable [DecidableEq κ]

def put (k : κ) (v : α) : List (κ × α) → List (κ × α)
  | [] => [(k, v)]
  | p :: rest => if p.1 = k then (p.1, v) :: rest else p :: put k v rest

def putAll (m l : List (κ × α)) : List (κ × α) := l.foldl (fun m p => put p.1 p.2 m) m

/-- The value of a key. -/
def get (k : κ) (m : List (κ × α)) : Option α := (m.find? fun p => p.1 = k).map Prod.snd

theorem get_cons (k : κ) (p : κ × α) (m : List (κ × α)) :
    get k (p :: m) = if p.1 = k then some p.2 else get k m := by
  unfold get
  rw [List.find?_cons]
  by_cases hp : p.1 = k
  · rw [if_pos hp, decide_eq_true hp]
    rfl
  · rw [if_neg hp, decide_eq_false hp]

theorem get_put_self (k : κ) (v : α) (m : List (κ × α)) : get k (put k v m) = some v := by
  induction m with
  | nil => rw [put, get_cons, if_pos rfl]
  | cons p rest ih =>
    rw [put]
    by_cases hp : p.1 = k
    · rw [if_pos hp, get_cons, if_pos hp]
    · rw [if_neg hp, get_cons, if_neg hp, ih]

theorem get_put_of_ne {k k' : κ} (h : k' ≠ k) (v : α) (m : List (κ × α)) :
    get k' (put k v m) = get k' m := by
  induction m with
  | nil => rw [put, get_cons, if_neg fun hk => h hk.symm]
  | cons p rest ih =>
    rw [put]
    by_cases hp : p.1 = k
    · have hne : p.1 ≠ k' := fun hk => h (hk.symm.trans hp)
      rw [if_pos hp, get_cons, get_cons, if_neg hne, if_neg hne]
    · rw [if_neg hp, get_cons, get_cons, ih]

theorem put_of_not_mem {k : κ} {m : List (κ × α)} (h : k ∉ keys m) (v : α) :
    put k v m = m ++ [(k, v)] := by
  induction m with
  | nil => rfl
  | cons p rest ih =>
    have hp : k ≠ p.1 := List.ne_of_not_mem_cons h
    rw [put, if_neg hp.symm, ih (List.not_mem_of_not_mem_cons h)]
    rfl

theorem keys_put_of_mem {k : κ} {m : List (κ × α)} (h : k ∈ keys m) (v : α) :
    keys (put k v m) = keys m := by
  induction m with
  | nil => cases h
  | cons p rest ih =>
    by_cases hp : p.1 = k
    · rw [put, if_pos hp]
      rfl
    · have hrest : k ∈ keys rest := (List.mem_cons.mp h).resolve_left fun heq => hp heq.symm
      rw [put, if_neg hp]
      exact congrArg (p.1 :: ·) (ih hrest)

theorem mem_put_self (k : κ) (v : α) (m : List (κ × α)) : (k, v) ∈ put k v m := by
  induction m with
  | nil => exact List.mem_cons_self ..
  | cons p rest ih =>
    by_cases hp : p.1 = k
    · rw [put, if_pos hp, hp]
      exact List.mem_cons_self ..
    · rw [put, if_neg hp]
      exact List.mem_cons_of_mem _ ih

theorem mem_put_of_ne {k k' : κ} (h : k' ≠ k) (v v' : α) (m : List (κ × α)) :
    (k', v') ∈ put k v m ↔ (k', v') ∈ m := by
  have hnew (w : α) : (k', v') ≠ (k, w) := fun heq => h (Prod.mk.inj heq).1
  induction m with
  | nil => exact List.mem_cons.trans (or_iff_right (hnew v))
  | cons p rest ih =>
    rw [put]
    by_cases hp : p.1 = k
    · rw [if_pos hp, hp, List.mem_cons, List.mem_cons]
      refine or_congr_left (iff_of_false (hnew v) fun heq => h ?_)
      rw [← hp, ← heq]
    · rw [if_neg hp, List.mem_cons, List.mem_cons]
      exact or_congr_right ih

theorem putAll_cons (m : List (κ × α)) (p : κ × α) (l : List (κ × α)) :
    putAll m (p :: l) = putAll (put p.1 p.2 m) l := rfl

theorem keys_putAll_of_mem {m l : List (κ × α)} (h : ∀ k ∈ keys l, k ∈ keys m) :
    keys (putAll m l) = keys m := by
  induction l generalizing m with
  | nil => rfl
  | cons p l ih =>
    obtain ⟨hp, hl⟩ := List.forall_mem_cons.mp h
    have hput := keys_put_of_mem hp p.2
    rw [putAll_cons, ih (by rw [hput]; exact hl), hput]

theorem putAll_of_new {m l : List (κ × α)} (hl : (keys l).Nodup) (hnew : ∀ k ∈ keys l, k ∉ keys m) :
    putAll m l = m ++ l := by
  induction l generalizing m with
  | nil => exact (List.append_nil m).symm
  | cons p l ih =>
    obtain ⟨hp, hl⟩ := List.nodup_cons.mp hl
    have hput := put_of_not_mem (hnew p.1 (List.mem_cons_self ..)) p.2
    have hnew' : ∀ k ∈ keys l, k ∉ keys (m ++ [p]) := by
      intro k hk hmem
      rw [keys_append] at hmem
      rcases List.mem_append.mp hmem with hmem | hmem
      · exact hnew k (List.mem_cons_of_mem _ hk) hmem
      · rw [List.mem_singleton.mp hmem] at hk
        exact hp hk
    rw [putAll_cons, hput, ih hl hnew', List.append_assoc]
    rfl

theorem putAll_cons_of_not_mem {p : κ × α} {l : List (κ × α)} (h : p.1 ∉ keys l)
    (m : List (κ × α)) : putAll (p :: m) l = p :: putAll m l := by
  induction l generalizing m with
  | nil => rfl
  | cons q l ih =>
    have hq : p.1 ≠ q.1 := List.ne_of_not_mem_cons h
    rw [putAll_cons, put, if_neg hq, ih (List.not_mem_of_not_mem_cons h)]
    rfl

/-- What is stored under keys that are there already, in their order, is all that is read back,
when a read gives nothing for the keys left alone. -/
theorem filterMap_putAll {f : κ × α → Option β} {m l : List (κ × α)}
    (hs : List.Sublist (keys l) (keys m)) (hm : (keys m).Nodup)
    (hf : ∀ p ∈ m, p.1 ∉ keys l → f p = none) : (putAll m l).filterMap f = l.filterMap f := by
  induction m generalizing l with
  | nil =>
    have hl : l = [] := List.map_eq_nil_iff.mp (List.sublist_nil.mp hs)
    rw [hl]
    rfl
  | cons p m ih =>
    obtain ⟨hp, hm⟩ := List.nodup_cons.mp hm
    by_cases hmem : p.1 ∈ keys l
    · cases l with
      | nil => cases hmem
      | cons q l =>
        have hq : q.1 = p.1 ∧ List.Sublist (keys l) (keys m) := by
          rcases List.cons_sublist_cons'.mp hs with hs | hs
          · exact absurd (hs.mem hmem) hp
          · exact hs
        obtain ⟨hqp, hs⟩ := hq
        have hql : q.1 ∉ keys l := fun hql => hp (hs.mem (hqp ▸ hql))
        have hrest := ih hs hm fun r hr hrl => by
          refine hf r (List.mem_cons_of_mem _ hr) fun hrq => ?_
          rcases List.mem_cons.mp hrq with hrq | hrq
          · exact hp (hqp ▸ hrq ▸ List.mem_map_of_mem hr)
          · exact hrl hrq
        rw [putAll_cons, put, if_pos hqp.symm, ← hqp, putAll_cons_of_not_mem hql]
        rw [List.filterMap_cons, List.filterMap_cons, hrest]
    · have hs : List.Sublist (keys l) (keys m) := by
        rcases List.sublist_cons_iff.mp hs with hs | ⟨r, hr, -⟩
        · exact hs
        · exact absurd (hr ▸ List.mem_cons_self ..) hmem
      rw [putAll_cons_of_not_mem hmem, List.filterMap_cons, hf p (List.mem_cons_self ..) hmem]
      exact ih hs hm fun r hr => hf r (List.mem_cons_of_mem _ hr)

end Parallax.OrderedMap
