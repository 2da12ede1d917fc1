import Mathlib.Tactic

/-! Runs of a labelled transition system, and a heap of numbered objects for the states of such
systems. A step is partial: an action that is not enabled has no successor. -/
namespace Parallax.Transition
set_option autoImplicit false
set_option maxHeartbeats 250000

variable {σ α β : Type}

/-! ## Runs -/

/-- The state after the actions, when each is enabled in its turn. -/
def run (step : σ → α → Option σ) : σ → List α → Option σ
  | s, [] => some s
  | s, a :: tr => (step s a).bind fun t => run step t tr

theorem run_append (step : σ → α → Option σ) (s : σ) (tr tr' : List α) :
    run step s (tr ++ tr') = (run step s tr).bind fun t => run step t tr' := by
  induction tr generalizing s with
  | nil => rfl
  | cons a tr ih =>
    rw [List.cons_append, run, run]
    cases step s a with
    | none => rfl
    | some t => exact ih t

/-- A property of histories and states that one more step keeps holds of every run. -/
theorem run_invariant {step : σ → α → Option σ} {s : σ} {P : List α → σ → Prop} (h : P [] s)
    (hstep : ∀ tr t a t', P tr t → step t a = some t' → P (tr ++ [a]) t') {tr : List α} {t : σ}
    (hr : run step s tr = some t) : P tr t := by
  induction tr using List.reverseRecOn generalizing t with
  | nil =>
    cases hr
    exact h
  | append_singleton tr a ih =>
    rw [run_append] at hr
    obtain ⟨u, hu, hlast⟩ := Option.bind_eq_some_iff.mp hr
    obtain ⟨u', hu', hend⟩ := Option.bind_eq_some_iff.mp hlast
    cases hend
    exact hstep tr u a _ (ih hu) hu'

/-- `C` holds of every action of the history and the state before it. -/
def Along (step : σ → α → Option σ) (C : σ → α → Prop) : σ → List α → Prop
  | _, [] => True
  | s, a :: tr => C s a ∧ ∀ t, step s a = some t → Along step C t tr

/-- `P` holds of every state the history goes through. -/
def Throughout (step : σ → α → Option σ) (P : σ → Prop) : σ → List α → Prop
  | s, [] => P s
  | s, a :: tr => P s ∧ ∀ t, step s a = some t → Throughout step P t tr

theorem along_of_forall {step : σ → α → Option σ} {C : σ → α → Prop} {tr : List α}
    (h : ∀ a ∈ tr, ∀ s, C s a) (s : σ) : Along step C s tr := by
  induction tr generalizing s with
  | nil => trivial
  | cons a tr ih =>
    obtain ⟨ha, htr⟩ := List.forall_mem_cons.mp h
    exact ⟨ha s, fun t _ => ih htr t⟩

/-- Two conditions that agree wherever an invariant holds agree along every history. -/
theorem along_congr {step : σ → α → Option σ} {I : σ → Prop} {C D : σ → α → Prop}
    (hI : ∀ s a t, I s → step s a = some t → I t) (hCD : ∀ s a, I s → (C s a ↔ D s a))
    {s : σ} (h : I s) (tr : List α) : Along step C s tr ↔ Along step D s tr := by
  induction tr generalizing s with
  | nil => exact Iff.rfl
  | cons a tr ih =>
    exact and_congr (hCD s a h) (forall_congr' fun t => imp_congr_right fun ht => ih (hI s a t h ht))

theorem Along.of_append {step : σ → α → Option σ} {C : σ → α → Prop} {s : σ} {tr tr' : List α}
    (h : Along step C s (tr ++ tr')) : Along step C s tr := by
  induction tr generalizing s with
  | nil => trivial
  | cons a tr ih => exact ⟨h.1, fun t ht => ih (h.2 t ht)⟩

theorem Throughout.head {step : σ → α → Option σ} {P : σ → Prop} {s : σ} {tr : List α}
    (h : Throughout step P s tr) : P s := by
  cases tr with
  | nil => exact h
  | cons a tr => exact h.1

/-- Where an invariant is kept under `C` and gives `P`, and a step against `C` ends without `P`, a
history keeps `P` exactly when all its steps meet `C`. -/
theorem throughout_iff_of_invariant {step : σ → α → Option σ} {I P : σ → Prop} {C : σ → α → Prop}
    (hkeep : ∀ s a t, I s → C s a → step s a = some t → I t) (hI : ∀ s, I s → P s)
    (hbreak : ∀ s a t, I s → ¬ C s a → step s a = some t → ¬ P t) {tr : List α} {s t : σ}
    (h : I s) (hr : run step s tr = some t) : Throughout step P s tr ↔ Along step C s tr := by
  induction tr generalizing s with
  | nil => exact ⟨fun _ => trivial, fun _ => hI s h⟩
  | cons a tr ih =>
    obtain ⟨u, hu, hrest⟩ := Option.bind_eq_some_iff.mp hr
    constructor
    · rintro ⟨-, hthrough⟩
      have hC : C s a := by
        by_contra hC
        exact hbreak s a u h hC hu (hthrough u hu).head
      refine ⟨hC, fun v hv => ?_⟩
      obtain rfl : u = v := Option.some.inj (hu ▸ hv)
      exact (ih (hkeep s a u h hC hu) hrest).mp (hthrough u hu)
    · rintro ⟨hC, halong⟩
      refine ⟨hI s h, fun v hv => ?_⟩
      obtain rfl : u = v := Option.some.inj (hu ▸ hv)
      exact (ih (hkeep s a u h hC hu) hrest).mpr (halong u hu)

/-- Where a step keeps `P` exactly under `C`, a history keeps it exactly when all its steps do. -/
theorem throughout_iff_along {step : σ → α → Option σ} {I P : σ → Prop} {C : σ → α → Prop}
    (hI : ∀ s a t, I s → step s a = some t → I t)
    (hP : ∀ s a t, I s → P s → step s a = some t → (P t ↔ C s a)) {tr : List α} {s t : σ}
    (h : I s) (hs : P s) (hr : run step s tr = some t) :
    Throughout step P s tr ↔ Along step C s tr := by
  refine throughout_iff_of_invariant (I := fun s => I s ∧ P s) ?_ (fun _ h => h.2) ?_ ⟨h, hs⟩ hr
  · exact fun s a t h hC hu => ⟨hI s a t h.1 hu, (hP s a t h.1 h.2 hu).mpr hC⟩
  · exact fun s a t h hC hu hPt => hC ((hP s a t h.1 h.2 hu).mp hPt)

/-! ## What a history shows -/

theorem filterMap_snoc (f : α → Option β) (tr : List α) (a : α) :
    (tr ++ [a]).filterMap f = tr.filterMap f ++ (f a).toList := by
  rw [List.filterMap_append]
  cases h : f a <;> simp [h]

/-! ## Numbered objects -/

section Heap
variable {κ : Type} {heap : List κ} {P Q : ℕ → κ → Prop}

/-- Every object satisfies `P` at its own number. -/
def Each (P : ℕ → κ → Prop) (heap : List κ) : Prop := ∀ t k, heap[t]? = some k → P t k

theorem Each.mono (h : Each P heap) (hpq : ∀ t k, P t k → Q t k) : Each Q heap :=
  fun t k hk => hpq t k (h t k hk)

theorem Each.nil : Each P [] := by
  intro t k hk
  cases hk

theorem Each.alloc {x : κ} (h : Each P heap) (hold : ∀ t k, t < heap.length → P t k → Q t k)
    (hnew : Q heap.length x) : Each Q (heap ++ [x]) := by
  intro t k hk
  by_cases ht : t < heap.length
  · rw [List.getElem?_append_left ht] at hk
    exact hold t k ht (h t k hk)
  · rw [List.getElem?_append_right (Nat.le_of_not_lt ht)] at hk
    obtain ⟨hlt, rfl⟩ := List.getElem?_eq_some_iff.mp hk
    have ht' : t = heap.length := by
      rw [List.length_singleton] at hlt
      omega
    subst ht'
    simpa using hnew

/-- A write to one object: what it makes of that one, and why the others are as they were. -/
theorem Each.modify {t : ℕ} {f : κ → κ} (h : Each P heap)
    (hself : ∀ k, heap[t]? = some k → P t k → Q t (f k))
    (hother : ∀ u k, u ≠ t → P u k → Q u k) : Each Q (heap.modify t f) := by
  intro u k hk
  rw [List.getElem?_modify] at hk
  obtain ⟨k', hk', rfl⟩ := Option.map_eq_some_iff.mp hk
  by_cases hu : t = u
  · subst hu
    rw [if_pos rfl]
    exact hself k' hk' (h t k' hk')
  · rw [if_neg hu]
    exact hother u k' (Ne.symm hu) (h u k' hk')

theorem map_modify_of_eq {t : ℕ} {f : κ → κ} {g : κ → β}
    (hf : ∀ k, heap[t]? = some k → g (f k) = g k) : (heap.modify t f).map g = heap.map g := by
  apply List.ext_getElem?
  intro u
  rw [List.getElem?_map, List.getElem?_map, List.getElem?_modify]
  by_cases hu : t = u
  · subst hu
    cases hk : heap[t]? with
    | none => rfl
    | some k => simp [hf k hk]
  · simp [hu]

theorem filterMap_modify_of_eq {t : ℕ} {f : κ → κ} {g : κ → Option β}
    (hf : ∀ k, heap[t]? = some k → g (f k) = g k) :
    (heap.modify t f).filterMap g = heap.filterMap g := by
  have h := map_modify_of_eq hf
  have hid : ∀ l : List κ, l.filterMap g = (l.map g).filterMap id := fun l => by
    rw [List.filterMap_map, Function.id_comp]
  rw [hid, h, ← hid]

/-- What a write to one object does to a count. -/
theorem countP_modify {t : ℕ} {f : κ → κ} {p : κ → Bool} {k : κ} (hk : heap[t]? = some k) :
    (heap.modify t f).countP p + (p k).toNat = heap.countP p + (p (f k)).toNat := by
  induction heap generalizing t with
  | nil => cases hk
  | cons x heap ih =>
    cases t with
    | zero =>
      cases hk
      cases hx : p k <;> cases hfx : p (f k) <;> simp [hx, hfx]
    | succ t =>
      have := ih (t := t) (by simpa using hk)
      simp only [List.modify_succ_cons, List.countP_cons]
      omega

theorem filterMap_modify_last {t : ℕ} {f : κ → κ} {g : κ → Option β} {k : κ}
    (ht : t + 1 = heap.length) (hk : heap[t]? = some k) (hg : g k = none) :
    (heap.modify t f).filterMap g = heap.filterMap g ++ (g (f k)).toList := by
  induction heap generalizing t with
  | nil => cases hk
  | cons x heap ih =>
    cases t with
    | zero =>
      have hnil : heap = [] := List.eq_nil_of_length_eq_zero (by simpa using ht.symm)
      subst hnil
      cases hk
      cases h : g (f k) <;> simp [h, hg]
    | succ t =>
      have := ih (by simpa using ht) (by simpa using hk)
      cases h : g x <;> simp [h, this]

end Heap
end Parallax.Transition
