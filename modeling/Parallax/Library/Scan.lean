import Mathlib.Tactic

/-! Index-based scanning loops. A loop runs while its index is below the length of the buffer;
its body stops with a result or goes on at a later index. `Covers` says that a stretch of the
buffer takes the loop from one state to another; `Reaches` that the rounds themselves do, and
composes over adjacent stretches. -/
namespace Parallax.Scan
set_option autoImplicit false
set_option maxHeartbeats 250000

variable {ε σ ρ : Type}

/-- What a body does at an index. -/
inductive Verdict (σ ρ : Type)
  | stop (r : ρ)
  | next (s : σ) (j : ℕ)

/-- How a loop ends: its body stopped, or the index ran off the end. -/
inductive Ending (σ ρ : Type)
  | found (r : ρ)
  | ended (s : σ) (i : ℕ)
deriving DecidableEq

/-- The result of the body that stopped, if one did. -/
def Ending.found? : Ending σ ρ → Option ρ
  | .found r => some r
  | .ended .. => none

/-- A loop with fuel for its rounds; `e` is the failure of a loop cut short. -/
def loop (e : ε) (len : ℕ) (step : ℕ → σ → Except ε (Verdict σ ρ)) :
    ℕ → ℕ → σ → Except ε (Ending σ ρ)
  | 0, i, s => if i < len then .error e else .ok (.ended s i)
  | fuel + 1, i, s =>
    if i < len then
      match step i s with
      | .error e' => .error e'
      | .ok (.stop r) => .ok (.found r)
      | .ok (.next s' j) => loop e len step fuel j s'
    else .ok (.ended s i)

/-- The loop from index `i` on. When every round goes forward a round for each byte is enough. -/
def scanFrom (e : ε) (len : ℕ) (step : ℕ → σ → Except ε (Verdict σ ρ)) (i : ℕ) (s : σ) :
    Except ε (Ending σ ρ) := loop e len step (len - i) i s

/-- Every round moves the index. -/
def Forward (step : ℕ → σ → Except ε (Verdict σ ρ)) : Prop :=
  ∀ i s s' j, step i s = .ok (.next s' j) → i < j

section Rounds
variable {e : ε} {len : ℕ} {step : ℕ → σ → Except ε (Verdict σ ρ)}

theorem loop_end (fuel : ℕ) {i : ℕ} (s : σ) (h : ¬ i < len) :
    loop e len step fuel i s = .ok (.ended s i) := by
  cases fuel <;> exact if_neg h

theorem loop_fuel (hf : Forward step) (fuel fuel' i : ℕ) (s : σ) (h : len - i ≤ fuel)
    (h' : len - i ≤ fuel') : loop e len step fuel i s = loop e len step fuel' i s := by
  induction fuel generalizing fuel' i s with
  | zero => rw [loop_end _ _ (by omega), loop_end _ _ (by omega)]
  | succ fuel ih =>
    by_cases hi : i < len
    · obtain ⟨fuel', rfl⟩ : ∃ k, fuel' = k + 1 := ⟨fuel' - 1, by omega⟩
      rw [loop, loop, if_pos hi, if_pos hi]
      cases hs : step i s with
      | error e' => rfl
      | ok v =>
        cases v with
        | stop r => rfl
        | next s' j =>
          have hj := hf i s s' j hs
          exact ih fuel' j s' (by omega) (by omega)
    · rw [loop_end _ _ hi, loop_end _ _ hi]

theorem scanFrom_end {i : ℕ} (s : σ) (h : ¬ i < len) :
    scanFrom e len step i s = .ok (.ended s i) := loop_end _ s h

theorem scanFrom_stop {i : ℕ} {s : σ} {r : ρ} (h : i < len) (hs : step i s = .ok (.stop r)) :
    scanFrom e len step i s = .ok (.found r) := by
  obtain ⟨k, hk⟩ : ∃ k, len - i = k + 1 := ⟨len - i - 1, by omega⟩
  rw [scanFrom, hk, loop, if_pos h, hs]

theorem scanFrom_next (hf : Forward step) {i j : ℕ} {s s' : σ} (h : i < len)
    (hs : step i s = .ok (.next s' j)) :
    scanFrom e len step i s = scanFrom e len step j s' := by
  have hj := hf i s s' j hs
  obtain ⟨k, hk⟩ : ∃ k, len - i = k + 1 := ⟨len - i - 1, by omega⟩
  rw [scanFrom, hk, loop, if_pos h, hs]
  exact loop_fuel hf _ _ j s' (by omega) le_rfl

/-- What the rounds preserve holds where the loop ends, by a stop or at the end. -/
theorem scanFrom_inv (hf : Forward step) {P : ℕ → σ → Prop} {Q : ρ → Prop}
    (hnext : ∀ i s s' j, i < len → P i s → step i s = .ok (.next s' j) → P j s')
    (hstop : ∀ i s r, i < len → P i s → step i s = .ok (.stop r) → Q r) {i : ℕ} {s : σ}
    (h : P i s) {x : Ending σ ρ} (hx : scanFrom e len step i s = .ok x) :
    (∃ r, x = .found r ∧ Q r) ∨ ∃ s' j, x = .ended s' j ∧ P j s' ∧ ¬ j < len := by
  induction hn : len - i using Nat.strong_induction_on generalizing i s with
  | _ n ih =>
    by_cases hi : i < len
    · cases hs : step i s with
      | error e' =>
        obtain ⟨k, hk⟩ : ∃ k, len - i = k + 1 := ⟨len - i - 1, by omega⟩
        rw [scanFrom, hk, loop, if_pos hi, hs] at hx
        cases hx
      | ok v =>
        cases v with
        | stop r =>
          rw [scanFrom_stop hi hs] at hx
          cases hx
          exact Or.inl ⟨r, rfl, hstop i s r hi h hs⟩
        | next s' j =>
          have hj := hf i s s' j hs
          rw [scanFrom_next hf hi hs] at hx
          exact ih (len - j) (by omega) (hnext i s s' j hi h hs) hx rfl
    · rw [scanFrom_end s hi] at hx
      cases hx
      exact Or.inr ⟨s, i, rfl, h, hi⟩

/-- A loop whose body never fails inside the buffer, as long as `P` holds, ends. -/
theorem scanFrom_total (hf : Forward step) {P : ℕ → σ → Prop}
    (hstep : ∀ i s, i < len → P i s →
      ∃ v, step i s = .ok v ∧ ∀ s' j, v = .next s' j → P j s') {i : ℕ} {s : σ} (h : P i s) :
    ∃ x, scanFrom e len step i s = .ok x := by
  induction hn : len - i using Nat.strong_induction_on generalizing i s with
  | _ n ih =>
    by_cases hi : i < len
    · obtain ⟨v, hs, hnext⟩ := hstep i s hi h
      cases v with
      | stop r => exact ⟨_, scanFrom_stop hi hs⟩
      | next s' j =>
        have hj := hf i s s' j hs
        rw [scanFrom_next hf hi hs]
        exact ih (len - j) (by omega) (hnext s' j rfl) rfl
    · exact ⟨_, scanFrom_end s hi⟩

/-- Where a loop ended, when its results say where it stopped. -/
def Ending.index (pos : ρ → ℕ) : Ending σ ρ → ℕ
  | .found r => pos r
  | .ended _ i => i

theorem scanFrom_le (hf : Forward step) {pos : ρ → ℕ}
    (hstop : ∀ i s r, step i s = .ok (.stop r) → i ≤ pos r) {i : ℕ} {s : σ} {x : Ending σ ρ}
    (hx : scanFrom e len step i s = .ok x) : i ≤ x.index pos := by
  have hnext : ∀ k t t' j, k < len → i ≤ k → step k t = .ok (.next t' j) → i ≤ j :=
    fun k t t' j _ hk hs => hk.trans (hf k t t' j hs).le
  obtain ⟨r, rfl, hr⟩ | ⟨s', j, rfl, hj, -⟩ := scanFrom_inv hf (Q := fun r => i ≤ pos r) hnext
    (fun k t r _ hk hs => hk.trans (hstop k t r hs)) le_rfl hx
  · exact hr
  · exact hj

/-! ## A buffer cut off -/

/-- The same, or both past the cut. -/
def Alike (cut : ℕ) (x x' : Except ε (Verdict σ ρ)) : Prop :=
  x = x' ∨ ∃ s j s' j', x = .ok (.next s j) ∧ x' = .ok (.next s' j') ∧ cut ≤ j ∧ cut ≤ j'

/-- A body that reads a buffer and the same buffer cut off alike stops in both at the same places
before the cut. -/
theorem scanFrom_cut {step' : ℕ → σ → Except ε (Verdict σ ρ)} (pos : ρ → ℕ) {cut lo : ℕ}
    (hf : Forward step) (hf' : Forward step') (hcut : cut ≤ len)
    (halike : ∀ i s, lo ≤ i → i < cut → Alike cut (step i s) (step' i s))
    (hstop : ∀ i s r, step i s = .ok (.stop r) → i ≤ pos r) {i : ℕ} {s : σ} {r : ρ} (hi : lo ≤ i)
    (hr : pos r < cut) :
    scanFrom e len step i s = .ok (.found r) ↔ scanFrom e cut step' i s = .ok (.found r) := by
  have hpast : ∀ j j' t t', cut ≤ j → cut ≤ j' → (scanFrom e len step j t = .ok (.found r) ↔
      scanFrom e cut step' j' t' = .ok (.found r)) := by
    intro j j' t t' hj hj'
    apply iff_of_false
    · intro hfound
      have : j ≤ pos r := scanFrom_le hf hstop hfound
      omega
    · rw [scanFrom_end _ (by omega)]
      simp
  induction hn : cut - i using Nat.strong_induction_on generalizing i s with
  | _ n ih =>
    by_cases hic : i < cut
    · obtain hsame | ⟨t, j, t', j', ht, ht', hj, hj'⟩ := halike i s hi hic
      · cases hs : step i s with
        | error e' =>
          obtain ⟨k, hk⟩ : ∃ k, len - i = k + 1 := ⟨len - i - 1, by omega⟩
          obtain ⟨k', hk'⟩ : ∃ k, cut - i = k + 1 := ⟨cut - i - 1, by omega⟩
          rw [scanFrom, scanFrom, hk, hk', loop, loop, if_pos (by omega), if_pos hic, ← hsame, hs]
        | ok v =>
          have hs' := hsame.symm.trans hs
          cases v with
          | stop r' => rw [scanFrom_stop (by omega) hs, scanFrom_stop hic hs']
          | next t j =>
            have hj := hf i s t j hs
            rw [scanFrom_next hf (by omega) hs, scanFrom_next hf' hic hs']
            exact ih (cut - j) (by omega) (by omega) rfl
      · rw [scanFrom_next hf (by omega) ht, scanFrom_next hf' hic ht']
        exact hpast j j' t t' hj hj'
    · exact hpast i i s s (by omega) (by omega)

/-! ## Stretches -/

/-- From `i` in state `s` the loop gets to `j` in state `s'`. -/
def Covers (e : ε) (len : ℕ) (step : ℕ → σ → Except ε (Verdict σ ρ)) (i : ℕ) (s : σ) (j : ℕ)
    (s' : σ) : Prop := scanFrom e len step i s = scanFrom e len step j s'

/-- A round that goes on, from an index and a state to the next ones. -/
def Round (len : ℕ) (step : ℕ → σ → Except ε (Verdict σ ρ)) (x y : ℕ × σ) : Prop :=
  x.1 < len ∧ step x.1 x.2 = .ok (.next y.2 y.1)

/-- Rounds take the loop from index `i` in state `s` to index `j` in state `s'`. -/
def Reaches (len : ℕ) (step : ℕ → σ → Except ε (Verdict σ ρ)) (i : ℕ) (s : σ) (j : ℕ)
    (s' : σ) : Prop := Relation.ReflTransGen (Round len step) (i, s) (j, s')

theorem Reaches.refl (i : ℕ) (s : σ) : Reaches len step i s i s := Relation.ReflTransGen.refl

theorem Reaches.trans {i j k : ℕ} {s t u : σ} (h : Reaches len step i s j t)
    (h' : Reaches len step j t k u) : Reaches len step i s k u := Relation.ReflTransGen.trans h h'

theorem Reaches.next {i j : ℕ} {s s' : σ} (h : i < len) (hs : step i s = .ok (.next s' j)) :
    Reaches len step i s j s' := Relation.ReflTransGen.single ⟨h, hs⟩

theorem rounds_le (hf : Forward step) {x y : ℕ × σ}
    (h : Relation.ReflTransGen (Round len step) x y) : x.1 ≤ y.1 := by
  induction h with
  | refl => exact le_rfl
  | tail _ hround ih => exact ih.trans (hf _ _ _ _ hround.2).le

theorem rounds_scanFrom (hf : Forward step) {x y : ℕ × σ}
    (h : Relation.ReflTransGen (Round len step) x y) :
    scanFrom e len step x.1 x.2 = scanFrom e len step y.1 y.2 := by
  induction h with
  | refl => rfl
  | tail _ hround ih => exact ih.trans (scanFrom_next hf hround.1 hround.2)

theorem Reaches.le (hf : Forward step) {i j : ℕ} {s t : σ} (h : Reaches len step i s j t) :
    i ≤ j := rounds_le hf h

theorem Reaches.covers (hf : Forward step) {i j : ℕ} {s t : σ} (h : Reaches len step i s j t) :
    Covers e len step i s j t := rounds_scanFrom hf h

end Rounds
end Parallax.Scan
