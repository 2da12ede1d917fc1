import Mathlib
import Parallax.Library.Memory

/-! Programs that allocate, and assertions about the part of the heap they own. Assertions form a
commutative quantale: the product splits the heap, the unit owns nothing, the join of a family is
the existential quantifier. A triple says that a program started on its part ends, with its result
and the part it owns then, whatever else is on the heap, and leaves all of that as it was. -/
namespace Parallax.Separation
open Memory
set_option autoImplicit false
set_option maxHeartbeats 250000

/-! ## Programs -/

/-- The blocks that are allocated, by address. -/
abbrev Heap (β : Type) := Finmap fun _ : ℕ => β

/-- What ends a program: an access through NULL or to a block that is not allocated (any more), or a
fault of what it computes on the way. -/
inductive Violation
  | null | dangling
  | fault (f : Fault)
deriving DecidableEq, Repr

/-- Where the next block is put: at an address that is free. -/
class Allocator (β : Type) where
  pick : Heap β → β → ℕ
  fresh : ∀ h b, pick h b ∉ h

/-- Behind every address that is taken. -/
abbrev Allocator.above (β : Type) : Allocator β where
  pick h _ := h.keys.sup id + 1
  fresh h _ hmem := Nat.not_succ_le_self _
    (Finset.le_sup (f := id) (Finmap.mem_keys.mpr hmem) : h.keys.sup id + 1 ≤ h.keys.sup id)

abbrev Program (β α : Type) := StateT (Heap β) (Except Violation) α

section Operations
variable {β α : Type}

def malloc [Allocator β] (b : β) : Program β ℕ := fun h =>
  .ok (Allocator.pick h b, h.insert (Allocator.pick h b) b)

def read : Option ℕ → Program β β
  | none => fun _ => .error .null
  | some a => fun h => match h.lookup a with
    | some b => .ok (b, h)
    | none => .error .dangling

def write : Option ℕ → β → Program β Unit
  | none, _ => fun _ => .error .null
  | some a, b => fun h => if a ∈ h then .ok ((), h.insert a b) else .error .dangling

/-- Of NULL it does nothing. -/
def free : Option ℕ → Program β Unit
  | none => pure ()
  | some a => fun h => if a ∈ h then .ok ((), h.erase a) else .error .dangling

def attempt (x : Except Fault α) : Program β α := fun h => match x with
  | .ok a => .ok (a, h)
  | .error f => .error (.fault f)

/-- How many blocks are allocated: no chain of distinct blocks is longer. -/
def liveBlocks : Program β ℕ := fun h => .ok (h.keys.card, h)

variable {γ : Type}

theorem bind_run {x : Program β α} {f : α → Program β γ} {s t : Heap β} {a : α}
    (h : x s = .ok (a, t)) : (x >>= f) s = f a t := by
  show (x s >>= fun p => f p.1 p.2) = _
  rw [h]
  rfl

theorem read_run {s : Heap β} {a : ℕ} {b : β} (h : s.lookup a = some b) :
    read (some a) s = .ok (b, s) := by
  simp only [read, h]

theorem write_run {s : Heap β} {a : ℕ} (h : a ∈ s) (b : β) :
    write (some a) b s = .ok ((), s.insert a b) := if_pos h

theorem free_run {s : Heap β} {a : ℕ} (h : a ∈ s) : free (some a) s = .ok ((), s.erase a) :=
  if_pos h

end Operations

/-! ## Assertions -/

def Assertion (β : Type) := Heap β → Prop

namespace Assertion
variable {β : Type}

instance : CompleteLattice (Assertion β) := inferInstanceAs (CompleteLattice (Heap β → Prop))

@[ext] theorem ext {P Q : Assertion β} (h : ∀ s, P s ↔ Q s) : P = Q :=
  funext fun s => propext (h s)

theorem sSup_iff {S : Set (Assertion β)} {s : Heap β} : (sSup S : Assertion β) s ↔ ∃ P ∈ S, P s := by
  constructor
  · intro h
    have hle : sSup S ≤ (fun s => ∃ P ∈ S, P s : Assertion β) := sSup_le fun P hP s hs => ⟨P, hP, hs⟩
    exact hle s h
  · rintro ⟨P, hP, hs⟩
    exact le_sSup (a := P) hP s hs

theorem iSup_iff {ι : Sort*} {P : ι → Assertion β} {s : Heap β} :
    (⨆ i, P i : Assertion β) s ↔ ∃ i, P i s := by
  rw [iSup, sSup_iff]
  constructor
  · rintro ⟨_, ⟨i, rfl⟩, hs⟩
    exact ⟨i, hs⟩
  · rintro ⟨i, hs⟩
    exact ⟨P i, ⟨i, rfl⟩, hs⟩

/-- The heap falls into a part for each. -/
instance : Mul (Assertion β) where
  mul P Q s := ∃ u v : Heap β, u.Disjoint v ∧ s = u ∪ v ∧ P u ∧ Q v

/-- Nothing is allocated. -/
instance : One (Assertion β) where
  one s := s = ∅

theorem mul_iff {P Q : Assertion β} {s : Heap β} :
    (P * Q) s ↔ ∃ u v : Heap β, u.Disjoint v ∧ s = u ∪ v ∧ P u ∧ Q v := Iff.rfl

theorem one_iff {s : Heap β} : (1 : Assertion β) s ↔ s = ∅ := Iff.rfl

theorem join {P Q : Assertion β} {u v : Heap β} (hd : u.Disjoint v) (hP : P u) (hQ : Q v) :
    (P * Q) (u ∪ v) := ⟨u, v, hd, rfl, hP, hQ⟩

protected theorem comm (P Q : Assertion β) : P * Q = Q * P := by
  have hle (P Q : Assertion β) (s : Heap β) : (P * Q) s → (Q * P) s := by
    rintro ⟨u, v, hd, rfl, hP, hQ⟩
    rw [Finmap.union_comm_of_disjoint hd]
    exact join (Finmap.Disjoint.symm _ _ hd) hQ hP
  ext s
  exact ⟨hle P Q s, hle Q P s⟩

protected theorem assoc (P Q R : Assertion β) : P * Q * R = P * (Q * R) := by
  ext s
  constructor
  · rintro ⟨_, w, hd, rfl, ⟨u, v, huv, rfl, hP, hQ⟩, hR⟩
    obtain ⟨huw, hvw⟩ := (Finmap.disjoint_union_left _ _ _).mp hd
    rw [Finmap.union_assoc]
    exact join ((Finmap.disjoint_union_right _ _ _).mpr ⟨huv, huw⟩) hP (join hvw hQ hR)
  · rintro ⟨u, _, hd, rfl, hP, ⟨v, w, hvw, rfl, hQ, hR⟩⟩
    obtain ⟨huv, huw⟩ := (Finmap.disjoint_union_right _ _ _).mp hd
    rw [← Finmap.union_assoc]
    exact join ((Finmap.disjoint_union_left _ _ _).mpr ⟨huw, hvw⟩) (join huv hP hQ) hR

protected theorem unit (P : Assertion β) : 1 * P = P := by
  ext s
  constructor
  · rintro ⟨u, v, -, rfl, hu, hP⟩
    rwa [one_iff.mp hu, Finmap.empty_union]
  · intro hP
    have hjoin := join (P := 1) (Finmap.disjoint_empty s) rfl hP
    rwa [Finmap.empty_union] at hjoin

instance : CommMonoid (Assertion β) where
  mul_assoc := Assertion.assoc
  one_mul := Assertion.unit
  mul_one P := (Assertion.comm P 1).trans (Assertion.unit P)
  mul_comm := Assertion.comm

protected theorem mul_sSup (P : Assertion β) (S : Set (Assertion β)) :
    P * sSup S = ⨆ Q ∈ S, P * Q := by
  ext s
  simp only [mul_iff, sSup_iff, iSup_iff]
  constructor
  · rintro ⟨u, v, hd, hs, hP, Q, hQ, hv⟩
    exact ⟨Q, hQ, u, v, hd, hs, hP, hv⟩
  · rintro ⟨Q, hQ, u, v, hd, hs, hP, hv⟩
    exact ⟨u, v, hd, hs, hP, Q, hQ, hv⟩

instance : IsQuantale (Assertion β) where
  mul_sSup_distrib := Assertion.mul_sSup
  sSup_mul_distrib S P := by
    rw [mul_comm, Assertion.mul_sSup]
    simp only [mul_comm]

protected theorem iSup_mul {ι : Sort*} {P : ι → Assertion β} {F : Assertion β} :
    (⨆ i, P i) * F = ⨆ i, P i * F := by
  rw [iSup, IsQuantale.sSup_mul_distrib, iSup_range]

protected theorem mul_iSup_le {ι : Sort*} {P : ι → Assertion β} {F Q : Assertion β}
    (h : ∀ i, F * P i ≤ Q) : F * (⨆ i, P i) ≤ Q := by
  rw [mul_comm, Assertion.iSup_mul]
  exact iSup_le fun i => (mul_comm _ _).le.trans (h i)

/-- What is owned with one of a family. -/
theorem le_iSup_mul {ι : Sort*} {P : ι → Assertion β} {F : Assertion β} (i : ι) :
    P i * F ≤ (⨆ i, P i) * F := mul_le_mul' (le_iSup P i) le_rfl

/-- The heap is one block. -/
def pointsTo (a : ℕ) (b : β) : Assertion β := fun s => s = Finmap.singleton a b

/-- A pointer that is NULL or owns what it points to. -/
def held {α : Type} (owns : α → ℕ → Assertion β) : Option α → Option ℕ → Assertion β
  | none, none => 1
  | some x, some a => owns x a
  | _, _ => ⊥

/-- `P` owns `n` blocks at least. -/
def Weighs (n : ℕ) (P : Assertion β) : Prop := ∀ s, P s → n ≤ s.keys.card

theorem Weighs.zero (P : Assertion β) : Weighs 0 P := fun _ _ => Nat.zero_le _

theorem Weighs.pointsTo (a : ℕ) (b : β) : Weighs 1 (pointsTo a b) := by
  intro s hs
  have hs' : s = Finmap.singleton a b := hs
  rw [hs', Finmap.keys_singleton, Finset.card_singleton]

theorem card_union {u v : Heap β} (hd : u.Disjoint v) :
    (u ∪ v).keys.card = u.keys.card + v.keys.card := by
  have hkeys : Disjoint u.keys v.keys := Finset.disjoint_left.mpr fun a ha hav =>
    hd a (Finmap.mem_keys.mp ha) (Finmap.mem_keys.mp hav)
  rw [Finmap.keys_union, Finset.card_union_of_disjoint hkeys]

theorem Weighs.mul {m n : ℕ} {P Q : Assertion β} (hP : Weighs m P) (hQ : Weighs n Q) :
    Weighs (m + n) (P * Q) := by
  rintro _ ⟨u, v, hd, rfl, hu, hv⟩
  rw [card_union hd]
  exact Nat.add_le_add (hP u hu) (hQ v hv)

theorem Weighs.iSup {ι : Sort*} {n : ℕ} {P : ι → Assertion β} (h : ∀ i, Weighs n (P i)) :
    Weighs n (⨆ i, P i) := by
  intro s hs
  obtain ⟨i, hi⟩ := iSup_iff.mp hs
  exact h i s hi

end Assertion

/-! ## Triples -/

/-- The program ends, and the rest of the heap is as it was. -/
def Triple {β α : Type} (P : Assertion β) (x : Program β α) (Q : α → Assertion β) : Prop :=
  ∀ s frame : Heap β, P s → s.Disjoint frame →
    ∃ a t, x (s ∪ frame) = .ok (a, t ∪ frame) ∧ t.Disjoint frame ∧ Q a t

namespace Triple
open Assertion
variable {β α γ : Type} {P P' F : Assertion β} {x : Program β α} {f : α → Program β γ}
variable {Q Q' : α → Assertion β} {R : γ → Assertion β}

theorem run (h : Triple P x Q) {s : Heap β} (hs : P s) (frame : Heap β) (hd : s.Disjoint frame) :
    ∃ a t, x (s ∪ frame) = .ok (a, t ∪ frame) ∧ t.Disjoint frame ∧ Q a t := h s frame hs hd

theorem pure {a : α} (h : P ≤ Q a) : Triple P (pure a) Q :=
  fun s _ hs hd => ⟨a, s, rfl, hd, h s hs⟩

theorem mono (h : Triple P x Q) (hP : P' ≤ P) (hQ : ∀ a, Q a ≤ Q' a) : Triple P' x Q' := by
  intro s frame hs hd
  obtain ⟨a, t, hx, ht, hq⟩ := h s frame (hP s hs) hd
  exact ⟨a, t, hx, ht, hQ a t hq⟩

theorem pre (h : Triple P x Q) (hP : P' ≤ P) : Triple P' x Q := h.mono hP fun _ => le_rfl

theorem post (h : Triple P x Q) (hQ : ∀ a, Q a ≤ Q' a) : Triple P x Q' := h.mono le_rfl hQ

theorem bind (hx : Triple P x Q) (hf : ∀ a, Triple (Q a) (f a) R) : Triple P (x >>= f) R := by
  intro s frame hs hd
  obtain ⟨a, t, hxa, ht, hq⟩ := hx s frame hs hd
  obtain ⟨b, u, hfa, hu, hr⟩ := hf a t frame hq ht
  exact ⟨b, u, (bind_run hxa).trans hfa, hu, hr⟩

theorem frame (h : Triple P x Q) (F : Assertion β) : Triple (P * F) x fun a => Q a * F := by
  rintro _ frame ⟨u, v, huv, rfl, hP, hF⟩ hd
  obtain ⟨hu, hv⟩ := (Finmap.disjoint_union_left _ _ _).mp hd
  have hrest : u.Disjoint (v ∪ frame) := (Finmap.disjoint_union_right _ _ _).mpr ⟨huv, hu⟩
  obtain ⟨a, t, hx, ht, hq⟩ := h u (v ∪ frame) hP hrest
  obtain ⟨htv, htf⟩ := (Finmap.disjoint_union_right _ _ _).mp ht
  refine ⟨a, t ∪ v, ?_, (Finmap.disjoint_union_left _ _ _).mpr ⟨htf, hv⟩, join htv hq hF⟩
  rw [Finmap.union_assoc, Finmap.union_assoc]
  exact hx

/-- A program with what it needs, and then the rest. -/
theorem seq (hx : Triple P x Q) (hP : P' = P * F) (hf : ∀ a, Triple (Q a * F) (f a) R) :
    Triple P' (x >>= f) R := hP ▸ (hx.frame F).bind hf

theorem iSup {ι : Sort*} {P : ι → Assertion β} (h : ∀ i, Triple (P i) x Q) :
    Triple (⨆ i, P i) x Q := by
  intro s frame hs hd
  obtain ⟨i, hi⟩ := iSup_iff.mp hs
  exact h i s frame hi hd

theorem iSup_mul {ι : Sort*} {P : ι → Assertion β} (h : ∀ i, Triple (P i * F) x Q) :
    Triple ((⨆ i, P i) * F) x Q := by
  rw [Assertion.iSup_mul]
  exact iSup h

/-- The parts of what is owned in another order. -/
theorem perm (P' : Assertion β) (hP : P = P') (h : Triple P' x Q) : Triple P x Q := hP ▸ h

/-- What the owned part says without the heap. -/
theorem of_fact {p : Prop} (hp : ∀ s, P s → p) (h : p → Triple P x Q) : Triple P x Q :=
  fun s frame hs => h (hp s hs) s frame hs

theorem bot : Triple ⊥ x Q := fun _ _ hs _ => False.elim hs

theorem bot_mul : Triple (⊥ * F) x Q := by
  rw [Quantale.bot_mul]
  exact bot

/-- A program that needs nothing, started on any heap. -/
theorem adds (h : Triple 1 x Q) (rest : Heap β) :
    ∃ a own, x rest = .ok (a, own ∪ rest) ∧ own.Disjoint rest ∧ Q a own := by
  obtain ⟨a, own, hx, hd, hq⟩ := h.run rfl rest (Finmap.disjoint_empty rest)
  rw [Finmap.empty_union] at hx
  exact ⟨a, own, hx, hd, hq⟩

/-- A program that gives back all it was started on. -/
theorem releases (h : Triple P x fun _ => 1) {own rest : Heap β} (hown : P own)
    (hd : own.Disjoint rest) : ∃ a, x (own ∪ rest) = .ok (a, rest) := by
  obtain ⟨a, t, hx, -, ht⟩ := h.run hown rest hd
  rw [one_iff.mp ht, Finmap.empty_union] at hx
  exact ⟨a, hx⟩

/-! ### The operations -/

theorem malloc_bind [Allocator β] {b : β} {f : ℕ → Program β γ}
    (h : ∀ a, Triple (pointsTo a b * F) (f a) R) : Triple F (malloc b >>= f) R := by
  intro s frame hs hd
  have hfresh := Allocator.fresh (s ∪ frame) b
  obtain ⟨hfs, hff⟩ := not_or.mp fun hor => hfresh (Finmap.mem_union.mpr hor)
  have hsingle (u : Heap β) (hu : Allocator.pick (s ∪ frame) b ∉ u) :
      (Finmap.singleton (Allocator.pick (s ∪ frame) b) b : Heap β).Disjoint u := by
    intro a ha
    rw [(Finmap.mem_singleton _ _ _).mp ha]
    exact hu
  have hinsert : (s ∪ frame).insert (Allocator.pick (s ∪ frame) b) b =
      Finmap.singleton (Allocator.pick (s ∪ frame) b) b ∪ s ∪ frame := by
    rw [Finmap.union_assoc]
    refine Finmap.ext_lookup fun c => ?_
    by_cases hc : c = Allocator.pick (s ∪ frame) b
    · subst hc
      rw [Finmap.lookup_insert, Finmap.lookup_union_left ((Finmap.mem_singleton _ _ _).mpr rfl),
        Finmap.lookup_singleton_eq]
    · have hnot : c ∉ (Finmap.singleton (Allocator.pick (s ∪ frame) b) b : Heap β) :=
        fun hmem => hc ((Finmap.mem_singleton _ _ _).mp hmem)
      rw [Finmap.lookup_insert_of_ne _ hc, Finmap.lookup_union_right hnot]
  obtain ⟨r, t, hf, ht, hr⟩ := h _ _ frame (join (hsingle s hfs) rfl hs)
    ((Finmap.disjoint_union_left _ _ _).mpr ⟨hsingle frame hff, hd⟩)
  refine ⟨r, t, ?_, ht, hr⟩
  show f _ ((s ∪ frame).insert _ b) = _
  rw [hinsert]
  exact hf

/-- The owner of a block finds it on the whole heap. -/
theorem lookup_owned {a : ℕ} {b : β} {s frame : Heap β} (hs : (pointsTo a b * F) s) :
    (s ∪ frame).lookup a = some b := by
  obtain ⟨u, v, -, rfl, hu, -⟩ := hs
  have hu' : u = Finmap.singleton a b := hu
  have hmem : a ∈ u := hu' ▸ (Finmap.mem_singleton _ _ _).mpr rfl
  rw [Finmap.lookup_union_left (Finmap.mem_union.mpr (Or.inl hmem)), Finmap.lookup_union_left hmem,
    hu', Finmap.lookup_singleton_eq]

theorem read_bind {a : ℕ} {b : β} {f : β → Program β γ}
    (h : Triple (pointsTo a b * F) (f b) R) : Triple (pointsTo a b * F) (read (some a) >>= f) R := by
  intro s frame hs hd
  obtain ⟨r, t, hf, ht, hr⟩ := h s frame hs hd
  exact ⟨r, t, (bind_run (read_run (lookup_owned hs))).trans hf, ht, hr⟩

theorem write_bind {a : ℕ} {b c : β} {f : Unit → Program β γ}
    (h : Triple (pointsTo a c * F) (f ()) R) :
    Triple (pointsTo a b * F) (write (some a) c >>= f) R := by
  intro s frame hs hd
  have hlookup : (s ∪ frame).lookup a = some b := lookup_owned hs
  have hmem := Finmap.mem_of_lookup_eq_some hlookup
  obtain ⟨u, v, huv, rfl, hu, hv⟩ := hs
  have hu' : u = Finmap.singleton a b := hu
  subst hu'
  have hsame (w : Heap β) (hw : (Finmap.singleton a b : Heap β).Disjoint w) :
      (Finmap.singleton a c : Heap β).Disjoint w := fun x hx =>
    hw x ((Finmap.mem_singleton _ _ _).mpr ((Finmap.mem_singleton _ _ _).mp hx))
  obtain ⟨hl, hvf⟩ := (Finmap.disjoint_union_left _ _ _).mp hd
  obtain ⟨r, t, hf, ht, hr⟩ := h _ frame (join (hsame v huv) rfl hv)
    ((Finmap.disjoint_union_left _ _ _).mpr ⟨hsame frame hl, hvf⟩)
  have hinsert : (Finmap.singleton a b ∪ v ∪ frame : Heap β).insert a c =
      Finmap.singleton a c ∪ v ∪ frame := by
    rw [Finmap.insert_union, Finmap.insert_union, Finmap.insert_singleton_eq]
  refine ⟨r, t, (bind_run (write_run hmem c)).trans ?_, ht, hr⟩
  rw [hinsert]
  exact hf

theorem free_bind {a : ℕ} {b : β} {f : Unit → Program β γ} (h : Triple F (f ()) R) :
    Triple (pointsTo a b * F) (free (some a) >>= f) R := by
  intro s frame hs hd
  have hlookup : (s ∪ frame).lookup a = some b := lookup_owned hs
  have hmem := Finmap.mem_of_lookup_eq_some hlookup
  obtain ⟨u, v, huv, rfl, hu, hv⟩ := hs
  have hu' : u = Finmap.singleton a b := hu
  subst hu'
  obtain ⟨hl, hvf⟩ := (Finmap.disjoint_union_left _ _ _).mp hd
  obtain ⟨r, t, hf, ht, hr⟩ := h v frame hv hvf
  have hself : a ∈ (Finmap.singleton a b : Heap β) := (Finmap.mem_singleton _ _ _).mpr rfl
  have herase : (Finmap.singleton a b ∪ v ∪ frame : Heap β).erase a = v ∪ frame := by
    rw [Finmap.union_assoc]
    refine Finmap.ext_lookup fun c => ?_
    by_cases hc : c = a
    · subst hc
      rw [Finmap.lookup_erase, Finmap.lookup_eq_none.mpr]
      exact fun hin => (Finmap.mem_union.mp hin).elim (huv _ hself) (hl _ hself)
    · rw [Finmap.lookup_erase_ne hc, Finmap.lookup_union_right]
      exact fun hin => hc ((Finmap.mem_singleton _ _ _).mp hin)
  refine ⟨r, t, (bind_run (free_run hmem)).trans ?_, ht, hr⟩
  rw [herase]
  exact hf

theorem write {a : ℕ} {b c : β} :
    Triple (pointsTo a b) (write (some a) c) fun _ => pointsTo a c := by
  have hend : Triple (pointsTo a c * 1) (Pure.pure ()) fun _ => pointsTo a c :=
    Triple.pure (mul_one _).le
  have hwrite := write_bind (b := b) hend
  rwa [mul_one, bind_pure] at hwrite

theorem free {a : ℕ} {b : β} : Triple (pointsTo a b) (free (some a)) fun _ => 1 := by
  have hend : Triple (1 : Assertion β) (Pure.pure ()) fun _ => 1 := Triple.pure le_rfl
  have hfree := free_bind (a := a) (b := b) hend
  rwa [mul_one, bind_pure] at hfree

theorem attempt_bind {y : Except Fault α} {a : α} (hy : y = .ok a) (h : Triple P (f a) R) :
    Triple P (attempt y >>= f) R := by
  subst hy
  exact h

theorem liveBlocks_bind {n : ℕ} {f : ℕ → Program β γ} (hn : Weighs n P)
    (h : ∀ m, n ≤ m → Triple P (f m) R) : Triple P (liveBlocks >>= f) R := by
  intro s frame hs hd
  have hkeys : (s ∪ frame : Heap β).keys = s.keys ∪ frame.keys := Finmap.keys_union
  have hle : n ≤ (s ∪ frame : Heap β).keys.card := by
    rw [hkeys]
    exact (hn s hs).trans (Finset.card_le_card Finset.subset_union_left)
  exact h _ hle s frame hs hd

end Triple

/-! ## Programs that only read -/

/-- The program gives this, and leaves every block as it is. -/
def Reads {β α : Type} (P : Assertion β) (x : Program β α) (a : α) : Prop :=
  ∀ s frame : Heap β, P s → s.Disjoint frame → x (s ∪ frame) = .ok (a, s ∪ frame)

namespace Reads
open Assertion
variable {β α γ : Type} {P P' F : Assertion β} {x : Program β α} {a : α} {f : α → Program β γ}

theorem ret (P : Assertion β) (a : α) : Reads P (pure a) a := fun _ _ _ _ => rfl

theorem attempt {y : Except Fault α} (hy : y = .ok a) : Reads P (attempt y) a := by
  rw [hy]
  exact ret P a

theorem triple (h : Reads P x a) : Triple P x fun r => ⨆ _ : r = a, P :=
  fun s frame hs hd => ⟨a, s, h s frame hs hd, hd, iSup_iff.mpr ⟨rfl, hs⟩⟩

/-- A program that only reads, before any other. -/
theorem bind {Q : γ → Assertion β} (h : Reads P x a) (hf : Triple (P * F) (f a) Q) :
    Triple (P * F) (x >>= f) Q := by
  refine Triple.seq h.triple rfl fun r => Triple.iSup_mul fun hr => ?_
  subst hr
  exact hf

theorem andThen {c : γ} (hx : Reads P x a) (hf : Reads P (f a) c) : Reads P (x >>= f) c :=
  fun s frame hs hd => (bind_run (hx s frame hs hd)).trans (hf s frame hs hd)

theorem pre (h : Reads P x a) (hP : P' ≤ P) : Reads P' x a :=
  fun s frame hs hd => h s frame (hP s hs) hd

theorem perm (P' : Assertion β) (hP : P = P') (h : Reads P' x a) : Reads P x a := hP ▸ h

theorem frame (h : Reads P x a) (F : Assertion β) : Reads (P * F) x a := by
  rintro _ frame ⟨u, v, huv, rfl, hu, -⟩ hd
  obtain ⟨hud, -⟩ := (Finmap.disjoint_union_left _ _ _).mp hd
  rw [Finmap.union_assoc]
  exact h u (v ∪ frame) hu ((Finmap.disjoint_union_right _ _ _).mpr ⟨huv, hud⟩)

/-- A part is read, and then more. -/
theorem part {c : γ} (hx : Reads P x a) (hf : Reads (P * F) (f a) c) : Reads (P * F) (x >>= f) c :=
  (hx.frame F).andThen hf

theorem iSup {ι : Sort*} {P : ι → Assertion β} (h : ∀ i, Reads (P i) x a) :
    Reads (⨆ i, P i) x a := by
  intro s frame hs hd
  obtain ⟨i, hi⟩ := iSup_iff.mp hs
  exact h i s frame hi hd

theorem iSup_mul {ι : Sort*} {P : ι → Assertion β} (h : ∀ i, Reads (P i * F) x a) :
    Reads ((⨆ i, P i) * F) x a := by
  rw [Assertion.iSup_mul]
  exact iSup h

theorem bot : Reads ⊥ x a := fun _ _ hs _ => False.elim hs

theorem of_fact {p : Prop} (hp : ∀ s, P s → p) (h : p → Reads P x a) : Reads P x a :=
  fun s frame hs => h (hp s hs) s frame hs

theorem read (p : ℕ) (b : β) : Reads (pointsTo p b) (read (some p)) b := by
  intro s frame hs _
  have howned : (pointsTo p b * 1) s := by
    rw [mul_one]
    exact hs
  exact read_run (Triple.lookup_owned howned)

theorem liveBlocks {n : ℕ} {f : ℕ → Program β α} (hn : Weighs n P)
    (h : ∀ m, n ≤ m → Reads P (f m) a) : Reads P (liveBlocks >>= f) a := by
  intro s frame hs hd
  have hkeys : (s ∪ frame : Heap β).keys = s.keys ∪ frame.keys := Finmap.keys_union
  have hle : n ≤ (s ∪ frame : Heap β).keys.card := by
    rw [hkeys]
    exact (hn s hs).trans (Finset.card_le_card Finset.subset_union_left)
  exact h _ hle s frame hs hd

end Reads

end Parallax.Separation
