import Mathlib.Tactic

/-! Stateful code that is left in three ways: it returns, it jumps to the end of the block it is
in, or it bails out to the handler of the block. A computation can also fail for good, with no
state to go on from. `Meets` has a condition on the failures and one on the ways out, and a rule for
each form of code. -/
namespace Parallax.Unwind
set_option autoImplicit false
set_option maxHeartbeats 250000

inductive Exit (α : Type)
  | returned (a : α)
  | jumped
  | bailed
deriving DecidableEq

def Unwinding (ε σ α : Type) := σ → Except ε (Exit α × σ)

variable {ε σ α β : Type}

protected def Unwinding.pure (a : α) : Unwinding ε σ α := fun s => .ok (.returned a, s)

protected def Unwinding.bind (x : Unwinding ε σ α) (f : α → Unwinding ε σ β) : Unwinding ε σ β :=
  fun s =>
    match x s with
    | .error e => .error e
    | .ok (.returned a, t) => f a t
    | .ok (.jumped, t) => .ok (.jumped, t)
    | .ok (.bailed, t) => .ok (.bailed, t)

instance : Monad (Unwinding ε σ) where
  pure := Unwinding.pure
  bind := Unwinding.bind

theorem map_id (x : Unwinding ε σ α) : id <$> x = x := by
  funext s
  change Unwinding.bind x Unwinding.pure s = x s
  unfold Unwinding.bind
  cases x s with
  | error e => rfl
  | ok p =>
    obtain ⟨e, t⟩ := p
    cases e <;> rfl

theorem bind_bind {γ : Type} (x : Unwinding ε σ α) (f : α → Unwinding ε σ β)
    (g : β → Unwinding ε σ γ) : x >>= f >>= g = x >>= fun a => f a >>= g := by
  funext s
  change Unwinding.bind (Unwinding.bind x f) g s =
    Unwinding.bind x (fun a => Unwinding.bind (f a) g) s
  unfold Unwinding.bind
  cases x s with
  | error e => rfl
  | ok p =>
    obtain ⟨e, t⟩ := p
    cases e <;> rfl

instance : LawfulMonad (Unwinding ε σ) :=
  LawfulMonad.mk' _ map_id (fun _ _ => rfl) bind_bind

/-- `goto` the end of the block. -/
def jump : Unwinding ε σ α := fun s => .ok (.jumped, s)

/-- To the handler of the block. -/
def bail : Unwinding ε σ α := fun s => .ok (.bailed, s)

def current : Unwinding ε σ σ := fun s => .ok (.returned s, s)

def update (f : σ → σ) : Unwinding ε σ Unit := fun s => .ok (.returned (), f s)

def attempt (x : Except ε α) : Unwinding ε σ α := fun s => x.map fun a => (.returned a, s)

/-- A block with a handler; whichever way the block is left, what follows it goes on. -/
def catching (body handler : Unwinding ε σ Unit) : Unwinding ε σ Unit := fun s =>
  match body s with
  | .error e => .error e
  | .ok (.bailed, t) => handler t
  | .ok (_, t) => .ok (.returned (), t)

/-- From `s` the computation fails as `E` says, or is left as `Q` says. -/
def Meets (x : Unwinding ε σ α) (s : σ) (E : ε → Prop) (Q : Exit α → σ → Prop) : Prop :=
  match x s with
  | .error e => E e
  | .ok (e, t) => Q e t

section Rules
variable {s : σ} {E : ε → Prop} {x : Unwinding ε σ α} {Q : Exit α → σ → Prop}

theorem meets_pure {a : α} (h : Q (.returned a) s) : Meets (pure a) s E Q := h

theorem meets_jump (h : Q .jumped s) : Meets jump s E Q := h

theorem meets_bail (h : Q .bailed s) : Meets bail s E Q := h

theorem meets_current_bind {f : σ → Unwinding ε σ α} (h : Meets (f s) s E Q) :
    Meets (current >>= f) s E Q := h

theorem meets_update {g : σ → σ} {R : Exit Unit → σ → Prop} (h : R (.returned ()) (g s)) :
    Meets (update g) s E R := h

theorem meets_update_bind {g : σ → σ} {f : Unit → Unwinding ε σ α} (h : Meets (f ()) (g s) E Q) :
    Meets (update g >>= f) s E Q := h

theorem meets_ok_bind {b : β} {f : β → Unwinding ε σ α} (h : Meets (f b) s E Q) :
    Meets (attempt (.ok b) >>= f) s E Q := h

theorem meets_attempt_bind {y : Except ε β} {f : β → Unwinding ε σ α} (he : ∀ e, y = .error e → E e)
    (h : ∀ b, y = .ok b → Meets (f b) s E Q) : Meets (attempt y >>= f) s E Q := by
  cases y with
  | error e => exact he e rfl
  | ok b => exact h b rfl

theorem Meets.mono {R : Exit α → σ → Prop} (h : Meets x s E Q) (hq : ∀ e t, Q e t → R e t) :
    Meets x s E R := by
  unfold Meets at h ⊢
  split
  · next hx => rw [hx] at h; exact h
  · next e t hx => rw [hx] at h; exact hq e t h

theorem Meets.bind {f : α → Unwinding ε σ β} {R : Exit β → σ → Prop} (h : Meets x s E Q)
    (hret : ∀ a t, Q (.returned a) t → Meets (f a) t E R) (hjump : ∀ t, Q .jumped t → R .jumped t)
    (hbail : ∀ t, Q .bailed t → R .bailed t) : Meets (x >>= f) s E R := by
  have hbind : (x >>= f) s = Unwinding.bind x f s := rfl
  unfold Meets at h ⊢
  rw [hbind, Unwinding.bind]
  cases hx : x s with
  | error e => rw [hx] at h; exact h
  | ok p =>
    obtain ⟨e, t⟩ := p
    rw [hx] at h
    cases e with
    | returned a => exact hret a t h
    | jumped => exact hjump t h
    | bailed => exact hbail t h

theorem Meets.catching {body handler : Unwinding ε σ Unit} {Q : Exit Unit → σ → Prop}
    {P : σ → Prop} (h : Meets body s E Q) (hret : ∀ t, Q (.returned ()) t → P t)
    (hjump : ∀ t, Q .jumped t → P t)
    (hbail : ∀ t, Q .bailed t → Meets handler t E fun e u => e = .returned () ∧ P u) :
    Meets (catching body handler) s E fun e u => e = .returned () ∧ P u := by
  unfold Meets at h ⊢
  unfold Unwind.catching
  cases hx : body s with
  | error e => rw [hx] at h; exact h
  | ok p =>
    obtain ⟨e, t⟩ := p
    rw [hx] at h
    cases e with
    | returned a => exact ⟨rfl, hret t h⟩
    | jumped => exact ⟨rfl, hjump t h⟩
    | bailed => exact hbail t h

end Rules

/-! ## Runs -/

/-- The end of code that does not return: a failure, a bailout or a jump. -/
def cutTo : Except ε (Bool × σ) → Except ε (Exit α × σ)
  | .error e => .error e
  | .ok (true, t) => .ok (.bailed, t)
  | .ok (false, t) => .ok (.jumped, t)

/-- How a block with a handler goes on. -/
def handled (handler : Unwinding ε σ Unit) : Except ε (Bool × σ) → Except ε (Exit Unit × σ)
  | .error e => .error e
  | .ok (true, t) => handler t
  | .ok (false, t) => .ok (.returned (), t)

section Runs
variable {s t u : σ} {x : Unwinding ε σ α} {f : α → Unwinding ε σ β} {o : Except ε (Bool × σ)}

theorem returned_or_cut (r : Except ε (Exit α × σ)) :
    (∃ a t, r = .ok (.returned a, t)) ∨ ∃ o, r = cutTo o := by
  obtain e | ⟨a | - | -, t⟩ := r
  · exact .inr ⟨.error e, rfl⟩
  · exact .inl ⟨a, t, rfl⟩
  · exact .inr ⟨.ok (false, t), rfl⟩
  · exact .inr ⟨.ok (true, t), rfl⟩

theorem cutTo_ne_returned {a : α} : (cutTo o : Except ε (Exit α × σ)) ≠ .ok (.returned a, t) := by
  obtain e | ⟨⟨⟩ | ⟨⟩, t⟩ := o <;> simp [cutTo]

theorem cutTo_inj {o' : Except ε (Bool × σ)}
    (h : (cutTo o : Except ε (Exit α × σ)) = cutTo o') : o = o' := by
  obtain e | ⟨⟨⟩ | ⟨⟩, t⟩ := o <;> obtain e' | ⟨⟨⟩ | ⟨⟩, t'⟩ := o' <;> simp_all [cutTo]

theorem bind_returned {a : α} (h : x s = .ok (.returned a, t)) : (x >>= f) s = f a t := by
  change Unwinding.bind x f s = f a t
  rw [Unwinding.bind, h]

theorem bind_cut (h : x s = cutTo o) : (x >>= f) s = cutTo o := by
  change Unwinding.bind x f s = _
  rw [Unwinding.bind, h]
  obtain e | ⟨⟨⟩ | ⟨⟩, t⟩ := o <;> rfl

theorem of_bind_returned {b : β} (h : (x >>= f) s = .ok (.returned b, u)) :
    ∃ a t, x s = .ok (.returned a, t) ∧ f a t = .ok (.returned b, u) := by
  obtain ⟨a, t, hx⟩ | ⟨o, hx⟩ := returned_or_cut (x s)
  · exact ⟨a, t, hx, (bind_returned hx).symm.trans h⟩
  · exact absurd ((bind_cut hx).symm.trans h) cutTo_ne_returned

/-- Code whose value is dropped is left as the code is. -/
theorem of_discard_cut (h : (do let _ ← x; pure () : Unwinding ε σ Unit) s = cutTo o) :
    x s = cutTo o := by
  obtain ⟨a, t, hx⟩ | ⟨o', hx⟩ := returned_or_cut (x s)
  · exact absurd ((bind_returned hx).symm.trans h).symm cutTo_ne_returned
  · rw [hx, cutTo_inj ((bind_cut hx).symm.trans h)]

theorem catching_cut {body handler : Unwinding ε σ Unit} (h : body s = cutTo o) :
    catching body handler s = handled handler o := by
  rw [catching, h]
  obtain e | ⟨⟨⟩ | ⟨⟩, t⟩ := o <;> rfl

theorem Meets.of_returned {E : ε → Prop} {Q : Exit α → σ → Prop} {a : α} (h : Meets x s E Q)
    (hx : x s = .ok (.returned a, t)) : Q (.returned a) t := by
  unfold Meets at h
  rwa [hx] at h

end Runs

/-! ## Ghost state -/

section Ghost
variable {γ : Type}

/-- Code that does not touch the ghost state. -/
def keeping (x : Unwinding ε σ α) : Unwinding ε (σ × γ) α := fun s =>
  (x s.1).map fun r => (r.1, r.2, s.2)

/-- `y` is `x` when the ghost state is left out. -/
def Erases (y : Unwinding ε (σ × γ) α) (x : Unwinding ε σ α) : Prop :=
  ∀ s, (y s).map (fun r => (r.1, r.2.1)) = x s.1

variable {x : Unwinding ε σ α} {y : Unwinding ε (σ × γ) α}

theorem erases_keeping (x : Unwinding ε σ α) : Erases (keeping (γ := γ) x) x := by
  intro s
  rw [keeping]
  cases x s.1 <;> rfl

theorem erases_pure (a : α) : Erases (γ := γ) (pure a : Unwinding ε (σ × γ) α) (pure a) :=
  fun _ => rfl

theorem erases_jump : Erases (γ := γ) (jump : Unwinding ε (σ × γ) α) jump := fun _ => rfl

theorem erases_update {g : σ × γ → σ × γ} {f : σ → σ} (h : ∀ s, (g s).1 = f s.1) :
    Erases (update g : Unwinding ε (σ × γ) Unit) (update f) := fun s => by
  show Except.ok (Exit.returned (), (g s).1) = .ok (.returned (), f s.1)
  rw [h]

theorem Erases.bind {g : α → Unwinding ε (σ × γ) β} {f : α → Unwinding ε σ β} (h : Erases y x)
    (hf : ∀ a, Erases (g a) (f a)) : Erases (y >>= g) (x >>= f) := by
  intro s
  change (Unwinding.bind y g s).map _ = Unwinding.bind x f s.1
  unfold Unwinding.bind
  rw [← h s]
  cases y s with
  | error e => rfl
  | ok p =>
    obtain ⟨e, t⟩ := p
    cases e with
    | returned a => exact hf a t
    | jumped => rfl
    | bailed => rfl

theorem Erases.catching {body handler : Unwinding ε (σ × γ) Unit}
    {body' handler' : Unwinding ε σ Unit} (hb : Erases body body') (hh : Erases handler handler') :
    Erases (catching body handler) (catching body' handler') := by
  intro s
  unfold Unwind.catching
  rw [← hb s]
  cases body s with
  | error e => rfl
  | ok p =>
    obtain ⟨e, t⟩ := p
    cases e with
    | returned a => rfl
    | jumped => rfl
    | bailed => exact hh t

theorem Meets.keeping {s : σ × γ} {E : ε → Prop} {P : Exit α → σ → Prop}
    {Q : Exit α → σ × γ → Prop} (h : Meets x s.1 E P) (hq : ∀ e t, P e t → Q e (t, s.2)) :
    Meets (keeping x) s E Q := by
  unfold Meets at h ⊢
  rw [Unwind.keeping]
  cases hx : x s.1 with
  | error e =>
    rw [hx] at h
    exact h
  | ok p =>
    rw [hx] at h
    exact hq p.1 p.2 h

end Ghost
end Parallax.Unwind
