import Mathlib.Tactic

/-! Byte objects read through pointers, as C code reads them. A pointer is NULL or points at an
object; every read names how many bytes it takes, so a read through NULL or past the object is a
fault of the reader and not a default value. -/
namespace Parallax.Memory
set_option autoImplicit false
set_option maxHeartbeats 250000

/-- What a C program must never do; `outOfFuel` marks a run cut short, so that a total model of a
loop can say that it ends. -/
inductive Fault
  | nullRead | nullObject | outOfBounds | signedOverflow | failedAssert | wrongType | outOfFuel
deriving DecidableEq, Repr

/-- A `char *`: NULL, or the bytes of the object it points at. -/
abbrev Ptr := Option (List UInt8)

/-- The `n` bytes at `p`, as `memcpy` and `memcmp` read them: for `n = 0` no byte is read. -/
def load : Ptr → ℕ → Except Fault (List UInt8)
  | _, 0 => .ok []
  | none, _ + 1 => .error .nullRead
  | some bs, n + 1 => if n + 1 ≤ bs.length then .ok (bs.take (n + 1)) else .error .outOfBounds

/-- `strlen`: the bytes before the first NUL. -/
def strlen : Ptr → Except Fault ℕ
  | none => .error .nullRead
  | some bs => if (0 : UInt8) ∈ bs then .ok (bs.takeWhile (· ≠ 0)).length else .error .outOfBounds

/-- The pointer a copy of `bs` is stored under when the empty string is stored as NULL. -/
def blob (bs : List UInt8) : Ptr := if bs = [] then none else some bs

/-- A NUL-terminated object. -/
def cstr (s : List UInt8) : Ptr := some (s ++ [0])

/-- The size of an object is a `size_t`. -/
def Fits (p : Ptr) : Prop := ∀ bs, p = some bs → bs.length < 2 ^ 64

/-! ## Peeling a fallible computation apart -/

theorem bind_ok {ε α β : Type} {x : Except ε α} {f : α → Except ε β} {b : β}
    (h : (x >>= f) = .ok b) : ∃ a, x = .ok a ∧ f a = .ok b := by
  cases x with
  | error e => cases h
  | ok a => exact ⟨a, rfl, h⟩

theorem map_ok {ε α β : Type} {x : Except ε α} {f : α → β} {b : β}
    (h : x.map f = .ok b) : ∃ a, x = .ok a ∧ f a = b := by
  cases x with
  | error e => cases h
  | ok a => exact ⟨a, rfl, by simpa [Except.map] using h⟩

@[simp] theorem ok_bind {ε α β : Type} (a : α) (f : α → Except ε β) :
    ((Except.ok a : Except ε α) >>= f) = f a := rfl

/-! ## Reads -/

@[simp] theorem load_zero (p : Ptr) : load p 0 = .ok [] := by cases p <;> rfl

theorem load_some (bs : List UInt8) (n : ℕ) (h : n ≤ bs.length) :
    load (some bs) n = .ok (bs.take n) := by
  cases n with
  | zero => simp
  | succ n => simp [load, h]

theorem load_self (bs : List UInt8) : load (some bs) bs.length = .ok bs := by
  rw [load_some bs _ le_rfl, List.take_length]

@[simp] theorem load_append (bs rest : List UInt8) :
    load (some (bs ++ rest)) bs.length = .ok bs := by
  rw [load_some _ _ (by simp)]
  simp

theorem load_ok {p : Ptr} {n : ℕ} {bs : List UInt8} (h : load p n = .ok bs) :
    bs.length = n ∧ (0 < n → ∃ os, p = some os ∧ n ≤ os.length ∧ bs = os.take n) := by
  cases n with
  | zero =>
    rw [load_zero] at h
    cases h
    exact ⟨rfl, fun h => absurd h (Nat.lt_irrefl 0)⟩
  | succ n =>
    cases p with
    | none => simp [load] at h
    | some os =>
      by_cases hn : n + 1 ≤ os.length
      · simp only [load, hn, if_true, Except.ok.injEq] at h
        subst h
        exact ⟨by simp [hn], fun _ => ⟨os, rfl, hn, rfl⟩⟩
      · simp [load, hn] at h

theorem blob_cons (b : UInt8) (bs : List UInt8) : blob (b :: bs) = some (b :: bs) := rfl

theorem blob_of_ne_nil {bs : List UInt8} (h : bs ≠ []) : blob bs = some bs := if_neg h

@[simp] theorem load_blob (bs : List UInt8) : load (blob bs) bs.length = .ok bs := by
  cases bs with
  | nil => rfl
  | cons b bs => rw [blob_cons, load_some _ _ le_rfl, List.take_length]

theorem takeWhile_cstr {s : List UInt8} (h : (0 : UInt8) ∉ s) (rest : List UInt8) :
    (s ++ 0 :: rest).takeWhile (· ≠ 0) = s := by
  induction s with
  | nil => simp
  | cons c s ih =>
    have hc : c ≠ 0 := fun hc => h (by simp [hc])
    simp only [List.cons_append, List.takeWhile_cons, ne_eq, hc, not_false_eq_true, decide_true,
      if_true]
    rw [ih (fun hs => h (List.mem_cons_of_mem c hs))]

theorem strlen_object {s : List UInt8} (h : (0 : UInt8) ∉ s) (rest : List UInt8) :
    strlen (some (s ++ 0 :: rest)) = .ok s.length := by
  simp only [strlen, List.mem_append, List.mem_cons, true_or, or_true, if_true, takeWhile_cstr h]

theorem strlen_cstr {s : List UInt8} (h : (0 : UInt8) ∉ s) : strlen (cstr s) = .ok s.length :=
  strlen_object h []

@[simp] theorem load_cstr (s : List UInt8) : load (cstr s) s.length = .ok s := load_append s [0]

theorem strlen_ok {p : Ptr} {n : ℕ} (h : strlen p = .ok n) :
    ∃ s rest, p = some (s ++ 0 :: rest) ∧ (0 : UInt8) ∉ s ∧ n = s.length := by
  cases p with
  | none => simp [strlen] at h
  | some bs =>
    by_cases hm : (0 : UInt8) ∈ bs
    · obtain ⟨s, rest, rfl, hs⟩ := List.eq_append_cons_of_mem hm
      simp only [strlen, hm, if_true, takeWhile_cstr hs, Except.ok.injEq] at h
      exact ⟨s, rest, rfl, hs, h.symm⟩
    · simp [strlen, hm] at h

/-- The bytes of a text. -/
def ascii (cs : List Char) : List UInt8 := cs.map Char.toUInt8

/-! ## Indexed reads -/

/-- `bs[i]`. -/
def byteAt (bs : List UInt8) (i : ℕ) : Except Fault UInt8 :=
  match bs[i]? with
  | some b => .ok b
  | none => .error .outOfBounds

/-- The `n` bytes from `bs + i` on. -/
def bytesAt (bs : List UInt8) (i n : ℕ) : Except Fault (List UInt8) :=
  if i + n ≤ bs.length then .ok ((bs.drop i).take n) else .error .outOfBounds

theorem byteAt_append (pre rest : List UInt8) (c : UInt8) :
    byteAt (pre ++ c :: rest) pre.length = .ok c := by
  simp [byteAt]

theorem byteAt_ok {bs : List UInt8} {i : ℕ} (h : i < bs.length) : byteAt bs i = .ok bs[i] := by
  rw [byteAt, List.getElem?_eq_getElem h]

theorem bytesAt_ok {bs : List UInt8} {i n : ℕ} (h : i + n ≤ bs.length) :
    bytesAt bs i n = .ok ((bs.drop i).take n) := if_pos h

end Parallax.Memory
