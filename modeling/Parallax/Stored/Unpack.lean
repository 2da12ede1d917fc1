import Parallax.Stored.Release
import Parallax.Value.Safety

/-! `value_unpack` on the heap: the tree is built while it is read, so that a buffer that turns out
to be no encoding leaves half a tree, the strings of an entry and the strings of an error behind,
unless every way out gives them back. -/
namespace Parallax.Stored
open Memory Codec Codec.Decoder Separation Separation.Assertion
set_option autoImplicit false
set_option maxHeartbeats 250000

/-! ## pack.c -/

/-- The locals `int_key`, `ikey`, `skey` and `klen` of `unpack_kv_block`. -/
structure KeyLocals where
  intKey : Bool
  ikey : Int64
  skey : Option ℕ
  klen : ℕ

section Code
variable [Allocator Block]

/-- NULL, or the string and the bytes after it. -/
def unpackCstr (s : List UInt8) : Code (Option (ℕ × List UInt8)) := do
  match ← attempt (readLength s) with
  | none => return none
  | some (len, s) => do
    let p ← copyTerminated (.object (some s)) len
    return some (p, s.drop len)

def unpackErr (s : List UInt8) : Code (Option (ℕ × List UInt8)) := do
  match ← unpackCstr s with
  | none => return none
  | some (cls, s) =>
    match ← unpackCstr s with
    | none => do
      free (some cls)
      return none
    | some (msg, s) =>
      match ← attempt (varintRead s) with
      | none => do
        free (some cls)
        free (some msg)
        return none
      | some (code, s) =>
        match ← unpackCstr s with
        | none => do
          free (some cls)
          free (some msg)
          return none
        | some (tr, s) => do
          let v ← valueErr (.block (some cls)) (.block (some msg)) code.toInt64 (.block (some tr))
          free (some cls)
          free (some msg)
          free (some tr)
          return some (v, s)

def unpackKey (s : List UInt8) : Code (Option (KeyLocals × List UInt8)) := do
  match ← attempt (readByte s) with
  | none => return none
  | some (isIntKey, s) =>
    if isIntKey ≠ 0 then
      match ← attempt (varintRead s) with
      | none => return none
      | some (k, s) => return some (⟨true, k.toInt64, none, 0⟩, s)
    else
      match ← attempt (readLength s) with
      | none => return none
      | some (klen, s) => do
        let skey ← mallocBytes (if klen = 0 then 1 else klen)
        if 0 < klen then copyBytes skey (.object (some s)) klen
        return some (⟨false, 0, some skey, klen⟩, s.drop klen)

/-- How `unpack_kv_block` hands an entry to the builders, which copy the key. -/
def unpackSet (parent : ℕ) (isArr : Bool) (key : KeyLocals) (child : ℕ) : Code Unit :=
  if isArr then
    if key.intKey then valueArrSetInt parent key.ikey (some child)
    else do
      valueArrSetStr parent (.block key.skey) key.klen (some child)
      free key.skey
  else do
    valueObjSet parent (.block key.skey) key.klen (some child)
    free key.skey

/-- A parent whose entries cannot be read is given back. -/
def unpackInto (kvBlock : ℕ → Bool → List UInt8 → Code (Option (List UInt8))) (parent : ℕ)
    (isArr : Bool) (s : List UInt8) : Code (Option (ℕ × List UInt8)) := do
  match ← kvBlock parent isArr s with
  | some s => return some (parent, s)
  | none => do
    valueFree (some parent)
    return none

/-- The `switch` of `unpack_one`. -/
def unpackTag (kvBlock : ℕ → Bool → List UInt8 → Code (Option (List UInt8))) :
    Option ValTag → List UInt8 → Code (Option (ℕ × List UInt8))
  | none, _ => return none
  | some .null, s => do
    let v ← valueNull
    return some (v, s)
  | some .bool, s => do
    match ← attempt (readByte s) with
    | none => return none
    | some (b, s) => do
      let v ← valueBool (b != 0)
      return some (v, s)
  | some .long, s => do
    match ← attempt (varintRead s) with
    | none => return none
    | some (i, s) => do
      let v ← valueLong i.toInt64
      return some (v, s)
  | some .double, s => do
    match ← attempt (readDouble s) with
    | none => return none
    | some (d, s) => do
      let v ← valueDouble d
      return some (v, s)
  | some .str, s => do
    match ← attempt (readLength s) with
    | none => return none
    | some (slen, s) => do
      let v ← valueStr (.object (some s)) slen
      return some (v, s.drop slen)
  | some .arr, s => do
    let arr ← valueArr 0
    unpackInto kvBlock arr true s
  | some .obj, s => do
    match ← attempt (readLength s) with
    | none => return none
    | some (clen, s) => do
      let obj ← valueObj (.object (some s)) clen 0
      unpackInto kvBlock obj false (s.drop clen)
  | some .err, s => unpackErr s

mutual

/-- The loop of `unpack_kv_block`, with the entries still to read: the bytes after them, or `-1`. -/
def unpackItems : ℕ → ℕ → ℕ → Bool → List UInt8 → Code (Option (List UInt8))
  | _, 0, _, _, s => return some s
  | 0, _ + 1, _, _, _ => attempt (.error .outOfFuel)
  | fuel + 1, n + 1, parent, isArr, s => do
    match ← unpackKey s with
    | none => return none
    | some (key, s) =>
      match ← unpackOne fuel s with
      | none => do
        free key.skey
        return none
      | some (child, s) => do
        unpackSet parent isArr key child
        unpackItems fuel n parent isArr s

def unpackOne : ℕ → List UInt8 → Code (Option (ℕ × List UInt8))
  | 0, _ => attempt (.error .outOfFuel)
  | fuel + 1, s => do
    match ← attempt (readByte s) with
    | none => return none
    | some (tag, s) => unpackTag (fun parent isArr s => do
        match ← attempt (varintRead s) with
        | none => return none
        | some (n, s) => unpackItems fuel n.toNat parent isArr s) (ValTag.ofByte tag) s

end

def unpackKvBlock (fuel parent : ℕ) (isArr : Bool) (s : List UInt8) : Code (Option (List UInt8)) := do
  match ← attempt (varintRead s) with
  | none => return none
  | some (n, s) => unpackItems fuel n.toNat parent isArr s

/-- One unit of fuel for each byte. -/
def valueUnpack (buf : List UInt8) : Code (Option ℕ) := do
  match ← unpackOne (buf.length + 1) buf with
  | none => return none
  | some (v, s) =>
    if s.isEmpty then return some v
    else do
      valueFree (some v)
      return none

end Code

/-! ## What a reader leaves -/

/-- A reader that ends like the one on bytes alone: it owns nothing, or what it read. -/
def Outcome {α γ : Type} (P : α → γ → Assertion Block) :
    Option (α × List UInt8) → Option (γ × List UInt8) → Assertion Block
  | none, none => 1
  | some (x, s), some (y, t) => ⨆ _ : t = s, P x y
  | _, _ => ⊥

section
variable {α γ β : Type} {R : α → γ → Assertion Block} {P F : Assertion Block}
variable {x : Code (Option (γ × List UInt8))}
variable {f : Option (γ × List UInt8) → Code β} {Q : β → Assertion Block}

theorem rejected_bind (hx : Triple P x (Outcome R none)) (h : Triple F (f none) Q) :
    Triple (P * F) (x >>= f) Q := by
  refine Triple.seq hx rfl fun o => ?_
  cases o with
  | none => exact Triple.perm F (one_mul F) h
  | some p => exact Triple.bot_mul

theorem accepted_bind {a : α} {t : List UInt8} (hx : Triple P x (Outcome R (some (a, t))))
    (h : ∀ y, Triple (R a y * F) (f (some (y, t))) Q) : Triple (P * F) (x >>= f) Q := by
  refine Triple.seq hx rfl fun o => ?_
  cases o with
  | none => exact Triple.bot_mul
  | some p =>
    refine Triple.iSup_mul fun ht => ?_
    have hyt := h p.1
    rw [← ht] at hyt
    exact hyt

end

theorem readBytes_result {s : List UInt8} {r : Option (List UInt8 × List UInt8)}
    (h : readBytes s = .ok r) : (readLength s = .ok none ∧ r = none) ∨
      ∃ len t, readLength s = .ok (some (len, t)) ∧ len ≤ t.length ∧
        r = some (t.take len, t.drop len) := by
  obtain ⟨hnone, rfl⟩ | ⟨len, t, hlen, h⟩ := bind_result h
  · exact .inl ⟨hnone, rfl⟩
  · refine .inr ⟨len, t, hlen, ?_⟩
    unfold take at h
    split at h
    · next hle =>
      cases h
      exact ⟨hle, rfl⟩
    · cases h

theorem readBytes_bind_result {α : Type} {f : List UInt8 → Decoder Fault UInt8 α} {s : List UInt8}
    {r : Option (α × List UInt8)} (h : (readBytes >>= f) s = .ok r) :
    (readLength s = .ok none ∧ r = none) ∨ ∃ len t, readLength s = .ok (some (len, t)) ∧
      len ≤ t.length ∧ f (t.take len) (t.drop len) = .ok r := by
  obtain ⟨hbs, rfl⟩ | ⟨bs, u, hbs, h⟩ := bind_result h
  · obtain ⟨hlen, -⟩ | ⟨_, _, -, -, hr⟩ := readBytes_result hbs
    · exact .inl ⟨hlen, rfl⟩
    · cases hr
  · obtain ⟨-, hr⟩ | ⟨len, t, hlen, hle, hr⟩ := readBytes_result hbs
    · cases hr
    · cases hr
      exact .inr ⟨len, t, hlen, hle, h⟩

section
variable {t : List UInt8} {len : ℕ} (hle : len ≤ t.length)
include hle

/-- A copy reads no more than it takes. -/
theorem dupBytes_take : Parallax.dupBytes (some (t.take len)) (t.take len).length =
    Parallax.dupBytes (some t) len :=
  (dupBytes_some _).trans (dupBytes_load (load_some t len hle)).symm

theorem valueStr_take : Parallax.valueStr (some (t.take len)) (t.take len).length =
    Parallax.valueStr (some t) len := by
  rw [Parallax.valueStr, dupBytes_take hle, List.length_take_of_le hle]
  rfl

theorem valueObj_take (cap : ℕ) : Parallax.valueObj (some (t.take len)) (t.take len).length cap =
    Parallax.valueObj (some t) len cap := by
  rw [Parallax.valueObj, dupBytes_take hle, List.length_take_of_le hle]
  rfl

end

/-! ## Strings and errors -/

section
variable [Allocator Block]

theorem unpackCstr_spec {s : List UInt8} {r : Option (Ptr × List UInt8)} (h : readCstr s = .ok r) :
    Triple 1 (unpackCstr s) (Outcome (fun p a => chars p (some a)) r) := by
  unfold unpackCstr
  obtain ⟨hlen, rfl⟩ | ⟨len, u, hlen, hle, h⟩ := readBytes_bind_result h
  · exact Triple.attempt_bind hlen (Triple.pure le_rfl)
  · cases h
    refine Triple.attempt_bind hlen ?_
    have hcopy := copyTerminated_spec (Source.shows_object (some u)) (load_some u len hle)
    refine Triple.bind hcopy fun a => Triple.pure (le_iSup_of_le rfl ?_)
    rw [mul_one]
    rfl

theorem unpackErr_spec {s : List UInt8} {r : Option (Value × List UInt8)}
    (h : Parallax.unpackErr s = .ok r) : Triple 1 (unpackErr s) (Outcome tree r) := by
  refine Triple.perm (1 * 1) (mul_one 1).symm ?_
  obtain ⟨hcls, rfl⟩ | ⟨cls, s1, hcls, h⟩ := bind_result h
  · exact rejected_bind (unpackCstr_spec hcls) (Triple.pure le_rfl)
  refine accepted_bind (unpackCstr_spec hcls) fun c => ?_
  refine Triple.perm (1 * chars cls (some c)) (by rw [mul_one, one_mul]) ?_
  obtain ⟨hmsg, rfl⟩ | ⟨msg, s2, hmsg, h⟩ := bind_result h
  · refine rejected_bind (unpackCstr_spec hmsg) ?_
    exact Triple.perm (chars cls (some c) * 1) (mul_one _).symm
      (free_chars_bind (Triple.pure le_rfl))
  refine accepted_bind (unpackCstr_spec hmsg) fun m => ?_
  have hfree : Triple (chars msg (some m) * chars cls (some c)) (do
      free (some c)
      free (some m)
      return (none : Option (ℕ × List UInt8))) (Outcome tree none) :=
    Triple.perm (chars cls (some c) * (chars msg (some m) * 1)) (by rw [mul_one, mul_comm])
      (free_chars_bind (free_chars_bind (Triple.pure le_rfl)))
  obtain ⟨hcode, rfl⟩ | ⟨code, s3, hcode, h⟩ := bind_result h
  · exact Triple.attempt_bind hcode hfree
  refine Triple.attempt_bind hcode ?_
  refine Triple.perm (1 * (chars msg (some m) * chars cls (some c))) (one_mul _).symm ?_
  obtain ⟨htr, rfl⟩ | ⟨tr, s4, htr, h⟩ := bind_result h
  · exact rejected_bind (unpackCstr_spec htr) hfree
  refine accepted_bind (unpackCstr_spec htr) fun t => ?_
  obtain ⟨v, hv, rfl⟩ := lift_result h
  refine Triple.seq (F := 1) (valueErr_spec (Source.shows_chars cls (some c))
    (Source.shows_chars msg (some m)) (Source.shows_chars tr (some t)) hv)
    (by rw [mul_one]; ac_rfl) fun a => ?_
  refine Triple.perm (chars cls (some c) * (chars msg (some m) * (chars tr (some t) * tree v a)))
    (by rw [mul_one]; ac_rfl) (free_chars_bind (free_chars_bind (free_chars_bind ?_)))
  exact Triple.pure (le_iSup_of_le rfl le_rfl)

end

/-! ## Entries -/

/-- The locals of an entry, with the string they own. -/
def keyAt (key : UnpackKey) (k : KeyLocals) : Assertion Block :=
  ⨆ _ : k.intKey = key.intKey ∧ k.ikey = key.ikey ∧ k.klen = key.klen, buffer key.skey k.skey

section
variable {β : Type} {F : Assertion Block} {Q : β → Assertion Block} {f : Unit → Code β}

theorem free_buffer_bind {p : Ptr} {q : Option ℕ} (h : Triple F (f ()) Q) :
    Triple (buffer p q * F) (free q >>= f) Q := by
  cases p with
  | none =>
    cases q with
    | none => exact Triple.perm F (one_mul F) h
    | some a => exact Triple.bot_mul
  | some bs =>
    cases q with
    | none => exact Triple.bot_mul
    | some a => exact Triple.iSup_mul fun cs => Triple.iSup_mul fun _ => Triple.free_bind h

end

theorem unpackKey_null {s t : List UInt8} {key : UnpackKey}
    (h : Parallax.unpackKey s = .ok (some (key, t))) (hint : key.intKey = true) :
    key.skey = none := by
  obtain ⟨-, hr⟩ | ⟨b, s1, -, h⟩ := bind_result h
  · cases hr
  split at h
  · obtain ⟨-, hr⟩ | ⟨k, s2, -, h⟩ := bind_result h
    · cases hr
    cases h
    rfl
  · obtain ⟨-, hr⟩ | ⟨bs, s2, -, h⟩ := bind_result h
    · cases hr
    cases h
    cases hint

section
variable [Allocator Block]

theorem unpackKey_spec {s : List UInt8} {r : Option (UnpackKey × List UInt8)}
    (h : Parallax.unpackKey s = .ok r) : Triple 1 (unpackKey s) (Outcome keyAt r) := by
  obtain ⟨hbyte, rfl⟩ | ⟨b, s1, hbyte, h⟩ := bind_result h
  · exact Triple.attempt_bind hbyte (Triple.pure le_rfl)
  refine Triple.attempt_bind hbyte ?_
  dsimp only at h ⊢
  split at h
  · next hint =>
    rw [if_pos hint]
    obtain ⟨hk, rfl⟩ | ⟨k, s2, hk, h⟩ := bind_result h
    · exact Triple.attempt_bind hk (Triple.pure le_rfl)
    cases h
    refine Triple.attempt_bind hk (Triple.pure ?_)
    exact le_iSup_of_le rfl (le_iSup_of_le ⟨rfl, rfl, rfl⟩ le_rfl)
  · next hstr =>
    rw [if_neg hstr]
    obtain ⟨hlen, rfl⟩ | ⟨len, u, hlen, hle, h⟩ := readBytes_bind_result h
    · exact Triple.attempt_bind hlen (Triple.pure le_rfl)
    cases h
    refine Triple.attempt_bind hlen (Triple.malloc_bind fun a => ?_)
    have htake : (u.take len).length = len := List.length_take_of_le hle
    have hend {cs : Cells UInt8} (hcs : initialised cs = u.take len) :
        pointsTo a (Block.bytes cs) ≤ Outcome keyAt
          (some (⟨false, 0, some (u.take len), (u.take len).length⟩, u.drop len))
          (some (⟨false, 0, some a, len⟩, u.drop len)) :=
      le_iSup_of_le rfl (le_iSup_of_le ⟨rfl, rfl, htake.symm⟩ (le_iSup₂_of_le cs hcs le_rfl))
    obtain rfl | hpos := Nat.eq_zero_or_pos len
    · rw [mul_one]
      exact Triple.pure (hend rfl)
    · have hcopy := memcpy_fresh (u.take len) htake.le
      rw [htake, Nat.sub_self, List.replicate_zero, List.append_nil] at hcopy
      rw [if_pos hpos, if_neg hpos.ne']
      refine Triple.perm (pointsTo a (Block.bytes (List.replicate len none)) * (1 * 1))
        (by simp only [mul_one]) ?_
      refine copyBytes_bind (Source.shows_object (some u)) (load_some u len hle) hcopy ?_
      rw [mul_one, mul_one]
      exact Triple.pure (hend (initialised_map _))

theorem unpackSet_spec {isArr : Bool} {parent next : Value} {key : UnpackKey} {c : Value}
    (h : Parallax.unpackSet parent isArr key c = .ok next) {k : KeyLocals} {p a : ℕ}
    (hint : isArr = true → key.intKey = true → key.skey = none) :
    Triple (tree parent p * (tree c a * keyAt key k)) (unpackSet p isArr k a) fun _ =>
      tree next p := by
  rw [mul_comm (tree c a), keyAt, mul_left_comm]
  refine Triple.iSup_mul fun ⟨hintKey, hikey, hklen⟩ => ?_
  have hshows := Source.shows_buffer key.skey k.skey
  have hfree : Triple (tree next p * buffer key.skey k.skey) (free k.skey) fun _ => tree next p := by
    have hend : Triple (tree next p) (pure ()) fun _ => tree next p := Triple.pure le_rfl
    have hall := free_buffer_bind (p := key.skey) (q := k.skey) hend
    rwa [bind_pure, mul_comm] at hall
  unfold Parallax.unpackSet at h
  unfold unpackSet
  rw [hintKey, hikey, hklen]
  cases isArr with
  | true =>
    rw [if_pos rfl] at h ⊢
    split at h
    · next hik =>
      rw [if_pos hik, hint rfl hik]
      have hset := valueArrSetInt_spec (a := p) (q := some a) h
      cases hskey : k.skey with
      | none =>
        refine Triple.perm (tree parent p * child (some c) (some a)) (one_mul _) hset
      | some b => exact Triple.bot_mul
    · next hik =>
      rw [if_neg hik]
      refine Triple.perm (tree parent p * (child (some c) (some a) * buffer key.skey k.skey))
        (by rw [mul_comm, mul_assoc]; rfl) ?_
      exact Triple.bind (valueArrSetStr_spec hshows h) fun _ => hfree
  | false =>
    refine Triple.perm (tree parent p * (child (some c) (some a) * buffer key.skey k.skey))
      (by rw [mul_comm, mul_assoc]; rfl) ?_
    exact Triple.bind (valueObjSet_spec hshows h) fun _ => hfree

end

/-! ## Trees -/

/-- `unpack_kv_block` succeeds with the parent extended, or leaves a parent with less in it. -/
def BlockOutcome (p : ℕ) : Option (Value × List UInt8) → Option (List UInt8) → Assertion Block
  | none, none => ⨆ v, tree v p
  | some (v, s), some t => ⨆ _ : t = s, tree v p
  | _, _ => ⊥

theorem unpackInto_spec {kvBlock : ℕ → Bool → List UInt8 → Code (Option (List UInt8))} {p : ℕ}
    {isArr : Bool} {s : List UInt8} {r : Option (Value × List UInt8)} {P : Assertion Block}
    (h : Triple P (kvBlock p isArr s) (BlockOutcome p r)) :
    Triple P (unpackInto kvBlock p isArr s) (Outcome tree r) := by
  refine Triple.bind h fun o => ?_
  cases r with
  | none =>
    cases o with
    | none =>
      refine Triple.iSup fun v => Triple.bind (valueFree_spec (some v) (some p)) fun _ => ?_
      exact Triple.pure le_rfl
    | some t => exact Triple.bot
  | some q =>
    cases o with
    | none => exact Triple.bot
    | some t => exact Triple.iSup fun ht => Triple.pure (le_iSup_of_le ht le_rfl)

section
variable [Allocator Block]

/-- The `switch` against the one on trees, whatever reads the blocks. -/
theorem unpackTag_spec {block : Value → Bool → Decoder Fault UInt8 Value}
    {kvBlock : ℕ → Bool → List UInt8 → Code (Option (List UInt8))}
    (hblock : ∀ parent isArr s r p, block parent isArr s = .ok r →
      Triple (tree parent p) (kvBlock p isArr s) (BlockOutcome p r))
    {t : Option ValTag} {s : List UInt8} {r : Option (Value × List UInt8)}
    (h : Parallax.unpackTag block t s = .ok r) :
    Triple 1 (unpackTag kvBlock t s) (Outcome tree r) := by
  have hdone {x : Code ℕ} {v : Value} {u : List UInt8} (hx : Triple 1 x (tree v)) :
      Triple 1 (x >>= fun a => pure (some (a, u))) (Outcome tree (some (v, u))) :=
    Triple.bind hx fun a => Triple.pure (le_iSup_of_le rfl le_rfl)
  cases t with
  | none =>
    cases h
    exact Triple.pure le_rfl
  | some t =>
    cases t with
    | null =>
      cases h
      exact hdone valueNull_spec
    | bool =>
      obtain ⟨hb, rfl⟩ | ⟨b, u, hb, h⟩ := bind_result h
      · exact Triple.attempt_bind hb (Triple.pure le_rfl)
      cases h
      exact Triple.attempt_bind hb (hdone (valueBool_spec _))
    | long =>
      obtain ⟨hi, rfl⟩ | ⟨i, u, hi, h⟩ := bind_result h
      · exact Triple.attempt_bind hi (Triple.pure le_rfl)
      cases h
      exact Triple.attempt_bind hi (hdone (valueLong_spec _))
    | double =>
      obtain ⟨hd, rfl⟩ | ⟨d, u, hd, h⟩ := bind_result h
      · exact Triple.attempt_bind hd (Triple.pure le_rfl)
      cases h
      exact Triple.attempt_bind hd (hdone (valueDouble_spec _))
    | str =>
      obtain ⟨hlen, rfl⟩ | ⟨len, u, hlen, hle, h⟩ := readBytes_bind_result h
      · exact Triple.attempt_bind hlen (Triple.pure le_rfl)
      obtain ⟨v, hv, rfl⟩ := lift_result h
      rw [valueStr_take hle] at hv
      exact Triple.attempt_bind hlen (hdone (valueStr_object hv))
    | arr =>
      refine Triple.bind (valueArr_spec 0) fun a => ?_
      exact unpackInto_spec (hblock _ _ _ _ a h)
    | obj =>
      obtain ⟨hlen, rfl⟩ | ⟨len, u, hlen, hle, h⟩ := readBytes_bind_result h
      · exact Triple.attempt_bind hlen (Triple.pure le_rfl)
      obtain ⟨hobj, -⟩ | ⟨obj, u', hobj, h⟩ := bind_result h
      · obtain ⟨_, -, hr⟩ := lift_result hobj
        cases hr
      obtain ⟨_, hv, hr⟩ := lift_result hobj
      cases hr
      rw [valueObj_take hle] at hv
      refine Triple.attempt_bind hlen (Triple.bind (valueObj_object hv) fun a => ?_)
      exact unpackInto_spec (hblock _ _ _ _ a h)
    | err => exact unpackErr_spec h

/-- One entry more, and then the rest of the loop. -/
theorem unpackItems_step {fuel : ℕ}
    (hone : ∀ s r, Parallax.unpackOne fuel s = .ok r →
      Triple 1 (unpackOne fuel s) (Outcome tree r))
    (hitems : ∀ n parent isArr s r p, Parallax.unpackItems fuel n parent isArr s = .ok r →
      Triple (tree parent p) (unpackItems fuel n p isArr s) (BlockOutcome p r))
    {n : ℕ} {parent : Value} {isArr : Bool} {s : List UInt8} {r : Option (Value × List UInt8)}
    {p : ℕ} (h : Parallax.unpackItems (fuel + 1) (n + 1) parent isArr s = .ok r) :
    Triple (tree parent p) (unpackItems (fuel + 1) (n + 1) p isArr s) (BlockOutcome p r) := by
  rw [Parallax.unpackItems] at h
  rw [unpackItems]
  have hback : Triple (tree parent p) (pure none) (BlockOutcome p none) :=
    Triple.pure (le_iSup_of_le parent le_rfl)
  refine Triple.perm (1 * tree parent p) (one_mul _).symm ?_
  obtain ⟨hkey, rfl⟩ | ⟨key, s1, hkey, h⟩ := bind_result h
  · exact rejected_bind (unpackKey_spec hkey) hback
  refine accepted_bind (unpackKey_spec hkey) fun k => ?_
  refine Triple.perm (1 * (keyAt key k * tree parent p)) (one_mul _).symm ?_
  obtain ⟨hchild, rfl⟩ | ⟨c, s2, hchild, h⟩ := bind_result h
  · refine rejected_bind (hone s1 none hchild) ?_
    exact Triple.iSup_mul fun _ => free_buffer_bind hback
  refine accepted_bind (hone s1 _ hchild) fun a => ?_
  obtain ⟨hset, -⟩ | ⟨next, s3, hset, h⟩ := bind_result h
  · obtain ⟨_, -, hr⟩ := lift_result hset
    cases hr
  obtain ⟨_, hparent, hr⟩ := lift_result hset
  cases hr
  refine Triple.perm (tree parent p * (tree c a * keyAt key k)) (by ac_rfl) ?_
  refine Triple.bind (unpackSet_spec hparent fun _ => unpackKey_null hkey) fun _ => ?_
  exact hitems n next isArr s2 r p h

theorem unpackItems_none {fuel : ℕ} {parent : Value} {isArr : Bool} {s : List UInt8}
    {r : Option (Value × List UInt8)} {p : ℕ}
    (h : Parallax.unpackItems fuel 0 parent isArr s = .ok r) :
    Triple (tree parent p) (unpackItems fuel 0 p isArr s) (BlockOutcome p r) := by
  rw [Parallax.unpackItems] at h
  cases h
  rw [unpackItems]
  exact Triple.pure (le_iSup_of_le rfl le_rfl)

theorem unpackOne_step {fuel : ℕ}
    (hitems : ∀ n parent isArr s r p, Parallax.unpackItems fuel n parent isArr s = .ok r →
      Triple (tree parent p) (unpackItems fuel n p isArr s) (BlockOutcome p r))
    {s : List UInt8} {r : Option (Value × List UInt8)}
    (h : Parallax.unpackOne (fuel + 1) s = .ok r) :
    Triple 1 (unpackOne (fuel + 1) s) (Outcome tree r) := by
  rw [unpackOne_succ] at h
  rw [unpackOne]
  obtain ⟨htag, rfl⟩ | ⟨tag, s1, htag, h⟩ := bind_result h
  · exact Triple.attempt_bind htag (Triple.pure le_rfl)
  refine Triple.attempt_bind htag (unpackTag_spec (fun parent isArr s r p h => ?_) h)
  obtain ⟨hn, rfl⟩ | ⟨n, s2, hn, h⟩ := bind_result h
  · exact Triple.attempt_bind hn (Triple.pure (le_iSup_of_le parent le_rfl))
  exact Triple.attempt_bind hn (hitems n.toNat parent isArr s2 r p h)

theorem unpack_spec (fuel : ℕ) :
    (∀ n parent isArr s r p, Parallax.unpackItems fuel n parent isArr s = .ok r →
      Triple (tree parent p) (unpackItems fuel n p isArr s) (BlockOutcome p r)) ∧
    ∀ s r, Parallax.unpackOne fuel s = .ok r → Triple 1 (unpackOne fuel s) (Outcome tree r) := by
  induction fuel with
  | zero =>
    refine ⟨fun n parent isArr s r p h => ?_, fun s r h => ?_⟩
    · cases n with
      | zero => exact unpackItems_none h
      | succ n => cases h
    · cases h
  | succ fuel ih =>
    refine ⟨fun n parent isArr s r p h => ?_, fun s r h => unpackOne_step ih.1 h⟩
    cases n with
    | zero => exact unpackItems_none h
    | succ n => exact unpackItems_step ih.2 ih.1 h

theorem valueUnpack_spec {buf : List UInt8} {r : Option Value}
    (h : Parallax.valueUnpack buf = .ok r) : Triple 1 (valueUnpack buf) (child r) := by
  unfold Parallax.valueUnpack at h
  have hone := (unpack_spec (buf.length + 1)).2 buf
  refine Triple.perm (1 * 1) (mul_one 1).symm ?_
  split at h
  · next v s hread =>
    cases h
    refine accepted_bind (hone _ hread) fun a => ?_
    rw [mul_one]
    dsimp only
    split
    · exact Triple.pure le_rfl
    · exact Triple.bind (valueFree_spec (some v) (some a)) fun _ => Triple.pure le_rfl
  · next hread =>
    cases h
    exact rejected_bind (hone _ hread) (Triple.pure le_rfl)
  · cases h

/-- A buffer that is rejected costs nothing, however much of it was decoded by then; the tree of one
that is accepted is on blocks of its own, and `value_free` gives back exactly these. -/
theorem valueUnpack_leaves (buf : List UInt8) (rest : Separation.Heap Block) :
    (Parallax.valueUnpack buf = .ok none ∧ valueUnpack buf rest = .ok (none, rest)) ∨
      ∃ v a own, Parallax.valueUnpack buf = .ok (some v) ∧
        valueUnpack buf rest = .ok (some a, own ∪ rest) ∧ own.Disjoint rest ∧ tree v a own ∧
        valueFree (some a) (own ∪ rest) = .ok ((), rest) := by
  obtain ⟨r, hr⟩ := valueUnpack_settles buf
  obtain ⟨q, own, hrun, hd, hown⟩ := (valueUnpack_spec hr).adds rest
  cases r with
  | none =>
    cases q with
    | none =>
      have hnone : own = ∅ := hown
      rw [hnone, Finmap.empty_union] at hrun
      exact Or.inl ⟨hr, hrun⟩
    | some a => exact hown.elim
  | some v =>
    cases q with
    | none => exact hown.elim
    | some a => exact Or.inr ⟨v, a, own, hr, hrun, hd, hown, valueFree_gives_back hown hd⟩

end

end Parallax.Stored
