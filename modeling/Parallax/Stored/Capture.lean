import Parallax.Stored.Release
import Parallax.Bridge.Callable

/-! `px_zval_to_value` on the heap: a snapshot is built while the value is walked, and an exception
in the middle of the walk gives back what was built. -/
namespace Parallax.Stored
open Memory Bridge Separation Separation.Assertion
set_option autoImplicit false
set_option maxHeartbeats 250000

/-! ## bridge.c -/

/-- A snapshot, or NULL with an exception raised. -/
abbrev Snapshot := Except Thrown ℕ

section Code

def throwException {γ : Type} (msg : List UInt8) : Code (Except Thrown γ) :=
  return .error ⟨.captureError, msg⟩

def throwCaptureError {γ : Type} (msg : List UInt8) : Code (Except Thrown γ) :=
  throwException (msg.take 511)

variable [Allocator Block]

def arraySet (arr : ℕ) (key : ArrayKey) (child : ℕ) : Code Unit :=
  match key with
  | .str key => valueArrSetStr arr (.object key.val) key.length (some child)
  | .int idx => valueArrSetInt arr idx.toInt64 (some child)

/-- What was built is given back, and the exception stays. -/
def giveUp (v : ℕ) (e : Thrown) : Code Snapshot := do
  valueFree (some v)
  return .error e

/-- `memcmp(a, b, n) == 0`. -/
def memEq (a b : Source) (n : ℕ) : Code Bool := do
  let x ← a.view
  let x ← attempt (load x n)
  let y ← b.view
  let y ← attempt (load y n)
  return x == y

/-- The scan for a name among the properties captured so far, from `props[i]` on. -/
def alreadyLoop (props : Option ℕ) (key : ZStr) : ℕ → ℕ → Code Bool
  | _, 0 => return false
  | i, left + 1 => do
    let kv ← readRow props i
    if kv.skeyLen = key.length then do
      let same ← memEq (.block kv.skey) (.object key.val) key.length
      if same then return true else alreadyLoop props key (i + 1) left
    else alreadyLoop props key (i + 1) left

def already (objV : ℕ) (key : ZStr) : Code Bool := do
  match ← readNode (some objV) with
  | .obj _ _ b => alreadyLoop b.items key 0 b.n
  | _ => attempt (.error .wrongType)

section Loops
variable (inner : Zval → Code Snapshot)

def elementsLoop (refusal : List UInt8) : HashTable → ℕ → Code Snapshot
  | [], arr => return .ok arr
  | (key, val) :: rest, arr =>
    if val.isReference then giveUp arr ⟨.captureError, refusal⟩
    else do
      match ← inner val with
      | .error e => giveUp arr e
      | .ok child => do
        arraySet arr key child
        elementsLoop refusal rest arr

def arrayToValue (ht : HashTable) : Code Snapshot := do
  let arr ← valueArr ht.length
  elementsLoop inner
    (ascii "by-reference array element cannot be captured into a parallax task".toList) ht arr

def declaredLoop (h : Bridge.Heap) (obj : ZendObject) : List PropertyInfo → ℕ → Code Snapshot
  | [], objV => return .ok objV
  | info :: rest, objV =>
    if info.isStatic then declaredLoop h obj rest objV
    else if (obj.slot info.offset).isUndef then declaredLoop h obj rest objV
    else do
      match ← inner (h.deref (obj.slot info.offset)) with
      | .error e => giveUp objV e
      | .ok child => do
        valueObjSet objV (.object info.name.val) info.name.length (some child)
        declaredLoop h obj rest objV

def dynamicLoop (h : Bridge.Heap) : HashTable → ℕ → Code Snapshot
  | [], objV => return .ok objV
  | (key, slot) :: rest, objV =>
    match key with
    | .int _ => dynamicLoop h rest objV
    | .str key =>
      if slot.isUndef then dynamicLoop h rest objV
      else do
        let found ← already objV key
        if found then dynamicLoop h rest objV
        else do
          match ← inner (h.deref slot) with
          | .error e => giveUp objV e
          | .ok child => do
            valueObjSet objV (.object key.val) key.length (some child)
            dynamicLoop h rest objV

def objectToValue (h : Bridge.Heap) (obj : ZendObject) : Code Snapshot :=
  if obj.ce.isClosure then
    throwCaptureError (ascii "nested closure cannot be captured into a parallax task".toList)
  else if obj.ce.createObject = .custom then
    throwCaptureError (ascii "object of class ".toList ++ printed obj.ce.name ++
      ascii (" carries non-transferable native state; " ++
        "pass a recipe (data) and reconstruct inside the worker").toList)
  else do
    let objV ← valueObj (.object obj.ce.name.val) obj.ce.name.length 0
    match ← declaredLoop inner h obj obj.ce.propertiesInfo objV with
    | .error e => return .error e
    | .ok objV =>
      match obj.properties with
      | none => return .ok objV
      | some dyn => dynamicLoop inner h dyn objV

end Loops

/-- `zval_to_value_inner`, with fuel for the calls in each other. -/
def zvalToValueInner (h : Bridge.Heap) : ℕ → Zval → ℕ → Code Snapshot
  | 0, _, _ => attempt (.error .outOfFuel)
  | fuel + 1, zv, depth =>
    if 256 < depth then
      throwCaptureError (ascii "capture exceeds maximum depth of 256".toList)
    else
      match zv with
      | .null => return .ok (← valueNull)
      | .true => return .ok (← valueBool true)
      | .false => return .ok (← valueBool false)
      | .long i => return .ok (← valueLong i)
      | .double d => return .ok (← valueDouble d)
      | .string s => return .ok (← valueStr (.object s.val) s.length)
      | .array a => arrayToValue (zvalToValueInner h fuel · (depth + 1)) (h.array a)
      | .object o => objectToValue (zvalToValueInner h fuel · (depth + 1)) h (h.object o)
      | .resource =>
        throwCaptureError (ascii "resource cannot be captured into a parallax task".toList)
      | .reference _ =>
        throwCaptureError (ascii "by-reference capture is not allowed in a parallax task".toList)
      | zv =>
        throwCaptureError
          (ascii "unsupported zval type ".toList ++ ascii (toString zv.type).toList)

def pxZvalToValue (h : Bridge.Heap) (zv : Zval) : Code Snapshot := zvalToValueInner h 258 zv 0

/-- What `go()` packs its arguments into. -/
def goArgs (h : Bridge.Heap) (args : Option HashTable) : Code Snapshot := do
  let arr ← valueArr 0
  match args with
  | none => return .ok arr
  | some ht =>
    elementsLoop (pxZvalToValue h)
      (ascii "by-reference argument cannot be captured into a parallax task".toList) ht arr

end Code

/-! ## What a capture leaves -/

/-- It ends as it does without the heap: with the same exception and nothing, or with what holds the
result. -/
def Ends {α γ : Type} (holds : α → γ → Assertion Block) :
    Except Stop α → Except Thrown γ → Assertion Block
  | .ok v, .ok a => holds v a
  | .error (.thrown e), .error e' => ⨆ _ : e' = e, 1
  | _, _ => ⊥

abbrev Captured : Except Stop Value → Snapshot → Assertion Block := Ends tree

section
variable {α β γ δ : Type} {holds : α → γ → Assertion Block}

theorem ends_thrown (e : Thrown) :
    Triple 1 (pure (.error e)) (Ends holds (.error (.thrown e))) :=
  Triple.pure (le_iSup_of_le rfl le_rfl)

theorem ends_built {v : α} {x : Code γ} (hx : Triple 1 x (holds v)) :
    Triple 1 (x >>= fun a => pure (.ok a)) (Ends holds (.ok v)) :=
  Triple.bind hx fun _ => Triple.pure le_rfl

variable {r : Except Stop α} {g : α → Except Stop β} {x : Code (Except Thrown γ)}
variable {f : Except Thrown γ → Code (Except Thrown δ)} {P P' F : Assertion Block}
variable {Q : Except Stop β → Except Thrown δ → Assertion Block}

/-- A step in the middle: its exception is passed on, its result handed to what comes next. -/
theorem ends_bind (hr : Faultless (r >>= g)) (hP : P' = P * F)
    (hx : Faultless r → Triple P x (Ends holds r))
    (herr : ∀ e, Triple F (f (.error e)) (Q (.error (.thrown e))))
    (hok : ∀ c b, r = .ok c → Faultless (g c) → Triple (holds c b * F) (f (.ok b)) (Q (g c))) :
    Triple P' (x >>= f) (Q (r >>= g)) := by
  have hfault : Faultless r := fun e he => hr e (by rw [he]; rfl)
  refine Triple.seq (hx hfault) hP fun o => ?_
  cases r with
  | error stop =>
    cases stop with
    | fault e => exact absurd rfl (hfault e)
    | thrown e =>
      cases o with
      | ok a => exact Triple.bot_mul
      | error e' =>
        refine Triple.iSup_mul fun he => ?_
        subst he
        rw [one_mul]
        exact herr e'
  | ok c =>
    cases o with
    | error e => exact Triple.bot_mul
    | ok b => exact hok c b rfl hr

end

theorem giveUp_spec (v : Value) (a : ℕ) (e : Thrown) :
    Triple (tree v a) (giveUp a e) (Captured (.error (.thrown e))) :=
  Triple.bind (valueFree_spec (some v) (some a)) fun _ => ends_thrown e

theorem checked_ok {α β : Type} {x : Except Fault α} {g : α → Except Stop β}
    (h : Faultless (checked x >>= g)) : ∃ a, x = .ok a ∧ checked x >>= g = g a := by
  cases x with
  | error e => exact absurd rfl (h e)
  | ok a => exact ⟨a, rfl, rfl⟩

/-! ## Names that were captured already -/

theorem memEq_spec {a b : Source} {p q : Ptr} {A B : Assertion Block} (ha : a.Shows p A)
    (hb : b.Shows q B) {n : ℕ} {r : Bool} (h : Parallax.memEq p q n = .ok r) :
    Triple (A * B) (memEq a b n) fun t => ⨆ _ : t = r, A * B := by
  obtain ⟨x, hx, h⟩ := bind_ok h
  obtain ⟨y, hy, h⟩ := bind_ok h
  cases h
  refine ha.view_bind (Triple.attempt_bind hx ?_)
  refine Triple.perm (B * A) (mul_comm _ _) (hb.view_bind (Triple.attempt_bind hy ?_))
  exact Triple.pure (le_iSup_of_le rfl (mul_comm _ _).le)

/-- A name is compared with that of an entry. -/
theorem memEq_entry {kv : Entry} (row : Row) {key : Ptr} {n : ℕ} {same : Bool}
    (h : Parallax.memEq kv.skey key n = .ok same) :
    Triple (entryAt kv row) (memEq (.block row.skey) (.object key) n) fun t =>
      ⨆ _ : t = same, entryAt kv row := by
  refine Triple.iSup fun hrow => ?_
  have hsame := memEq_spec (Source.shows_chars kv.skey row.skey) (Source.shows_object key) h
  rw [mul_one] at hsame
  refine Triple.mono ((hsame.frame (child kv.val row.val))) le_rfl fun t => ?_
  rw [Assertion.iSup_mul]
  exact iSup_le fun ht => le_iSup_of_le ht (le_iSup_of_le hrow le_rfl)

theorem entryAt_fact {kv : Entry} {row : Row} {F : Assertion Block} :
    ∀ s, (entryAt kv row * F) s → RowOf kv row := by
  rintro _ ⟨u, -, -, -, hu, -⟩
  exact (iSup_iff.mp hu).1

theorem alreadyLoop_spec {all : List Row} {cap : ℕ} {q : Option ℕ} {key : ZStr}
    {entries : List Entry} {found : Bool} (h : Bridge.alreadyLoop key entries = .ok found) {i : ℕ} :
    Triple (itemBlock all cap q * entriesAt entries (all.drop i))
      (alreadyLoop q key i entries.length) fun t =>
        ⨆ _ : t = found, itemBlock all cap q * entriesAt entries (all.drop i) := by
  induction entries generalizing i with
  | nil =>
    cases h
    exact Triple.pure (le_iSup_of_le rfl le_rfl)
  | cons kv entries ih =>
    refine Triple.perm _ (mul_comm _ _) (rows_cons fun row hrow => ?_)
    rw [entriesAt_drop hrow]
    have hnext (h : Bridge.alreadyLoop key entries = .ok found) :
        Triple (entryAt kv row * (itemBlock all cap q * entriesAt entries (all.drop (i + 1))))
          (alreadyLoop q key (i + 1) entries.length) fun t => ⨆ _ : t = found,
            itemBlock all cap q * (entryAt kv row * entriesAt entries (all.drop (i + 1))) := by
      refine Triple.perm _ (mul_comm _ _) (((ih h).frame (entryAt kv row)).post fun t => ?_)
      rw [Assertion.iSup_mul]
      exact iSup_le fun ht => le_iSup_of_le ht (le_of_eq (by ac_rfl))
    refine Triple.perm (itemBlock all cap q * (entryAt kv row *
      entriesAt entries (all.drop (i + 1)))) (by ac_rfl) (readRow_bind hrow ?_)
    refine Triple.perm (entryAt kv row * (itemBlock all cap q *
      entriesAt entries (all.drop (i + 1)))) (by ac_rfl) (Triple.of_fact entryAt_fact fun hof => ?_)
    rw [Bridge.alreadyLoop] at h
    split at h
    · next hlen =>
      obtain ⟨same, hsame, h⟩ := bind_ok h
      rw [if_pos (hof.2.2.trans hlen)]
      refine Triple.seq (memEq_entry row hsame) rfl fun t => Triple.iSup_mul fun ht => ?_
      subst ht
      cases t with
      | true =>
        cases h
        exact Triple.pure (le_iSup_of_le rfl (le_of_eq (by ac_rfl)))
      | false => exact hnext h
    · next hlen =>
      rw [if_neg fun heq => hlen (hof.2.2.symm.trans heq)]
      exact hnext h

theorem already_spec {v : Value} {key : ZStr} {found : Bool}
    (h : Bridge.already v key = .ok found) (a : ℕ) :
    Triple (tree v a) (already a key) fun t => ⨆ _ : t = found, tree v a := by
  cases v with
  | obj cls clen props =>
    rw [tree_obj]
    refine Triple.iSup fun c => Triple.iSup fun b => readNode_bind ?_
    refine Triple.perm (stored props b * (pointsTo a (Block.node (.obj c clen b)) * chars cls c))
      (by ac_rfl) ?_
    refine Triple.iSup_mul fun rows => Triple.iSup_mul fun hv => ?_
    have hloop : Triple (itemBlock rows b.cap b.items * entriesAt props.entries (rows.drop 0))
        (alreadyLoop b.items key 0 props.entries.length) fun t =>
          ⨆ _ : t = found, itemBlock rows b.cap b.items * entriesAt props.entries (rows.drop 0) :=
      alreadyLoop_spec h
    have hn : b.n = props.entries.length := hv.2.1
    rw [← hn] at hloop
    refine Triple.post (hloop.frame (pointsTo a (Block.node (.obj c clen b)) * chars cls c))
      fun t => ?_
    rw [Assertion.iSup_mul]
    refine iSup_le fun ht => le_iSup_of_le ht (le_iSup₂_of_le c b ?_)
    calc itemBlock rows b.cap b.items * entriesAt props.entries rows *
          (pointsTo a (Block.node (.obj c clen b)) * chars cls c)
        = pointsTo a (Block.node (.obj c clen b)) *
            (chars cls c * (itemBlock rows b.cap b.items * entriesAt props.entries rows)) := by
          ac_rfl
      _ ≤ _ := mul_le_mul' le_rfl (mul_le_mul' le_rfl (le_iSup₂_of_le rows hv le_rfl))
  | _ => cases h

section
variable [Allocator Block]

theorem arraySet_spec {v w : Value} {key : ArrayKey} {c : Value}
    (h : Bridge.arraySet v key c = .ok w) (a b : ℕ) :
    Triple (tree v a * tree c b) (arraySet a key b) fun _ => tree w a := by
  cases key with
  | int idx => exact valueArrSetInt_spec (q := some b) h
  | str key => exact valueArrSetStr_object (q := some b) h

section Loops
variable {inner : Zval → Code Snapshot} {walk : Zval → Except Stop Value}
variable (hinner : ∀ zv, Faultless (walk zv) → Triple 1 (inner zv) (Captured (walk zv)))
include hinner

theorem elementsLoop_spec (refusal : List UInt8) {ht : HashTable} {v : Value} {a : ℕ}
    (h : Faultless (Bridge.elementsLoop walk refusal ht v)) :
    Triple (tree v a) (elementsLoop inner refusal ht a)
      (Captured (Bridge.elementsLoop walk refusal ht v)) := by
  induction ht generalizing v with
  | nil => exact Triple.pure le_rfl
  | cons p rest ih =>
    obtain ⟨key, val⟩ := p
    rw [Bridge.elementsLoop] at h ⊢
    rw [elementsLoop]
    split at h
    · next href =>
      rw [if_pos href, if_pos href]
      exact giveUp_spec v a _
    · next href =>
      rw [if_neg href, if_neg href]
      refine ends_bind h (one_mul _).symm (hinner val) (fun e => giveUp_spec v a e) fun c b _ hrest => ?_
      obtain ⟨w, hw, heq⟩ := checked_ok hrest
      rw [heq] at hrest ⊢
      exact Triple.seq (arraySet_spec hw a b) (by rw [mul_one, mul_comm]) fun _ =>
        Triple.perm _ (mul_one _) (ih hrest)

theorem declaredLoop_spec (h : Bridge.Heap) (obj : ZendObject) {infos : List PropertyInfo}
    {v : Value} {a : ℕ} (hr : Faultless (Bridge.declaredLoop walk h obj infos v)) :
    Triple (tree v a) (declaredLoop inner h obj infos a)
      (Captured (Bridge.declaredLoop walk h obj infos v)) := by
  induction infos generalizing v with
  | nil => exact Triple.pure le_rfl
  | cons info rest ih =>
    rw [Bridge.declaredLoop] at hr ⊢
    rw [declaredLoop]
    split at hr
    · next hstatic =>
      rw [if_pos hstatic, if_pos hstatic]
      exact ih hr
    split at hr
    · next hstatic hundef =>
      rw [if_neg hstatic, if_neg hstatic, if_pos hundef, if_pos hundef]
      exact ih hr
    · next hstatic hundef =>
      rw [if_neg hstatic, if_neg hstatic, if_neg hundef, if_neg hundef]
      refine ends_bind hr (one_mul _).symm (hinner _) (fun e => giveUp_spec v a e) fun c b _ hrest => ?_
      obtain ⟨w, hw, heq⟩ := checked_ok hrest
      rw [heq] at hrest ⊢
      exact Triple.seq (valueObjSet_object (q := some b) hw) (by rw [mul_one, mul_comm]; rfl)
        fun _ => Triple.perm _ (mul_one _) (ih hrest)

theorem dynamicLoop_spec (h : Bridge.Heap) {table : HashTable} {v : Value} {a : ℕ}
    (hr : Faultless (Bridge.dynamicLoop walk h table v)) :
    Triple (tree v a) (dynamicLoop inner h table a)
      (Captured (Bridge.dynamicLoop walk h table v)) := by
  induction table generalizing v with
  | nil => exact Triple.pure le_rfl
  | cons p rest ih =>
    obtain ⟨key, slot⟩ := p
    cases key with
    | int idx => exact ih hr
    | str key =>
      rw [Bridge.dynamicLoop] at hr ⊢
      rw [dynamicLoop]
      split at hr
      · next hundef =>
        rw [if_pos hundef, if_pos hundef]
        exact ih hr
      next hundef =>
      rw [if_neg hundef, if_neg hundef]
      obtain ⟨found, hfound, heq⟩ := checked_ok hr
      rw [heq] at hr ⊢
      refine Triple.seq (F := 1) (already_spec hfound a) (mul_one _).symm fun t => ?_
      refine Triple.iSup_mul fun ht => Triple.perm _ (mul_one _) ?_
      subst ht
      cases t with
      | true => exact ih hr
      | false =>
        refine ends_bind hr (one_mul _).symm (hinner _) (fun e => giveUp_spec v a e) fun c b _ hrest => ?_
        obtain ⟨w, hw, heq⟩ := checked_ok hrest
        rw [heq] at hrest ⊢
        exact Triple.seq (valueObjSet_object (q := some b) hw) (by rw [mul_one, mul_comm]; rfl)
          fun _ => Triple.perm _ (mul_one _) (ih hrest)

theorem arrayToValue_spec {ht : HashTable} (hr : Faultless (Bridge.arrayToValue walk ht)) :
    Triple 1 (arrayToValue inner ht) (Captured (Bridge.arrayToValue walk ht)) :=
  Triple.bind (valueArr_spec ht.length) fun _ => elementsLoop_spec hinner _ hr

theorem objectToValue_spec (h : Bridge.Heap) {obj : ZendObject}
    (hr : Faultless (Bridge.objectToValue walk h obj)) :
    Triple 1 (objectToValue inner h obj) (Captured (Bridge.objectToValue walk h obj)) := by
  unfold Bridge.objectToValue Bridge.objectToValueWith at hr ⊢
  unfold objectToValue
  split at hr
  · next hclosure =>
    rw [if_pos hclosure, if_pos hclosure]
    exact ends_thrown _
  split at hr
  · next hclosure hcustom =>
    rw [if_neg hclosure, if_neg hclosure, if_pos hcustom, if_pos hcustom]
    exact ends_thrown _
  next hclosure hcustom =>
  rw [if_neg hclosure, if_neg hclosure, if_neg hcustom, if_neg hcustom]
  obtain ⟨objV, hobj, heq⟩ := checked_ok hr
  rw [heq] at hr ⊢
  refine Triple.bind (valueObj_object hobj) fun a => ?_
  refine ends_bind hr (mul_one _).symm (declaredLoop_spec hinner h obj) (fun e => ends_thrown e)
    fun w b _ hrest => ?_
  rw [mul_one]
  dsimp only at hrest ⊢
  cases hdyn : obj.properties with
  | none => exact Triple.pure le_rfl
  | some dyn =>
    rw [hdyn] at hrest
    exact dynamicLoop_spec hinner h hrest

end Loops

theorem zvalToValueInner_spec (h : Bridge.Heap) {fuel depth : ℕ} {zv : Zval}
    (hr : Faultless (Bridge.zvalToValueInner h fuel zv depth)) :
    Triple 1 (zvalToValueInner h fuel zv depth)
      (Captured (Bridge.zvalToValueInner h fuel zv depth)) := by
  induction fuel generalizing zv depth with
  | zero => exact absurd rfl (hr .outOfFuel)
  | succ fuel ih =>
    change Faultless (if 256 < depth then _ else _) at hr
    change Triple 1 (if 256 < depth then _ else _) (Captured (if 256 < depth then _ else _))
    by_cases hdepth : 256 < depth
    · rw [if_pos hdepth, if_pos hdepth]
      exact ends_thrown _
    rw [if_neg hdepth] at hr
    rw [if_neg hdepth, if_neg hdepth]
    cases zv with
    | null => exact ends_built valueNull_spec
    | true => exact ends_built (valueBool_spec true)
    | false => exact ends_built (valueBool_spec false)
    | long i => exact ends_built (valueLong_spec i)
    | double d => exact ends_built (valueDouble_spec d)
    | string s =>
      cases hv : Parallax.valueStr s.val s.length with
      | error e =>
        refine absurd ?_ (hr e)
        dsimp only
        rw [hv]
        rfl
      | ok v =>
        dsimp only
        rw [hv]
        exact ends_built (valueStr_object hv)
    | array a => exact arrayToValue_spec (fun zv => ih) hr
    | object o => exact objectToValue_spec (fun zv => ih) h hr
    | undef => exact ends_thrown _
    | resource => exact ends_thrown _
    | reference r => exact ends_thrown _
    | other t => exact ends_thrown _

theorem pxZvalToValue_spec (h : Bridge.Heap) (zv : Zval) :
    Triple 1 (pxZvalToValue h zv) (Captured (Bridge.pxZvalToValue h zv)) :=
  zvalToValueInner_spec h (pxZvalToValue_decides h zv).faultless

theorem goArgs_spec (h : Bridge.Heap) (args : Option HashTable) :
    Triple 1 (goArgs h args) (Captured (Bridge.goArgs h args)) := by
  refine Triple.bind (valueArr_spec 0) fun a => ?_
  cases args with
  | none => exact Triple.pure le_rfl
  | some ht =>
    exact elementsLoop_spec (fun zv _ => pxZvalToValue_spec h zv) _ (goArgs_decides h ht).faultless

/-- A value that is refused costs nothing, however much of it was captured by then; the snapshot of
one that is accepted is the tree unfolding, on blocks of its own, and `value_free` gives back
exactly these. -/
theorem pxZvalToValue_leaves (h : Bridge.Heap) (zv : Zval) (rest : Separation.Heap Block) :
    (¬ Admissible h zv ∧ ∃ e, Bridge.pxZvalToValue h zv = .error (.thrown e) ∧
        pxZvalToValue h zv rest = .ok (.error e, rest)) ∨
      (Admissible h zv ∧ ∃ v a own, Unfolding h zv v ∧
        pxZvalToValue h zv rest = .ok (.ok a, own ∪ rest) ∧ own.Disjoint rest ∧ tree v a own ∧
        valueFree (some a) (own ∪ rest) = .ok ((), rest)) := by
  obtain ⟨o, t, hrun, hd, ho⟩ := (pxZvalToValue_spec h zv).adds rest
  rcases pxZvalToValue_decides h zv with ⟨ha, v, hv, hu⟩ | ⟨hna, msg, hmsg⟩
  · rw [hv] at ho
    cases o with
    | error e => exact ho.elim
    | ok a => exact Or.inr ⟨ha, v, a, t, hu, hrun, hd, ho, valueFree_gives_back ho hd⟩
  · rw [hmsg] at ho
    cases o with
    | ok a => exact ho.elim
    | error e =>
      obtain ⟨rfl, ht⟩ := iSup_iff.mp ho
      rw [one_iff.mp ht, Finmap.empty_union] at hrun
      exact Or.inl ⟨hna, _, hmsg, hrun⟩

end

end Parallax.Stored
