import Parallax.Stored.Capture
import Parallax.Binding.Go

/-! A recipe on the heap, from `px_resolve_callable` until `px_callable_free`. Every way out of
`go()` in between gives back what was allocated by then. -/
namespace Parallax.Stored
open Memory Closure Bridge Binding WaitGroup Separation Separation.Assertion
set_option autoImplicit false
set_option maxHeartbeats 250000

/-! ## bridge.c -/

/-- A recipe, or -1 with an exception raised. -/
abbrev Resolved := Except Thrown Callable

namespace Callable

def ofFunction (fnName : ℕ) : Callable := ⟨.function, none, some fnName, none, none, none⟩

def ofMethod (className fnName : ℕ) : Callable :=
  ⟨.staticMeth, some className, some fnName, none, none, none⟩

def ofClosure (wrapper captures : ℕ) : Callable :=
  ⟨.closure, none, none, none, some wrapper, some captures⟩

end Callable

/-- `px_callable_free`, with what it leaves in the record. -/
def pxCallableFree (c : Callable) : Code Callable := do
  free c.className
  free c.fnName
  free c.bootstrap
  free c.closureWrapper
  valueFree c.closureCaptures
  return ⟨c.kind, none, none, none, none, none⟩

def throwSpawnError {γ : Type} (msg : List UInt8) : Code (Except Thrown γ) :=
  return .error ⟨.spawnError, msg.take 511⟩

section Code
variable [Allocator Block]

def strdupOrDie (src : Source) (len : ℕ) : Code ℕ := copyTerminated src len

def resolveFunction (fnName : ZStr) : Code Resolved := do
  let fnName ← strdupOrDie (.object fnName.val) fnName.length
  return .ok (.ofFunction fnName)

def resolveMethod (className fnName : ZStr) : Code Resolved := do
  let className ← strdupOrDie (.object className.val) className.length
  let fnName ← strdupOrDie (.object fnName.val) fnName.length
  return .ok (.ofMethod className fnName)

def resolveString (s : ZStr) : Code Resolved :=
  match s.findIdx? (· = colon) with
  | some sep =>
    if sep + 1 < s.length ∧ s[sep + 1]? = some colon then do
      let className ← strdupOrDie (.object s.val) sep
      let fnName ← strdupOrDie (.object (s.val.map (·.drop (sep + 2)))) (s.length - (sep + 2))
      return .ok (.ofMethod className fnName)
    else resolveFunction s
  | none => resolveFunction s

def resolveArray (ht : HashTable) : Code Resolved :=
  if ht.length ≠ 2 then
    throwSpawnError (ascii "callable array must have exactly 2 elements".toList)
  else
    match zendHashIndexFind ht 0, zendHashIndexFind ht 1 with
    | some (.string className), some (.string fnName) => resolveMethod className fnName
    | some _, some (.string _) =>
      throwCaptureError (ascii ("instance methods are not transferable; " ++
        "pass [ClassName::class, 'method']").toList)
    | _, _ => throwSpawnError (ascii "callable array must be [class|object, methodName]".toList)

/-! ## bridge_closure.c -/

/-- `px_slice_t`. -/
structure PxSlice where
  data : ℕ
  len : ℕ

def readFileAll (readFile : List UInt8 → Option (List UInt8)) (path : List UInt8) :
    Code (Option PxSlice) :=
  match readFile path with
  | none => return none
  | some bytes => do
    let data ← copyTerminated (.object (some bytes)) bytes.length
    return some ⟨data, bytes.length⟩

/-- What `extract_closure_text` gives back: the text, or NULL and `*err`. -/
inductive Extraction
  | text (a : ℕ)
  | failed (err : Option ℕ)

def strdup (s : String) : Code (Option ℕ) := dupCstr (.object (cstr (ascii s.toList)))

/-- A pass over the bytes of a slice. -/
def PxSlice.scan {α : Type} (src : PxSlice) (f : List UInt8 → Except Fault α) : Code α := do
  let chars ← readChars (some src.data)
  let bytes ← attempt (load (some (initialised chars)) src.len)
  attempt (f bytes)

/-- `free(src.data)` and the cause. -/
def PxSlice.fail (src : PxSlice) (err : String) : Code Extraction := do
  free (some src.data)
  return .failed (← strdup err)

def extractSlice (src : PxSlice) (lineStart : ℤ) : Code Extraction := do
  match ← src.scan (offsetOfLine · lineStart) with
  | none => src.fail "closure line number is out of range for its file"
  | some lineOff =>
  match ← src.scan (scanFindKeyword · lineOff functionKeyword) with
  | none => src.fail "could not locate `function` keyword for inline closure"
  | some fnOff =>
  match ← src.scan (scanBraceOpen · fnOff) with
  | none => src.fail "could not locate opening `\x7b` for closure body"
  | some braceOpen =>
  match ← src.scan (scanBraceMatch · braceOpen) with
  | none => src.fail "unbalanced braces while extracting closure body"
  | some bodyEnd =>
  let start ← src.scan (staticBack · lineOff fnOff fnOff)
  let out ← copyTerminated (.inside src.data start) (bodyEnd - start)
  free (some src.data)
  return .text out

def extractClosureText (readFile : List UInt8 → Option (List UInt8)) (filename : List UInt8)
    (lineStart : ℤ) : Code Extraction :=
  if refused (some filename) then do
    return .failed
      (← strdup "closure has no resolvable source file (eval / repl / stream wrapper)")
  else do
    match ← readFileAll readFile filename with
    | none => return .failed (← strdup "could not read closure source file")
    | some src => extractSlice src lineStart

/-- What a `%s` prints of a C string that is not NULL. -/
def cText (p : Option ℕ) : Code (List UInt8) := do
  let chars ← readChars p
  attempt (Bridge.cText (some (initialised chars)))

def capturesLoop (h : Bridge.Heap) : HashTable → ℕ → Code Snapshot
  | [], arr => return .ok arr
  | (key, slot) :: rest, arr =>
    match key with
    | .int _ => capturesLoop h rest arr
    | .str key =>
      if slot.isReference then
        giveUp arr ⟨.captureError,
          ascii "by-reference `use(&$var)` cannot be captured into a parallax task".toList⟩
      else if slot.isUndef then giveUp arr ⟨.captureError, unassignedText key⟩
      else do
        match ← pxZvalToValue h slot with
        | .error e => giveUp arr e
        | .ok child => do
          valueArrSetStr arr (.object key.val) key.length (some child)
          capturesLoop h rest arr

def snapshotCaptures (h : Bridge.Heap) (fn : ZendFunction) : Code Snapshot := do
  let arr ← valueArr 0
  match fn.staticVariables with
  | none => return .ok arr
  | some uses => capturesLoop h uses arr

section Resolve
variable (w : World)

def pxResolveInlineClosure (closure : ZendClosure) : Code Resolved :=
  match closure.func with
  | none => throwException (ascii "only user-defined inline closures can be captured".toList)
  | some fn =>
    if fn.isUser = false then
      throwException (ascii "only user-defined inline closures can be captured".toList)
    else if closure.isBound then
      throwException (ascii ("closure with bound $this cannot be captured; " ++
        "declare it `static` to detach the instance").toList)
    else
      match fn.filename with
      | none => throwException (ascii "closure has no resolvable source file".toList)
      | some fname =>
        if fname = [] then
          throwException (ascii "closure has no resolvable source file".toList)
        else do
          match ← extractClosureText w.readFile (printed fname) fn.lineStart.toInt32.toInt with
          | .failed err => do
            let cause ← if err.isNone then pure (ascii "unknown".toList) else cText err
            free err
            throwException ((ascii "closure source extraction failed: ".toList ++ cause).take 511)
          | .text text => do
            match ← snapshotCaptures w.heap fn with
            | .error e => do
              free (some text)
              return .error e
            | .ok captures => do
              let wrapper := wrapperText (← cText (some text))
              let closureWrapper ← mallocBytes (wrapper.length + 1)
              copyBytes closureWrapper (.object (cstr wrapper)) (wrapper.length + 1)
              free (some text)
              return .ok (.ofClosure closureWrapper captures)

def resolveClosure (closure : ZendClosure) : Code Resolved :=
  match closure.func with
  | none => throwSpawnError (ascii "could not introspect Closure".toList)
  | some fn =>
    if fn.isFakeClosure then
      match fn.scope with
      | some scope => resolveMethod scope fn.functionName
      | none => resolveFunction fn.functionName
    else pxResolveInlineClosure w closure

def pxResolveCallable (callable : Zval) : Code Resolved :=
  let unsupported := throwSpawnError (ascii "unsupported callable type for parallax".toList)
  match callable with
  | .string s => resolveString s
  | .array a => resolveArray (w.heap.array a)
  | .object o =>
    if (w.heap.object o).ce.isClosure then resolveClosure w (w.closure o) else unsupported
  | _ => unsupported

/-! ## php_binding.c -/

/-- What the worker does with its payload in the end. -/
def releasePayload (payload : Option ℕ) : Code Unit := do
  match ← read payload with
  | .payload c => do
    let c ← pxCallableFree c
    write payload (.payload c)
    free payload
  | _ => attempt (.error .wrongType)

/-- The copy of `self->bootstrap` a recipe gets. -/
def withBootstrap (cb : Callable) (bootstrap : Option ℕ) : Code Callable :=
  match bootstrap with
  | none => return cb
  | some _ => return { cb with bootstrap := ← dupCstr (.block bootstrap) }

/-- `go()` up to `wg_go`, which gets the arguments and the payload. -/
def goInputs (bootstrap : Option ℕ) (task : Zval) (args : Option HashTable) :
    Code (Except Thrown (ℕ × ℕ)) := do
  match ← pxResolveCallable w task with
  | .error e => return .error e
  | .ok cb => do
    match ← goArgs w.heap args with
    | .error e => do
      let _ ← pxCallableFree cb
      return .error e
    | .ok args => do
      let cb ← withBootstrap cb bootstrap
      let payload ← malloc (.payload cb)
      return .ok (args, payload)

end Resolve

end Code

/-! ## What is owned -/

def recipe (cb : PxCallableT) (c : Callable) : Assertion Block :=
  ⨆ _ : c.kind = cb.kind, chars cb.className c.className * (chars cb.fnName c.fnName *
    (chars cb.bootstrap c.bootstrap * (chars cb.closureWrapper c.closureWrapper *
      child cb.closureCaptures c.closureCaptures)))

/-- As `px_resolve_callable` leaves it: only `go()` sets `bootstrap`. -/
def resolved (cb : PxCallableT) (c : Callable) : Assertion Block :=
  ⨆ _ : cb.bootstrap = none, recipe cb c

theorem pxCallableFree_spec (cb : PxCallableT) (c : Callable) :
    Triple (recipe cb c) (pxCallableFree c) fun _ => 1 := by
  refine Triple.iSup fun _ => free_chars_bind (free_chars_bind (free_chars_bind
    (free_chars_bind ?_)))
  exact Triple.bind (valueFree_spec _ _) fun _ => Triple.pure le_rfl

theorem resolved_free (cb : PxCallableT) (c : Callable) :
    Triple (resolved cb c) (pxCallableFree c) fun _ => 1 :=
  Triple.iSup fun _ => pxCallableFree_spec cb c

theorem chars_none_mul {q : Option ℕ} {P Q : Assertion Block} (h : P ≤ Q) :
    chars none q * P ≤ Q := by
  cases q with
  | none => exact (one_mul P).le.trans h
  | some a =>
    rw [show chars none (some a) = ⊥ from rfl, Quantale.bot_mul]
    exact bot_le

def payloadAt (cb : PxCallableT) (a : ℕ) : Assertion Block :=
  ⨆ c, pointsTo a (.payload c) * recipe cb c

def inputsAt (inp : Inputs PxCallableT) (p : ℕ × ℕ) : Assertion Block :=
  child inp.args (some p.1) * held payloadAt inp.userData (some p.2)

theorem releasePayload_spec (cb : PxCallableT) (a : ℕ) :
    Triple (payloadAt cb a) (releasePayload (some a)) fun _ => 1 := by
  refine Triple.iSup fun c => Triple.read_bind ?_
  refine Triple.seq (pxCallableFree_spec cb c) (mul_comm _ _) fun c' => ?_
  refine Triple.perm (pointsTo a (.payload c) * 1) (mul_comm _ _) (Triple.write_bind ?_)
  rw [mul_one]
  exact Triple.free

theorem releaseInputs_spec (v : Value) (cb : PxCallableT) (a payload : ℕ) :
    Triple (inputsAt ⟨some v, some cb⟩ (a, payload)) (do
      valueFree (some a)
      releasePayload (some payload)) fun _ => 1 :=
  Triple.seq (valueFree_spec (some v) (some a)) rfl fun _ =>
    Triple.perm _ (one_mul _) (releasePayload_spec cb payload)

/-- The blocks a string is in are known from its pointer. -/
theorem chars_eq {p : Ptr} {q : Option ℕ} {s t : Separation.Heap Block} (hs : chars p q s)
    (ht : chars p q t) : s = t := by
  cases p with
  | none =>
    cases q with
    | none => exact (one_iff.mp hs).trans (one_iff.mp ht).symm
    | some a => exact hs.elim
  | some bs =>
    cases q with
    | none => exact hs.elim
    | some a => exact Eq.trans hs ht.symm

/-- A copy from inside a buffer. -/
theorem load_bytesAt {bs t : List UInt8} {i n : ℕ} (h : bytesAt bs i n = .ok t)
    (rest : List UInt8) : load (some ((bs ++ rest).drop i)) n = .ok t := by
  unfold bytesAt at h
  split at h
  · next hin =>
    cases h
    have hn : n ≤ (bs.drop i).length := by
      rw [List.length_drop]
      omega
    rw [List.drop_append_of_le_length (by omega), load_some _ _ (by rw [List.length_append]; omega),
      List.take_append_of_le_length hn]
  · cases h

/-- A C string is read up to its first NUL. -/
theorem cText_bind {text : List UInt8} {a : ℕ} {β : Type} {f : List UInt8 → Code β}
    {F : Assertion Block} {Q : β → Assertion Block}
    (h : Triple (chars (cstr text) (some a) * F) (f (printed text)) Q) :
    Triple (chars (cstr text) (some a) * F) (cText (some a) >>= f) Q := by
  simp only [cText, bind_assoc]
  refine readChars_bind (Triple.attempt_bind ?_ h)
  rw [initialised_map]
  exact cText_cstr text

theorem printed_eq {s : List UInt8} (h : 0 ∉ s) : printed s = s :=
  List.takeWhile_eq_self_iff.mpr fun _ hc => decide_eq_true fun h0 => h (h0 ▸ hc)

theorem load_terminated (s : List UInt8) : load (cstr s) (s.length + 1) = .ok (s ++ [0]) := by
  have hself := load_self (s ++ [0])
  rwa [List.length_append] at hself

/-- The passes over a slice see the bytes of the file. -/
theorem scan_bind {src : PxSlice} {bytes : List UInt8} (hlen : src.len = bytes.length) {α : Type}
    {f : List UInt8 → Except Fault α} {a : α} (hf : f bytes = .ok a)
    {β : Type} {g : α → Code β} {Q : β → Assertion Block}
    (h : Triple (chars (cstr bytes) (some src.data)) (g a) Q) :
    Triple (chars (cstr bytes) (some src.data)) (src.scan f >>= g) Q := by
  rw [← mul_one (chars _ _)] at h ⊢
  simp only [PxSlice.scan, bind_assoc]
  refine readChars_bind (Triple.attempt_bind ?_ (Triple.attempt_bind hf h))
  rw [initialised_map, hlen]
  exact load_cstr bytes

section
variable [Allocator Block]

/-! ## Named callables -/

theorem strdupOrDie_spec {p q : Ptr} {len : ℕ} (h : Bridge.strdupOrDie p len = .ok q) :
    Triple 1 (strdupOrDie (.object p) len) fun a => chars q (some a) := by
  obtain ⟨bs, hbs, rfl⟩ := map_ok h
  exact (copyTerminated_spec (Source.shows_object p) hbs).post fun _ => (mul_one _).le

theorem resolveFunction_spec (fnName : ZStr) :
    Triple 1 (resolveFunction fnName) (Ends resolved (.ok (.ofFunction (cstr fnName)))) := by
  refine Triple.bind (strdupOrDie_spec (strdupOrDie_val fnName)) fun a => Triple.pure ?_
  refine le_iSup₂_of_le rfl rfl (le_of_eq ?_)
  simp only [PxCallableT.ofFunction, Callable.ofFunction, chars, child, mul_one, one_mul]

theorem ofMethod_spec {p q : Ptr} {m n : ℕ} {cls fn : Ptr}
    (hcls : Bridge.strdupOrDie p m = .ok cls) (hfn : Bridge.strdupOrDie q n = .ok fn) :
    Triple 1 (do
      let className ← strdupOrDie (.object p) m
      let fnName ← strdupOrDie (.object q) n
      return .ok (.ofMethod className fnName)) (Ends resolved (.ok (.ofMethod cls fn))) := by
  refine Triple.bind (strdupOrDie_spec hcls) fun a => ?_
  refine Triple.seq (strdupOrDie_spec hfn) (one_mul _).symm fun b => Triple.pure ?_
  refine le_iSup₂_of_le rfl rfl (le_of_eq ?_)
  simp only [PxCallableT.ofMethod, Callable.ofMethod, chars, child, mul_one]
  exact mul_comm _ _

theorem resolveMethod_spec (className fnName : ZStr) :
    Triple 1 (resolveMethod className fnName)
      (Ends resolved (.ok (.ofMethod (cstr className) (cstr fnName)))) :=
  ofMethod_spec (strdupOrDie_val className) (strdupOrDie_val fnName)

theorem resolveString_spec (s : ZStr) :
    Triple 1 (resolveString s) (Ends resolved (Bridge.resolveString s)) := by
  rw [resolveString_eq]
  unfold resolveString splitName
  cases s.findIdx? (· = colon) with
  | none => exact resolveFunction_spec s
  | some sep =>
    dsimp only
    split
    · exact ofMethod_spec (strdupOrDie_take s (by omega)) (strdupOrDie_drop s (by omega))
    · exact resolveFunction_spec s

theorem resolveArray_spec (ht : HashTable) :
    Triple 1 (resolveArray ht) (Ends resolved (Bridge.resolveArray ht)) := by
  unfold Bridge.resolveArray resolveArray
  split
  · exact ends_thrown _
  cases zendHashIndexFind ht 0 with
  | none => exact ends_thrown _
  | some first =>
    cases zendHashIndexFind ht 1 with
    | none => cases first <;> exact ends_thrown _
    | some second =>
      cases second with
      | string fnName =>
        cases first with
        | string className =>
          dsimp only
          rw [resolveMethod_eq]
          exact resolveMethod_spec className fnName
        | _ => exact ends_thrown _
      | _ => cases first <;> exact ends_thrown _

/-! ## The source text of a closure -/

def Extracts : Extracted → Extraction → Assertion Block
  | .text t, .text a => chars (cstr t) (some a)
  | .failed err, .failed p => ⨆ _ : 0 ∉ ascii err.toList, chars (cstr (ascii err.toList)) p
  | _, _ => ⊥

theorem strdup_spec (s : String) (hs : 0 ∉ ascii s.toList) :
    Triple 1 (strdup s) fun p => Extracts (.failed s) (.failed p) := by
  have hdup : Parallax.dupCstr (cstr (ascii s.toList)) = .ok (cstr (ascii s.toList)) :=
    dupCstr_cstr hs []
  refine (dupCstr_spec (Source.shows_object _) hdup).post fun p => ?_
  rw [mul_one]
  exact le_iSup_of_le hs le_rfl

section Slices
variable {src : PxSlice} {bytes : List UInt8} (hlen : src.len = bytes.length)

theorem fail_spec (err : String) (herr : 0 ∉ ascii err.toList) :
    Triple (chars (cstr bytes) (some src.data)) (src.fail err) (Extracts (.failed err)) :=
  Triple.bind free_chars fun _ => Triple.bind (strdup_spec err herr) fun _ => Triple.pure le_rfl

include hlen

theorem extractSlice_spec {lineStart : ℤ} {x : Extracted}
    (h : Closure.extractSlice bytes lineStart = .ok x) :
    Triple (chars (cstr bytes) (some src.data)) (extractSlice src lineStart) (Extracts x) := by
  obtain ⟨line, hline, h⟩ := bind_ok h
  refine scan_bind hlen hline ?_
  cases line with
  | none =>
    cases h
    exact fail_spec _ (by decide)
  | some lineOff =>
  obtain ⟨keyword, hkeyword, h⟩ := bind_ok h
  refine scan_bind hlen hkeyword ?_
  cases keyword with
  | none =>
    cases h
    exact fail_spec _ (by decide)
  | some fnOff =>
  obtain ⟨opened, hopened, h⟩ := bind_ok h
  refine scan_bind hlen hopened ?_
  cases opened with
  | none =>
    cases h
    exact fail_spec _ (by decide)
  | some braceOpen =>
  obtain ⟨closed, hclosed, h⟩ := bind_ok h
  refine scan_bind hlen hclosed ?_
  cases closed with
  | none =>
    cases h
    exact fail_spec _ (by decide)
  | some bodyEnd =>
  obtain ⟨start, hstart, h⟩ := bind_ok h
  obtain ⟨t, ht, h⟩ := bind_ok h
  cases h
  refine scan_bind hlen hstart ?_
  have hcopy := copyTerminated_spec (Source.shows_inside (bytes ++ [0]) src.data start)
    (load_bytesAt ht [0])
  refine Triple.bind hcopy fun out => ?_
  refine Triple.perm _ (mul_comm _ _) (free_chars_bind (Triple.pure le_rfl))

end Slices

/-- The buffer holds the file, and a NUL behind it. -/
def FileRead : Option (List UInt8) → Option PxSlice → Assertion Block
  | none, none => 1
  | some bytes, some src => ⨆ _ : src.len = bytes.length, chars (cstr bytes) (some src.data)
  | _, _ => ⊥

theorem readFileAll_spec (readFile : List UInt8 → Option (List UInt8)) (path : List UInt8) :
    Triple 1 (readFileAll readFile path) (FileRead (readFile path)) := by
  unfold readFileAll
  cases readFile path with
  | none => exact Triple.pure le_rfl
  | some bytes =>
    have hcopy := copyTerminated_spec (Source.shows_object (some bytes)) (load_self bytes)
    exact Triple.bind hcopy fun data => Triple.pure (le_iSup_of_le rfl (mul_one _).le)

theorem extractClosureText_spec {readFile : List UInt8 → Option (List UInt8)}
    {filename : List UInt8} {lineStart : ℤ} {x : Extracted}
    (h : Closure.extractClosureText readFile (some filename) lineStart = .ok x) :
    Triple 1 (extractClosureText readFile filename lineStart) (Extracts x) := by
  unfold Closure.extractClosureText at h
  unfold extractClosureText
  split at h
  · next hrefused =>
    cases h
    rw [if_pos hrefused]
    exact Triple.bind (strdup_spec _ (by decide)) fun _ => Triple.pure le_rfl
  next hrefused =>
  rw [if_neg hrefused]
  rw [Option.bind_some] at h
  refine Triple.bind (readFileAll_spec readFile filename) fun o => ?_
  cases hread : readFile filename with
  | none =>
    rw [hread] at h
    cases h
    cases o with
    | none => exact Triple.bind (strdup_spec _ (by decide)) fun _ => Triple.pure le_rfl
    | some src => exact Triple.bot
  | some bytes =>
    rw [hread] at h
    cases o with
    | none => exact Triple.bot
    | some src => exact Triple.iSup fun hlen => extractSlice_spec hlen h

/-! ## Captured variables -/

theorem capturesLoop_spec (h : Bridge.Heap) {uses : HashTable} {v : Value} {a : ℕ}
    (hr : Faultless (Bridge.capturesLoop h uses v)) :
    Triple (tree v a) (capturesLoop h uses a) (Captured (Bridge.capturesLoop h uses v)) := by
  induction uses generalizing v with
  | nil => exact Triple.pure le_rfl
  | cons p rest ih =>
    obtain ⟨key, slot⟩ := p
    cases key with
    | int idx => exact ih hr
    | str key =>
      rw [Bridge.capturesLoop] at hr ⊢
      rw [capturesLoop]
      split at hr
      · next href =>
        rw [if_pos href, if_pos href]
        exact giveUp_spec v a _
      split at hr
      · next href hundef =>
        rw [if_neg href, if_neg href, if_pos hundef, if_pos hundef]
        exact giveUp_spec v a _
      next href hundef =>
      rw [if_neg href, if_neg href, if_neg hundef, if_neg hundef]
      refine ends_bind hr (one_mul _).symm (fun _ => pxZvalToValue_spec h slot)
        (fun e => giveUp_spec v a e) fun c b _ hrest => ?_
      obtain ⟨w, hw, heq⟩ := checked_ok hrest
      rw [heq] at hrest ⊢
      exact Triple.seq (valueArrSetStr_object (q := some b) hw) (by rw [mul_one, mul_comm]; rfl)
        fun _ => Triple.perm _ (mul_one _) (ih hrest)

theorem snapshotCaptures_spec (h : Bridge.Heap) (fn : ZendFunction)
    (hr : Faultless (Bridge.snapshotCaptures h fn)) :
    Triple 1 (snapshotCaptures h fn) (Captured (Bridge.snapshotCaptures h fn)) := by
  refine Triple.bind (valueArr_spec 0) fun a => ?_
  unfold Bridge.snapshotCaptures at hr ⊢
  cases huses : fn.staticVariables with
  | none => exact Triple.pure le_rfl
  | some uses =>
    rw [huses] at hr
    exact capturesLoop_spec h hr

/-! ## Closures -/

theorem pxResolveInlineClosure_spec (w : World) (closure : ZendClosure) :
    Triple 1 (pxResolveInlineClosure w closure)
      (Ends resolved (Bridge.pxResolveInlineClosure w closure)) := by
  have hr := pxResolveInlineClosure_faultless w closure
  unfold Bridge.pxResolveInlineClosure at hr ⊢
  unfold pxResolveInlineClosure
  cases hfn : closure.func with
  | none => exact ends_thrown _
  | some fn =>
  rw [hfn] at hr
  dsimp only at hr ⊢
  split at hr
  · next huser =>
    rw [if_pos huser, if_pos huser]
    exact ends_thrown _
  split at hr
  · next huser hbound =>
    rw [if_neg huser, if_neg huser, if_pos hbound, if_pos hbound]
    exact ends_thrown _
  next huser hbound =>
  rw [if_neg huser, if_neg huser, if_neg hbound, if_neg hbound]
  cases hfile : fn.filename with
  | none => exact ends_thrown _
  | some fname =>
  rw [hfile] at hr
  dsimp only at hr ⊢
  split at hr
  · next hempty =>
    rw [if_pos hempty, if_pos hempty]
    exact ends_thrown _
  next hempty =>
  rw [if_neg hempty, if_neg hempty]
  obtain ⟨x, hx, heq⟩ := checked_ok hr
  rw [heq] at hr ⊢
  refine Triple.bind (extractClosureText_spec hx) fun o => ?_
  cases x with
  | failed err =>
    cases o with
    | text a => exact Triple.bot
    | failed p =>
      refine Triple.iSup fun herr => ?_
      cases p with
      | none => exact Triple.bot
      | some a =>
        refine Triple.perm (chars (cstr (ascii err.toList)) (some a) * 1) (mul_one _).symm ?_
        refine cText_bind (free_chars_bind ?_)
        rw [printed_eq herr]
        exact ends_thrown _
  | text text =>
    cases o with
    | failed p => exact Triple.bot
    | text a =>
      dsimp only at hr ⊢
      refine ends_bind hr (one_mul _).symm (snapshotCaptures_spec w.heap fn) (fun e => ?_)
        fun c b _ hrest => ?_
      · exact Triple.perm (chars (cstr text) (some a) * 1) (mul_one _).symm
          (free_chars_bind (ends_thrown e))
      · obtain ⟨t, ht, heq⟩ := checked_ok hrest
        rw [heq]
        rw [cText_cstr] at ht
        cases ht
        refine Triple.perm _ (mul_comm _ _) (cText_bind ?_)
        have hwrapper := load_terminated (wrapperText (printed text))
        refine Triple.perm (1 * (chars (cstr text) (some a) * tree c b)) (one_mul _).symm
          (mallocCopy_bind (Source.shows_object _) hwrapper fun p => ?_)
        refine Triple.perm (chars (cstr text) (some a) *
          (chars (cstr (wrapperText (printed text))) (some p) * tree c b))
          (by rw [one_mul]; ac_rfl) (free_chars_bind (Triple.pure (le_iSup₂_of_le rfl rfl ?_)))
        simp only [PxCallableT.ofClosure, Callable.ofClosure, chars, child, one_mul]
        exact le_rfl

theorem pxResolveCallable_spec (w : World) (callable : Zval) :
    Triple 1 (pxResolveCallable w callable)
      (Ends resolved (Bridge.pxResolveCallable w callable)) := by
  unfold Bridge.pxResolveCallable pxResolveCallable
  cases callable with
  | string s => exact resolveString_spec s
  | array a => exact resolveArray_spec (w.heap.array a)
  | object o =>
    dsimp only
    split
    · unfold Bridge.resolveClosure resolveClosure
      cases hfn : (w.closure o).func with
      | none => exact ends_thrown _
      | some fn =>
        dsimp only
        split
        · cases fn.scope with
          | none =>
            dsimp only
            rw [strdupOrDie_val]
            exact resolveFunction_spec fn.functionName
          | some scope =>
            dsimp only
            rw [resolveMethod_eq]
            exact resolveMethod_spec scope fn.functionName
        · exact pxResolveInlineClosure_spec w (w.closure o)
    · exact ends_thrown _
  | _ => exact ends_thrown _

/-! ## go() -/

theorem withBootstrap_spec {cb cb' : PxCallableT} {c : Callable} {bootstrap : Ptr} {q : Option ℕ}
    (h : Binding.withBootstrap cb bootstrap = .ok cb') :
    Triple (resolved cb c * chars bootstrap q) (withBootstrap c q) fun c' =>
      recipe cb' c' * chars bootstrap q := by
  refine Triple.iSup_mul fun hb => Triple.perm _ (mul_comm _ _) ?_
  cases bootstrap with
  | none =>
    cases h
    cases q with
    | none => exact Triple.pure (mul_comm _ _).le
    | some a => exact Triple.bot_mul
  | some bs =>
    obtain ⟨copy, hcopy, rfl⟩ := map_ok h
    cases q with
    | none => exact Triple.bot_mul
    | some a =>
      refine Triple.seq (dupCstr_spec (Source.shows_chars (some bs) (some a)) hcopy) rfl
        fun t => Triple.pure ?_
      refine Assertion.mul_iSup_le fun hkind => ?_
      rw [hb]
      calc chars copy t * chars (some bs) (some a) * (chars cb.className c.className *
            (chars cb.fnName c.fnName * (chars none c.bootstrap * (chars cb.closureWrapper
              c.closureWrapper * child cb.closureCaptures c.closureCaptures))))
          = chars none c.bootstrap * (chars cb.className c.className * (chars cb.fnName c.fnName *
              (chars copy t * (chars cb.closureWrapper c.closureWrapper *
                child cb.closureCaptures c.closureCaptures))) * chars (some bs) (some a)) := by
            ac_rfl
        _ ≤ _ := chars_none_mul ?_
      exact mul_le_mul' (le_iSup_of_le hkind le_rfl) le_rfl

theorem goInputs_spec (w : World) {bootstrap : Ptr} {q : Option ℕ} {task : Zval}
    {args : Option HashTable} (hr : Faultless (Binding.goInputs w bootstrap task args)) :
    Triple (chars bootstrap q) (goInputs w q task args) fun o =>
      Ends inputsAt (Binding.goInputs w bootstrap task args) o * chars bootstrap q := by
  refine ends_bind (Q := fun r o => Ends inputsAt r o * chars bootstrap q) hr (one_mul _).symm
    (fun _ => pxResolveCallable_spec w task) (fun e => ?_) fun cb c _ hrest => ?_
  · exact Triple.pure ((one_mul _).ge.trans (mul_le_mul' (le_iSup_of_le rfl le_rfl) le_rfl))
  refine ends_bind (Q := fun r o => Ends inputsAt r o * chars bootstrap q) hrest (one_mul _).symm
    (fun _ => goArgs_spec w.heap args) (fun e => ?_) fun v a _ hlast => ?_
  · refine Triple.seq (resolved_free cb c) rfl fun _ => Triple.pure ?_
    exact mul_le_mul' (le_iSup_of_le rfl le_rfl) le_rfl
  obtain ⟨cb', hcb, heq⟩ := checked_ok hlast
  rw [heq]
  refine Triple.seq (F := tree v a) (withBootstrap_spec hcb) (mul_comm _ _) fun c' => ?_
  refine Triple.malloc_bind fun payload => Triple.pure ?_
  calc pointsTo payload (.payload c') * (recipe cb' c' * chars bootstrap q * tree v a)
      = tree v a * (pointsTo payload (.payload c') * recipe cb' c') * chars bootstrap q := by ac_rfl
    _ ≤ _ := mul_le_mul' (mul_le_mul' le_rfl (le_iSup_of_le c' le_rfl)) le_rfl

/-- A `go()` that throws costs nothing, however far it came; what it hands to `wg_go` otherwise is
on blocks of its own, which the release of the arguments and of the payload gives back. -/
theorem goInputs_leaves (w : World) {bootstrap : Ptr} (hpath : PathPtr bootstrap) (task : Zval)
    (args : Option HashTable) {q : Option ℕ} {copy rest : Separation.Heap Block}
    (hq : chars bootstrap q copy) (hd : copy.Disjoint rest) :
    (∃ e, Binding.goInputs w bootstrap task args = .error (.thrown e) ∧
        goInputs w q task args (copy ∪ rest) = .ok (.error e, copy ∪ rest)) ∨
      ∃ v cb a payload own, Binding.goInputs w bootstrap task args = .ok ⟨some v, some cb⟩ ∧
        goInputs w q task args (copy ∪ rest) = .ok (.ok (a, payload), own ∪ (copy ∪ rest)) ∧
        own.Disjoint (copy ∪ rest) ∧ inputsAt ⟨some v, some cb⟩ (a, payload) own ∧
        (do valueFree (some a); releasePayload (some payload)) (own ∪ (copy ∪ rest)) =
          .ok ((), copy ∪ rest) := by
  have hr := goInputs_faultless w hpath task args
  obtain ⟨o, t, hrun, ht, own, copy', hown, rfl, ho, hcopy⟩ := (goInputs_spec w hr).run hq rest hd
  obtain rfl := chars_eq hcopy hq
  obtain ⟨hrest, -⟩ := (Finmap.disjoint_union_left _ _ _).mp ht
  have hdisjoint := (Finmap.disjoint_union_right _ _ _).mpr ⟨hown, hrest⟩
  rw [Finmap.union_assoc] at hrun
  cases hinp : Binding.goInputs w bootstrap task args with
  | error stop =>
    cases stop with
    | fault f => exact absurd hinp (hr f)
    | thrown e =>
      rw [hinp] at ho
      cases o with
      | ok p => exact ho.elim
      | error e' =>
        obtain ⟨rfl, hnone⟩ := iSup_iff.mp ho
        rw [one_iff.mp hnone, Finmap.empty_union] at hrun
        exact Or.inl ⟨e', rfl, hrun⟩
  | ok inp =>
    rw [hinp] at ho
    obtain ⟨cb, -, hinp⟩ := bind_ok hinp
    obtain ⟨v, -, hinp⟩ := bind_ok hinp
    obtain ⟨cb', -, hinp⟩ := bind_ok hinp
    cases hinp
    cases o with
    | error e => exact ho.elim
    | ok p =>
      obtain ⟨_, hfree⟩ := (releaseInputs_spec v cb' p.1 p.2).releases ho hdisjoint
      exact Or.inr ⟨v, cb', p.1, p.2, own, rfl, hrun, hdisjoint, ho, hfree⟩

end

/-! ### A closure, an argument and a bootstrap path -/

def closureText : List UInt8 := ascii "function() use ($x) \x7b return $x; \x7d".toList

/-- One closure, on line 2 of the file `f`, with its variable `x`. -/
def closureWorld : World where
  heap :=
    { array := fun _ => []
      object := fun _ => ⟨⟨ascii "Closure".toList, true, .zendObjectsNew, [], List.nodup_nil⟩,
        fun _ => .undef, none, List.nodup_nil, fun _ _ => List.not_mem_nil⟩
      reference := fun _ => .null }
  closure := fun _ =>
    ⟨some ⟨true, false, ascii "closure".toList, none, some (ascii ['f']), 2,
      some [(.str (ascii ['x']), .long 5)]⟩, none, .undef⟩
  readFile := fun path =>
    if path = ascii ['f'] then
      some (ascii "<?php\n$f = ".toList ++ closureText ++ ascii ";\n".toList)
    else none

def closureArgs : Value := .arr ⟨4, [intEntry 0 (some (.long 1))], 4⟩

def closureRecipe : PxCallableT :=
  ⟨.closure, none, none, cstr (ascii ['b']), cstr (wrapperText closureText),
    some (.arr ⟨4, [strKv (ascii ['x']) (some (.long 5))], 4⟩)⟩

/-- The block of the path `b`. -/
def pathHeap : Separation.Heap Block := Finmap.singleton 0 (.bytes [some 0x62, some 0])

/-- `$wg->go($f, [1]);` for an object with a bootstrap path. -/
theorem goInputs_leaves_closure : ∃ a payload own,
    Binding.goInputs closureWorld (cstr (ascii ['b'])) (.object 0) (some [(.int 0, .long 1)]) =
        .ok ⟨some closureArgs, some closureRecipe⟩ ∧
      @goInputs (Allocator.above Block) closureWorld (some 0) (.object 0)
          (some [(.int 0, .long 1)]) (pathHeap ∪ ∅) =
        .ok (.ok (a, payload), own ∪ (pathHeap ∪ ∅)) ∧
      own.Disjoint (pathHeap ∪ ∅) ∧ inputsAt ⟨some closureArgs, some closureRecipe⟩ (a, payload) own ∧
      (do valueFree (some a); releasePayload (some payload)) (own ∪ (pathHeap ∪ ∅)) =
        .ok ((), pathHeap ∪ ∅) := by
  have hpath : PathPtr (cstr (ascii ['b'])) := fun bs hbs => ⟨ascii ['b'], (Option.some.inj hbs).symm⟩
  have hchars : chars (cstr (ascii ['b'])) (some 0) pathHeap := rfl
  have hinputs : Binding.goInputs closureWorld (cstr (ascii ['b'])) (.object 0)
      (some [(.int 0, .long 1)]) = .ok ⟨some closureArgs, some closureRecipe⟩ := rfl
  obtain ⟨e, he, -⟩ | ⟨v, cb, a, payload, own, hok, h⟩ := @goInputs_leaves (Allocator.above Block)
    closureWorld _ hpath (.object 0) (some [(.int 0, .long 1)]) _ pathHeap ∅ hchars
    (Finmap.Disjoint.symm _ _ (Finmap.disjoint_empty pathHeap))
  · rw [hinputs] at he
    cases he
  · rw [hinputs] at hok
    cases hok
    exact ⟨a, payload, own, hinputs, h⟩

end Parallax.Stored
