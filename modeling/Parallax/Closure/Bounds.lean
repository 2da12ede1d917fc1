import Parallax.Closure.Exact

/-! No file leads a scanner out of its buffers, and the offsets of a slice are in order. -/
namespace Parallax.Closure
open Memory Scan Byte
set_option autoImplicit false
set_option maxHeartbeats 250000

/-! ## What a scan finds -/

theorem lexByte_stop {σ : Type} {code : CodeStep σ} {i : ℕ} {c n : UInt8} {st : ScanState}
    {acc : σ} {r : ℕ} (h : lexByte code i c n st acc = .ok (.stop r)) :
    code i c n acc = .ok (.stop r) := by
  unfold lexByte at h
  cases st <;> dsimp only at h <;> split_ifs at h <;> first | exact h | cases h

theorem scanCode_found {σ : Type} {src : List UInt8} {code : CodeStep σ} (hf : CodeForward code)
    {start : ℕ} {acc : σ} {r : ℕ} (h : scanCode src code start acc = .ok (some r)) :
    ∃ i c n acc', start ≤ i ∧ src[i]? = some c ∧ code i c n acc' = .ok (.stop r) := by
  obtain ⟨x, hx, hr⟩ := map_ok h
  have hfwd : Forward (lexStep src code) := lexStep_forward hf
  have hstop : ∀ i (s : ScanState × σ) r, i < src.length → start ≤ i →
      lexStep src code i s = .ok (.stop r) →
      ∃ i c n acc', start ≤ i ∧ src[i]? = some c ∧ code i c n acc' = .ok (.stop r) := by
    intro i s r hlt hi hs
    rw [lexStep, byteAt_ok hlt, ok_bind] at hs
    obtain ⟨n, -, hs⟩ := bind_ok hs
    exact ⟨i, src[i], n, s.2, hi, List.getElem?_eq_getElem hlt, lexByte_stop hs⟩
  rcases scanFrom_inv hfwd (fun i s s' j _ hi hs => hi.trans (hfwd i s s' j hs).le) hstop le_rfl hx
    with ⟨r', rfl, hq⟩ | ⟨s', j, rfl, -, -⟩
  · cases hr
    exact hq
  · cases hr

theorem scanFindKeyword_found {src word : List UInt8} (hne : word ≠ []) {start f : ℕ}
    (h : scanFindKeyword src start word = .ok (some f)) :
    start ≤ f ∧ f < src.length ∧ wordAt src word f = true := by
  obtain ⟨i, c, n, _, hi, hc, hs⟩ := scanCode_found (keywordStep_forward src word) h
  have hlt := (List.getElem?_eq_some_iff.mp hc).1
  unfold keywordStep at hs
  obtain ⟨heredoc, -, hs⟩ := bind_ok hs
  cases heredoc with
  | true =>
    obtain ⟨j, -, hs⟩ := bind_ok hs
    cases hs
  | false =>
    rw [keywordAt_eq _ hne] at hs
    obtain ⟨found, hfound, hs⟩ := bind_ok hs
    cases found with
    | true =>
      cases hs
      exact ⟨hi, hlt, Except.ok.inj hfound⟩
    | false => cases hs

theorem scanBraceMatch_found {src : List UInt8} {start e : ℕ}
    (h : scanBraceMatch src start = .ok (some e)) : e ≤ src.length := by
  unfold scanBraceMatch at h
  by_cases hlen : src.length ≤ start
  · rw [if_pos hlen] at h
    cases h
  rw [if_neg hlen] at h
  obtain ⟨c, -, h⟩ := bind_ok h
  by_cases hc : c ≠ lbrace
  · rw [if_pos hc] at h
    cases h
  rw [if_neg hc] at h
  obtain ⟨i, d, n, acc, -, hd, hs⟩ := scanCode_found braceMatchStep_forward h
  unfold braceMatchStep at hs
  split_ifs at hs <;> cases hs
  exact (List.getElem?_eq_some_iff.mp hd).1

/-! ## The parts of the heredoc branch -/

section Parts
variable {src : List UInt8}

theorem map_total {ε α β : Type} {x : Except ε α} (f : α → β) (h : ∃ a, x = .ok a) :
    ∃ b, x.map f = .ok b := by
  obtain ⟨a, rfl⟩ := h
  exact ⟨f a, rfl⟩

theorem skipStep_forward (p : UInt8 → Bool) : Forward (skipStep src p) := by
  intro i s s' j h
  obtain ⟨c, -, h⟩ := bind_ok h
  cases hp : p c <;> rw [hp] at h <;> cases h
  exact Nat.lt_succ_self i

theorem skipWhile_total (src : List UInt8) (p : UInt8 → Bool) (j : ℕ) :
    ∃ k, skipWhile src p j = .ok k := by
  apply map_total
  apply scanFrom_total (skipStep_forward p) (P := fun _ _ => True) _ trivial
  intro i s hi _
  rw [skipStep, byteAt_ok hi, ok_bind]
  exact ⟨_, rfl, fun _ _ _ => trivial⟩

theorem quoteAt_total (src : List UInt8) (j : ℕ) : ∃ b, quoteAt src j = .ok b := by
  unfold quoteAt
  split
  · next hj =>
    rw [byteAt_ok hj]
    exact ⟨_, rfl⟩
  · exact ⟨false, rfl⟩

theorem labelStep_forward : Forward (labelStep src) := by
  intro i s s' j h
  obtain ⟨c, -, h⟩ := bind_ok h
  split_ifs at h
  · obtain ⟨l, -, h⟩ := bind_ok h
    cases h
    exact Nat.lt_succ_self i
  · cases h

theorem labelWrite_ok {label : List UInt8} (c : UInt8) (h : label.length < 64) :
    labelWrite label c = .ok (label ++ [c]) := if_pos h

/-- The label never takes the byte that its NUL needs. -/
theorem heredocLabel_total (src : List UInt8) (j : ℕ) : ∃ r, heredocLabel src j = .ok r := by
  have hstep : ∀ i (label : List UInt8), i < src.length → label.length < 64 →
      ∃ v, labelStep src i label = .ok v ∧
        (∀ label' j, v = .next label' j → label'.length < 64) ∧
        ∀ label' j, v = .stop (label', j) → label'.length < 64 := by
    intro i label hi hl
    rw [labelStep, byteAt_ok hi, ok_bind]
    split_ifs with hc
    · rw [labelWrite_ok _ hl]
      refine ⟨_, rfl, fun label' j h => ?_, fun label' j h => by cases h⟩
      cases h
      simpa using hc.2
    · refine ⟨_, rfl, fun label' j h => by (cases h), fun label' j h => ?_⟩
      cases h
      exact hl
  obtain ⟨x, hx⟩ := scanFrom_total (e := Fault.outOfFuel) labelStep_forward
    (P := fun _ label => label.length < 64) (fun i label hi hl => by
      obtain ⟨v, hv, hnext, -⟩ := hstep i label hi hl
      exact ⟨v, hv, hnext⟩) (i := j) (s := []) (by simp)
  have hend := scanFrom_inv labelStep_forward (P := fun _ label => label.length < 64)
    (Q := fun r => r.1.length < 64) (fun i label label' j hi hl hs => by
      obtain ⟨v, hv, hnext, -⟩ := hstep i label hi hl
      exact hnext label' j (Except.ok.inj (hv.symm.trans hs))) (fun i label r hi hl hs => by
      obtain ⟨v, hv, -, hstop⟩ := hstep i label hi hl
      exact hstop r.1 r.2 (Except.ok.inj (hv.symm.trans hs))) (by simp) hx
  unfold heredocLabel
  rw [hx, ok_bind]
  obtain ⟨r, rfl, hr⟩ | ⟨label, i, rfl, hl, -⟩ := hend
  · dsimp only
    rw [labelWrite_ok 0 hr]
    exact ⟨_, rfl⟩
  · dsimp only
    rw [labelWrite_ok 0 hl]
    exact ⟨_, rfl⟩

theorem heredocEndStep_forward (label : List UInt8) : Forward (heredocEndStep src label) := by
  intro i s s' j h
  obtain hv | ⟨k, -, hv⟩ := heredocEndStep_ok h <;> cases hv
  exact Nat.lt_succ_self i

theorem heredocEnd_total (src label : List UInt8) (j : ℕ) :
    ∃ k, heredocEnd src label j = .ok k := by
  apply map_total
  apply scanFrom_total (heredocEndStep_forward label) (P := fun _ _ => True) _ trivial
  intro i s hi _
  obtain ⟨k, hk⟩ := skipWhile_total src isBlank (i + 1)
  rw [heredocEndStep, byteAt_ok hi, ok_bind]
  split_ifs with hnewline
  · rw [hk, ok_bind]
    split_ifs with hlen
    · rw [bytesAt_ok hlen, ok_bind]
      split_ifs with hlabel
      · rw [wordEnds_eq hlen]
        exact ⟨_, rfl, fun _ _ _ => trivial⟩
      · exact ⟨_, rfl, fun _ _ _ => trivial⟩
    · exact ⟨_, rfl, fun _ _ _ => trivial⟩
  · exact ⟨_, rfl, fun _ _ _ => trivial⟩

theorem heredocSkip_total (src : List UInt8) (i : ℕ) : ∃ j, heredocSkip src i = .ok j := by
  obtain ⟨j, hj⟩ := skipWhile_total src isBlank (i + 3)
  obtain ⟨nowdoc, hq⟩ := quoteAt_total src j
  rw [heredocSkip, hj, ok_bind, hq, ok_bind]
  cases nowdoc with
  | true =>
    obtain ⟨⟨label, k⟩, hl⟩ := heredocLabel_total src (j + 1)
    obtain ⟨closed, hc⟩ := quoteAt_total src k
    rw [if_pos rfl, hl, ok_bind]
    dsimp only
    rw [hc, ok_bind]
    exact heredocEnd_total src label _
  | false =>
    obtain ⟨⟨label, k⟩, hl⟩ := heredocLabel_total src j
    rw [if_neg Bool.false_ne_true, hl, ok_bind]
    exact heredocEnd_total src label k

theorem heredocOpens_total (src : List UInt8) (i : ℕ) (c n : UInt8) :
    ∃ b, heredocOpens src i c n = .ok b := by
  unfold heredocOpens
  split_ifs with h
  · rw [byteAt_ok h.2.2]
    exact ⟨_, rfl⟩
  · exact ⟨false, rfl⟩

end Parts

/-! ## The scanners -/

section Scanners
variable {src : List UInt8} {σ : Type}

/-- A scanner's own part never fails. -/
def CodeTotal (code : CodeStep σ) : Prop := ∀ i c n acc, ∃ v, code i c n acc = .ok v

theorem lexByte_total {code : CodeStep σ} (ht : CodeTotal code) (i : ℕ) (c n : UInt8)
    (st : ScanState) (acc : σ) : ∃ v, lexByte code i c n st acc = .ok v := by
  unfold lexByte
  cases st <;> dsimp only <;> split_ifs <;> first | exact ⟨_, rfl⟩ | exact ht i c n acc

theorem lexStep_total {code : CodeStep σ} (ht : CodeTotal code) (i : ℕ) (s : ScanState × σ)
    (hi : i < src.length) : ∃ v, lexStep src code i s = .ok v := by
  have hnext : ∃ n, nextByte src i = .ok n := by
    unfold nextByte
    split_ifs with hn
    · exact ⟨_, byteAt_ok hn⟩
    · exact ⟨0, rfl⟩
  obtain ⟨n, hn⟩ := hnext
  rw [lexStep, byteAt_ok hi, ok_bind, hn, ok_bind]
  exact lexByte_total ht i src[i] n s.1 s.2

theorem scanCode_total {code : CodeStep σ} (hf : CodeForward code) (ht : CodeTotal code) (start : ℕ)
    (acc : σ) : ∃ r, scanCode src code start acc = .ok r := by
  apply map_total
  apply scanFrom_total (lexStep_forward hf) (P := fun _ _ => True) _ trivial
  intro i s hi _
  obtain ⟨v, hv⟩ := lexStep_total ht i s hi
  exact ⟨v, hv, fun _ _ _ => trivial⟩

theorem keywordStep_total {word : List UInt8} (hne : word ≠ []) :
    CodeTotal (keywordStep src word) := by
  intro i c n acc
  obtain ⟨heredoc, hh⟩ := heredocOpens_total src i c n
  rw [keywordStep, hh, ok_bind]
  cases heredoc with
  | true =>
    obtain ⟨j, hj⟩ := heredocSkip_total src i
    rw [if_pos rfl, hj]
    exact ⟨_, rfl⟩
  | false =>
    rw [if_neg Bool.false_ne_true, keywordAt_eq src hne i]
    exact ⟨_, rfl⟩

theorem braceOpenStep_total : CodeTotal braceOpenStep := by
  intro i c n acc
  unfold braceOpenStep
  dsimp only
  split_ifs <;> exact ⟨_, rfl⟩

theorem braceMatchStep_total : CodeTotal braceMatchStep := by
  intro i c n acc
  unfold braceMatchStep
  split_ifs <;> exact ⟨_, rfl⟩

theorem scanFindKeyword_total (src : List UInt8) {word : List UInt8} (hne : word ≠ [])
    (start : ℕ) : ∃ r, scanFindKeyword src start word = .ok r :=
  scanCode_total (keywordStep_forward src word) (keywordStep_total hne) start ()

theorem scanBraceOpen_total (src : List UInt8) (start : ℕ) :
    ∃ r, scanBraceOpen src start = .ok r :=
  scanCode_total braceOpenStep_forward braceOpenStep_total start 0

theorem scanBraceMatch_total (src : List UInt8) (start : ℕ) :
    ∃ r, scanBraceMatch src start = .ok r := by
  unfold scanBraceMatch
  split_ifs with hlen
  · exact ⟨none, rfl⟩
  · rw [byteAt_ok (by omega), ok_bind]
    split_ifs with hc
    · exact ⟨none, rfl⟩
    · exact scanCode_total braceMatchStep_forward braceMatchStep_total start 0

theorem scanBraceOpen_found {start b : ℕ} (h : scanBraceOpen src start = .ok (some b)) :
    start ≤ b ∧ src[b]? = some lbrace := by
  obtain ⟨i, c, n, depth, hi, hc, hs⟩ := scanCode_found braceOpenStep_forward h
  unfold braceOpenStep at hs
  dsimp only at hs
  by_cases hbrace : c = lbrace
  · subst hbrace
    split_ifs at hs <;> cases hs <;> exact ⟨hi, hc⟩
  · rw [if_neg fun hstop => hbrace hstop.1] at hs
    cases hs

theorem scanBraceMatch_lt {start e : ℕ} (h : scanBraceMatch src start = .ok (some e)) :
    start < e := by
  unfold scanBraceMatch at h
  by_cases hlen : src.length ≤ start
  · rw [if_pos hlen] at h
    cases h
  rw [if_neg hlen] at h
  obtain ⟨c, -, h⟩ := bind_ok h
  by_cases hc : c ≠ lbrace
  · rw [if_pos hc] at h
    cases h
  rw [if_neg hc] at h
  obtain ⟨i, d, n, depth, hi, -, hs⟩ := scanCode_found braceMatchStep_forward h
  unfold braceMatchStep at hs
  split_ifs at hs <;> cases hs
  exact Nat.lt_succ_of_le hi

theorem wordAt_head {word : List UInt8} {c : UInt8} {i : ℕ} (h : wordAt src (c :: word) i = true) :
    src[i]? = some c := by
  have hp := (Bool.and_eq_true_iff.mp (Bool.and_eq_true_iff.mp h).1).1
  obtain ⟨rest, hrest⟩ := List.isPrefixOf_iff_prefix.mp hp
  have hget := congrArg List.head? hrest.symm
  rw [List.head?_drop] at hget
  exact hget

end Scanners

/-! ## extract_closure_text -/

theorem functionKeyword_ne_nil : functionKeyword ≠ [] := by decide

/-- The offsets of an extraction from line `L`, in their order. -/
structure Offsets (src : List UInt8) (L : ℤ) where
  lineOff : ℕ
  start : ℕ
  fnOff : ℕ
  braceOpen : ℕ
  bodyEnd : ℕ
  line : offsetOfLine src L = .ok (some lineOff)
  keyword : scanFindKeyword src lineOff functionKeyword = .ok (some fnOff)
  opened : scanBraceOpen src fnOff = .ok (some braceOpen)
  closed : scanBraceMatch src braceOpen = .ok (some bodyEnd)
  walked : staticBack src lineOff fnOff fnOff = .ok start
  lineOff_le : lineOff ≤ start
  start_le : start ≤ fnOff
  fnOff_lt : fnOff < braceOpen
  braceOpen_lt : braceOpen < bodyEnd
  bodyEnd_le : bodyEnd ≤ src.length

section Offsets
variable {src : List UInt8} {L : ℤ}

/-- Scans that find something have offsets in order. -/
theorem exists_offsets {lineOff fnOff braceOpen bodyEnd : ℕ}
    (hl : offsetOfLine src L = .ok (some lineOff))
    (hf : scanFindKeyword src lineOff functionKeyword = .ok (some fnOff))
    (hb : scanBraceOpen src fnOff = .ok (some braceOpen))
    (he : scanBraceMatch src braceOpen = .ok (some bodyEnd)) :
    ∃ o : Offsets src L, o.lineOff = lineOff ∧ o.fnOff = fnOff ∧ o.braceOpen = braceOpen ∧
      o.bodyEnd = bodyEnd := by
  obtain ⟨hof, hflen, hword⟩ := scanFindKeyword_found (by decide) hf
  obtain ⟨hfb, hbrace⟩ := scanBraceOpen_found hb
  obtain ⟨start, hs, hos, hsf, -, -⟩ := staticBack_ok fnOff fnOff le_rfl hof hflen.le
    (wordAt_start hword)
  -- the keyword starts with an `f`
  have hne : fnOff ≠ braceOpen := by
    rintro rfl
    have := (wordAt_head hword).symm.trans hbrace
    cases this
  exact ⟨⟨lineOff, start, fnOff, braceOpen, bodyEnd, hl, hf, hb, he, hs, hos, hsf, by omega,
    scanBraceMatch_lt he, scanBraceMatch_found he⟩, rfl, rfl, rfl, rfl⟩

theorem Offsets.lineStart_eq (o : Offsets src L) : lineStart src L = some o.lineOff := by
  have h := o.line
  rwa [offsetOfLine_eq, Except.ok.injEq] at h

theorem Offsets.statics (o : Offsets src L) : StaticRun (slice src o.start o.fnOff) := by
  obtain ⟨hle, hlt, hword⟩ := scanFindKeyword_found (by decide) o.keyword
  obtain ⟨s, hs, -, -, hrun, -⟩ :=
    staticBack_ok o.fnOff o.fnOff le_rfl hle hlt.le (wordAt_start hword)
  cases o.walked.symm.trans hs
  exact hrun

theorem Offsets.extractSlice_eq (o : Offsets src L) :
    extractSlice src L = .ok (.text (slice src o.start o.bodyEnd)) := by
  have h1 := o.start_le
  have h2 := o.fnOff_lt
  have h3 := o.braceOpen_lt
  have h4 := o.bodyEnd_le
  unfold extractSlice
  rw [o.line, ok_bind]
  dsimp only
  rw [o.keyword, ok_bind]
  dsimp only
  rw [o.opened, ok_bind]
  dsimp only
  rw [o.closed, ok_bind]
  dsimp only
  rw [o.walked, ok_bind, bytesAt_ok (by omega), ok_bind]
  rfl

theorem Offsets.text_length (o : Offsets src L) :
    (slice src o.start o.bodyEnd).length + o.start = o.bodyEnd := by
  have h1 := o.start_le
  have h2 := o.fnOff_lt
  have h3 := o.braceOpen_lt
  have h4 := o.bodyEnd_le
  rw [slice, List.length_take, List.length_drop]
  omega

end Offsets

theorem extractSlice_safe (src : List UInt8) (L : ℤ) : ∃ x, extractSlice src L = .ok x ∧
    ∀ t, x = .text t → ∃ o : Offsets src L, t = slice src o.start o.bodyEnd := by
  have hfailed : ∀ err, ∃ x, (Except.ok (.failed err) : Except Fault Extracted) = .ok x ∧
      ∀ t, x = .text t → ∃ o : Offsets src L, t = slice src o.start o.bodyEnd := by
    intro err
    exact ⟨_, rfl, fun t ht => by cases ht⟩
  unfold extractSlice
  rw [offsetOfLine_eq, ok_bind]
  cases hl : lineStart src L with
  | none => exact hfailed _
  | some lineOff =>
  dsimp only
  obtain ⟨f?, hf⟩ := scanFindKeyword_total src functionKeyword_ne_nil lineOff
  rw [hf, ok_bind]
  cases f? with
  | none => exact hfailed _
  | some fnOff =>
  dsimp only
  obtain ⟨b?, hb⟩ := scanBraceOpen_total src fnOff
  rw [hb, ok_bind]
  cases b? with
  | none => exact hfailed _
  | some braceOpen =>
  dsimp only
  obtain ⟨e?, he⟩ := scanBraceMatch_total src braceOpen
  rw [he, ok_bind]
  cases e? with
  | none => exact hfailed _
  | some bodyEnd =>
  dsimp only
  have hline : offsetOfLine src L = .ok (some lineOff) := by rw [offsetOfLine_eq, hl]
  obtain ⟨o, rfl, rfl, rfl, rfl⟩ := exists_offsets hline hf hb he
  have h1 := o.start_le
  have h2 := o.fnOff_lt
  have h3 := o.braceOpen_lt
  have h4 := o.bodyEnd_le
  rw [o.walked, ok_bind, bytesAt_ok (by omega), ok_bind]
  refine ⟨_, rfl, fun t ht => ⟨o, ?_⟩⟩
  cases ht
  rfl

/-- A text that is returned lies between offsets. -/
theorem offsets_of_extractSlice {src t : List UInt8} {L : ℤ}
    (h : extractSlice src L = .ok (.text t)) : ∃ o : Offsets src L, t = slice src o.start o.bodyEnd := by
  obtain ⟨x, hx, htext⟩ := extractSlice_safe src L
  cases hx.symm.trans h
  exact htext t rfl

theorem extractClosureText_total (readFile : List UInt8 → Option (List UInt8))
    (filename : Option (List UInt8)) (L : ℤ) :
    ∃ x, extractClosureText readFile filename L = .ok x := by
  unfold extractClosureText
  split_ifs
  · exact ⟨_, rfl⟩
  · cases filename.bind readFile with
    | none => exact ⟨_, rfl⟩
    | some src =>
      obtain ⟨x, hx, -⟩ := extractSlice_safe src L
      exact ⟨x, hx⟩

/-- Whatever the file and the line, the extraction ends with no read outside the file and no write
outside the label, and a text lies in order between its offsets. -/
theorem extractClosureText_safe (readFile : List UInt8 → Option (List UInt8))
    (filename : Option (List UInt8)) (L : ℤ) :
    ∃ x, extractClosureText readFile filename L = .ok x ∧
      ∀ t, x = .text t → ∃ src, filename.bind readFile = some src ∧
        ∃ o : Offsets src L, t = slice src o.start o.bodyEnd ∧
          t.length + o.start = o.bodyEnd := by
  unfold extractClosureText
  split_ifs
  · exact ⟨_, rfl, fun t ht => by cases ht⟩
  · cases hread : filename.bind readFile with
    | none => exact ⟨_, rfl, fun t ht => by cases ht⟩
    | some src =>
      obtain ⟨x, hx, htext⟩ := extractSlice_safe src L
      refine ⟨x, hx, fun t ht => ⟨src, rfl, ?_⟩⟩
      obtain ⟨o, rfl⟩ := htext t ht
      exact ⟨o, rfl, o.text_length⟩

end Parallax.Closure
