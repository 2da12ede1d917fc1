import Parallax.Closure.Bounds

/-! The word `static` before an anchored keyword: the walk to the left takes it along unless it
opens the line. -/
namespace Parallax.Closure
open Memory Scan Byte
set_option autoImplicit false
set_option maxHeartbeats 250000

/-! ## Starts of lines -/

theorem startsFrom_newline {src rest : List UInt8} (pre : List UInt8) (hs : src = pre ++ rest)
    {o : ℕ} (h : o ∈ startsFrom pre.length rest) : 0 < o ∧ src[o - 1]? = some newline := by
  induction rest generalizing pre with
  | nil => cases h
  | cons c rest ih =>
    have hs' : src = (pre ++ [c]) ++ rest := by simp [hs]
    have ih := ih (pre ++ [c]) hs'
    rw [List.length_append, List.length_singleton] at ih
    rw [startsFrom] at h
    split_ifs at h with hc
    · rcases List.mem_cons.mp h with rfl | h
      · refine ⟨Nat.succ_pos _, ?_⟩
        simp [hs, hc]
      · exact ih h
    · exact ih h

theorem lineStart_newline {src : List UInt8} {L : ℤ} {o : ℕ} (h : lineStart src L = some o) :
    o = 0 ∨ 0 < o ∧ src[o - 1]? = some newline := by
  have hmem := List.mem_of_getElem? h
  rcases List.mem_cons.mp hmem with rfl | hmem
  · exact .inl rfl
  · exact .inr (startsFrom_newline [] rfl hmem)

/-! ## A word before the keyword -/

/-- The whole word `static` stands at `p`, and only blanks between it and `f`. -/
structure StaticBefore (src : List UInt8) (p f : ℕ) : Prop where
  start : WordStart src p
  word : ∃ blanks, blanks ≠ [] ∧ (∀ c ∈ blanks, isBlank c = true) ∧
    slice src p f = staticKeyword ++ blanks

section Before
variable {src : List UInt8} {p f lineOff : ℕ}

theorem slice_getElem? {i j k : ℕ} (hk : i + k < j) : (slice src i j)[k]? = src[i + k]? := by
  rw [slice, List.getElem?_take, List.getElem?_drop, if_pos (by omega)]

theorem slice_length {i j : ℕ} (hj : j ≤ src.length) : (slice src i j).length = j - i := by
  rw [slice, List.length_take, List.length_drop]
  omega

/-- The bytes of the word and of the blanks, by their offsets. -/
theorem StaticBefore.bytes (h : StaticBefore src p f) (hf : f ≤ src.length) :
    p + 6 < f ∧ slice src p (p + 6) = staticKeyword ∧
      ∀ k c, p + 6 ≤ k → k < f → src[k]? = some c → isBlank c = true := by
  obtain ⟨blanks, hne, hblank, hslice⟩ := h.word
  have hpos := List.length_pos_iff.mpr hne
  have hlen := congrArg List.length hslice
  rw [slice_length hf, List.length_append, show staticKeyword.length = 6 from rfl] at hlen
  refine ⟨by omega, ?_, fun k c hk hkf hc => ?_⟩
  · have htake := congrArg (List.take 6) hslice
    rw [slice, List.take_take, show min 6 (f - p) = 6 by omega,
      List.take_left' (show staticKeyword.length = 6 from rfl)] at htake
    rw [slice, show p + 6 - p = 6 by omega, htake]
  · have hget := congrArg (·[k - p]?) hslice
    rw [slice_getElem? (by omega), show p + (k - p) = k by omega, hc,
      List.getElem?_append_right (by rw [show staticKeyword.length = 6 from rfl]; omega)] at hget
    exact hblank c (List.mem_of_getElem? hget.symm)

theorem StaticBefore.line (h : StaticBefore src p f) {L : ℤ} (hl : lineStart src L = some lineOff)
    (hle : lineOff ≤ f) : lineOff ≤ p := by
  obtain ⟨blanks, -, hblank, hslice⟩ := h.word
  obtain rfl | ⟨hpos, hnewline⟩ := lineStart_newline hl
  · exact Nat.zero_le p
  · by_contra hlt
    have hmem : newline ∈ slice src p f := by
      apply List.mem_of_getElem? (i := lineOff - 1 - p)
      rw [slice_getElem? (by omega), show p + (lineOff - 1 - p) = lineOff - 1 by omega, hnewline]
    rw [hslice, List.mem_append] at hmem
    rcases hmem with hmem | hmem
    · exact absurd hmem (by decide)
    · exact absurd (hblank _ hmem) (by decide)

theorem blanksBack_eq {s t : ℕ} (hs : s < src.length) (hts : t ≤ s) (hl : lineOff ≤ t)
    (hblank : ∀ k c, t < k → k ≤ s → src[k]? = some c → isBlank c = true)
    (hstop : ∀ c, src[t]? = some c → isBlank c = false) : blanksBack src lineOff s = .ok t := by
  induction s with
  | zero =>
    obtain rfl := Nat.le_zero.mp hts
    rfl
  | succ s ih =>
    unfold blanksBack
    by_cases hlt : lineOff < s + 1
    · rw [if_pos hlt, byteAt_ok hs, ok_bind]
      have hbyte := List.getElem?_eq_getElem hs
      by_cases hend : t = s + 1
      · subst hend
        rw [hstop _ hbyte, if_neg Bool.false_ne_true]
        rfl
      · rw [hblank (s + 1) _ (by omega) le_rfl hbyte, if_pos rfl]
        exact ih (by omega) (by omega) fun k c hk hks => hblank k c hk (by omega)
    · rw [if_neg hlt, show t = s + 1 by omega]

theorem StaticBefore.staticAt (h : StaticBefore src p f) (hf : f ≤ src.length) :
    staticAt src lineOff (p + 5) = .ok (decide (lineOff < p)) := by
  obtain ⟨hlt, hword, -⟩ := h.bytes hf
  unfold Closure.staticAt
  by_cases hl : lineOff < p
  · have hbytes : bytesAt src p 6 = .ok staticKeyword := by
      rw [bytesAt_ok (by omega), ← hword, slice, show p + 6 - p = 6 by omega]
    rw [if_pos (by omega), show p + 5 - 5 = p by omega, hbytes, ok_bind, if_pos rfl,
      wordStarts_eq (by omega), decide_eq_true hl]
    have hne : p ≠ 0 := by omega
    cases hc : src[p - 1]? with
    | none => simp
    | some c => simp [h.start c (by omega) hc]
  · rw [if_neg (by omega), decide_eq_false hl]

/-- The first round of the walk finds the word unless it opens the line. -/
theorem StaticBefore.staticBack (h : StaticBefore src p f) (hf : f ≤ src.length) (hl : lineOff ≤ p)
    (fuel : ℕ) : staticBack src lineOff (fuel + 1) f =
      if lineOff < p then staticBack src lineOff fuel p else .ok f := by
  obtain ⟨hlt, hword, hblank⟩ := h.bytes hf
  have hlast : src[p + 5]? = some 0x63 := by
    have hget := congrArg (·[5]?) hword
    rw [slice_getElem? (by omega)] at hget
    exact hget
  have hwalk : blanksBack src lineOff (f - 1) = .ok (p + 5) := by
    apply blanksBack_eq (by omega) (by omega) (by omega)
    · exact fun k c hk hkf => hblank k c (by omega) (by omega)
    · intro c hc
      rw [hlast] at hc
      cases hc
      rfl
  rw [Closure.staticBack, if_pos (by omega), hwalk, ok_bind, h.staticAt hf, ok_bind,
    show p + 5 - 5 = p by omega]
  by_cases hp : lineOff < p
  · rw [decide_eq_true hp, if_pos rfl, if_pos hp]
  · rw [decide_eq_false hp, if_neg Bool.false_ne_true, if_neg hp]
    rfl

/-- What the test of the walk finds is the word. -/
theorem staticBefore_of_found {t : ℕ} (hw : WordStart src f) (hf : f ≤ src.length) (htf : t < f)
    (hlt : lineOff + 6 ≤ t) (hword : slice src (t - 5) (t + 1) = staticKeyword)
    (hstart : WordStart src (t - 5))
    (hblank : ∀ k c, t < k → k < f → src[k]? = some c → isBlank c = true) :
    StaticBefore src (t - 5) f := by
  refine ⟨hstart, slice src (t + 1) f, ?_, fun c hc => ?_, ?_⟩
  · -- the last letter of the word would stand right before a word
    intro hnil
    have hlen := congrArg List.length hnil
    rw [slice_length hf, List.length_nil] at hlen
    have hlast : src[f - 1]? = some 0x63 := by
      have hget := congrArg (·[5]?) hword
      rw [slice_getElem? (by omega), show t - 5 + 5 = f - 1 by omega] at hget
      exact hget
    exact absurd (hw 0x63 (by omega) hlast) (by decide)
  · obtain ⟨k, hk, hkf, hck⟩ := slice_mem hc
    exact hblank k c (by omega) hkf hck
  · rw [← hword, slice_append src (by omega) (by omega)]

/-- The row of whole words `static` before `f` that begin behind the first column `lineOff`, from `s` on. -/
inductive Statics (src : List UInt8) (lineOff : ℕ) : ℕ → ℕ → Prop
  | none {f : ℕ} (h : ∀ p, lineOff < p → ¬ StaticBefore src p f) : Statics src lineOff f f
  | word {s p f : ℕ} (hp : lineOff < p) (h : StaticBefore src p f) (hs : Statics src lineOff s p) :
      Statics src lineOff s f

theorem staticBack_none (fuel : ℕ) (hfuel : f ≤ fuel) (hf : f ≤ src.length) (hw : WordStart src f)
    (hnone : ∀ p, lineOff < p → ¬ StaticBefore src p f) : staticBack src lineOff fuel f = .ok f := by
  cases fuel with
  | zero => exact if_neg (by omega)
  | succ fuel =>
    unfold Closure.staticBack
    by_cases hlt : lineOff < f
    · obtain ⟨t, ht, hts, -, hblank⟩ := blanksBack_ok src lineOff (f - 1) (by omega)
      obtain ⟨b, hb, hfound⟩ := staticAt_ok src lineOff t (by omega)
      rw [if_pos hlt, ht, ok_bind, hb, ok_bind]
      cases b with
      | false => rfl
      | true =>
        obtain ⟨h6, hword, hstart⟩ := hfound rfl
        refine absurd (staticBefore_of_found hw hf (by omega) h6 hword hstart ?_)
          (hnone (t - 5) (by omega))
        exact fun k c hk hkf hc => hblank k c hk (by omega) hc
    · rw [if_neg hlt]

/-- The walk takes along all of them. -/
theorem Statics.staticBack {s : ℕ} (h : Statics src lineOff s f) (fuel : ℕ) (hfuel : f ≤ fuel)
    (hf : f ≤ src.length) (hw : WordStart src f) : staticBack src lineOff fuel f = .ok s := by
  induction h generalizing fuel with
  | none hnone => exact staticBack_none fuel hfuel hf hw hnone
  | word hp hbefore _ ih =>
    have hlt := (hbefore.bytes hf).1
    obtain ⟨fuel, rfl⟩ : ∃ n, fuel = n + 1 := ⟨fuel - 1, by omega⟩
    rw [hbefore.staticBack hf hp.le, if_pos hp]
    exact ih fuel (by omega) (by omega) hbefore.start

end Before

/-! ## The text that is returned -/

section Kept
variable (readFile : List UInt8 → Option (List UInt8)) (name src : List UInt8) (L : ℤ)

/-- A text whose keyword has `static` before it starts with that word, or with a row of such words
that it ends. -/
def KeepsStatic : Prop :=
  ∀ lineOff fnOff p t, lineStart src L = some lineOff →
    scanFindKeyword src lineOff functionKeyword = .ok (some fnOff) → StaticBefore src p fnOff →
    extractClosureText readFile (some name) L = .ok (.text t) →
    staticKeyword <+: t ∧ ∃ s e, s ≤ p ∧ StaticRun (slice src s fnOff) ∧ t = slice src s e

/-- The walk ends on the line or after it, past blanks and whole words `static` only. -/
def WalksBack : Prop :=
  ∀ lineOff fnOff, lineStart src L = some lineOff →
    scanFindKeyword src lineOff functionKeyword = .ok (some fnOff) →
    ∃ s, staticBack src lineOff fnOff fnOff = .ok s ∧ lineOff ≤ s ∧ s ≤ fnOff ∧
      StaticRun (slice src s fnOff) ∧ WordStart src s

/-- The keyword heads a closure, and the `static` before it stands in the first column of line
`L`. -/
def StaticFirst : Prop :=
  ∃ lineOff fnOff, lineStart src L = some lineOff ∧
    scanFindKeyword src lineOff functionKeyword = .ok (some fnOff) ∧
    StaticBefore src lineOff fnOff ∧
    ∃ b e, scanBraceOpen src fnOff = .ok (some b) ∧ scanBraceMatch src b = .ok (some e)

variable {readFile name src L}

theorem walksBack : WalksBack src L := by
  intro lineOff fnOff hl hf
  obtain ⟨hle, hlt, hword⟩ := scanFindKeyword_found (by decide) hf
  exact staticBack_ok fnOff fnOff le_rfl hle hlt.le (wordAt_start hword)

theorem staticRun_head {bs : List UInt8} (h : StaticRun bs) (hne : bs ≠ []) :
    staticKeyword <+: bs := by
  induction h with
  | nil => exact absurd rfl hne
  | @snoc words blanks hrun _ _ ih =>
    cases words with
    | nil => exact List.prefix_append _ _
    | cons c rest => exact (ih (by simp)).trans (List.prefix_append _ _)

/-- The word `static` is kept exactly when it does not open the line. -/
theorem keepsStatic_iff (hname : refused (some name) = false) (hread : readFile name = some src) :
    KeepsStatic readFile name src L ∧ WalksBack src L ↔ ¬ StaticFirst src L := by
  rw [and_iff_left walksBack]
  constructor
  · rintro hkeeps ⟨lineOff, fnOff, hl, hf, hp, b, e, hb, he⟩
    obtain ⟨hle, hlt, hword⟩ := scanFindKeyword_found (by decide) hf
    have hwalk : staticBack src lineOff fnOff fnOff = .ok fnOff := by
      obtain ⟨fuel, rfl⟩ : ∃ fuel, fnOff = fuel + 1 :=
        ⟨fnOff - 1, by have := (hp.bytes hlt.le).1; omega⟩
      rw [hp.staticBack hlt.le le_rfl, if_neg (lt_irrefl lineOff)]
    have hline : offsetOfLine src L = .ok (some lineOff) := by rw [offsetOfLine_eq, hl]
    obtain ⟨o, rfl, rfl, rfl, rfl⟩ := exists_offsets hline hf hb he
    have htext := o.extractSlice_eq
    rw [show o.start = o.fnOff from Except.ok.inj (o.walked.symm.trans hwalk),
      ← extractClosureText_read readFile name hname hread] at htext
    obtain ⟨⟨rest, hrest⟩, -⟩ := hkeeps _ _ _ _ hl hf hp htext
    -- the text starts with the keyword itself
    have h1 := o.fnOff_lt
    have h2 := o.braceOpen_lt
    have hhead : src[o.fnOff]? = some 0x73 := by
      have hget : (slice src o.fnOff o.bodyEnd)[0]? = src[o.fnOff]? := slice_getElem? (by omega)
      rw [← hget]
      exact congrArg (·[0]?) hrest.symm
    cases (wordAt_head hword).symm.trans hhead
  · intro hfirst lineOff fnOff p t hl hf hp ht
    rw [extractClosureText_read readFile name hname hread] at ht
    obtain ⟨o, rfl⟩ := offsets_of_extractSlice ht
    obtain rfl : o.lineOff = lineOff := Option.some.inj (o.lineStart_eq.symm.trans hl)
    obtain rfl : o.fnOff = fnOff := Option.some.inj (Except.ok.inj (o.keyword.symm.trans hf))
    obtain ⟨hle, hlt, hword⟩ := scanFindKeyword_found (by decide) hf
    have hline := hp.line hl hle
    have hne : o.lineOff ≠ p := by
      rintro rfl
      exact hfirst ⟨o.lineOff, o.fnOff, hl, hf, hp, o.braceOpen, o.bodyEnd, o.opened, o.closed⟩
    have hpf := (hp.bytes hlt.le).1
    obtain ⟨fuel, hfuel⟩ : ∃ fuel, o.fnOff = fuel + 1 := ⟨o.fnOff - 1, by omega⟩
    have hback : staticBack src o.lineOff (fuel + 1) o.fnOff = .ok o.start := hfuel ▸ o.walked
    rw [hp.staticBack hlt.le hline, if_pos (by omega)] at hback
    obtain ⟨s, hs', -, hsp, -, -⟩ :=
      staticBack_ok fuel p (by omega) hline (by omega) hp.start
    cases hback.symm.trans hs'
    have hrow : staticKeyword <+: slice src o.start o.fnOff := by
      apply staticRun_head o.statics
      intro hnil
      have hlen := congrArg List.length hnil
      rw [slice_length hlt.le, List.length_nil] at hlen
      omega
    have h1 := o.fnOff_lt
    have h2 := o.braceOpen_lt
    refine ⟨hrow.trans ⟨slice src o.fnOff o.bodyEnd, ?_⟩, o.start, o.bodyEnd, hsp, o.statics, rfl⟩
    exact slice_append src o.start_le (by omega)

end Kept

/-! ### A word `static` in the first column -/

/-- `return`, and on the next line `static function()\x7b\x7d;`. -/
def firstColumn : List UInt8 :=
  ascii ['<', '?', 'p', 'h', 'p', ' ', 'r', 'e', 't', 'u', 'r', 'n', '\n'] ++ staticKeyword ++
    space :: functionKeyword ++ ascii ['(', ')', '\x7b', '\x7d', ';']

def firstColumnFile (name : List UInt8) : Option (List UInt8) :=
  if name = phpName then some firstColumn else none

theorem keepsStatic_iff_laterLine :
    KeepsStatic laterLineFile phpName (bytesOf laterLine) 1 ∧
      WalksBack (bytesOf laterLine) 1 := by
  refine (keepsStatic_iff (by decide +kernel) (by decide +kernel)).mpr ?_
  rintro ⟨lineOff, f, hl, hf, hp, -⟩
  have hscan : scanFindKeyword (bytesOf laterLine) 0 functionKeyword = .ok (some 8) := by
    decide +kernel
  obtain rfl : 0 = lineOff := Option.some.inj hl
  obtain rfl : 8 = f := Option.some.inj (Except.ok.inj (hscan.symm.trans hf))
  exact absurd (hp.bytes (by decide)).2.1 (by decide)

/-- The text that is returned starts with `function`. -/
theorem not_keepsStatic_firstColumn :
    ¬ KeepsStatic firstColumnFile phpName firstColumn 2 ∧
      extractClosureText firstColumnFile (some phpName) 2 =
        .ok (.text (functionKeyword ++ [lparen, rparen, lbrace, rbrace])) := by
  have htext : extractClosureText firstColumnFile (some phpName) 2 =
      .ok (.text (functionKeyword ++ [lparen, rparen, lbrace, rbrace])) := by decide +kernel
  refine ⟨fun h => ?_, htext⟩
  have hp : StaticBefore firstColumn 13 20 := by
    refine ⟨fun c _ hc => ?_, [space], by simp, by simp [isBlank], rfl⟩
    cases hc
    rfl
  have hkeep := (h 13 20 13 _ rfl (by decide +kernel) hp htext).1
  exact absurd hkeep (by decide)

end Parallax.Closure
