import Parallax.Closure.Lexical

/-! The parts of an extraction, each by what it computes: the start of a line, a whole word at an
offset, the `static` words to the left of one; and that every scanner goes forward. -/
namespace Parallax.Closure
open Memory Scan Byte
set_option autoImplicit false
set_option maxHeartbeats 250000

/-! ## Lines -/

def startsFrom : ℕ → List UInt8 → List ℕ
  | _, [] => []
  | o, c :: rest =>
    if c = newline then (o + 1) :: startsFrom (o + 1) rest else startsFrom (o + 1) rest

/-- The offsets at which the lines of a file start. -/
def lineStarts (src : List UInt8) : List ℕ := 0 :: startsFrom 0 src

/-- The start of line `L`; lines are counted from 1, and what is below counts as line 1. -/
def lineStart (src : List UInt8) (L : ℤ) : Option ℕ := (lineStarts src)[(L - 1).toNat]?

theorem lineStep_forward (src : List UInt8) (lineNo : ℤ) : Forward (lineStep src lineNo) := by
  intro i s s' j h
  obtain ⟨c, -, h⟩ := bind_ok h
  split_ifs at h <;> cases h <;> omega

theorem lineLoop_eq {src : List UInt8} {lineNo : ℤ} {rest : List UInt8} (pre : List UInt8)
    (hs : src = pre ++ rest) (seen : ℤ) (hseen : seen < lineNo) :
    (scanFrom Fault.outOfFuel src.length (lineStep src lineNo) pre.length seen).map
      Ending.found? = .ok (startsFrom pre.length rest)[(lineNo - seen - 1).toNat]? := by
  have hfwd := lineStep_forward src lineNo
  induction rest generalizing pre seen with
  | nil =>
    rw [scanFrom_end _ (by rw [hs]; simp)]
    rfl
  | cons c rest ih =>
    have hlt : pre.length < src.length := by
      rw [hs]
      simp
    have hc : byteAt src pre.length = .ok c := by rw [hs, byteAt_append]
    have hs' : src = (pre ++ [c]) ++ rest := by rw [hs, List.append_assoc]; rfl
    have hlen : (pre ++ [c]).length = pre.length + 1 := by simp
    by_cases hnl : c = newline
    · by_cases hat : seen + 1 = lineNo
      · rw [scanFrom_stop hlt (by rw [lineStep, hc, ok_bind, if_pos hnl, if_pos hat]; rfl),
          startsFrom,
          if_pos hnl, show (lineNo - seen - 1).toNat = 0 by omega]
        rfl
      · have h := ih (pre ++ [c]) hs' (seen + 1) (by omega)
        rw [hlen] at h
        rw [scanFrom_next hfwd hlt (by rw [lineStep, hc, ok_bind, if_pos hnl, if_neg hat]; rfl), h,
          startsFrom,
          if_pos hnl, show (lineNo - seen - 1).toNat = (lineNo - (seen + 1) - 1).toNat + 1 by omega]
        rfl
    · have h := ih (pre ++ [c]) hs' seen hseen
      rw [hlen] at h
      rw [scanFrom_next hfwd hlt (by rw [lineStep, hc, ok_bind, if_neg hnl]; rfl), h, startsFrom,
        if_neg hnl]

theorem offsetOfLine_eq (src : List UInt8) (L : ℤ) :
    offsetOfLine src L = .ok (lineStart src L) := by
  unfold offsetOfLine lineStart lineStarts
  by_cases hL : L ≤ 1
  · rw [if_pos hL, show (L - 1).toNat = 0 by omega]
    rfl
  · rw [if_neg hL]
    have hlt : (1 : ℤ) < L := by omega
    have h := lineLoop_eq [] (List.nil_append src).symm 1 hlt
    rw [show (L - 1).toNat = (L - 1 - 1).toNat + 1 by omega]
    exact h

/-! ## Words -/

/-- `word` stands at `i`, with no identifier byte before or after it. -/
def wordAt (src word : List UInt8) (i : ℕ) : Bool :=
  word.isPrefixOf (src.drop i) && (i == 0 || !(src[i - 1]?).any isIdentByte) &&
    !(src[i + word.length]?).any isIdentByte

theorem wordStarts_eq {src : List UInt8} {i : ℕ} (h : i ≤ src.length) :
    wordStarts src i = .ok (i == 0 || !(src[i - 1]?).any isIdentByte) := by
  unfold wordStarts
  by_cases hi : i = 0
  · rw [if_pos hi, hi]
    rfl
  · have hlt : i - 1 < src.length := by omega
    rw [if_neg hi, byteAt_ok hlt, List.getElem?_eq_getElem hlt]
    simp [hi, Except.map]

theorem wordEnds_eq {src : List UInt8} {i : ℕ} (h : i ≤ src.length) :
    wordEnds src i = .ok (!(src[i]?).any isIdentByte) := by
  unfold wordEnds
  by_cases hi : i = src.length
  · rw [if_pos hi, List.getElem?_eq_none hi.ge]
    rfl
  · have hlt : i < src.length := by omega
    rw [if_neg hi, byteAt_ok hlt, List.getElem?_eq_getElem hlt]
    rfl

theorem take_eq_iff_isPrefixOf {word l : List UInt8} (h : word.length ≤ l.length) :
    l.take word.length = word ↔ word.isPrefixOf l = true := by
  rw [List.isPrefixOf_iff_prefix]
  constructor
  · intro he
    rw [← he]
    exact List.take_prefix _ _
  · rintro ⟨t, rfl⟩
    simp

theorem keywordAt_eq (src : List UInt8) {word : List UInt8} (hne : word ≠ []) (i : ℕ) :
    keywordAt src word i = .ok (wordAt src word i) := by
  unfold keywordAt wordAt
  by_cases hlen : i + word.length ≤ src.length
  · have hdrop : word.length ≤ (src.drop i).length := by
      rw [List.length_drop]
      omega
    rw [if_pos hlen, bytesAt_ok hlen, ok_bind]
    by_cases hw : (src.drop i).take word.length = word
    · rw [if_pos hw, (take_eq_iff_isPrefixOf hdrop).mp hw, wordStarts_eq (by omega), ok_bind,
        wordEnds_eq hlen, Bool.true_and]
      cases (i == 0 || !(src[i - 1]?).any isIdentByte) <;> rfl
    · have hp : word.isPrefixOf (src.drop i) = false :=
        Bool.eq_false_iff.mpr fun h => hw ((take_eq_iff_isPrefixOf hdrop).mpr h)
      rw [if_neg hw, hp]
      rfl
  · have hp : word.isPrefixOf (src.drop i) = false := by
      refine Bool.eq_false_iff.mpr fun h => hlen ?_
      have := (List.isPrefixOf_iff_prefix.mp h).length_le
      rw [List.length_drop] at this
      have hpos := List.length_pos_iff.mpr hne
      omega
    rw [if_neg hlen, hp]
    rfl

/-! ## The scanners' own parts -/

theorem skipWhile_le {src : List UInt8} {p : UInt8 → Bool} {j k : ℕ}
    (h : skipWhile src p j = .ok k) : j ≤ k := by
  obtain ⟨x, hx, rfl⟩ := map_ok h
  refine scanFrom_le (fun i s s' i' hs => ?_) (fun i s r hs => ?_) hx
  · obtain ⟨c, -, hs⟩ := bind_ok hs
    cases hp : p c <;> rw [hp] at hs <;> cases hs
    exact Nat.lt_succ_self i
  · obtain ⟨c, -, hs⟩ := bind_ok hs
    cases hp : p c <;> rw [hp] at hs <;> cases hs
    exact le_rfl

theorem heredocLabel_le {src : List UInt8} {j k : ℕ} {label : List UInt8}
    (h : heredocLabel src j = .ok (label, k)) : j ≤ k := by
  obtain ⟨x, hx, h⟩ := bind_ok h
  have hle : j ≤ x.index Prod.snd := by
    refine scanFrom_le (fun i s s' i' hs => ?_) (fun i s r hs => ?_) hx
    · obtain ⟨c, -, hs⟩ := bind_ok hs
      split_ifs at hs
      · obtain ⟨l, -, hs⟩ := bind_ok hs
        cases hs
        exact Nat.lt_succ_self i
      · cases hs
    · obtain ⟨c, -, hs⟩ := bind_ok hs
      split_ifs at hs
      · obtain ⟨l, -, hs⟩ := bind_ok hs
        cases hs
      · cases hs
        exact le_rfl
  cases x with
  | found r =>
    obtain ⟨l, -, h⟩ := bind_ok h
    cases h
    exact hle
  | ended l i =>
    obtain ⟨l', -, h⟩ := bind_ok h
    cases h
    exact hle

theorem heredocEndStep_ok {src label : List UInt8} {j : ℕ} {s : Unit} {v : Verdict Unit ℕ}
    (h : heredocEndStep src label j s = .ok v) :
    v = .next () (j + 1) ∨ ∃ k, j ≤ k ∧ v = .stop k := by
  obtain ⟨c, -, h⟩ := bind_ok h
  split_ifs at h
  · obtain ⟨k, hk, h⟩ := bind_ok h
    have hle := skipWhile_le hk
    split_ifs at h
    · obtain ⟨bytes, -, h⟩ := bind_ok h
      split_ifs at h
      · obtain ⟨ends, -, h⟩ := bind_ok h
        cases ends <;> cases h
        · exact Or.inl rfl
        · exact Or.inr ⟨k + label.length, by omega, rfl⟩
      · cases h
        exact Or.inl rfl
    · cases h
      exact Or.inl rfl
  · cases h
    exact Or.inl rfl

theorem heredocEnd_le {src label : List UInt8} {j k : ℕ} (h : heredocEnd src label j = .ok k) :
    j ≤ k := by
  obtain ⟨x, hx, rfl⟩ := map_ok h
  refine scanFrom_le (fun i s s' i' hs => ?_) (fun i s r hs => ?_) hx
  · rcases heredocEndStep_ok hs with hv | ⟨k, -, hv⟩ <;> cases hv
    exact Nat.lt_succ_self i
  · rcases heredocEndStep_ok hs with hv | ⟨k, hk, hv⟩ <;> cases hv
    exact hk

theorem heredocSkip_le {src : List UInt8} {i j : ℕ} (h : heredocSkip src i = .ok j) :
    i + 3 ≤ j := by
  obtain ⟨a, ha, h⟩ := bind_ok h
  have h1 := skipWhile_le ha
  obtain ⟨nowdoc, -, h⟩ := bind_ok h
  cases nowdoc with
  | true =>
    obtain ⟨⟨label, b⟩, hb, h⟩ := bind_ok h
    have h2 := heredocLabel_le hb
    obtain ⟨closed, -, h⟩ := bind_ok h
    have h3 := heredocEnd_le h
    split at h3 <;> omega
  | false =>
    obtain ⟨⟨label, b⟩, hb, h⟩ := bind_ok h
    have h2 := heredocLabel_le hb
    have h3 := heredocEnd_le h
    omega

theorem keywordStep_forward (src word : List UInt8) : CodeForward (keywordStep src word) := by
  intro i c n acc s j h
  obtain ⟨heredoc, -, h⟩ := bind_ok h
  cases heredoc with
  | true =>
    obtain ⟨k, hk, h⟩ := bind_ok h
    have := heredocSkip_le hk
    cases h
    omega
  | false =>
    obtain ⟨found, -, h⟩ := bind_ok h
    cases found <;> cases h
    omega

theorem braceOpenStep_forward : CodeForward braceOpenStep := by
  intro i c n acc s j h
  unfold braceOpenStep at h
  dsimp only at h
  split_ifs at h <;> cases h <;> omega

theorem braceMatchStep_forward : CodeForward braceMatchStep := by
  intro i c n acc s j h
  unfold braceMatchStep at h
  split_ifs at h <;> cases h <;> omega

/-! ## The walk to the left -/

/-- The bytes from `i` up to `j`. -/
def slice (src : List UInt8) (i j : ℕ) : List UInt8 := (src.drop i).take (j - i)

theorem slice_self (src : List UInt8) (i : ℕ) : slice src i i = [] := by
  rw [slice, Nat.sub_self, List.take_zero]

theorem slice_append (src : List UInt8) {i j k : ℕ} (hij : i ≤ j) (hjk : j ≤ k) :
    slice src i j ++ slice src j k = slice src i k := by
  unfold slice
  have hd : src.drop j = (src.drop i).drop (j - i) := by
    rw [List.drop_drop, Nat.add_sub_cancel' hij]
  rw [hd, show k - i = (j - i) + (k - j) by omega, List.take_add]

theorem slice_mem {src : List UInt8} {i j : ℕ} {c : UInt8} (h : c ∈ slice src i j) :
    ∃ k, i ≤ k ∧ k < j ∧ src[k]? = some c := by
  obtain ⟨n, hn⟩ := List.getElem?_of_mem h
  rw [slice, List.getElem?_take, List.getElem?_drop] at hn
  split at hn
  · exact ⟨i + n, by omega, by omega, hn⟩
  · cases hn

/-- Whole words `static`, each with the blanks after it. -/
inductive StaticRun : List UInt8 → Prop
  | nil : StaticRun []
  | snoc {words blanks : List UInt8} (h : StaticRun words) (hne : blanks ≠ [])
      (hb : ∀ c ∈ blanks, isBlank c = true) : StaticRun (words ++ (staticKeyword ++ blanks))

/-- No identifier byte stands right before `i`. -/
def WordStart (src : List UInt8) (i : ℕ) : Prop :=
  ∀ c, 0 < i → src[i - 1]? = some c → isIdentByte c = false

theorem blanksBack_ok (src : List UInt8) (lineOff s : ℕ) (hs : s < src.length) :
    ∃ t, blanksBack src lineOff s = .ok t ∧ t ≤ s ∧ (lineOff ≤ s → lineOff ≤ t) ∧
      ∀ k c, t < k → k ≤ s → src[k]? = some c → isBlank c = true := by
  induction s with
  | zero => exact ⟨0, rfl, le_rfl, id, fun k c hk hk' => by omega⟩
  | succ s ih =>
    unfold blanksBack
    by_cases hl : lineOff < s + 1
    · rw [if_pos hl, byteAt_ok hs, ok_bind]
      by_cases hb : isBlank src[s + 1] = true
      · obtain ⟨t, ht, hts, hlt, hall⟩ := ih (by omega)
        rw [if_pos hb]
        refine ⟨t, ht, by omega, fun _ => hlt (by omega), fun k c hk hk' hc => ?_⟩
        by_cases hks : k ≤ s
        · exact hall k c hk hks hc
        · have : k = s + 1 := by omega
          subst this
          rw [List.getElem?_eq_getElem hs] at hc
          cases hc
          exact hb
      · rw [if_neg hb]
        exact ⟨s + 1, rfl, le_rfl, id, fun k c hk hk' => by omega⟩
    · rw [if_neg hl]
      exact ⟨s + 1, rfl, le_rfl, id, fun k c hk hk' => by omega⟩

theorem staticAt_ok (src : List UInt8) (lineOff s : ℕ) (hs : s < src.length) :
    ∃ b, staticAt src lineOff s = .ok b ∧ (b = true → lineOff + 6 ≤ s ∧
      slice src (s - 5) (s + 1) = staticKeyword ∧ WordStart src (s - 5)) := by
  unfold staticAt
  by_cases hl : lineOff + 6 ≤ s
  · have hb : s - 5 + 6 ≤ src.length := by omega
    rw [if_pos hl, bytesAt_ok hb, ok_bind]
    by_cases hw : (src.drop (s - 5)).take 6 = staticKeyword
    · rw [if_pos hw, wordStarts_eq (by omega)]
      refine ⟨_, rfl, fun h => ⟨hl, ?_, fun c hpos hc => ?_⟩⟩
      · rw [slice, show s + 1 - (s - 5) = 6 by omega, hw]
      · rw [hc] at h
        simpa [show s - 5 ≠ 0 by omega] using h
    · rw [if_neg hw]
      exact ⟨false, rfl, fun h => by cases h⟩
  · rw [if_neg hl]
    exact ⟨false, rfl, fun h => by cases h⟩

theorem staticBack_ok {src : List UInt8} {lineOff : ℕ} (fuel start : ℕ) (hf : start ≤ fuel)
    (hl : lineOff ≤ start) (hs : start ≤ src.length) (hw : WordStart src start) :
    ∃ s, staticBack src lineOff fuel start = .ok s ∧ lineOff ≤ s ∧ s ≤ start ∧
      StaticRun (slice src s start) ∧ WordStart src s := by
  induction fuel generalizing start with
  | zero =>
    have hz : ¬ lineOff < start := by omega
    refine ⟨start, if_neg hz, hl, le_rfl, ?_, hw⟩
    rw [slice_self]
    exact .nil
  | succ fuel ih =>
    unfold staticBack
    by_cases hlt : lineOff < start
    · obtain ⟨t, ht, hts, hlt', hblank⟩ := blanksBack_ok src lineOff (start - 1) (by omega)
      obtain ⟨b, hb, hstat⟩ := staticAt_ok src lineOff t (by omega)
      rw [if_pos hlt, ht, ok_bind, hb, ok_bind]
      cases b with
      | false =>
        refine ⟨start, rfl, hl, le_rfl, ?_, hw⟩
        rw [slice_self]
        exact .nil
      | true =>
        obtain ⟨h6, hword, hbefore⟩ := hstat rfl
        obtain ⟨s, hback, hls, hst, hrun, hws⟩ :=
          ih (t - 5) (by omega) (by omega) (by omega) hbefore
        refine ⟨s, hback, hls, by omega, ?_, hws⟩
        have hcat : slice src s start =
            slice src s (t - 5) ++ (staticKeyword ++ slice src (t + 1) start) := by
          rw [← hword, slice_append src (by omega) (by omega),
            slice_append src (by omega) (by omega)]
        rw [hcat]
        refine hrun.snoc (fun hnil => ?_) fun c hc => ?_
        · -- the last letter of `static` would stand right before a word
          have hlast : src[t]? = some 0x63 := by
            have h5 := congrArg (·[5]?) hword
            simp only [slice, List.getElem?_take, List.getElem?_drop] at h5
            rwa [if_pos (by omega), show t - 5 + 5 = t by omega] at h5
          have hlen := congrArg List.length hnil
          rw [slice, List.length_take, List.length_drop, List.length_nil] at hlen
          have := hw 0x63 (by omega) (by rw [show start - 1 = t by omega]; exact hlast)
          exact absurd this (by decide)
        · obtain ⟨k, hk, hk', hck⟩ := slice_mem hc
          exact hblank k c (by omega) (by omega) hck
    · rw [if_neg hlt]
      refine ⟨start, rfl, hl, le_rfl, ?_, hw⟩
      rw [slice_self]
      exact .nil

end Parallax.Closure
