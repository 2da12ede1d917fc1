import Parallax.Closure.HeredocSkip

/-! What a scan makes of a text. From code level to code level it has read whole strings, whole
comments and single bytes of code; the keyword search also what its heredoc branch passes over. So
what the scans of an extraction find is said of the text alone, whatever file it is. -/
namespace Parallax.Closure
open Memory Scan Byte
set_option autoImplicit false
set_option maxHeartbeats 250000

/-! ## The heredoc branch on any text -/

/-- How many bytes the heredoc branch passes over of a text that begins with `<<<`. -/
def branchLength (s : List UInt8) : ℕ :=
  let t := (s.drop 3).dropWhile isBlank
  let n := 3 + ((s.drop 3).takeWhile isBlank).length
  if t.head? = some squote then
    let label := copiedLabel t.tail
    let v := t.tail.drop label.length
    n + 1 + label.length +
      (if v.head? = some squote then 1 + upToLabel label v.tail else upToLabel label v)
  else n + (copiedLabel t).length + upToLabel (copiedLabel t) (t.drop (copiedLabel t).length)

section Branch
variable {src pre s t : List UInt8}

/-- Behind the label that is copied stands the rest of the text. -/
theorem copiedLabel_split (hs : src = pre ++ t) :
    src = (pre ++ copiedLabel t) ++ t.drop (copiedLabel t).length := by
  obtain ⟨v, hv⟩ := copiedLabel_prefix t
  have hdrop : t.drop (copiedLabel t).length = v := by
    have h := congrArg (List.drop (copiedLabel t).length) hv
    rwa [List.drop_left, eq_comm] at h
  rw [hdrop, List.append_assoc, hv, hs]

theorem heredocSkip_text (hs : src = pre ++ s) (h : [less, less, less] <+: s) :
    heredocSkip src pre.length = .ok (pre.length + branchLength s) := by
  obtain ⟨s, rfl⟩ := h
  have hs3 : src = (pre ++ [less, less, less]) ++ s := by rw [hs, List.append_assoc]
  have hskip := skipWhile_eq isBlank hs3
  set blanks := s.takeWhile isBlank with hblanks
  set t := s.dropWhile isBlank with ht
  have hst : src = (pre ++ [less, less, less] ++ blanks) ++ t := by
    rw [hs3, hblanks, ht, List.append_assoc _ (s.takeWhile isBlank),
      List.takeWhile_append_dropWhile]
  have hlen : (pre ++ [less, less, less]).length = pre.length + 3 := by simp
  have hquote := quoteAt_eq hst
  rw [List.length_append, hlen] at hquote
  rw [hlen] at hskip
  have hbranch : branchLength ([less, less, less] ++ s) =
      if t.head? = some squote then
        3 + blanks.length + 1 + (copiedLabel t.tail).length +
          (if (t.tail.drop (copiedLabel t.tail).length).head? = some squote then
            1 + upToLabel (copiedLabel t.tail) (t.tail.drop (copiedLabel t.tail).length).tail
          else upToLabel (copiedLabel t.tail) (t.tail.drop (copiedLabel t.tail).length))
      else 3 + blanks.length + (copiedLabel t).length +
        upToLabel (copiedLabel t) (t.drop (copiedLabel t).length) := rfl
  rw [heredocSkip, hskip, ok_bind, hquote, ok_bind, hbranch]
  by_cases hnowdoc : t.head? = some squote
  · obtain ⟨u, hu⟩ : ∃ u, t = squote :: u := ⟨t.tail, List.eq_cons_of_mem_head? hnowdoc⟩
    rw [if_pos (by simp [hnowdoc]), if_pos hnowdoc, hu, List.tail_cons]
    have hsu : src = (pre ++ [less, less, less] ++ blanks ++ [squote]) ++ u := by
      rw [hst, hu]
      simp
    have hlabel := heredocLabel_eq hsu
    have hsv := copiedLabel_split hsu
    have hclosed := quoteAt_eq hsv
    simp only [List.length_append, List.length_cons, List.length_nil] at hlabel hclosed
    set v := u.drop (copiedLabel u).length with hv
    rw [show pre.length + 3 + blanks.length + 1 = pre.length + (0 + 1 + 1 + 1) + blanks.length +
      (0 + 1) by omega, hlabel, ok_bind]
    dsimp only
    rw [hclosed, ok_bind]
    by_cases hclose : v.head? = some squote
    · obtain ⟨w, hw⟩ : ∃ w, v = squote :: w := ⟨v.tail, List.eq_cons_of_mem_head? hclose⟩
      have hsw : src = (pre ++ [less, less, less] ++ blanks ++ [squote] ++ copiedLabel u ++
          [squote]) ++ w := by
        rw [hsv, hw]
        simp
      have hend := heredocEnd_eq (copiedLabel u) hsw
      simp only [List.length_append, List.length_cons, List.length_nil] at hend
      rw [if_pos (by simp [hclose]), if_pos hclose, hw, List.tail_cons]
      refine Eq.trans hend (congrArg Except.ok ?_)
      omega
    · have hend := heredocEnd_eq (copiedLabel u) hsv
      simp only [List.length_append, List.length_cons, List.length_nil] at hend
      rw [if_neg (by simpa using hclose), if_neg hclose]
      refine Eq.trans hend (congrArg Except.ok ?_)
      omega
  · have hlabel := heredocLabel_eq hst
    have hend := heredocEnd_eq (copiedLabel t) (copiedLabel_split hst)
    simp only [List.length_append, List.length_cons, List.length_nil] at hlabel hend
    rw [if_neg (by simpa using hnowdoc), if_neg hnowdoc,
      show pre.length + 3 + blanks.length = pre.length + (0 + 1 + 1 + 1) + blanks.length by omega,
      hlabel, ok_bind]
    refine Eq.trans hend (congrArg Except.ok ?_)
    omega

end Branch

/-! ## Rows of strings, comments and bytes of code -/

/-- At `i` no string and no comment opens, and for the keyword search no heredoc. -/
def CodeByteAt (src : List UInt8) (skips : Bool) (i : ℕ) : Prop :=
  Unmarked (src.getD i 0) (src.getD (i + 1) 0) ∧ ¬ (skips = true ∧ HeredocAt src i)

instance (src : List UInt8) (skips : Bool) (i : ℕ) : Decidable (CodeByteAt src skips i) := by
  unfold CodeByteAt
  infer_instance

/-- From `i` to `j` the text is a row of whole strings, whole comments and bytes of code, which are
listed with their offsets; if `skips`, also of what the heredoc branch passes over at a `<<<`, with
the byte behind it. -/
inductive Reading (src : List UInt8) (skips : Bool) : ℕ → List (ℕ × UInt8) → ℕ → Prop
  | nil (i : ℕ) : Reading src skips i [] i
  | code {i j : ℕ} {bytes : List (ℕ × UInt8)} (hi : i < src.length) (hc : CodeByteAt src skips i)
      (h : Reading src skips (i + 1) bytes j) : Reading src skips i ((i, src.getD i 0) :: bytes) j
  | still {i j : ℕ} {bytes : List (ℕ × UInt8)} {p : Piece} (hp : ¬ p.IsCode) (hw : p.Wf [])
      (hat : p.bytes <+: src.drop i) (h : Reading src skips (i + p.bytes.length) bytes j) :
      Reading src skips i bytes j
  | skip {i j : ℕ} {bytes : List (ℕ × UInt8)} (hskips : skips = true) (hat : HeredocAt src i)
      (h : Reading src skips (i + branchLength (src.drop i) + 1) bytes j) :
      Reading src skips i bytes j

/-- The count behind a walk over bytes of code that ends at none of them. -/
def walkOn {σ : Type} (act : σ → ℕ → UInt8 → ℕ ⊕ σ) : σ → List (ℕ × UInt8) → Option σ
  | acc, [] => some acc
  | acc, (i, c) :: rest =>
    match act acc i c with
    | .inl _ => none
    | .inr acc => walkOn act acc rest

/-- On a byte of code a scanner's own part does what `act` does; at a `<<<` the keyword search goes
behind what its branch passes over. -/
structure Scans {σ : Type} (src : List UInt8) (skips : Bool) (code : CodeStep σ)
    (act : σ → ℕ → UInt8 → ℕ ⊕ σ) : Prop where
  forward : CodeForward code
  acts : ∀ i acc, i < src.length → ¬ (skips = true ∧ HeredocAt src i) →
    code i (src.getD i 0) (src.getD (i + 1) 0) acc = .ok (ofAct i (act acc i (src.getD i 0)))
  skips : skips = true → ∀ i acc, HeredocAt src i →
    code i (src.getD i 0) (src.getD (i + 1) 0) acc =
      .ok (.next (.normal, acc) (i + branchLength (src.drop i) + 1))

section Rows
variable {σ : Type} {src : List UInt8} {skips : Bool} {code : CodeStep σ}
variable {act : σ → ℕ → UInt8 → ℕ ⊕ σ} {i j : ℕ} {bytes : List (ℕ × UInt8)} {acc acc' : σ}

/-- Behind the end of the text the scans see zero. -/
theorem lt_of_getD (h : src.getD i 0 ≠ 0) : i < src.length := by
  by_contra hlen
  exact h (by rw [List.getD_eq_getElem?_getD, List.getElem?_eq_none (not_lt.mp hlen)]; rfl)

theorem heredocAt_lt (h : HeredocAt src i) : i + 2 < src.length :=
  lt_of_getD (by rw [h.2.2]; decide)

theorem heredocAt_iff : HeredocAt src i ↔ [less, less, less] <+: src.drop i := by
  constructor
  · intro h
    have hlt := heredocAt_lt h
    obtain ⟨h1, h2, h3⟩ := h
    rw [List.drop_eq_getElem_cons (by omega), List.drop_eq_getElem_cons (by omega),
      List.drop_eq_getElem_cons (by omega)]
    simp only [List.getD_eq_getElem?_getD, List.getElem?_eq_getElem (show i < src.length by omega),
      List.getElem?_eq_getElem (show i + 1 < src.length by omega),
      List.getElem?_eq_getElem hlt, Option.getD_some] at h1 h2 h3
    exact ⟨src.drop (i + 2 + 1), by simp [h1, h2, h3]⟩
  · rintro ⟨rest, hrest⟩
    have hget : ∀ k, src.getD (i + k) 0 = ([less, less, less] ++ rest).getD k 0 := by
      intro k
      rw [hrest, List.getD_eq_getElem?_getD, List.getD_eq_getElem?_getD, List.getElem?_drop]
    exact ⟨hget 0, hget 1, hget 2⟩

/-- A text is what stands before an offset and what stands from it on. -/
theorem text_split (hi : i ≤ src.length) : src = src.take i ++ src.drop i ∧ (src.take i).length = i :=
  ⟨(List.take_append_drop i src).symm, by rw [List.length_take, min_eq_left hi]⟩

theorem prefix_le {bs : List UInt8} (h : bs <+: src.drop i) (hne : bs ≠ []) :
    i + bs.length ≤ src.length := by
  have hle := h.length_le
  have hpos := List.length_pos_iff.mpr hne
  rw [List.length_drop] at hle
  omega

theorem Piece.bytes_ne_nil (p : Piece) : p.bytes ≠ [] := by cases p <;> simp [Piece.bytes]

theorem Piece.wf_still {p : Piece} (hp : ¬ p.IsCode) (hw : p.Wf []) (after : List UInt8) :
    p.Wf after := by
  cases p with
  | code c => exact absurd trivial hp
  | _ => exact hw

theorem reaches_still (code : CodeStep σ) (acc : σ) {p : Piece} (hp : ¬ p.IsCode) (hw : p.Wf [])
    (hat : p.bytes <+: src.drop i) :
    Reaches src.length (lexStep src code) i (.normal, acc) (i + p.bytes.length) (.normal, acc) := by
  have hlen := prefix_le hat p.bytes_ne_nil
  obtain ⟨hsplit, htake⟩ := @text_split src i (by omega)
  obtain ⟨rest, hrest⟩ := hat
  rw [← hrest] at hsplit
  have h := reaches_piece code acc (p.wf_still hp hw rest) hp (src.take i) hsplit
  rwa [htake] at h

/-- A row takes a scan from code level to code level, if it finds nothing on the way. -/
theorem Reading.reaches (h : Reading src skips i bytes j) (hs : Scans src skips code act)
    (hw : walkOn act acc bytes = some acc') :
    Reaches src.length (lexStep src code) i (.normal, acc) j (.normal, acc') := by
  induction h generalizing acc with
  | nil i =>
    cases hw
    exact Reaches.refl _ _
  | @code i j bytes hi hc _ ih =>
    have hstep := hs.acts i acc hi hc.2
    rw [walkOn] at hw
    cases hact : act acc i (src.getD i 0) with
    | inl r =>
      rw [hact] at hw
      cases hw
    | inr acc₁ =>
      rw [hact] at hw hstep
      refine (Reaches.next hi ?_).trans (ih hw)
      rw [lexStep_getD hi, lexByte_unmarked hc.1, hstep]
      rfl
  | still hp hwf hat _ ih => exact (reaches_still code acc hp hwf hat).trans (ih hw)
  | @skip i j bytes hskips hat _ ih =>
    have hi : i < src.length := by
      have := heredocAt_lt hat
      omega
    have hless : lexByte code i (src.getD i 0) (src.getD (i + 1) 0) .normal acc =
        code i (src.getD i 0) (src.getD (i + 1) 0) acc := by
      rw [hat.1]
      rfl
    refine (Reaches.next hi ?_).trans (ih hw)
    rw [lexStep_getD hi, hless, hs.skips hskips i acc hat]

/-! ### The row a scan has read -/

/-- A round and what comes after it. -/
theorem Reaches.head_round {st : ScanState} (hne : st ≠ .normal)
    (h : Reaches src.length (lexStep src code) i (st, acc) j (.normal, acc')) :
    i < src.length ∧ ∃ s k, lexByte code i (src.getD i 0) (src.getD (i + 1) 0) st acc =
      .ok (.next s k) ∧ Reaches src.length (lexStep src code) k s j (.normal, acc') := by
  obtain hsame | ⟨x, hx, hrest⟩ := Relation.ReflTransGen.cases_head h
  · exact absurd (congrArg (Prod.fst ∘ Prod.snd) hsame) hne
  · have hstep := hx.2
    rw [lexStep_getD hx.1] at hstep
    exact ⟨hx.1, x.2, x.1, hstep, hrest⟩

theorem drop_getD (hi : i < src.length) : src.drop i = src.getD i 0 :: src.drop (i + 1) := by
  rw [List.drop_eq_getElem_cons hi]
  simp [hi]

/-- Out of a string a scan comes behind its closing quote. -/
theorem reaches_unquote (hf : CodeForward code) {st : ScanState} {quote : UInt8}
    (hq : IsString st quote)
    (h : Reaches src.length (lexStep src code) i (st, acc) j (.normal, acc')) :
    ∃ body : List StrUnit, (∀ u ∈ body, u.Wf quote) ∧ unitBytes body ++ [quote] <+: src.drop i ∧
      Reaches src.length (lexStep src code) (i + (unitBytes body ++ [quote]).length) (.normal, acc)
        j (.normal, acc') := by
  have hfwd : Forward (lexStep src code) := lexStep_forward hf
  obtain ⟨hqb, hq0⟩ := hq.quote_ne
  have hne : st ≠ .normal := by
    obtain ⟨rfl, -⟩ | ⟨rfl, -⟩ := hq <;> exact ScanState.noConfusion
  induction hn : j - i using Nat.strong_induction_on generalizing i with
  | _ n ih =>
    obtain ⟨hi, s, k, hstep, hrest⟩ := Reaches.head_round hne h
    rw [lexByte_string hq] at hstep
    have hdrop := drop_getD hi
    have hkj : k ≤ j := hrest.le hfwd
    split_ifs at hstep with hescape hclose
    · -- a backslash and the byte it escapes
      cases hstep
      have hnext : i + 1 < src.length := lt_of_getD hescape.2
      obtain ⟨body, hwf, hat, hreach⟩ := ih (j - (i + 2)) (by omega) hrest rfl
      refine ⟨.escape (src.getD (i + 1) 0) :: body, ?_, ?_, ?_⟩
      · exact List.forall_mem_cons.mpr ⟨trivial, hwf⟩
      · rw [hdrop, hescape.1, drop_getD hnext]
        exact List.cons_prefix_cons.mpr ⟨rfl, List.cons_prefix_cons.mpr ⟨rfl, hat⟩⟩
      · have hlen : (unitBytes (.escape (src.getD (i + 1) 0) :: body) ++ [quote]).length =
            2 + (unitBytes body ++ [quote]).length := by
          simp [unitBytes, StrUnit.bytes]
          omega
        rw [hlen, ← Nat.add_assoc]
        exact hreach
    · cases hstep
      refine ⟨[], List.forall_mem_nil _, ?_, hrest⟩
      rw [hdrop, hclose]
      exact List.cons_prefix_cons.mpr ⟨rfl, List.nil_prefix⟩
    · cases hstep
      obtain ⟨body, hwf, hat, hreach⟩ := ih (j - (i + 1)) (by omega) hrest rfl
      by_cases hback : src.getD i 0 = backslash
      · -- in front of a NUL the scan reads the two one by one
        have hzero : src.getD (i + 1) 0 = 0 := by
          by_contra hnz
          exact hescape ⟨hback, hnz⟩
        obtain ⟨hi1, -⟩ := Reaches.head_round hne hrest
        rw [drop_getD hi1, hzero] at hat
        cases body with
        | nil => exact absurd (List.cons_prefix_cons.mp hat).1 hq0
        | cons u body =>
          cases u with
          | escape c => exact absurd (List.cons_prefix_cons.mp hat).1 (by decide)
          | plain c =>
            obtain ⟨rfl, hbehind⟩ := List.cons_prefix_cons.mp hat
            refine ⟨.escape 0 :: body, ?_, ?_, ?_⟩
            · exact List.forall_mem_cons.mpr ⟨trivial, (List.forall_mem_cons.mp hwf).2⟩
            · rw [hdrop, hback, drop_getD hi1, hzero]
              exact List.cons_prefix_cons.mpr ⟨rfl, List.cons_prefix_cons.mpr ⟨rfl, hbehind⟩⟩
            · have hlen : (unitBytes (.escape 0 :: body) ++ [quote]).length =
                  1 + (unitBytes (.plain 0 :: body) ++ [quote]).length := by
                simp [unitBytes, StrUnit.bytes]
                omega
              rw [hlen, ← Nat.add_assoc]
              exact hreach
      · refine ⟨.plain (src.getD i 0) :: body, ?_, ?_, ?_⟩
        · exact List.forall_mem_cons.mpr ⟨⟨hclose, hback⟩, hwf⟩
        · rw [hdrop]
          exact List.cons_prefix_cons.mpr ⟨rfl, hat⟩
        · have hlen : (unitBytes (.plain (src.getD i 0) :: body) ++ [quote]).length =
              1 + (unitBytes body ++ [quote]).length := by
            simp [unitBytes, StrUnit.bytes]
            omega
          rw [hlen, ← Nat.add_assoc]
          exact hreach

/-- Out of a line comment a scan comes behind its newline. -/
theorem reaches_lineEnd (hf : CodeForward code)
    (h : Reaches src.length (lexStep src code) i (.lineComment, acc) j (.normal, acc')) :
    ∃ body : List UInt8, newline ∉ body ∧ body ++ [newline] <+: src.drop i ∧
      Reaches src.length (lexStep src code) (i + (body ++ [newline]).length) (.normal, acc) j
        (.normal, acc') := by
  have hfwd : Forward (lexStep src code) := lexStep_forward hf
  induction hn : j - i using Nat.strong_induction_on generalizing i with
  | _ n ih =>
    obtain ⟨hi, s, k, hstep, hrest⟩ := Reaches.head_round ScanState.noConfusion h
    rw [lexByte] at hstep
    have hdrop := drop_getD hi
    have hkj : k ≤ j := hrest.le hfwd
    split_ifs at hstep with hline
    · cases hstep
      refine ⟨[], List.not_mem_nil, ?_, hrest⟩
      rw [hdrop, hline]
      exact List.cons_prefix_cons.mpr ⟨rfl, List.nil_prefix⟩
    · cases hstep
      obtain ⟨body, hnot, hat, hreach⟩ := ih (j - (i + 1)) (by omega) hrest rfl
      refine ⟨src.getD i 0 :: body, ?_, ?_, ?_⟩
      · intro hmem
        obtain hhead | htail := List.mem_cons.mp hmem
        · exact hline hhead.symm
        · exact hnot htail
      · rw [hdrop]
        exact List.cons_prefix_cons.mpr ⟨rfl, hat⟩
      · rw [List.cons_append, List.length_cons, Nat.add_comm _ 1, ← Nat.add_assoc]
        exact hreach

/-- Out of a block comment a scan comes behind its end. -/
theorem reaches_blockEnd (hf : CodeForward code)
    (h : Reaches src.length (lexStep src code) i (.blockComment, acc) j (.normal, acc')) :
    ∃ body : List UInt8, ¬ [asterisk, slash] <:+: body ∧ body ++ [asterisk, slash] <+: src.drop i ∧
      Reaches src.length (lexStep src code) (i + (body ++ [asterisk, slash]).length) (.normal, acc)
        j (.normal, acc') := by
  have hfwd : Forward (lexStep src code) := lexStep_forward hf
  induction hn : j - i using Nat.strong_induction_on generalizing i with
  | _ n ih =>
    obtain ⟨hi, s, k, hstep, hrest⟩ := Reaches.head_round ScanState.noConfusion h
    rw [lexByte] at hstep
    have hdrop := drop_getD hi
    have hkj : k ≤ j := hrest.le hfwd
    split_ifs at hstep with hend
    · cases hstep
      have hnext : i + 1 < src.length := lt_of_getD (by rw [hend.2]; decide)
      refine ⟨[], by simp, ?_, hrest⟩
      rw [hdrop, hend.1, drop_getD hnext, hend.2]
      exact List.cons_prefix_cons.mpr ⟨rfl, List.cons_prefix_cons.mpr ⟨rfl, List.nil_prefix⟩⟩
    · cases hstep
      obtain ⟨body, hnot, hat, hreach⟩ := ih (j - (i + 1)) (by omega) hrest rfl
      refine ⟨src.getD i 0 :: body, ?_, ?_, ?_⟩
      · rw [List.infix_cons_iff]
        rintro (hpre | hinfix)
        · obtain ⟨hstar, hpre⟩ := List.cons_prefix_cons.mp hpre
          obtain ⟨rest, rfl⟩ : ∃ rest, body = slash :: rest := by
            obtain ⟨rest, hrest⟩ := hpre
            exact ⟨rest, hrest.symm⟩
          have hnext := (Reaches.head_round ScanState.noConfusion hrest).1
          rw [drop_getD hnext] at hat
          exact hend ⟨hstar.symm, (List.cons_prefix_cons.mp hat).1.symm⟩
        · exact hnot hinfix
      · rw [hdrop]
        exact List.cons_prefix_cons.mpr ⟨rfl, hat⟩
      · rw [List.cons_append, List.length_cons, Nat.add_comm _ 1, ← Nat.add_assoc]
        exact hreach

/-- A round that leaves code level opens a string or a comment, behind the end of which the scan
comes back to it. -/
theorem reaches_of_marked (hf : CodeForward code) {st : ScanState} {acc₁ : σ} {k : ℕ}
    (hmarked : ¬ Unmarked (src.getD i 0) (src.getD (i + 1) 0)) (hi : i < src.length)
    (hstep : lexByte code i (src.getD i 0) (src.getD (i + 1) 0) .normal acc =
      .ok (.next (st, acc₁) k))
    (hrest : Reaches src.length (lexStep src code) k (st, acc₁) j (.normal, acc')) :
    ∃ p : Piece, ¬ p.IsCode ∧ p.Wf [] ∧ p.bytes <+: src.drop i ∧
      Reaches src.length (lexStep src code) (i + p.bytes.length) (.normal, acc) j
        (.normal, acc') := by
  have hdrop := drop_getD hi
  have hsecond (c : UInt8) (hc : c ≠ 0) (h : src.getD (i + 1) 0 = c) :
      src.drop (i + 1) = c :: src.drop (i + 2) := by
    have hnext := drop_getD (lt_of_getD (by rwa [h]) : i + 1 < src.length)
    rwa [h] at hnext
  rw [lexByte] at hstep
  split_ifs at hstep with hsq hdq hslash hhash hblock
  · cases hstep
    obtain ⟨body, hw, hat, hreach⟩ := reaches_unquote hf (.inl ⟨rfl, rfl⟩) hrest
    refine ⟨.sq body, fun h => h, hw, ?_, ?_⟩
    · rw [hdrop, hsq]
      exact List.cons_prefix_cons.mpr ⟨rfl, hat⟩
    · rw [Piece.bytes, List.length_cons, Nat.add_comm _ 1, ← Nat.add_assoc]
      exact hreach
  · cases hstep
    obtain ⟨body, hw, hat, hreach⟩ := reaches_unquote hf (.inr ⟨rfl, rfl⟩) hrest
    refine ⟨.dq body, fun h => h, hw, ?_, ?_⟩
    · rw [hdrop, hdq]
      exact List.cons_prefix_cons.mpr ⟨rfl, hat⟩
    · rw [Piece.bytes, List.length_cons, Nat.add_comm _ 1, ← Nat.add_assoc]
      exact hreach
  · cases hstep
    obtain ⟨body, hw, hat, hreach⟩ := reaches_lineEnd hf hrest
    refine ⟨.slashLine body, fun h => h, hw, ?_, ?_⟩
    · rw [hdrop, hslash.1, hsecond slash (by decide) hslash.2]
      exact List.cons_prefix_cons.mpr ⟨rfl, List.cons_prefix_cons.mpr ⟨rfl, hat⟩⟩
    · rw [Piece.bytes, List.length_cons, List.length_cons, Nat.add_assoc, Nat.add_comm _ 2,
        ← Nat.add_assoc]
      exact hreach
  · cases hstep
    obtain ⟨body, hw, hat, hreach⟩ := reaches_lineEnd hf hrest
    have hopens : body.head? ≠ some lbracket := by
      intro hhead
      obtain ⟨rest, rfl⟩ : ∃ rest, body = lbracket :: rest :=
        ⟨body.tail, List.eq_cons_of_mem_head? hhead⟩
      obtain ⟨hnext, -⟩ := Reaches.head_round ScanState.noConfusion hrest
      rw [drop_getD hnext] at hat
      exact hhash.2 (List.cons_prefix_cons.mp hat).1.symm
    refine ⟨.hashLine body, fun h => h, ⟨hw, hopens⟩, ?_, ?_⟩
    · rw [hdrop, hhash.1]
      exact List.cons_prefix_cons.mpr ⟨rfl, hat⟩
    · rw [Piece.bytes, List.length_cons, Nat.add_comm _ 1, ← Nat.add_assoc]
      exact hreach
  · cases hstep
    obtain ⟨body, hw, hat, hreach⟩ := reaches_blockEnd hf hrest
    refine ⟨.block body, fun h => h, hw, ?_, ?_⟩
    · rw [hdrop, hblock.1, hsecond asterisk (by decide) hblock.2]
      exact List.cons_prefix_cons.mpr ⟨rfl, List.cons_prefix_cons.mpr ⟨rfl, hat⟩⟩
    · rw [Piece.bytes, List.length_cons, List.length_cons, Nat.add_assoc, Nat.add_comm _ 2,
        ← Nat.add_assoc]
      exact hreach
  · exact absurd ⟨hsq, hdq, fun h => h.2.elim (fun h2 => hslash ⟨h.1, h2⟩) fun h2 =>
      hblock ⟨h.1, h2⟩, hhash⟩ hmarked

/-- What a scan has read from code level to code level is a row, and it found nothing in it. -/
theorem reading_of_reaches (hs : Scans src skips code act)
    (h : Reaches src.length (lexStep src code) i (.normal, acc) j (.normal, acc')) :
    ∃ bytes, Reading src skips i bytes j ∧ walkOn act acc bytes = some acc' := by
  have hfwd : Forward (lexStep src code) := lexStep_forward hs.forward
  induction hn : j - i using Nat.strong_induction_on generalizing i acc with
  | _ n ih =>
    obtain hsame | ⟨⟨k, st, acc₁⟩, ⟨hi, hstep⟩, hrest⟩ := Relation.ReflTransGen.cases_head h
    · cases hsame
      exact ⟨[], .nil _, rfl⟩
    have hi : i < src.length := hi
    have hrest : Reaches src.length (lexStep src code) k (st, acc₁) j (.normal, acc') := hrest
    have hstep : lexStep src code i (.normal, acc) = .ok (.next (st, acc₁) k) := hstep
    have hkj := hrest.le hfwd
    have hik : i < k := hfwd _ _ _ _ hstep
    rw [lexStep_getD hi] at hstep
    by_cases hunmarked : Unmarked (src.getD i 0) (src.getD (i + 1) 0)
    · rw [lexByte_unmarked hunmarked] at hstep
      by_cases hheredoc : skips = true ∧ HeredocAt src i
      · rw [hs.skips hheredoc.1 i acc hheredoc.2] at hstep
        cases hstep
        obtain ⟨bytes, hread, hwalk⟩ := ih (j - (i + branchLength (src.drop i) + 1)) (by omega)
          hrest rfl
        exact ⟨bytes, .skip hheredoc.1 hheredoc.2 hread, hwalk⟩
      · rw [hs.acts i acc hi hheredoc] at hstep
        cases hact : act acc i (src.getD i 0) with
        | inl r =>
          rw [hact] at hstep
          cases hstep
        | inr acc₂ =>
          rw [hact] at hstep
          cases hstep
          obtain ⟨bytes, hread, hwalk⟩ := ih (j - (i + 1)) (by omega) hrest rfl
          refine ⟨(i, src.getD i 0) :: bytes, .code hi ⟨hunmarked, hheredoc⟩ hread, ?_⟩
          rw [walkOn, hact]
          exact hwalk
    · obtain ⟨p, hp, hw, hat, hreach⟩ :=
        reaches_of_marked hs.forward hunmarked hi hstep hrest
      have hpos := List.length_pos_iff.mpr p.bytes_ne_nil
      have hle := hreach.le hfwd
      obtain ⟨bytes, hread, hwalk⟩ := ih (j - (i + p.bytes.length)) (by omega) hreach rfl
      exact ⟨bytes, .still hp hw hat hread, hwalk⟩

theorem lexByte_stop_unmarked {c n : UInt8} {st : ScanState} {r : ℕ}
    (h : lexByte code i c n st acc = .ok (.stop r)) : st = .normal ∧ Unmarked c n := by
  unfold lexByte at h
  unfold Unmarked
  cases st <;> dsimp only at h <;> split_ifs at h <;> simp_all

/-- A row from `i` to `k` in which nothing is found, and a byte of code behind it at which `r`
is. -/
def StopsAt (src : List UInt8) (skips : Bool) (act : σ → ℕ → UInt8 → ℕ ⊕ σ) (i : ℕ) (acc : σ)
    (k r : ℕ) : Prop :=
  ∃ bytes acc', Reading src skips i bytes k ∧ walkOn act acc bytes = some acc' ∧ k < src.length ∧
    CodeByteAt src skips k ∧ act acc' k (src.getD k 0) = .inl r

/-- A scan stops just where a row leads to. -/
theorem stopsAt_iff (hs : Scans src skips code act) {k r : ℕ} :
    StopsAt src skips act i acc k r ↔
      ∃ s, k < src.length ∧ Reaches src.length (lexStep src code) i (.normal, acc) k s ∧
        lexStep src code k s = .ok (.stop r) := by
  constructor
  · rintro ⟨bytes, acc', hread, hwalk, hk, hc, hact⟩
    refine ⟨_, hk, hread.reaches hs hwalk, ?_⟩
    rw [lexStep_getD hk, lexByte_unmarked hc.1, hs.acts k acc' hk hc.2, hact]
    rfl
  · rintro ⟨⟨st, acc'⟩, hk, hreach, hstop⟩
    rw [lexStep_getD hk] at hstop
    obtain ⟨rfl, hunmarked⟩ := lexByte_stop_unmarked hstop
    rw [lexByte_unmarked hunmarked] at hstop
    obtain ⟨bytes, hread, hwalk⟩ := reading_of_reaches hs hreach
    have hheredoc : ¬ (skips = true ∧ HeredocAt src k) := by
      intro hat
      rw [hs.skips hat.1 k acc' hat.2] at hstop
      cases hstop
    rw [hs.acts k acc' hk hheredoc] at hstop
    refine ⟨bytes, acc', hread, hwalk, hk, ⟨hunmarked, hheredoc⟩, ?_⟩
    cases hact : act acc' k (src.getD k 0) with
    | inl r' =>
      rw [hact] at hstop
      cases hstop
      rfl
    | inr acc'' =>
      rw [hact] at hstop
      cases hstop

theorem scanCode_found_iff (hs : Scans src skips code act) {r : ℕ} :
    scanCode src code i acc = .ok (some r) ↔ ∃ k, StopsAt src skips act i acc k r := by
  have hfwd : Forward (lexStep src code) := lexStep_forward hs.forward
  simp only [stopsAt_iff hs]
  constructor
  · intro h
    obtain ⟨x, hx, hr⟩ := map_ok h
    obtain ⟨r', rfl, k, hk⟩ | ⟨s, k, rfl, -, -⟩ :=
      scanFrom_inv hfwd (P := fun k s => Reaches src.length (lexStep src code) i (.normal, acc) k s)
        (Q := fun r => ∃ k s, k < src.length ∧ Reaches src.length (lexStep src code) i
          (.normal, acc) k s ∧ lexStep src code k s = .ok (.stop r))
        (fun k s s' k' hk hreach hstep => hreach.trans (Reaches.next hk hstep))
        (fun k s r hk hreach hstep => ⟨k, s, hk, hreach, hstep⟩) (Reaches.refl _ _) hx
    · cases hr
      exact ⟨k, hk⟩
    · cases hr
  · rintro ⟨k, s, hk, hreach, hstop⟩
    rw [scanCode, hreach.covers hfwd, scanFrom_stop hk hstop]
    rfl

end Rows

/-! ## The three scans of an extraction -/

section Three
variable {src : List UInt8} {i k : ℕ} {bytes : List (ℕ × UInt8)}

/-- What the keyword search does with a byte of code. -/
def wordAct (src : List UInt8) (_ : Unit) (i : ℕ) (_ : UInt8) : ℕ ⊕ Unit :=
  if wordAt src functionKeyword i then .inl i else .inr ()

theorem keywordStep_scans (src : List UInt8) :
    Scans src true (keywordStep src functionKeyword) (wordAct src) where
  forward := keywordStep_forward src functionKeyword
  acts i acc _ hat := by
    obtain ⟨j, -, hstep⟩ := @keywordStep_eq src i
    have hopens : ¬ (src.getD i 0 = less ∧ src.getD (i + 1) 0 = less ∧ src.getD (i + 2) 0 = less) :=
      fun h => hat ⟨rfl, h⟩
    rw [if_neg hopens] at hstep
    rw [hstep, wordAct]
    cases wordAt src functionKeyword i <;> rfl
  skips _ i acc hat := by
    obtain ⟨hsplit, htake⟩ := @text_split src i (by have := heredocAt_lt hat; omega)
    have hskip := heredocSkip_text hsplit (heredocAt_iff.mp hat)
    rw [htake] at hskip
    rw [keywordStep, heredocOpens_eq, ok_bind, if_pos (decide_eq_true ⟨hat.1, hat.2.1, hat.2.2⟩),
      hskip, ok_bind]
    rfl

theorem braceOpenStep_scans (src : List UInt8) :
    Scans src false braceOpenStep (balanceAct paren lbrace id) where
  forward := braceOpenStep_forward
  acts i acc _ _ := braceOpenStep_eq i _ _ acc
  skips := nofun

theorem braceMatchStep_scans (src : List UInt8) :
    Scans src false braceMatchStep (balanceAct brace rbrace (· + 1)) where
  forward := braceMatchStep_forward
  acts i acc _ _ := braceMatchStep_eq i _ _ acc
  skips := nofun

/-- The first whole word `function` from `i` on that stands at code level. -/
def FirstWord (src : List UInt8) (i k : ℕ) : Prop :=
  ∃ bytes, Reading src true i bytes k ∧ firstWord src functionKeyword bytes = none ∧
    wordAt src functionKeyword k = true

/-- How the weights of bytes of code add up. -/
def total (w : UInt8 → ℤ) (bytes : List (ℕ × UInt8)) : ℤ := (bytes.map fun x => w x.2).sum

/-- The first `stop` from `i` on that stands at code level and with which the weights since `i` come
to zero. -/
def FirstBalanced (src : List UInt8) (w : UInt8 → ℤ) (stop : UInt8) (i k : ℕ) : Prop :=
  ∃ bytes, Reading src false i bytes k ∧ firstBalanced w stop 0 bytes = none ∧
    total w bytes + w stop = 0 ∧ src[k]? = some stop

theorem walkOn_word : walkOn (wordAct src) () bytes = some () ↔
    firstWord src functionKeyword bytes = none := by
  induction bytes with
  | nil => exact iff_of_true rfl rfl
  | cons x bytes ih =>
    obtain ⟨i, c⟩ := x
    rw [walkOn, firstWord_cons, wordAct]
    cases wordAt src functionKeyword i with
    | true => exact iff_of_false nofun nofun
    | false => exact ih

theorem walkOn_balance {w : UInt8 → ℤ} {stop : UInt8} {res : ℕ → ℕ} {d d' : ℤ} :
    walkOn (balanceAct w stop res) d bytes = some d' ↔
      firstBalanced w stop d bytes = none ∧ d' = d + total w bytes := by
  induction bytes generalizing d with
  | nil =>
    simp only [walkOn, firstBalanced, total, List.map_nil, List.sum_nil, add_zero, true_and]
    exact ⟨fun h => (Option.some.inj h).symm, fun h => congrArg some h.symm⟩
  | cons x bytes ih =>
    obtain ⟨i, c⟩ := x
    rw [walkOn, firstBalanced, balanceAct]
    by_cases hc : c = stop ∧ d + w c = 0
    · rw [if_pos hc, if_pos hc]
      exact iff_of_false (by simp) (by simp)
    · rw [if_neg hc, if_neg hc]
      dsimp only
      rw [ih, total, total, List.map_cons, List.sum_cons, add_assoc]

theorem word_codeByteAt (h : wordAt src functionKeyword k = true) (skips : Bool) :
    k < src.length ∧ CodeByteAt src skips k := by
  have hhead := wordAt_head h
  have hget : src.getD k 0 = 0x66 := by rw [List.getD_eq_getElem?_getD, hhead]; rfl
  refine ⟨(List.getElem?_eq_some_iff.mp hhead).1, ?_, ?_⟩
  · rw [hget]
    exact ⟨by decide, by decide, fun h => absurd h.1 (by decide), fun h => absurd h.1 (by decide)⟩
  · rintro ⟨-, hless, -⟩
    cases hget.symm.trans hless

theorem stopsAt_word {r : ℕ} :
    StopsAt src true (wordAct src) i () k r ↔ FirstWord src i k ∧ r = k := by
  constructor
  · rintro ⟨bytes, acc', hread, hwalk, -, -, hact⟩
    unfold wordAct at hact
    have hword : wordAt src functionKeyword k = true := by
      by_contra hno
      rw [if_neg hno] at hact
      cases hact
    rw [if_pos hword] at hact
    cases hact
    exact ⟨⟨bytes, hread, walkOn_word.mp hwalk, hword⟩, rfl⟩
  · rintro ⟨⟨bytes, hread, hnone, hword⟩, rfl⟩
    obtain ⟨hk, hc⟩ := word_codeByteAt hword true
    exact ⟨bytes, (), hread, walkOn_word.mpr hnone, hk, hc, if_pos hword⟩

/-- The keyword search finds the first whole word of the text. -/
theorem scanFindKeyword_iff :
    scanFindKeyword src i functionKeyword = .ok (some k) ↔ FirstWord src i k := by
  rw [scanFindKeyword, scanCode_found_iff (keywordStep_scans src)]
  simp only [stopsAt_word]
  constructor
  · rintro ⟨j, hj, rfl⟩
    exact hj
  · exact fun h => ⟨k, h, rfl⟩

theorem stopsAt_balance {w : UInt8 → ℤ} {stop : UInt8} {res : ℕ → ℕ} (hstop : ∀ n, Unmarked stop n)
    {r : ℕ} : StopsAt src false (balanceAct w stop res) i 0 k r ↔
      FirstBalanced src w stop i k ∧ r = res k := by
  constructor
  · rintro ⟨bytes, d, hread, hwalk, hk, hc, hact⟩
    obtain ⟨hnone, rfl⟩ := walkOn_balance.mp hwalk
    rw [balanceAct] at hact
    split_ifs at hact with hzero
    cases hact
    have hbyte : src[k]? = some stop := by
      rw [← hzero.1, List.getElem?_eq_getElem hk, List.getD_eq_getElem?_getD,
        List.getElem?_eq_getElem hk]
      rfl
    have hsum := hzero.2
    rw [hzero.1, zero_add] at hsum
    exact ⟨⟨bytes, hread, hnone, hsum, hbyte⟩, rfl⟩
  · rintro ⟨⟨bytes, hread, hnone, hsum, hbyte⟩, rfl⟩
    have hk := (List.getElem?_eq_some_iff.mp hbyte).1
    have hget : src.getD k 0 = stop := by
      rw [List.getD_eq_getElem?_getD, hbyte]
      rfl
    refine ⟨bytes, _, hread, walkOn_balance.mpr ⟨hnone, rfl⟩, hk, ⟨?_, by simp⟩, ?_⟩
    · rw [hget]
      exact hstop _
    · rw [hget, balanceAct, if_pos ⟨rfl, by rw [zero_add, hsum]⟩]

theorem lbrace_unmarked (n : UInt8) : Unmarked lbrace n :=
  ⟨by decide, by decide, fun h => absurd h.1 (by decide), fun h => absurd h.1 (by decide)⟩

theorem rbrace_unmarked (n : UInt8) : Unmarked rbrace n :=
  ⟨by decide, by decide, fun h => absurd h.1 (by decide), fun h => absurd h.1 (by decide)⟩

theorem scanBraceOpen_iff :
    scanBraceOpen src i = .ok (some k) ↔ FirstBalanced src paren lbrace i k := by
  rw [scanBraceOpen, scanCode_found_iff (braceOpenStep_scans src)]
  simp only [stopsAt_balance lbrace_unmarked]
  constructor
  · rintro ⟨j, hj, rfl⟩
    exact hj
  · exact fun h => ⟨k, h, rfl⟩

theorem scanBraceMatch_iff (hb : src[i]? = some lbrace) {e : ℕ} :
    scanBraceMatch src i = .ok (some e) ↔ ∃ k, FirstBalanced src brace rbrace i k ∧ e = k + 1 := by
  rw [scanBraceMatch_lbrace hb, scanCode_found_iff (braceMatchStep_scans src)]
  simp only [stopsAt_balance rbrace_unmarked]

end Three

end Parallax.Closure
