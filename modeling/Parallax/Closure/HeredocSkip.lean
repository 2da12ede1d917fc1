import Parallax.Closure.Heredoc

/-! The heredoc branch of the keyword search: the label it copies, the line it takes for the end,
and the byte behind that line's label, which the loop moves past. -/
namespace Parallax.Closure
open Memory Scan Byte
set_option autoImplicit false
set_option maxHeartbeats 250000

/-! ## The heredoc branch of the keyword search -/

/-- `label` stands behind the blanks at the start of `s`, with no identifier byte after it. -/
def startsWithLabel (label s : List UInt8) : Bool :=
  label.isPrefixOf (s.dropWhile isBlank) && !((s.dropWhile isBlank)[label.length]?).any isIdentByte

/-- How many bytes `s` has up to the end of the first line start that is `label`, or at all. -/
def upToLabel (label : List UInt8) : List UInt8 → ℕ
  | [] => 0
  | c :: s =>
    if c = newline ∧ startsWithLabel label s = true then
      1 + (s.takeWhile isBlank).length + label.length
    else 1 + upToLabel label s

section Branch
variable {src pre s : List UInt8}

theorem skipWhile_eq (p : UInt8 → Bool) (hs : src = pre ++ s) :
    skipWhile src p pre.length = .ok (pre.length + (s.takeWhile p).length) := by
  induction s generalizing pre with
  | nil =>
    rw [skipWhile, scanFrom_end _ (by simp [hs])]
    rfl
  | cons c s ih =>
    have hlt : pre.length < src.length := by
      simp [hs]
    have hc : byteAt src pre.length = .ok c := by rw [hs, byteAt_append]
    cases hp : p c with
    | false =>
      have hstep : skipStep src p pre.length () = .ok (.stop pre.length) := by
        rw [skipStep, hc, ok_bind, hp]
        rfl
      rw [skipWhile, scanFrom_stop hlt hstep]
      simp [hp, Except.map, Ending.index]
    | true =>
      have hstep : skipStep src p pre.length () = .ok (.next () (pre.length + 1)) := by
        rw [skipStep, hc, ok_bind, hp]
        rfl
      have hrest := @ih (pre ++ [c]) (by simp [hs])
      rw [List.length_append, List.length_singleton, skipWhile] at hrest
      rw [skipWhile, scanFrom_next (skipStep_forward p) hlt hstep, hrest]
      simp [hp]
      omega

theorem drop_blanks (hs : src = pre ++ s) :
    src.drop (pre.length + (s.takeWhile isBlank).length) = s.dropWhile isBlank := by
  have hsplit : src = (pre ++ s.takeWhile isBlank) ++ s.dropWhile isBlank := by
    rw [hs, List.append_assoc, List.takeWhile_append_dropWhile]
  rw [hsplit, ← List.length_append]
  exact List.drop_left

/-- The round of the search at a newline. -/
theorem heredocEndStep_newline (label : List UInt8) (hs : src = pre ++ newline :: s) :
    heredocEndStep src label pre.length () =
      .ok (if startsWithLabel label s = true then
        .stop (pre.length + (1 + (s.takeWhile isBlank).length + label.length))
      else .next () (pre.length + 1)) := by
  have hs' : src = (pre ++ [newline]) ++ s := by simp [hs]
  have hskip := skipWhile_eq isBlank hs'
  have hdrop := drop_blanks hs'
  rw [List.length_append, List.length_singleton] at hskip hdrop
  set k := pre.length + 1 + (s.takeWhile isBlank).length with hk
  have hc : byteAt src pre.length = .ok newline := by rw [hs, byteAt_append]
  have hnext : src[k + label.length]? = (s.dropWhile isBlank)[label.length]? := by
    rw [← hdrop, List.getElem?_drop]
  rw [heredocEndStep, hc, ok_bind, if_pos rfl, hskip, ok_bind, startsWithLabel]
  by_cases hlen : k + label.length ≤ src.length
  · have hle : label.length ≤ (src.drop k).length := by
      rw [List.length_drop]
      omega
    rw [if_pos hlen, bytesAt_ok hlen, ok_bind, hdrop]
    rw [hdrop] at hle
    by_cases hlabel : (s.dropWhile isBlank).take label.length = label
    · rw [if_pos hlabel, wordEnds_eq hlen, ok_bind, hnext,
        (take_eq_iff_isPrefixOf hle).mp hlabel, Bool.true_and,
        show k + label.length = pre.length + (1 + (s.takeWhile isBlank).length + label.length) by
          omega]
      cases ((s.dropWhile isBlank)[label.length]?).any isIdentByte <;> rfl
    · have hp : label.isPrefixOf (s.dropWhile isBlank) = false :=
        Bool.eq_false_iff.mpr fun h => hlabel ((take_eq_iff_isPrefixOf hle).mpr h)
      rw [if_neg hlabel, hp]
      rfl
  · have hp : label.isPrefixOf (s.dropWhile isBlank) = false := by
      refine Bool.eq_false_iff.mpr fun h => hlen ?_
      have hle := (List.isPrefixOf_iff_prefix.mp h).length_le
      rw [← hdrop, List.length_drop] at hle
      have : k ≤ src.length := by
        have hsub : (s.takeWhile isBlank).length ≤ s.length := (List.takeWhile_sublist _).length_le
        rw [hk, hs']
        simp
        omega
      omega
    rw [if_neg hlen, hp]
    rfl

theorem heredocEnd_eq (label : List UInt8) (hs : src = pre ++ s) :
    heredocEnd src label pre.length = .ok (pre.length + upToLabel label s) := by
  induction s generalizing pre with
  | nil =>
    rw [heredocEnd, scanFrom_end _ (by simp [hs])]
    rfl
  | cons c s ih =>
    have hlt : pre.length < src.length := by
      simp [hs]
    have hrest := @ih (pre ++ [c]) (by simp [hs])
    rw [List.length_append, List.length_singleton, heredocEnd] at hrest
    have hnext : heredocEndStep src label pre.length () = .ok (.next () (pre.length + 1)) →
        heredocEnd src label pre.length = .ok (pre.length + (1 + upToLabel label s)) := by
      intro hstep
      rw [heredocEnd, scanFrom_next (heredocEndStep_forward label) hlt hstep, hrest]
      congr 1
      omega
    rw [upToLabel]
    by_cases hc : c = newline
    · subst hc
      have hstep := heredocEndStep_newline label hs
      by_cases hlabel : startsWithLabel label s = true
      · rw [if_pos hlabel] at hstep
        rw [if_pos ⟨rfl, hlabel⟩, heredocEnd, scanFrom_stop hlt hstep]
        rfl
      · rw [if_neg hlabel] at hstep
        rw [if_neg fun h => hlabel h.2]
        exact hnext hstep
    · rw [if_neg fun h => hc h.1]
      apply hnext
      rw [heredocEndStep, hs, byteAt_append, ok_bind, if_neg hc]
      rfl

/-- The bytes the search copies for its label: what the buffer holds beside its NUL. -/
def copiedLabel (s : List UInt8) : List UInt8 := (s.takeWhile isIdentByte).take 63

theorem labelLoop_eq (label : List UInt8) (hlabel : label.length ≤ 63) (hs : src = pre ++ s) :
    ∃ x : Ending (List UInt8) (List UInt8 × ℕ),
      scanFrom Fault.outOfFuel src.length (labelStep src) pre.length label = .ok x ∧
      (x = .found (label ++ (s.takeWhile isIdentByte).take (63 - label.length),
          pre.length + ((s.takeWhile isIdentByte).take (63 - label.length)).length) ∨
        x = .ended (label ++ (s.takeWhile isIdentByte).take (63 - label.length))
          (pre.length + ((s.takeWhile isIdentByte).take (63 - label.length)).length)) := by
  induction s generalizing pre label with
  | nil =>
    rw [scanFrom_end _ (by simp [hs])]
    exact ⟨_, rfl, .inr (by simp)⟩
  | cons c s ih =>
    have hlt : pre.length < src.length := by
      simp [hs]
    have hc : byteAt src pre.length = .ok c := by rw [hs, byteAt_append]
    by_cases hcopy : isIdentByte c = true ∧ label.length + 1 < 64
    · have hstep : labelStep src pre.length label =
          .ok (.next (label ++ [c]) (pre.length + 1)) := by
        rw [labelStep, hc, ok_bind, if_pos hcopy, labelWrite_ok c (by omega)]
        rfl
      obtain ⟨x, hx, hend⟩ := @ih (pre ++ [c]) (label ++ [c]) (by simp; omega) (by simp [hs])
      rw [List.length_append, List.length_singleton] at hx
      refine ⟨x, (scanFrom_next labelStep_forward hlt hstep).trans hx, ?_⟩
      have hroom : 63 - label.length = 63 - (label ++ [c]).length + 1 := by
        simp
        omega
      rw [List.takeWhile_cons, if_pos hcopy.1, hroom, List.take_succ_cons]
      simpa [Nat.add_assoc, Nat.add_comm, Nat.add_left_comm] using hend
    · have hstep : labelStep src pre.length label = .ok (.stop (label, pre.length)) := by
        rw [labelStep, hc, ok_bind, if_neg hcopy]
        rfl
      refine ⟨_, scanFrom_stop hlt hstep, .inl ?_⟩
      by_cases hident : isIdentByte c = true
      · have hfull : ¬ label.length + 1 < 64 := fun hroom => hcopy ⟨hident, hroom⟩
        rw [show 63 - label.length = 0 by omega]
        simp
      · simp [hident]

theorem heredocLabel_eq (hs : src = pre ++ s) :
    heredocLabel src pre.length = .ok (copiedLabel s, pre.length + (copiedLabel s).length) := by
  obtain ⟨x, hx, hend⟩ := labelLoop_eq [] (by simp) hs
  have hcopied : ([] ++ (s.takeWhile isIdentByte).take (63 - ([] : List UInt8).length)) =
      copiedLabel s := rfl
  have hlen : (copiedLabel s).length < 64 := by
    rw [copiedLabel, List.length_take]
    omega
  have hnul : labelWrite (copiedLabel s) 0 = .ok (copiedLabel s ++ [0]) := labelWrite_ok 0 hlen
  rw [hcopied] at hend
  rw [heredocLabel, hx, ok_bind]
  obtain rfl | rfl := hend
  · dsimp only
    rw [hnul]
    rfl
  · dsimp only
    rw [hnul]
    rfl

theorem quoteAt_eq (hs : src = pre ++ s) :
    quoteAt src pre.length = .ok (s.head? == some squote) := by
  unfold quoteAt
  cases s with
  | nil => rw [if_neg (by simp [hs])]; rfl
  | cons c s =>
    rw [if_pos (by simp [hs]), hs, byteAt_append]
    simp [Except.map]

/-- What the search copies of an opening label: nothing of one in double quotes. -/
def Heredoc.copied (h : Heredoc) : List UInt8 :=
  match h.quoting with
  | .quoted => []
  | _ => copiedLabel h.label

theorem copiedLabel_prefix (label : List UInt8) : copiedLabel label <+: label :=
  (List.take_prefix _ _).trans (List.takeWhile_prefix _)

section Skip
variable {h : Heredoc} {rest : List UInt8}

end Skip

/-! ### The branch, by how the label is quoted -/

section Quotings
variable {i : ℕ} {label v : List UInt8}

end Quotings

end Branch

/-! ## The keyword search -/

/-- `<<<` at `i`. -/
def HeredocAt (src : List UInt8) (i : ℕ) : Prop :=
  src.getD i 0 = less ∧ src.getD (i + 1) 0 = less ∧ src.getD (i + 2) 0 = less

/-- At `i` no string, comment or heredoc opens and no whole word `function` begins. -/
def PlainAt (src : List UInt8) (i : ℕ) : Prop :=
  Unmarked (src.getD i 0) (src.getD (i + 1) 0) ∧ ¬ HeredocAt src i ∧
    wordAt src functionKeyword i = false

instance (src : List UInt8) (i : ℕ) : Decidable (HeredocAt src i) := by
  unfold HeredocAt
  infer_instance

instance (src : List UInt8) (i : ℕ) : Decidable (PlainAt src i) := by
  unfold PlainAt
  infer_instance

section Search
variable {src : List UInt8}

theorem heredocOpens_eq (src : List UInt8) (i : ℕ) (c n : UInt8) :
    heredocOpens src i c n =
      .ok (decide (c = less ∧ n = less ∧ src.getD (i + 2) 0 = less)) := by
  unfold heredocOpens
  by_cases hcn : c = less ∧ n = less
  · by_cases hlen : i + 2 < src.length
    · rw [if_pos ⟨hcn.1, hcn.2, hlen⟩, byteAt_ok hlen]
      simp [Except.map, hcn.1, hcn.2, hlen, beq_eq_decide]
    · have hzero : ¬ src.getD (i + 2) 0 = less := by
        have hnone : src[i + 2]? = none := List.getElem?_eq_none (by omega)
        rw [List.getD_eq_getElem?_getD, hnone]
        decide
      rw [if_neg fun h => hlen h.2.2, decide_eq_false fun h => hzero h.2.2]
  · rw [if_neg fun h => hcn ⟨h.1, h.2.1⟩, decide_eq_false fun h => hcn ⟨h.1, h.2.1⟩]

/-- The keyword search's own part at a byte of the file. -/
theorem keywordStep_eq (i : ℕ) : ∃ j, i + 3 ≤ j ∧
    keywordStep src functionKeyword i (src.getD i 0) (src.getD (i + 1) 0) () =
      .ok (if src.getD i 0 = less ∧ src.getD (i + 1) 0 = less ∧ src.getD (i + 2) 0 = less then
          .next (.normal, ()) (j + 1)
        else if wordAt src functionKeyword i = true then .stop i
        else .next (.normal, ()) (i + 1)) := by
  obtain ⟨j, hj⟩ := heredocSkip_total src i
  refine ⟨j, heredocSkip_le hj, ?_⟩
  rw [keywordStep, heredocOpens_eq, ok_bind]
  split_ifs with hopens <;> simp_all [keywordAt_eq _ functionKeyword_ne_nil]

variable {pre rest : List UInt8} {h : Heredoc}

end Search

end Parallax.Closure
