import Parallax.Closure.Bounds

/-! Heredocs and nowdocs as PHP has them, and what a scan makes of one it comes to at code level.
The scans for the two braces have no branch for them: the bytes of a heredoc are code to both. -/
namespace Parallax.Closure
open Memory Scan Byte
set_option autoImplicit false
set_option maxHeartbeats 250000

/-! ## Heredocs -/

/-- The quotes around an opening label. -/
inductive Quoting
  | bare | nowdoc | quoted
deriving DecidableEq

def Quoting.mark : Quoting → List UInt8
  | .bare => []
  | .nowdoc => [squote]
  | .quoted => [dquote]

/-- A heredoc or nowdoc. Its body goes from the newline that ends the opening to the newline before
the line of the closing label, with both. -/
structure Heredoc where
  blanks : List UInt8
  quoting : Quoting
  label : List UInt8
  body : List UInt8
  indent : List UInt8

/-- A byte of a PHP label; `isIdentByte` leaves those from 0x80 on out. -/
def isLabelByte (c : UInt8) : Bool := isIdentByte c || 0x80 ≤ c

def isLabelStart (c : UInt8) : Bool := isLabelByte c && !(0x30 ≤ c && c ≤ 0x39)

/-- A newline or a carriage return. -/
def endsLine (c : UInt8) : Bool := c == newline || c == 0x0d

namespace Heredoc
variable (h : Heredoc)

def opening : List UInt8 :=
  [less, less, less] ++ (h.blanks ++ (h.quoting.mark ++ (h.label ++ h.quoting.mark)))

/-- The line of the closing label, up to the end of the label. -/
def closing : List UInt8 := h.indent ++ h.label

def bytes : List UInt8 := h.opening ++ (h.body ++ h.closing)

/-- A heredoc of PHP in front of `after`. Which of the lines that begin with the label closes it is
part of the heredoc, as code in braces in the body may have such lines too. -/
structure Wf (after : List UInt8) : Prop where
  blanks : ∀ c ∈ h.blanks, isBlank c = true
  label : ∀ c ∈ h.label, isLabelByte c = true
  labelStart : h.label.head?.any isLabelStart = true
  opens : h.body.head?.any endsLine = true
  closes : h.body.getLast?.any endsLine = true
  indent : ∀ c ∈ h.indent, isBlank c = true
  ends : after.head?.any isLabelByte = false

instance (after : List UInt8) : Decidable (h.Wf after) :=
  decidable_of_iff (h.blanks.all isBlank = true ∧ h.label.all isLabelByte = true ∧
      h.label.head?.any isLabelStart = true ∧ h.body.head?.any endsLine = true ∧
      h.body.getLast?.any endsLine = true ∧ h.indent.all isBlank = true ∧
      after.head?.any isLabelByte = false) (by
    simp only [List.all_eq_true]
    exact ⟨fun ⟨h1, h2, h3, h4, h5, h6, h7⟩ => ⟨h1, h2, h3, h4, h5, h6, h7⟩,
      fun ⟨h1, h2, h3, h4, h5, h6, h7⟩ => ⟨h1, h2, h3, h4, h5, h6, h7⟩⟩)

end Heredoc

/-- Each byte of `body` is `quiet` before the byte that follows it. -/
def Quiet (quiet : UInt8 → UInt8 → Prop) (body : List UInt8) : Prop :=
  ∀ k, k < body.length → quiet (body.getD k 0) (body.getD (k + 1) 0)

/-! ## A scan that comes to a heredoc -/

section Reading
variable {σ : Type}

/-- A scan reads the byte at `i` as code and passes on to the next: the byte is no quote, comment
marker, heredoc, brace, parenthesis or keyword to it. -/
def PassesAt (src : List UInt8) (code : CodeStep σ) (i : ℕ) (acc : σ) : Prop :=
  lexStep src code i (.normal, acc) = .ok (.next (.normal, acc) (i + 1))

variable {src : List UInt8} {code : CodeStep σ} {acc : σ}

/-- Bytes that are passed take a scan from the first to the place after the last. -/
theorem reaches_passed {i n : ℕ} (hn : i + n ≤ src.length)
    (h : ∀ k, i ≤ k → k < i + n → PassesAt src code k acc) :
    Reaches src.length (lexStep src code) i (.normal, acc) (i + n) (.normal, acc) := by
  induction n with
  | zero => exact Reaches.refl _ _
  | succ n ih =>
    have hbefore := ih (by omega) fun k hk hkn => h k hk (by omega)
    exact hbefore.trans (Reaches.next (by omega) (h (i + n) (by omega) (by omega)))

theorem getD_middle (pre rest : List UInt8) {seg : List UInt8} {k : ℕ} (hk : k < seg.length) :
    (pre ++ (seg ++ rest)).getD (pre.length + k) 0 = seg[k] := by
  rw [List.getD_eq_getElem?_getD, List.getElem?_append_right (by omega),
    List.getElem?_append_left (by omega), Nat.add_sub_cancel_left, List.getElem?_eq_getElem hk,
    Option.getD_some]

theorem lexStep_getD {i : ℕ} (hi : i < src.length) (st : ScanState) (acc : σ) :
    lexStep src code i (st, acc) = lexByte code i (src.getD i 0) (src.getD (i + 1) 0) st acc := by
  have hnext : nextByte src i = .ok (src.getD (i + 1) 0) := by
    unfold nextByte
    split_ifs with hlt
    · rw [byteAt_ok hlt]
      simp [hlt]
    · simp [hlt]
  rw [lexStep, byteAt_ok hi, ok_bind, hnext, ok_bind]
  simp [hi]

/-- A byte that opens no string and no comment before the byte `n`. -/
def Unmarked (c n : UInt8) : Prop :=
  c ≠ squote ∧ c ≠ dquote ∧ ¬ (c = slash ∧ (n = slash ∨ n = asterisk)) ∧
    ¬ (c = hashSign ∧ n ≠ lbracket)

instance (c n : UInt8) : Decidable (Unmarked c n) := by
  unfold Unmarked
  infer_instance

theorem lexByte_unmarked {i : ℕ} {c n : UInt8} (h : Unmarked c n) :
    lexByte code i c n .normal acc = code i c n acc := by
  obtain ⟨hsq, hdq, hcomment, hhash⟩ := h
  rw [lexByte, if_neg hsq, if_neg hdq, if_neg fun h => hcomment ⟨h.1, .inl h.2⟩, if_neg hhash,
    if_neg fun h => hcomment ⟨h.1, .inr h.2⟩]

theorem lexByte_passes_iff {i : ℕ} {c n : UInt8} :
    lexByte code i c n .normal acc = .ok (.next (.normal, acc) (i + 1)) ↔
      Unmarked c n ∧ code i c n acc = .ok (.next (.normal, acc) (i + 1)) := by
  unfold lexByte Unmarked
  dsimp only
  split_ifs <;> simp_all

theorem passesAt_iff {i : ℕ} (hi : i < src.length) :
    PassesAt src code i acc ↔ Unmarked (src.getD i 0) (src.getD (i + 1) 0) ∧
      code i (src.getD i 0) (src.getD (i + 1) 0) acc = .ok (.next (.normal, acc) (i + 1)) := by
  rw [PassesAt, lexStep_getD hi]
  exact lexByte_passes_iff

/-! ## The two scans for braces -/

/-- A byte of a heredoc's opening or closing, quotes apart. -/
def isInert (c : UInt8) : Bool := isLabelByte c || isBlank c || endsLine c || c == less

theorem inert_ne {c b : UInt8} (h : isInert c = true) (hb : isInert b = false) : c ≠ b := by
  rintro rfl
  rw [h] at hb
  cases hb

theorem inert_unmarked {c : UInt8} (h : isInert c = true) (n : UInt8) : Unmarked c n :=
  ⟨inert_ne h (by decide), inert_ne h (by decide), fun hc => inert_ne h (by decide) hc.1,
    fun hc => inert_ne h (by decide) hc.1⟩

/-- A scan's own part that has no use for the bytes of an opening or a closing. -/
def SkipsInert (code : CodeStep σ) : Prop :=
  ∀ i c n acc, isInert c = true → code i c n acc = .ok (.next (.normal, acc) (i + 1))

theorem SkipsInert.passesAt (hs : SkipsInert code) {i : ℕ} (hi : i < src.length)
    (hc : isInert (src.getD i 0) = true) : PassesAt src code i acc :=
  (passesAt_iff hi).mpr ⟨inert_unmarked hc _, hs i _ _ acc hc⟩

theorem SkipsInert.reaches (hs : SkipsInert code) (acc : σ) {pre seg rest : List UInt8}
    (hsrc : src = pre ++ (seg ++ rest)) (hseg : ∀ c ∈ seg, isInert c = true) :
    Reaches src.length (lexStep src code) pre.length (.normal, acc) (pre.length + seg.length)
      (.normal, acc) := by
  apply reaches_passed (by simp [hsrc])
  intro i hi hin
  obtain ⟨k, rfl⟩ := Nat.exists_eq_add_of_le hi
  apply hs.passesAt (by simp [hsrc]; omega)
  rw [hsrc, getD_middle pre rest (by omega)]
  exact hseg _ (List.getElem_mem _)

section Braces
variable {pre rest : List UInt8} {h : Heredoc}

theorem inert_label {c : UInt8} (h : isLabelByte c = true) : isInert c = true := by
  simp [isInert, h]

theorem inert_blank {c : UInt8} (h : isBlank c = true) : isInert c = true := by simp [isInert, h]

theorem unitBytes_plain (bs : List UInt8) : unitBytes (bs.map .plain) = bs := by
  induction bs with
  | nil => rfl
  | cons c bs ih => exact congrArg (c :: ·) ih

theorem plain_wf {bs : List UInt8} {quote : UInt8} (hbs : ∀ c ∈ bs, isLabelByte c = true)
    (hquote : isInert quote = false) : ∀ u ∈ bs.map StrUnit.plain, u.Wf quote := by
  intro u hu
  obtain ⟨c, hc, rfl⟩ := List.mem_map.mp hu
  have hinert := inert_label (hbs c hc)
  exact ⟨inert_ne hinert hquote, inert_ne hinert (by decide)⟩

/-- The scans for braces read a quoted label as a string. -/
theorem SkipsInert.label (hs : SkipsInert code) (acc : σ) {bs after : List UInt8} (q : Quoting)
    (hbs : ∀ c ∈ bs, isLabelByte c = true)
    (hsrc : src = pre ++ ((q.mark ++ (bs ++ q.mark)) ++ after)) :
    Reaches src.length (lexStep src code) pre.length (.normal, acc)
      (pre.length + (q.mark ++ (bs ++ q.mark)).length) (.normal, acc) := by
  cases q with
  | bare =>
    apply hs.reaches acc hsrc
    intro c hc
    exact inert_label (hbs c (by simpa [Quoting.mark] using hc))
  | nowdoc =>
    have hbytes : (Piece.sq (bs.map .plain)).bytes =
        Quoting.mark .nowdoc ++ (bs ++ Quoting.mark .nowdoc) := by
      rw [Piece.bytes, unitBytes_plain]
      rfl
    have hpiece : (Piece.sq (bs.map .plain)).Wf after := plain_wf hbs (by decide)
    rw [← hbytes] at hsrc ⊢
    exact reaches_piece code acc hpiece (fun hc => hc) pre hsrc
  | quoted =>
    have hbytes : (Piece.dq (bs.map .plain)).bytes =
        Quoting.mark .quoted ++ (bs ++ Quoting.mark .quoted) := by
      rw [Piece.bytes, unitBytes_plain]
      rfl
    have hpiece : (Piece.dq (bs.map .plain)).Wf after := plain_wf hbs (by decide)
    rw [← hbytes] at hsrc ⊢
    exact reaches_piece code acc hpiece (fun hc => hc) pre hsrc

theorem SkipsInert.opening (hs : SkipsInert code) (acc : σ) (hw : h.Wf rest) {after : List UInt8}
    (hsrc : src = pre ++ (h.opening ++ after)) :
    Reaches src.length (lexStep src code) pre.length (.normal, acc)
      (pre.length + h.opening.length) (.normal, acc) := by
  have hhead : ∀ c ∈ [less, less, less] ++ h.blanks, isInert c = true := by
    intro c hc
    obtain hc | hc := List.mem_append.mp hc
    · have : c = less := by simpa using hc
      rw [this]
      rfl
    · exact inert_blank (hw.blanks c hc)
  have hsplit : h.opening = ([less, less, less] ++ h.blanks) ++
      (h.quoting.mark ++ (h.label ++ h.quoting.mark)) := (List.append_assoc ..).symm
  rw [hsplit, List.append_assoc] at hsrc
  have hsrc' := hsrc.trans (List.append_assoc ..).symm
  have hto := hs.reaches acc hsrc hhead
  have hlabel := hs.label acc h.quoting hw.label hsrc'
  rw [List.length_append] at hlabel
  rw [hsplit, List.length_append, ← Nat.add_assoc]
  exact hto.trans hlabel

theorem Heredoc.bytes_length : h.bytes.length =
    h.opening.length + h.body.length + h.closing.length := by
  simp [Heredoc.bytes]
  omega

end Braces

end Reading

end Parallax.Closure
