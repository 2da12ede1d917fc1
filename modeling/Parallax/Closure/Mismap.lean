import Parallax.Closure.Unread
import Parallax.Closure.Tokens

/-! Two closures of a file, known to the extraction by the lines they begin on only. A line stands
for the closure that the text from its start on has first, and not for the closure that is meant. -/
namespace Parallax.Closure
open Memory Scan Byte
set_option autoImplicit false
set_option maxHeartbeats 250000

/-! ## Closures of a file -/

def isGap (c : UInt8) : Bool := isBlank c || endsLine c

/-- A parenthesis behind blanks and newlines, maybe with `&` before it. -/
def opensParameters (bs : List UInt8) : Bool :=
  match bs.dropWhile isGap with
  | [] => false
  | c :: cs => c == lparen || (c == 0x26 && (cs.dropWhile isGap).head? == some lparen)

/-- A word of PHP at `i`, written in letters of any case, in the bytes of code `code`. -/
structure WordOfPhp (src word : List UInt8) (code : List (ℕ × UInt8)) (i : ℕ) : Prop where
  letters : (slice src i (i + word.length)).map lowerCase = word
  code : ∀ k < word.length, (i + k, src.getD (i + k) 0) ∈ code
  whole : i = 0 ∨
    (src[i - 1]?).all (fun c => !(isLabelByte c || c == dollar || c == backslash)) = true

/-- An inline closure as PHP reads it: a row from its first word, which is `function` or `static`, to
the brace that closes its body. Its braces and parentheses are those of the bytes that are code. -/
structure InlineClosure (src : List UInt8) where
  pre : List UInt8
  items : List Item
  rest : List UInt8
  keyword : ℕ
  braceOpen : ℕ
  braceClose : ℕ
  line : ℤ
  split : src = pre ++ (itemBytes items ++ rest)
  wf : ItemsWf rest items
  word : WordOfPhp src functionKeyword (itemCode pre.length items) keyword
  parameters : opensParameters (((itemCode pre.length items).filter fun x =>
    keyword + functionKeyword.length ≤ x.1).map Prod.snd) = true
  begins : keyword = pre.length ∨ WordOfPhp src staticKeyword (itemCode pre.length items) pre.length ∧
    ∀ x ∈ itemCode pre.length items, pre.length + staticKeyword.length ≤ x.1 → x.1 < keyword →
      isGap x.2 = true
  opens : firstBalanced paren lbrace 0
    ((itemCode pre.length items).filter fun x => keyword ≤ x.1) = some braceOpen
  closes : firstBalanced brace rbrace 0
    ((itemCode pre.length items).filter fun x => braceOpen ≤ x.1) = some braceClose
  ends : braceClose + 1 = pre.length + (itemBytes items).length
  onLine : OnLine src line keyword

def InlineClosure.text {src : List UInt8} (A : InlineClosure src) : List UInt8 := itemBytes A.items

/-! ## The closure that a line stands for -/

/-- The text from the start of line `L` on, read as a row of strings, comments and bytes of code, has
first a whole word `function`, behind it a brace outside parentheses, and behind that the brace that
closes it, which ends at `e`; from `s` on stand the words `static` before the first one. -/
def FirstOnLine (src : List UInt8) (L : ℤ) (s e : ℕ) : Prop :=
  ∃ o f b r, lineStart src L = some o ∧ FirstWord src o f ∧ FirstBalanced src paren lbrace f b ∧
    FirstBalanced src brace rbrace b r ∧ Statics src o s f ∧ e = r + 1

section Lines
variable {src : List UInt8} {L : ℤ} {s e : ℕ}

theorem FirstOnLine.extractSlice_eq (h : FirstOnLine src L s e) :
    extractSlice src L = .ok (.text (slice src s e)) := by
  obtain ⟨lineOff, f, b, r, hl, hf, hb, hr, hs, rfl⟩ := h
  have hfound := scanFindKeyword_iff.mpr hf
  have hopened := scanBraceOpen_iff.mpr hb
  have hbrace := (scanBraceOpen_found hopened).2
  have hline : offsetOfLine src L = .ok (some lineOff) := by rw [offsetOfLine_eq, hl]
  obtain ⟨o, rfl, rfl, rfl, hend⟩ := exists_offsets hline hfound hopened
    ((scanBraceMatch_iff hbrace).mpr ⟨r, hr, rfl⟩)
  obtain ⟨-, hlt, hword⟩ := scanFindKeyword_found (by decide) hfound
  have hstart := hs.staticBack _ le_rfl hlt.le (wordAt_start hword)
  rw [o.extractSlice_eq, hend, Except.ok.inj (o.walked.symm.trans hstart)]

end Lines

/-! ## Mismaps -/

section Mismap
variable (readFile : List UInt8 → Option (List UInt8)) (name : List UInt8) {src : List UInt8}

end Mismap

/-! ### Two closures on two lines, and on one -/

end Parallax.Closure
