import Parallax.Closure.HeredocSkip
import Parallax.Library.Word

/-! The tokens PHP reads in code, as far as it takes them to tell the keyword `function` from the
other places where the word stands. A token is taken with the bytes after it, so that no row of
tokens breaks up a longer one. -/
namespace Parallax.Closure
open Memory Scan Byte
set_option autoImplicit false
set_option maxHeartbeats 250000

namespace Byte

abbrev creturn : UInt8 := 0x0d
abbrev dollar : UInt8 := 0x24
abbrev plus : UInt8 := 0x2b
abbrev minus : UInt8 := 0x2d
abbrev dot : UInt8 := 0x2e
abbrev colon : UInt8 := 0x3a
abbrev greater : UInt8 := 0x3e
abbrev question : UInt8 := 0x3f
abbrev underscore : UInt8 := 0x5f
abbrev backtick : UInt8 := 0x60

end Byte

/-! ## Numbers -/

def isDigit (c : UInt8) : Bool := 0x30 ≤ c && c ≤ 0x39

def isHexDigit (c : UInt8) : Bool :=
  isDigit c || (0x61 ≤ c && c ≤ 0x66) || (0x41 ≤ c && c ≤ 0x46)

/-- Digits with single underscores between them. -/
inductive Digits (p : UInt8 → Bool) : List UInt8 → Prop
  | one {c : UInt8} (h : p c = true) : Digits p [c]
  | cons {c : UInt8} {bs : List UInt8} (h : p c = true) (hbs : Digits p bs) : Digits p (c :: bs)
  | sep {c : UInt8} {bs : List UInt8} (h : p c = true) (hbs : Digits p bs) :
      Digits p (c :: underscore :: bs)

/-- A decimal number without an exponent. -/
inductive IsDecimal : List UInt8 → Prop
  | int {a : List UInt8} (h : Digits isDigit a) : IsDecimal a
  | whole {a : List UInt8} (h : Digits isDigit a) : IsDecimal (a ++ [dot])
  | fraction {b : List UInt8} (h : Digits isDigit b) : IsDecimal (dot :: b)
  | both {a b : List UInt8} (h : Digits isDigit a) (hb : Digits isDigit b) :
      IsDecimal (a ++ dot :: b)

/-- A number of PHP: decimal, with an exponent, hexadecimal, binary or octal. -/
inductive IsNumber : List UInt8 → Prop
  | decimal {a : List UInt8} (h : IsDecimal a) : IsNumber a
  | exponent {a b sign : List UInt8} {e : UInt8} (h : IsDecimal a) (he : e = 0x65 ∨ e = 0x45)
      (hsign : sign = [] ∨ sign = [plus] ∨ sign = [minus]) (hb : Digits isDigit b) :
      IsNumber (a ++ e :: (sign ++ b))
  | hex {b : List UInt8} {x : UInt8} (hx : x = 0x78 ∨ x = 0x58) (hb : Digits isHexDigit b) :
      IsNumber (0x30 :: x :: b)
  | binary {b : List UInt8} {x : UInt8} (hx : x = 0x62 ∨ x = 0x42)
      (hb : Digits (fun c => c == 0x30 || c == 0x31) b) : IsNumber (0x30 :: x :: b)
  | octal {b : List UInt8} {x : UInt8} (hx : x = 0x6f ∨ x = 0x4f)
      (hb : Digits (fun c => 0x30 ≤ c && c ≤ 0x37) b) : IsNumber (0x30 :: x :: b)

/-! ## Tokens -/

inductive Token
  /-- An identifier or a keyword. -/
  | word (bs : List UInt8)
  /-- A name with backslashes. -/
  | name (bs : List UInt8)
  /-- A variable after its `$`. -/
  | var (bs : List UInt8)
  | number (bs : List UInt8)
  /-- `->`, `?->` and `::`. -/
  | arrow
  | nullArrow
  | scope
  /-- `--` or `??`. -/
  | double (c : UInt8)
  | blank (c : UInt8)
  | other (c : UInt8)
  /-- A comment or a string in single quotes. -/
  | still (p : Piece)
  /-- A string in double quotes with no double quote in the code it has in braces; `keyword` is
  where the first keyword in that code stands, if there is one. -/
  | quoted (body : List StrUnit) (keyword : Option ℕ)
  /-- A line comment that the file ends in. -/
  | tail (bs : List UInt8)
  /-- What the scan has no rule for: a string with a double quote in the code in its braces, a
  string in backticks, text between `?>` and the next opening tag, a comment that `?>` or a lone
  carriage return ends, a `<<<` that opens no heredoc. -/
  | alien (bs : List UInt8) (keyword : Option ℕ)

def Token.bytes : Token → List UInt8
  | .word bs | .name bs | .number bs | .tail bs | .alien bs _ => bs
  | .var bs => dollar :: bs
  | .arrow => [minus, greater]
  | .nullArrow => [question, minus, greater]
  | .scope => [colon, colon]
  | .double c => [c, c]
  | .blank c | .other c => [c]
  | .still p => p.bytes
  | .quoted body _ => (Piece.dq body).bytes

/-- Bytes that PHP reads as code, byte for byte. -/
def Token.isCode : Token → Bool
  | .still _ | .quoted .. | .tail _ | .alien .. => false
  | _ => true

def IsLabel (bs : List UInt8) : Prop :=
  bs.head?.any isLabelStart = true ∧ ∀ c ∈ bs, isLabelByte c = true

/-- Labels with backslashes between them, and maybe one before them. -/
def IsName (bs : List UInt8) : Prop :=
  backslash ∈ bs ∧ (∀ c ∈ bs, isLabelByte c = true ∨ c = backslash) ∧
    bs.head?.any (fun c => isLabelStart c || c == backslash) = true ∧
    ∀ as cs, bs = as ++ backslash :: cs → cs.head?.any isLabelStart = true

/-- A label goes no further. -/
def EndsLabel (after : List UInt8) : Prop := after.head?.any isLabelByte = false

/-- Nor does a name. -/
def EndsName (after : List UInt8) : Prop :=
  EndsLabel after ∧ ∀ cs, after = backslash :: cs → cs.head?.any isLabelStart = false

/-- A byte that begins none of the longer tokens in front of `after`. -/
structure IsOther (c : UInt8) (after : List UInt8) : Prop where
  plain : PlainCode c after
  not_label : isLabelByte c = false
  not_blank : isBlank c = false ∧ endsLine c = false
  not_backtick : c ≠ backtick
  not_variable : c = dollar → after.head?.any isLabelStart = false
  not_name : c = backslash → after.head?.any isLabelStart = false
  not_number : c = dot → after.head?.any isDigit = false
  not_scope : c = colon → after.head? ≠ some colon
  not_arrow : c = minus → after.head? ≠ some minus ∧ after.head? ≠ some greater
  not_question : c = question → after.head? ≠ some question ∧ after.head? ≠ some greater ∧
    ¬ [minus, greater] <+: after

/-- A comment to the end of its line, for PHP too. -/
def EndsWithLine (body : List UInt8) : Prop :=
  ¬ [question, greater] <:+: body ∧ ∀ as bs, body = as ++ creturn :: bs → bs = []

/-- A string in double quotes with code in braces. -/
def HasCode (body : List StrUnit) : Prop :=
  [.plain lbrace, .plain dollar] <:+: body ∨ [.plain dollar, .plain lbrace] <:+: body

def Token.Wf (after : List UInt8) : Token → Prop
  | .word bs => IsLabel bs ∧ EndsName after
  | .name bs => IsName bs ∧ EndsName after
  | .var bs => IsLabel bs ∧ EndsLabel after
  | .number bs => IsNumber bs ∧ ∀ us, us ≠ [] → us <+: after → ¬ IsNumber (bs ++ us)
  | .arrow | .nullArrow | .scope => True
  | .double c => c = minus ∨ c = question
  | .blank c => isBlank c = true ∨ endsLine c = true
  | .other c => IsOther c after
  | .still p =>
    match p with
    | .code _ | .dq _ => False
    | .sq body => (Piece.sq body).Wf after
    | .slashLine body => (Piece.slashLine body).Wf after ∧ EndsWithLine body
    | .hashLine body => (Piece.hashLine body).Wf after ∧ EndsWithLine body
    | .block body => (Piece.block body).Wf after
  | .quoted body keyword => (Piece.dq body).Wf after ∧ (¬ HasCode body → keyword = none) ∧
      ∀ k, keyword = some k → 0 < k ∧ k < (Piece.dq body).bytes.length
  | .tail bs => after = [] ∧ newline ∉ bs ∧ EndsWithLine bs ∧
      ([slash, slash] <+: bs ∨ ∃ body, bs = hashSign :: body ∧ body.head? ≠ some lbracket)
  | .alien bs keyword => bs ≠ [] ∧ ∀ k, keyword = some k → k < bs.length

/-- What a word stands behind, blanks apart: an arrow and `::` make a name of it. -/
inductive Behind
  | nothing | arrow | scope
deriving DecidableEq

def Behind.next (b : Behind) : Token → Behind
  | .arrow | .nullArrow => .arrow
  | .scope => .scope
  | .blank _ => b
  | .still (.sq _) => .nothing
  -- a comment ends the search for a property, but not the one for a class member
  | .still _ => if b = .scope then .scope else .nothing
  | _ => .nothing

def lowerCase (c : UInt8) : UInt8 := if 0x41 ≤ c && c ≤ 0x5a then c + 0x20 else c

/-- Where in a token the first keyword `function` begins. -/
def Token.keyword (b : Behind) : Token → Option ℕ
  | .word bs => if b = .nothing ∧ bs.map lowerCase = functionKeyword then some 0 else none
  | .quoted _ k | .alien _ k => k
  | _ => none

/-- A byte that opens no string, comment or heredoc, whatever follows it. -/
def isQuiet (c : UInt8) : Bool :=
  !(c == squote || c == dquote || c == slash || c == hashSign || c == less)

theorem quiet_label (c : UInt8) : isLabelByte c = true → isQuiet c = true :=
  Word.forall_byte (P := fun c => isLabelByte c = true → isQuiet c = true) (by decide +kernel) c

def isDecimalByte (c : UInt8) : Bool :=
  isDigit c || c == underscore || c == dot || c == plus || c == minus || c == 0x65 || c == 0x45

def isRadixByte (c : UInt8) : Bool :=
  isHexDigit c || c == underscore || c == 0x78 || c == 0x58 || c == 0x6f || c == 0x4f

theorem decimal_byte (c : UInt8) : isDecimalByte c = true →
    isQuiet c = true ∧ c ≠ 0x66 ∧ c ≠ 0x75 :=
  Word.forall_byte (P := fun c => isDecimalByte c = true → isQuiet c = true ∧ c ≠ 0x66 ∧ c ≠ 0x75)
    (by decide +kernel) c

theorem radix_byte (c : UInt8) : isRadixByte c = true →
    isQuiet c = true ∧ isIdentByte c = true ∧ c ≠ 0x75 :=
  Word.forall_byte (P := fun c => isRadixByte c = true →
    isQuiet c = true ∧ isIdentByte c = true ∧ c ≠ 0x75) (by decide +kernel) c

theorem Digits.mem {p : UInt8 → Bool} {bs : List UInt8} (h : Digits p bs) :
    ∀ c ∈ bs, p c = true ∨ c = underscore := by
  induction h with
  | one h => simpa using .inl h
  | cons h _ ih => simpa [h] using ih
  | sep h _ ih => simpa [h] using ih

theorem Digits.decimal {bs : List UInt8} (h : Digits isDigit bs) :
    ∀ c ∈ bs, isDecimalByte c = true := by
  intro c hc
  obtain hc | hc := h.mem c hc <;> simp [isDecimalByte, hc]

theorem IsDecimal.decimal {bs : List UInt8} (h : IsDecimal bs) :
    ∀ c ∈ bs, isDecimalByte c = true := by
  have hdot : isDecimalByte dot = true := rfl
  cases h with
  | int ha => exact ha.decimal
  | whole ha => simpa [or_imp, forall_and, hdot] using ha.decimal
  | fraction hb => simpa [hdot] using hb.decimal
  | both ha hb => simpa [or_imp, forall_and, hdot] using ⟨ha.decimal, hb.decimal⟩

theorem Digits.radix {p : UInt8 → Bool} {x : UInt8} {bs : List UInt8} (h : Digits p bs)
    (hx : isRadixByte x = true) (hp : ∀ c, p c = true → isRadixByte c = true) :
    ∀ c ∈ 0x30 :: x :: bs, isRadixByte c = true := by
  have hmem : ∀ c ∈ bs, isRadixByte c = true := by
    intro c hc
    obtain hc | rfl := h.mem c hc
    · exact hp c hc
    · rfl
  have hzero : isRadixByte 0x30 = true := rfl
  simpa [hx, hzero] using hmem

theorem IsNumber.ne_nil {bs : List UInt8} (h : IsNumber bs) : bs ≠ [] := by
  cases h with
  | decimal h =>
    cases h with
    | int h => cases h <;> simp
    | _ => simp
  | _ => simp

/-- A number has no `u`, and an `f` in it only behind other identifier bytes. -/
theorem IsNumber.bytes {bs : List UInt8} (h : IsNumber bs) :
    (∀ c ∈ bs, isDecimalByte c = true) ∨
      ∃ cs, bs = 0x30 :: cs ∧ ∀ c ∈ bs, isRadixByte c = true := by
  cases h with
  | decimal h => exact .inl h.decimal
  | exponent ha he hsign hb =>
    left
    intro c hc
    simp only [List.mem_append, List.mem_cons] at hc
    obtain hc | rfl | hc | hc := hc
    · exact ha.decimal c hc
    · obtain rfl | rfl := he <;> rfl
    · obtain rfl | rfl | rfl := hsign
      · cases hc
      · cases List.mem_singleton.mp hc
        rfl
      · cases List.mem_singleton.mp hc
        rfl
    · exact hb.decimal c hc
  | hex hx hb =>
    refine .inr ⟨_, rfl, hb.radix ?_ fun c hc => by simp [isRadixByte, hc]⟩
    obtain rfl | rfl := hx <;> rfl
  | binary hx hb =>
    refine .inr ⟨_, rfl, hb.radix ?_ fun c hc => ?_⟩
    · obtain rfl | rfl := hx <;> rfl
    · obtain rfl | rfl : c = 0x30 ∨ c = 0x31 := by simpa using hc
      · rfl
      · rfl
  | octal hx hb =>
    refine .inr ⟨_, rfl, hb.radix ?_ fun c hc => ?_⟩
    · obtain rfl | rfl := hx <;> rfl
    · exact Word.forall_byte (P := fun c => (0x30 ≤ c && c ≤ 0x37) = true → isRadixByte c = true)
        (by decide +kernel) c hc

section Bytes
variable {t : Token} {after : List UInt8} {b : Behind}

/-- A byte of a token of code is quiet, or PHP reads it by itself. -/
theorem Token.quiet (hc : t.isCode = true) (hw : t.Wf after) :
    (∃ c, t = .other c ∧ IsOther c after) ∨ ∀ c ∈ t.bytes, isQuiet c = true := by
  cases t with
  | other c => exact .inl ⟨c, rfl, hw⟩
  | word bs => exact .inr fun c hc => quiet_label c (hw.1.2 c hc)
  | name bs =>
    refine .inr fun c hc => ?_
    obtain hl | rfl := hw.1.2.1 c hc
    · exact quiet_label c hl
    · rfl
  | var bs =>
    refine .inr fun c hc => ?_
    obtain rfl | hc := List.mem_cons.mp hc
    · rfl
    · exact quiet_label c (hw.1.2 c hc)
  | number bs =>
    refine .inr fun c hc => ?_
    obtain hb | ⟨cs, -, hb⟩ := hw.1.bytes
    · exact (decimal_byte c (hb c hc)).1
    · exact (radix_byte c (hb c hc)).1
  | arrow => exact .inr (List.all_eq_true.mp rfl)
  | nullArrow => exact .inr (List.all_eq_true.mp rfl)
  | scope => exact .inr (List.all_eq_true.mp rfl)
  | double d =>
    have hd : d = minus ∨ d = question := hw
    obtain rfl | rfl := hd <;> exact .inr (List.all_eq_true.mp rfl)
  | blank c =>
    refine .inr fun d hd => ?_
    have hdc : d = c := List.mem_singleton.mp hd
    rw [hdc]
    exact Word.forall_byte (P := fun c => isBlank c = true ∨ endsLine c = true → isQuiet c = true)
      (by decide +kernel) c hw
  | still p => cases hc
  | quoted body k => cases hc
  | tail bs => cases hc
  | alien bs k => cases hc

theorem Token.Wf.bytes_ne_nil (hw : t.Wf after) : t.bytes ≠ [] := by
  cases t with
  | word bs =>
    rintro rfl
    exact absurd hw.1.1 (by simp)
  | name bs =>
    rintro rfl
    exact absurd hw.1.1 (by simp)
  | number bs => exact hw.1.ne_nil
  | still p => cases p <;> simp [Token.bytes, Piece.bytes]
  | tail bs =>
    rintro rfl
    obtain h | ⟨body, h, -⟩ := hw.2.2.2
    · simp at h
    · cases h
  | alien bs k => exact hw.1
  | quoted body k => simp [Token.bytes, Piece.bytes]
  | _ => simp [Token.bytes]

end Bytes

end Parallax.Closure
