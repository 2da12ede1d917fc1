import Parallax.Library.Memory
import Parallax.Library.Scan

/-! `bridge_closure.c`: the source slice of an inline closure. The file is a parameter; every read
of a byte of it is checked. The `int` counters of lines, parentheses and braces are unbounded
here, as a file of 2^31 of them would be needed to reach their range. -/
namespace Parallax.Closure
open Memory Scan
set_option autoImplicit false
set_option maxHeartbeats 250000

/-! ## Bytes -/

namespace Byte

abbrev tab : UInt8 := 0x09
abbrev newline : UInt8 := 0x0a
abbrev space : UInt8 := 0x20
abbrev dquote : UInt8 := 0x22
abbrev hashSign : UInt8 := 0x23
abbrev squote : UInt8 := 0x27
abbrev lparen : UInt8 := 0x28
abbrev rparen : UInt8 := 0x29
abbrev asterisk : UInt8 := 0x2a
abbrev slash : UInt8 := 0x2f
abbrev less : UInt8 := 0x3c
abbrev lbracket : UInt8 := 0x5b
abbrev backslash : UInt8 := 0x5c
abbrev lbrace : UInt8 := 0x7b
abbrev rbrace : UInt8 := 0x7d

end Byte

open Byte

/-- `"function"`. -/
def functionKeyword : List UInt8 := ascii ['f', 'u', 'n', 'c', 't', 'i', 'o', 'n']

/-- `"static"`. -/
def staticKeyword : List UInt8 := ascii ['s', 't', 'a', 't', 'i', 'c']

def isIdentByte (c : UInt8) : Bool :=
  (0x61 ≤ c && c ≤ 0x7a) || (0x41 ≤ c && c ≤ 0x5a) || (0x30 ≤ c && c ≤ 0x39) || c == 0x5f

def isBlank (c : UInt8) : Bool := c == space || c == tab

/-! ## Lines -/

/-- A round of the loop of `offset_of_line`; `seen` is the line of `i`. -/
def lineStep (src : List UInt8) (lineNo : ℤ) (i : ℕ) (seen : ℤ) :
    Except Fault (Verdict ℤ ℕ) := do
  let c ← byteAt src i
  if c = newline then
    if seen + 1 = lineNo then return .stop (i + 1) else return .next (seen + 1) (i + 1)
  else return .next seen (i + 1)

/-- `offset_of_line`; `-1` is `none`. -/
def offsetOfLine (src : List UInt8) (lineNo : ℤ) : Except Fault (Option ℕ) :=
  if lineNo ≤ 1 then .ok (some 0)
  else (scanFrom .outOfFuel src.length (lineStep src lineNo) 0 1).map Ending.found?

/-! ## The five lexical states -/

inductive ScanState
  | normal | sqString | dqString | lineComment | blockComment
deriving DecidableEq, Repr

section Scanner
variable {σ : Type}

/-- What a scanner does with a byte of code and the byte after it, at index `i`. -/
abbrev CodeStep (σ : Type) :=
  ℕ → UInt8 → UInt8 → σ → Except Fault (Verdict (ScanState × σ) ℕ)

/-- The `switch` the scanners share, on the byte at `i` and the one after it. -/
def lexByte (code : CodeStep σ) (i : ℕ) (c n : UInt8) (st : ScanState) (acc : σ) :
    Except Fault (Verdict (ScanState × σ) ℕ) :=
  match st with
  | .normal =>
    if c = squote then .ok (.next (.sqString, acc) (i + 1))
    else if c = dquote then .ok (.next (.dqString, acc) (i + 1))
    else if c = slash ∧ n = slash then .ok (.next (.lineComment, acc) (i + 2))
    else if c = hashSign ∧ n ≠ lbracket then .ok (.next (.lineComment, acc) (i + 1))
    else if c = slash ∧ n = asterisk then .ok (.next (.blockComment, acc) (i + 2))
    else code i c n acc
  | .sqString =>
    if c = backslash ∧ n ≠ 0 then .ok (.next (.sqString, acc) (i + 2))
    else if c = squote then .ok (.next (.normal, acc) (i + 1))
    else .ok (.next (.sqString, acc) (i + 1))
  | .dqString =>
    if c = backslash ∧ n ≠ 0 then .ok (.next (.dqString, acc) (i + 2))
    else if c = dquote then .ok (.next (.normal, acc) (i + 1))
    else .ok (.next (.dqString, acc) (i + 1))
  | .lineComment =>
    if c = newline then .ok (.next (.normal, acc) (i + 1))
    else .ok (.next (.lineComment, acc) (i + 1))
  | .blockComment =>
    if c = asterisk ∧ n = slash then .ok (.next (.normal, acc) (i + 2))
    else .ok (.next (.blockComment, acc) (i + 1))

/-- `(i + 1 < len) ? data[i + 1] : '\0'`. -/
def nextByte (src : List UInt8) (i : ℕ) : Except Fault UInt8 :=
  if i + 1 < src.length then byteAt src (i + 1) else .ok 0

/-- One round of a scanner: `c` and `n` of the source, then the `switch`. -/
def lexStep (src : List UInt8) (code : CodeStep σ) (i : ℕ) (s : ScanState × σ) :
    Except Fault (Verdict (ScanState × σ) ℕ) := do
  let c ← byteAt src i
  let n ← nextByte src i
  lexByte code i c n s.1 s.2

/-- A scanner from code level at `start` on. -/
def scanCode (src : List UInt8) (code : CodeStep σ) (start : ℕ) (acc : σ) :
    Except Fault (Option ℕ) :=
  (scanFrom .outOfFuel src.length (lexStep src code) start (.normal, acc)).map Ending.found?

end Scanner

/-! ## scan_find_keyword -/

/-- `i == 0 || !is_ident_byte(data[i - 1])`. -/
def wordStarts (src : List UInt8) (i : ℕ) : Except Fault Bool :=
  if i = 0 then .ok true else (byteAt src (i - 1)).map (!isIdentByte ·)

/-- `i == len || !is_ident_byte(data[i])`. -/
def wordEnds (src : List UInt8) (i : ℕ) : Except Fault Bool :=
  if i = src.length then .ok true else (byteAt src i).map (!isIdentByte ·)

def skipStep (src : List UInt8) (p : UInt8 → Bool) (j : ℕ) (_ : Unit) :
    Except Fault (Verdict Unit ℕ) := do
  let c ← byteAt src j
  return if p c then .next () (j + 1) else .stop j

/-- `while (j < len && p(data[j])) j++`. -/
def skipWhile (src : List UInt8) (p : UInt8 → Bool) (j : ℕ) : Except Fault ℕ :=
  (scanFrom .outOfFuel src.length (skipStep src p) j ()).map (Ending.index id)

/-- `heredoc_label[hd_len] = c` into the 64 bytes of the buffer. -/
def labelWrite (label : List UInt8) (c : UInt8) : Except Fault (List UInt8) :=
  if label.length < 64 then .ok (label ++ [c]) else .error .outOfBounds

/-- A round of the loop that copies the label. -/
def labelStep (src : List UInt8) (j : ℕ) (label : List UInt8) :
    Except Fault (Verdict (List UInt8) (List UInt8 × ℕ)) := do
  let c ← byteAt src j
  if isIdentByte c ∧ label.length + 1 < 64 then
    let label ← labelWrite label c
    return .next label (j + 1)
  else return .stop (label, j)

/-- The label and `j` after it, with the NUL written behind the label. -/
def heredocLabel (src : List UInt8) (j : ℕ) : Except Fault (List UInt8 × ℕ) := do
  match ← scanFrom .outOfFuel src.length (labelStep src) j [] with
  | .found (label, j) =>
    let _ ← labelWrite label 0
    return (label, j)
  | .ended label j =>
    let _ ← labelWrite label 0
    return (label, j)

/-- A round of the loop that looks for the closing label at the start of a line. -/
def heredocEndStep (src label : List UInt8) (j : ℕ) (_ : Unit) :
    Except Fault (Verdict Unit ℕ) := do
  let c ← byteAt src j
  if c = newline then
    let k ← skipWhile src isBlank (j + 1)
    if k + label.length ≤ src.length then
      let bytes ← bytesAt src k label.length
      if bytes = label then
        let ends ← wordEnds src (k + label.length)
        return if ends then .stop (k + label.length) else .next () (j + 1)
      else return .next () (j + 1)
    else return .next () (j + 1)
  else return .next () (j + 1)

def heredocEnd (src label : List UInt8) (j : ℕ) : Except Fault ℕ :=
  (scanFrom .outOfFuel src.length (heredocEndStep src label) j ()).map (Ending.index id)

/-- `j < len && data[j] == '\''`. -/
def quoteAt (src : List UInt8) (j : ℕ) : Except Fault Bool :=
  if j < src.length then (byteAt src j).map (· == squote) else .ok false

/-- The heredoc branch: from the `<<<` at `i` to the index it leaves in `i`. -/
def heredocSkip (src : List UInt8) (i : ℕ) : Except Fault ℕ := do
  let j ← skipWhile src isBlank (i + 3)
  let nowdoc ← quoteAt src j
  if nowdoc then
    let (label, j) ← heredocLabel src (j + 1)
    let closed ← quoteAt src j
    heredocEnd src label (if closed then j + 1 else j)
  else
    let (label, j) ← heredocLabel src j
    heredocEnd src label j

/-- The keyword test at `i`: the word, and no identifier byte on either side. -/
def keywordAt (src keyword : List UInt8) (i : ℕ) : Except Fault Bool :=
  if i + keyword.length ≤ src.length then do
    let bytes ← bytesAt src i keyword.length
    if bytes = keyword then
      let starts ← wordStarts src i
      if starts then wordEnds src (i + keyword.length) else return false
    else return false
  else .ok false

/-- `c == '<' && n == '<' && i + 2 < len && data[i + 2] == '<'`. -/
def heredocOpens (src : List UInt8) (i : ℕ) (c n : UInt8) : Except Fault Bool :=
  if c = less ∧ n = less ∧ i + 2 < src.length then (byteAt src (i + 2)).map (· == less)
  else .ok false

def keywordStep (src keyword : List UInt8) : CodeStep Unit := fun i c n _ => do
  let heredoc ← heredocOpens src i c n
  if heredoc then
    let j ← heredocSkip src i
    return .next (.normal, ()) (j + 1)
  else
    let found ← keywordAt src keyword i
    return if found then .stop i else .next (.normal, ()) (i + 1)

def scanFindKeyword (src : List UInt8) (start : ℕ) (keyword : List UInt8) :
    Except Fault (Option ℕ) := scanCode src (keywordStep src keyword) start ()

/-! ## Opening and closing brace -/

/-- The scan for the opening brace, with `paren_depth`. -/
def braceOpenStep : CodeStep ℤ := fun i c _ depth =>
  let depth := if c = lparen then depth + 1 else depth
  let depth := if c = rparen then depth - 1 else depth
  if c = lbrace ∧ depth = 0 then .ok (.stop i) else .ok (.next (.normal, depth) (i + 1))

def scanBraceOpen (src : List UInt8) (start : ℕ) : Except Fault (Option ℕ) :=
  scanCode src braceOpenStep start 0

def braceMatchStep : CodeStep ℤ := fun i c _ depth =>
  if c = lbrace then .ok (.next (.normal, depth + 1) (i + 1))
  else if c = rbrace then
    if depth - 1 = 0 then .ok (.stop (i + 1)) else .ok (.next (.normal, depth - 1) (i + 1))
  else .ok (.next (.normal, depth) (i + 1))

def scanBraceMatch (src : List UInt8) (start : ℕ) : Except Fault (Option ℕ) :=
  if src.length ≤ start then .ok none
  else do
    let c ← byteAt src start
    if c ≠ lbrace then return none
    scanCode src braceMatchStep start 0

/-! ## extract_closure_text -/

/-- `while (s > line_off && blank(data[s])) s--`. -/
def blanksBack (src : List UInt8) (lineOff : ℕ) : ℕ → Except Fault ℕ
  | 0 => .ok 0
  | s + 1 =>
    if lineOff < s + 1 then do
      let c ← byteAt src (s + 1)
      if isBlank c then blanksBack src lineOff s else return s + 1
    else .ok (s + 1)

/-- The test for `static` ending at `s`. -/
def staticAt (src : List UInt8) (lineOff s : ℕ) : Except Fault Bool :=
  if lineOff + 6 ≤ s then do
    let bytes ← bytesAt src (s - 5) 6
    if bytes = staticKeyword then wordStarts src (s - 5) else return false
  else .ok false

/-- The walk to the left from `start`, with fuel for its rounds. -/
def staticBack (src : List UInt8) (lineOff : ℕ) : ℕ → ℕ → Except Fault ℕ
  | 0, start => if lineOff < start then .error .outOfFuel else .ok start
  | fuel + 1, start =>
    if lineOff < start then do
      let s ← blanksBack src lineOff (start - 1)
      let found ← staticAt src lineOff s
      if found then staticBack src lineOff fuel (s - 5) else return start
    else .ok start

/-- What `extract_closure_text` gives back: the text, or NULL with a cause in `*err`. -/
inductive Extracted
  | text (bytes : List UInt8)
  | failed (err : String)
deriving DecidableEq

/-- `strstr(s, sub) != NULL`. -/
def contains (s sub : List UInt8) : Bool := (s.tails).any fun t => sub.isPrefixOf t

/-- The names of an eval, the repl and the stream wrappers. -/
def refused (filename : Option (List UInt8)) : Bool :=
  match filename with
  | none => true
  | some name =>
    contains name (ascii ['S', 't', 'a', 'n', 'd', 'a', 'r', 'd', ' ', 'i', 'n', 'p', 'u', 't']) ||
      (ascii ['e', 'v', 'a', 'l']).isPrefixOf name || contains name (ascii [':', '/', '/'])

/-- From the file to the slice, with the offsets the source names. -/
def extractSlice (src : List UInt8) (lineStart : ℤ) : Except Fault Extracted := do
  match ← offsetOfLine src lineStart with
  | none => return .failed "closure line number is out of range for its file"
  | some lineOff =>
  match ← scanFindKeyword src lineOff functionKeyword with
  | none => return .failed "could not locate `function` keyword for inline closure"
  | some fnOff =>
  match ← scanBraceOpen src fnOff with
  | none => return .failed "could not locate opening `\x7b` for closure body"
  | some braceOpen =>
  match ← scanBraceMatch src braceOpen with
  | none => return .failed "unbalanced braces while extracting closure body"
  | some bodyEnd =>
  let start ← staticBack src lineOff fnOff fnOff
  return .text (← bytesAt src start (bodyEnd - start))

/-- `extract_closure_text`; `readFile` is `read_file_all`. -/
def extractClosureText (readFile : List UInt8 → Option (List UInt8))
    (filename : Option (List UInt8)) (lineStart : ℤ) : Except Fault Extracted :=
  if refused filename then
    .ok (.failed "closure has no resolvable source file (eval / repl / stream wrapper)")
  else
    match filename.bind readFile with
    | none => .ok (.failed "could not read closure source file")
    | some src => extractSlice src lineStart

end Parallax.Closure
