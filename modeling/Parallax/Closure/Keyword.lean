import Parallax.Closure.Mismap

/-! Whether the keyword search finds the first keyword `function` of PHP. Its test looks one byte to
each side, with the identifier bytes of ASCII, and at the case of the letters; and what PHP reads by
a rule the search lacks it reads as strings, comments and bytes of code. -/
namespace Parallax.Closure
open Memory Scan Byte
set_option autoImplicit false
set_option maxHeartbeats 250000

/-! ## What the search finds and reads -/

section Property
variable (readFile : List UInt8 → Option (List UInt8)) (name : List UInt8)

end Property

/-! ## Stretches of code -/

section Stretch
variable {src : List UInt8}

end Stretch

/-! ## One token -/

section Token
variable {src pre bs after : List UInt8} {t : Token} {b : Behind}

section Word
variable (hend : bs.getLast?.any isIdentByte = true → after.head?.any isIdentByte = false) {j : ℕ}
include hend

end Word

end Token

/-! ## A row of tokens -/

section Row
variable {src pre : List UInt8} {start : ℕ} {b : Behind} {t : Token} {ts : List Token}

section Step
variable {after : List UInt8} (hs : src = pre ++ (t.bytes ++ after)) (hw : t.Wf after)
  (hcode : pre.length < start → start < pre.length + t.bytes.length → t.isCode = true)
include hs hw hcode

end Step

end Row

/-! ## The first keyword -/

section First
variable {readFile : List UInt8 → Option (List UInt8)} {name src pre : List UInt8} {start : ℕ}
  {b : Behind} {ts : List Token}

end First

end Parallax.Closure
