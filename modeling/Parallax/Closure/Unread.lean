import Parallax.Closure.HeredocRow
import Parallax.Closure.Static

/-! What the three scans of an extraction make of the heredocs of a file. A scan that does not stop
before a heredoc has to come to its opening at code level, take no byte of the body for anything and
go on at the byte behind the closing label. Whether it does is said of the text alone. -/
namespace Parallax.Closure
open Memory Scan Byte
set_option autoImplicit false
set_option maxHeartbeats 250000

/-! ## A scan and a heredoc of the file -/

section Scan
variable {σ : Type} {src : List UInt8} {skips : Bool} {code : CodeStep σ}
variable {act : σ → ℕ → UInt8 → ℕ ⊕ σ} {acc₀ : σ} {h : Heredoc} {start o : ℕ}

end Scan

/-! ## The scans for braces -/

section Braces
variable {src pre rest : List UInt8} {h : Heredoc} {code : CodeStep ℤ} {w : UInt8 → ℤ}
  {stop : UInt8} {res : ℕ → ℕ}

end Braces

/-! ## The keyword search -/

section Search
variable {src pre rest : List UInt8} {h : Heredoc} {start : ℕ}

end Search

/-! ## The three scans of an extraction -/

section Three
variable {src pre rest : List UInt8} {h : Heredoc} {L : ℤ}

end Three

/-! ## Heredocs are never read as code -/

section Never
variable (readFile : List UInt8 → Option (List UInt8)) (name : List UInt8)

variable {readFile name} {src pre rest : List UInt8} {items : List Item} {L : ℤ}

end Never

/-! ### Two heredocs of one file -/

end Parallax.Closure
