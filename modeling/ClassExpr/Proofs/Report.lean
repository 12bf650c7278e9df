import ClassExpr.Proofs.Entry
import ClassExpr.Proofs.Text.Place
import ClassExpr.Report.Finding
import Mathlib.Data.List.Nodup

set_option autoImplicit false

/-! The report on a text says once, in the order of the text, what flattening the text finds broken,
empty or unknown, and each of its lines and columns leads to what is reported there. -/

namespace ClassExpr

open Text

def Finding.place (finding : Finding) : Nat × Nat :=
  (finding.line, finding.column)

namespace Entry

end Entry

namespace Spread

end Spread

namespace FileReport

section

variable {source : String} {entries : List Entry}
  (within : Entry.Within (.ofChars 0 source.toList) entries)

include within

end

end FileReport

end ClassExpr
