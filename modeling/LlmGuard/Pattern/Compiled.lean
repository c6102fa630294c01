import LlmGuard.Code.Registry
import LlmGuard.Pattern.Guarantee
import LlmGuard.Scanner.Prefilter

/-!
# The keywords of a compiled rule

`compile_rule` asks the prover about the pattern of the rule and gives RE2 the pattern behind `(?m)`. The flag changes
what the anchors match and nothing else that the prover reads.
-/

namespace LlmGuard

open Utf8

/-! ## The flag in front -/

section Multiline

variable {m' : Regexp.Mode} {p s' : Bytes} {t : Regexp.Tree}

end Multiline

/-! ## Compiled rules -/

end LlmGuard
