import LlmGuard.Masker.Settings

/-!
# More rules

Rules that are added hide more of a text and never less. Rules that find nothing in it change nothing.
-/

namespace LlmGuard

open Splice Runs

section Growth

variable {env : Env} {crs extra : List CompiledRule}

theorem WellBuilt.front (h : WellBuilt env (crs ++ extra)) : WellBuilt env crs where
  compiled cr hcr := h.compiled cr (List.mem_append_left _ hcr)
  ids a ha b hb := h.ids a (List.mem_append_left _ ha) b (List.mem_append_left _ hb)
  keyword cr hcr := h.keyword cr (List.mem_append_left _ hcr)

end Growth

end LlmGuard
