import LlmGuard.RulesYaml.Merge
import LlmGuard.Registry.Index
import LlmGuard.Spec.Sample

/-!
# A loaded catalog as a registry

What `load_rules_files` lets through has no id twice, so `Registry::build` can only fail on a rule that does not compile.
-/

namespace LlmGuard.RulesYaml

variable {Node : Type} {yaml : YamlCpp Node} {u : Utf8proc}

/-! ## Groups -/

/-- The rule nodes that a group node lists. -/
def Lists (yaml : YamlCpp Node) (node : Node) (nodes : List Node) : Prop :=
  yaml.get node (ascii "rules") = .ok none ∧ nodes = [] ∨
    ∃ rulesNode, yaml.get node (ascii "rules") = .ok (some rulesNode) ∧ yaml.sequence rulesNode = some nodes

inductive SampleNode
  | scalar (text : Bytes)
  | sequence (elements : List SampleNode)
  | map (members : List (Bytes × SampleNode))

namespace SampleNode

def elements : SampleNode → Option (List SampleNode)
  | .sequence elements => some elements
  | _ => none

def get : SampleNode → Bytes → Except Bytes (Option SampleNode)
  | .map members, key => .ok (members.lookup key)
  | .sequence _, _ => .ok none
  | .scalar _, _ => .error (ascii "operator[] call on a scalar")

end SampleNode

def keyRule : Rule := ⟨ascii "key", .apiKeys, ascii "key-[0-9]", [ascii "key-"], [], 0, 0, [], ⟨[], []⟩⟩

end LlmGuard.RulesYaml
