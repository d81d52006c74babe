/-
YAML documents of one node: block and flow collections, plain and quoted scalars, comments and
document markers. Anchors, tags, directives and block scalars are refused.
-/
import QueryTree.Yaml.Node
import QueryTree.Yaml.Token.Lexer

namespace QueryTree.Yaml

/-- The node of a text that holds one document. -/
def parse? (text : String) : Option Yaml := (Token.ofText? text).bind ofTokens?

end QueryTree.Yaml
