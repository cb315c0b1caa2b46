/-!
The vocabulary that grammars are written in. A rule says what to match and which form the syntax
tree of the match has; rules refer to each other by name.
-/

namespace PseudoLang.Grammar

/-- A rule of a grammar. Where a rule carries an error, its failure ends the parse with that
message; otherwise it only means that the rule does not match here. -/
inductive Rule
  /-- The rule of the given name. -/
  | reference (name : String)
  /-- A single token. -/
  | token (kind : String) (error : Option String)
  /-- A rule whose tree is handed to a named filter. -/
  | filter (name : String) (rule : Rule)
  /-- A rule or nothing. -/
  | optional (rule : Rule)
  /-- A rule as often as it matches. -/
  | many (rule : Rule)
  /-- A whole sequence of rules as often as it matches. -/
  | cycle (rules : List Rule)
  /-- `primary (secondary primary)*` -/
  | split (primary secondary : Rule) (error : Option String)
  /-- Rules one after the other. -/
  | sequence (rules : List Rule) (error : Option String)
  /-- An element between delimiters, or any number of elements with separators between them. Only
  the elements are kept. -/
  | delimited (left right : Rule) (separator : Option Rule) (element : Rule)
    (error : Option String)
  /-- The first alternative that matches, tagged with its name. -/
  | choice (alternatives : List (String × Rule)) (error : Option String)
  /-- A rule that has to match. -/
  | required (rule : Rule) (error : String)
  /-- `left (separator right)?`, or `right` alone. -/
  | pair (left separator right : Rule)
  deriving Repr

namespace Rule

mutual

/-- The names that a rule refers to, in the order in which they stand in it. -/
def references : Rule → List String
  | reference name => [name]
  | token .. => []
  | filter _ rule | optional rule | many rule | required rule _ => references rule
  | cycle rules | sequence rules _ => referencesOfAll rules
  | split primary secondary _ => references primary ++ references secondary
  | delimited left right separator element _ =>
    references left ++ references right ++ referencesOfPart separator ++ references element
  | choice alternatives _ => referencesOfAlternatives alternatives
  | pair left separator right => references left ++ references separator ++ references right

def referencesOfAll : List Rule → List String
  | [] => []
  | rule :: rules => references rule ++ referencesOfAll rules

def referencesOfPart : Option Rule → List String
  | none => []
  | some rule => references rule

def referencesOfAlternatives : List (String × Rule) → List String
  | [] => []
  | (_, rule) :: alternatives => references rule ++ referencesOfAlternatives alternatives

end

end Rule

end PseudoLang.Grammar
