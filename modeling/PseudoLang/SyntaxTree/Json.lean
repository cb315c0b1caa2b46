import PseudoLang.Json
import PseudoLang.SyntaxTree

/-!
Syntax trees as JSON: each is an object with the name of its form and the content.
-/

namespace PseudoLang.SyntaxTree

/-- A form and its content. -/
def node (form : String) (content : Json) : Json :=
  .object [("type", .string form), ("value", content)]

mutual

def toJson : SyntaxTree → Json
  | token kind value => node "token" (.object [("kind", .string kind), ("value", .string value)])
  | seq items => node "seq" (.array (toJsonAll items))
  | tagged tag value => node "tagged" (.object [("tag", .string tag), ("value", toJson value)])
  | pair left right =>
    node "pair" (.object [("left", toJsonPart left), ("right", toJsonPart right)])
  | binary operator left right =>
    node "infix" (.object
      [("operator", .string operator), ("left", toJson left), ("right", toJson right)])
  | unary operator operand =>
    node "prefix" (.object [("operator", .string operator), ("right", toJson operand)])

def toJsonAll : List SyntaxTree → List Json
  | [] => []
  | tree :: trees => toJson tree :: toJsonAll trees

def toJsonPart : Option SyntaxTree → Json
  | none => .null
  | some tree => toJson tree

end

/-- The string under a key. -/
def text? (key : String) (members : List (String × Json)) : Option String :=
  match members.lookup key with
  | some (.string text) => some text
  | _ => none

theorem sizeOf_lt_of_lookup {key : String} {value : Json} {members : List (String × Json)}
    (h : members.lookup key = some value) : sizeOf value < sizeOf members := by
  induction members with
  | nil => simp at h
  | cons member members ih =>
    obtain ⟨other, found⟩ := member
    rw [List.lookup_cons] at h
    split at h
    · cases h
      simp
      omega
    · have := ih h
      simp
      omega

/-- Reads a tree back from JSON. The order of the members does not matter. -/
def ofJson? (json : Json) : Option SyntaxTree :=
  match json with
  | .object members => do
    let form ← text? "type" members
    match found : members.lookup "value" with
    | some (.array items) =>
      if form = "seq" then
        seq <$> items.attach.mapM fun ⟨item, _⟩ => ofJson? item
      else none
    | some (.object content) =>
      let part (key : String) : Option SyntaxTree :=
        match below : content.lookup key with
        | some json =>
          have := sizeOf_lt_of_lookup below
          have := sizeOf_lt_of_lookup found
          ofJson? json
        | none => none
      let optional (key : String) : Option (Option SyntaxTree) :=
        match content.lookup key with
        | some .null => some none
        | _ => some <$> part key
      match form with
      | "token" => return token (← text? "kind" content) (← text? "value" content)
      | "tagged" => return tagged (← text? "tag" content) (← part "value")
      | "pair" => return pair (← optional "left") (← optional "right")
      | "infix" => return binary (← text? "operator" content) (← part "left") (← part "right")
      | "prefix" => return unary (← text? "operator" content) (← part "right")
      | _ => none
    | _ => none
  | _ => none
termination_by sizeOf json
decreasing_by
  · have := sizeOf_lt_of_lookup found
    have := List.sizeOf_lt_of_mem ‹_ ∈ items›
    simp at *
    omega
  · simp at *
    omega

end PseudoLang.SyntaxTree
