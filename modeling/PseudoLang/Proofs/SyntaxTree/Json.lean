import PseudoLang.Proofs.Json.RoundTrip
import PseudoLang.SyntaxTree.Json
import PseudoLang.Program.Json

/-!
Syntax trees in JSON. A tree reads back from its JSON value (`ofJson?_toJson`), and the value from
either of its texts.
-/

namespace PseudoLang.SyntaxTree

/-! ## Reading trees -/

/-- The tree under a key. -/
def part? (key : String) (content : List (String × Json)) : Option SyntaxTree :=
  content.lookup key >>= ofJson?

/-- The tree under a key whose value may be `null`. -/
def optional? (key : String) (content : List (String × Json)) : Option (Option SyntaxTree) :=
  match content.lookup key with
  | some .null => some none
  | _ => some <$> part? key content

/-- What the content of a node with parts stands for. -/
def ofParts? (form : String) (content : List (String × Json)) : Option SyntaxTree :=
  match form with
  | "token" => return token (← text? "kind" content) (← text? "value" content)
  | "tagged" => return tagged (← text? "tag" content) (← part? "value" content)
  | "pair" => return pair (← optional? "left" content) (← optional? "right" content)
  | "infix" =>
    return binary (← text? "operator" content) (← part? "left" content) (← part? "right" content)
  | "prefix" => return unary (← text? "operator" content) (← part? "right" content)
  | _ => none

theorem lookup_value (form : String) (content : Json) :
    [("type", Json.string form), ("value", content)].lookup "value" = some content := rfl

theorem text?_type (form : String) (content : Json) :
    text? "type" [("type", Json.string form), ("value", content)] = some form := rfl

/-- A node whose content is an object. -/
theorem ofJson?_parts (form : String) (content : List (String × Json)) :
    ofJson? (node form (.object content)) = ofParts? form content := by
  rw [node, ofJson?, text?_type]
  dsimp only
  generalize found : List.lookup "value" _ = v
  rw [lookup_value] at found
  subst found
  dsimp only [ofParts?, optional?, part?]
  generalize List.lookup "left" content = left
  generalize List.lookup "right" content = right
  generalize List.lookup "value" content = value
  cases left <;> cases right <;> cases value <;> rfl

/-- A node whose content is an array. -/
theorem ofJson?_items (items : List Json) :
    ofJson? (node "seq" (.array items)) = seq <$> items.mapM ofJson? := by
  rw [node, ofJson?, text?_type]
  simp only [List.mapM_subtype, List.unattach_attach]
  generalize found : List.lookup "value" _ = v
  rw [lookup_value] at found
  subst found
  rfl

/-- A part is `null` only if it is missing. -/
theorem toJson_ne_null (tree : SyntaxTree) : tree.toJson ≠ .null := by
  cases tree <;> simp [toJson, node]

/-- A part that may be missing reads back, if it does once it is there. -/
theorem optional?_of_lookup {key : String} {content : List (String × Json)}
    {part : Option SyntaxTree} (found : content.lookup key = some (toJsonPart part))
    (read : ∀ tree ∈ part, ofJson? tree.toJson = some tree) :
    optional? key content = some part := by
  unfold optional? part?
  rw [found]
  cases part with
  | none => rfl
  | some tree =>
    have read := read tree rfl
    generalize same : toJsonPart (some tree) = json
    rw [toJsonPart] at same
    cases json with
    | null => exact absurd same (toJson_ne_null tree)
    | bool | integer | float | string | array | object => rw [same] at read; simp [read]

mutual

/-- A tree reads back from its JSON value. -/
theorem ofJson?_toJson : ∀ tree : SyntaxTree, ofJson? tree.toJson = some tree
  | token kind value => by
    rw [toJson, ofJson?_parts]
    rfl
  | seq items => by
    rw [toJson, ofJson?_items, ofJson?_toJsonAll items]
    rfl
  | tagged tag value => by
    rw [toJson, ofJson?_parts]
    simp [ofParts?, text?, part?, List.lookup_cons, ofJson?_toJson value]
  | pair left right => by
    rw [toJson, ofJson?_parts, ofParts?]
    rw [optional?_of_lookup (by rfl) (ofJson?_toJsonPart left),
      optional?_of_lookup (by rfl) (ofJson?_toJsonPart right)]
    rfl
  | binary operator left right => by
    rw [toJson, ofJson?_parts]
    simp [ofParts?, text?, part?, List.lookup_cons, ofJson?_toJson left, ofJson?_toJson right]
  | unary operator operand => by
    rw [toJson, ofJson?_parts]
    simp [ofParts?, text?, part?, List.lookup_cons, ofJson?_toJson operand]

theorem ofJson?_toJsonAll : ∀ trees : List SyntaxTree,
    (toJsonAll trees).mapM ofJson? = some trees
  | [] => rfl
  | tree :: trees => by
    simp [toJsonAll, ofJson?_toJson tree, ofJson?_toJsonAll trees]

theorem ofJson?_toJsonPart : ∀ part : Option SyntaxTree, ∀ tree ∈ part,
    ofJson? tree.toJson = some tree
  | none => by simp
  | some tree => by simpa using ofJson?_toJson tree

end

/-! ## Denoted values -/

mutual

/-- The texts of a tree denote the value of the tree. -/
theorem denoted_toJson : ∀ tree : SyntaxTree, tree.toJson.denoted = tree.toJson
  | token kind value => by simp [toJson, node, Json.denoted]
  | seq items => by simp [toJson, node, Json.denoted, denoted_toJsonAll items]
  | tagged tag value => by simp [toJson, node, Json.denoted, denoted_toJson value]
  | pair left right => by
    simp [toJson, node, Json.denoted, denoted_toJsonPart left, denoted_toJsonPart right]
  | binary operator left right => by
    simp [toJson, node, Json.denoted, denoted_toJson left, denoted_toJson right]
  | unary operator operand => by simp [toJson, node, Json.denoted, denoted_toJson operand]

theorem denoted_toJsonAll : ∀ trees : List SyntaxTree,
    (toJsonAll trees).map Json.denoted = toJsonAll trees
  | [] => rfl
  | tree :: trees => by simp [toJsonAll, denoted_toJson tree, denoted_toJsonAll trees]

theorem denoted_toJsonPart : ∀ part : Option SyntaxTree,
    (toJsonPart part).denoted = toJsonPart part
  | none => by simp [toJsonPart, Json.denoted]
  | some tree => denoted_toJson tree

end

/-- A tree reads back from either of its texts. -/
theorem read?_toJson (tree : SyntaxTree) (compactly : Bool) :
    Json.read? (tree.toJson.render compactly) = some tree.toJson := by
  rw [Json.read?_render, denoted_toJson]

/-- Different trees have different texts, even in different forms. -/
theorem render_toJson_inj {tree other : SyntaxTree} {compactly compactly' : Bool}
    (h : tree.toJson.render compactly = other.toJson.render compactly') : tree = other := by
  have read := read?_toJson tree compactly
  rw [h, read?_toJson other compactly', Option.some.injEq] at read
  have same := ofJson?_toJson tree
  rw [← read, ofJson?_toJson other, Option.some.injEq] at same
  exact same.symm

end PseudoLang.SyntaxTree

namespace PseudoLang

/-- Trees and programs survive JSON. Both texts of a tree are well formed and denote the same value,
from which the tree reads back, so that a text belongs to one tree only. Both texts of a program
denote the same value too. -/
theorem json_texts_denote :
    (∀ (tree : SyntaxTree) (compactly : Bool),
      Json.read? (tree.toJson.render compactly) = some tree.toJson ∧
        SyntaxTree.ofJson? tree.toJson = some tree) ∧
    (∀ (tree other : SyntaxTree) (compactly compactly' : Bool),
      tree.toJson.render compactly = other.toJson.render compactly' → tree = other) ∧
    ∀ (program : Program) (compactly : Bool),
      Json.read? (program.toJson.render compactly) = some program.toJson.denoted := by
  refine ⟨fun tree compactly => ?_, fun tree other compactly compactly' same => ?_,
    fun program compactly => ?_⟩
  · exact ⟨tree.read?_toJson compactly, tree.ofJson?_toJson⟩
  · exact SyntaxTree.render_toJson_inj same
  · exact Json.read?_render compactly program.toJson

end PseudoLang
