import PseudoLang.Number.Reading
import PseudoLang.Token

/-!
Signs: what is asked of one token when a program is written out. A literal may be written in any
way that stands for its value, and layout, keywords and punctuation are asked for by their kind
alone.
-/

namespace PseudoLang

inductive Sign
  /-- A token of a kind that says it all. -/
  | mark (kind : String)
  | name (text : String)
  | operator (text : String)
  | num (value : Int64)
  | float (value : Number.Binary64)
  | string (value : String)
  | bool (value : Bool)
  /-- The end of the source. -/
  | eof

namespace Sign

/-- The name that the grammar matches the token by. -/
def kind : Sign → String
  | mark kind => kind
  | name _ => "name"
  | operator text => if text = "=" then "=" else "op"
  | num _ => "literal_num"
  | float _ => "literal_float"
  | string _ => "literal_string"
  | bool _ => "literal_bool"
  | eof => "EOF"

/-- The texts that the token may have. -/
def Spells : Sign → String → Prop
  | mark _, _ | eof, _ => True
  | name text, value | operator text, value | string text, value => value = text
  | num number, value => Number.readInt64? value = some number
  | float number, value => Number.Binary64.read? value = some number
  | bool truth, value => (value == "true") = truth

/-- A token that the sign can be written as. -/
def Admits (sign : Sign) (token : Token) : Prop :=
  token.typeName = sign.kind ∧ sign.Spells token.value ∧
  match sign with
  | eof => token.kind = .eof
  | _ => True

instance (sign : Sign) (value : String) : Decidable (sign.Spells value) :=
  match sign with
  | mark _ | eof => isTrue trivial
  | name text | operator text | string text => inferInstanceAs (Decidable (value = text))
  | num number => inferInstanceAs (Decidable (Number.readInt64? value = some number))
  | float number => inferInstanceAs (Decidable (Number.Binary64.read? value = some number))
  | bool truth => inferInstanceAs (Decidable ((value == "true") = truth))

instance (sign : Sign) (token : Token) : Decidable (sign.Admits token) :=
  match sign with
  | eof => inferInstanceAs (Decidable (_ ∧ _ ∧ token.kind = .eof))
  | mark _ | name _ | operator _ | num _ | float _ | string _ | bool _ =>
    inferInstanceAs (Decidable (_ ∧ _ ∧ True))

/-- Written parts with a separator between them. -/
def separated (separator : Sign) : List (List Sign) → List Sign
  | [] => []
  | first :: rest => first ++ rest.flatMap (separator :: ·)

end Sign

end PseudoLang
