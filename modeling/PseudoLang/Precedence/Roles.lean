import PseudoLang.Error
import PseudoLang.Precedence.Powers

/-!
Which role each element of a sequence takes. After a term an operator stands between two operands;
after an operator, or at the start, it stands before its operand.
-/

namespace PseudoLang.Precedence

/-- An operator that can take either role. -/
def eitherRole : UInt8 := binaryRole ||| unaryRole

/-- The role of an element with the given roles after its left neighbour, or what is wrong with
the two. -/
def narrow (neighbour roles : UInt8) : Except String UInt8 :=
  if neighbour = termRole then
    if roles &&& binaryRole = 0 then .error "a term must be followed by an infix operator"
    else .ok binaryRole
  else if roles = eitherRole then .ok unaryRole
  else if roles = binaryRole then
    .error "an operator cannot be followed by an infix operator"
  else .ok roles

/-- Narrows from right to left: `left` holds what stands before `current`, nearest first, and
`decided` what stands after it. -/
def narrowAll : List UInt8 → UInt8 → List UInt8 → Except Cause (List UInt8)
  | [], current, decided => .ok (current :: decided)
  | neighbour :: left, current, decided =>
    match narrow neighbour current with
    | .ok role => narrowAll left neighbour (role :: decided)
    | .error message =>
      .error (.contradiction message [left.length, left.length + 1]
        (left.reverse ++ neighbour :: current :: decided))

/-- An ambiguous operator at the start stands before its operand. -/
def narrowFirst : List UInt8 → List UInt8
  | [] => []
  | first :: rest => (if first = eitherRole then unaryRole else first) :: rest

/-- The positions of elements that can take no role at all. -/
def roleless (masks : List UInt8) : List Nat :=
  (masks.zipIdx.filter fun (mask, _) => mask = 0).map Prod.snd

/-- Narrows the roles of every element to the one that it takes. -/
def decideRoles (masks : List UInt8) : Except Cause (List UInt8) :=
  let masks := narrowFirst masks
  match masks.reverse with
  | [] => .error (.contradiction "empty expression" [] masks)
  | last :: left =>
    if masks.head? = some binaryRole then
      .error (.contradiction "expression starts with an infix operator" [0] masks)
    else if last ≠ termRole then
      .error (.contradiction "expression ends with an operator" [left.length] masks)
    else if roleless masks ≠ [] then
      .error (.contradiction "operator is neither infix nor prefix" (roleless masks) masks)
    else narrowAll left last []

end PseudoLang.Precedence
