import PseudoLang.Precedence.Roles

/-!
From a flat sequence to a tree of operators. An operand takes every operator that binds tighter
than the power it is asked with; as left and right powers of a well-formed table differ, the
comparison also decides to which side operators of one level associate.
-/

namespace PseudoLang.Precedence

/-- Terms joined by operators. -/
inductive OperatorTree (α : Type)
  | term (value : α)
  | binary (operator : String) (left right : OperatorTree α)
  | unary (operator : String) (operand : OperatorTree α)
  deriving DecidableEq, Repr

/-- The deepest nesting of operators in an expression. -/
def maxNesting : Nat := 256

/-- An element whose role has been decided, with its powers in that role. -/
inductive Slot (α : Type)
  | term (value : α)
  | binary (operator : String) (left right : Nat)
  | unary (operator : String) (right : Nat)
  deriving DecidableEq, Repr

/-- The slot of an element in the given role, if it can take that role. -/
def Slot.of? {α : Type} (powers : Powers) (element : Element α) (role : UInt8) : Option (Slot α) :=
  match element with
  | .term value => if role = termRole then some (.term value) else none
  | .operator name =>
    if role = binaryRole then
      (powers.binary? name).map fun (left, right) => .binary name left right
    else if role = unaryRole then (powers.unary? name).map fun right => .unary name right
    else none

/-- The slots of the elements from `position` on. -/
def slotsFrom {α : Type} (powers : Powers) (roles : List UInt8) (position : Nat) :
    List (Element α × UInt8) → Except Cause (List (Slot α))
  | [] => .ok []
  | (element, role) :: rest =>
    match Slot.of? powers element role with
    | some slot => (slot :: ·) <$> slotsFrom powers roles (position + 1) rest
    | none => .error (.contradiction "inconsistent classification" [position] roles)

/-- A tree of operators that has been read off the front of a sequence, its height, and the
sequence after it. -/
structure Associated (α : Type) where
  tree : OperatorTree α
  height : Nat
  rest : List (Slot α)
  deriving DecidableEq, Repr

/-- The height of an operator over operands of height `height`. -/
def grow (limit height : Nat) : Except Cause Nat :=
  if limit < height + 1 then .error (.nestingTooDeep limit) else .ok (height + 1)

/-- Reads an expression whose operators bind tighter than the given power, if there is one. -/
abbrev Reader (α : Type) := Option Nat → List (Slot α) → Except Cause (Associated α)

/-- A term, or an operator before all that binds tighter than it does. -/
def operand {α : Type} (nested : Reader α) (limit : Nat) :
    List (Slot α) → Except Cause (Associated α)
  | .term value :: rest => .ok ⟨.term value, 0, rest⟩
  | .unary operator right :: rest => do
    let inner ← nested (some right) rest
    return ⟨.unary operator inner.tree, ← grow limit inner.height, inner.rest⟩
  | .binary .. :: rest => .error (.associationError rest.length)
  | [] => .error (.associationError 0)

/-- Whether an operator with the left power `left` is out of reach of the power `binding`. -/
def stops (binding : Option Nat) (left : Nat) : Bool :=
  match binding with
  | some power => left ≤ power
  | none => false

/-- Extends an expression by up to `fuel` operators that bind tighter than `binding`. -/
def climb {α : Type} (nested : Reader α) (limit : Nat) (binding : Option Nat) :
    Nat → Associated α → Except Cause (Associated α)
  | 0, left => .ok left
  | fuel + 1, left =>
    match left.rest with
    | .binary operator leftPower rightPower :: rest =>
      if stops binding leftPower then .ok left
      else do
        let right ← nested (some rightPower) rest
        let height ← grow limit (max left.height right.height)
        climb nested limit binding fuel ⟨.binary operator left.tree right.tree, height, right.rest⟩
    | _ => .ok left

/-- Reads expressions inside at most `room` others; a tree may be as high as `limit`. -/
def expression {α : Type} (limit : Nat) : Nat → Reader α
  | 0, _, _ => .error (.nestingTooDeep limit)
  | room + 1, binding, slots => do
    let first ← operand (expression limit room) limit slots
    climb (expression limit room) limit binding first.rest.length first

/-- Associates a sequence into a single tree that is no higher than `limit`. -/
def resolveWithin {α : Type} (limit : Nat) (powers : Powers) (elements : List (Element α)) :
    Except Cause (OperatorTree α) := do
  let masks := elements.map fun element =>
    match element with
    | .term _ => termRole
    | .operator name => powers.roles name
  let roles ← decideRoles masks
  let slots ← slotsFrom powers roles 0 (elements.zip roles)
  let whole ← expression limit (limit + 1) none slots
  if whole.rest.isEmpty then return whole.tree
  else .error (.associationError whole.rest.length)

/-- Associates a sequence into a single tree. -/
def resolve {α : Type} (powers : Powers) (elements : List (Element α)) :
    Except Cause (OperatorTree α) :=
  resolveWithin maxNesting powers elements

end PseudoLang.Precedence
