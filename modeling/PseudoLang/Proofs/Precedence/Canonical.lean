import PseudoLang.Precedence.Association

/-!
Canonical trees. Of all trees over one sequence of terms and operators, the canonical one is the
tree that the powers of its operators call for: every operator takes as much to its right as binds
tighter than its right power, and no less.
-/

namespace PseudoLang.Precedence

namespace Powers

/-- The left power of an operator between two operands, or zero. -/
def left (powers : Powers) (operator : String) : Nat :=
  ((powers.binary? operator).map Prod.fst).getD 0

/-- The right power of an operator between two operands, or zero. -/
def right (powers : Powers) (operator : String) : Nat :=
  ((powers.binary? operator).map Prod.snd).getD 0

/-- The power of an operator before its operand, or zero. -/
def before (powers : Powers) (operator : String) : Nat := (powers.unary? operator).getD 0

end Powers

namespace OperatorTree

variable {α : Type}

/-! ## The sequence of a tree -/

/-- The elements in order, from the left to the right. -/
def walk : OperatorTree α → List (Element α)
  | term value => [.term value]
  | binary operator left right => walk left ++ .operator operator :: walk right
  | unary operator operand => .operator operator :: walk operand

/-- The role of each element in that order. -/
def roles : OperatorTree α → List UInt8
  | term _ => [termRole]
  | binary _ left right => roles left ++ binaryRole :: roles right
  | unary _ operand => unaryRole :: roles operand

/-- The elements in order with the powers of their roles. -/
def slots (powers : Powers) : OperatorTree α → List (Slot α)
  | term value => [.term value]
  | binary operator left right =>
    slots powers left ++
      .binary operator (powers.left operator) (powers.right operator) :: slots powers right
  | unary operator operand => .unary operator (powers.before operator) :: slots powers operand

/-! ## Canonical trees -/

/-- The left powers on the left spine: those of the root, its left child and so on, as long as they
stand between two operands. -/
def leftSpine (powers : Powers) : OperatorTree α → List Nat
  | binary operator left _ => powers.left operator :: leftSpine powers left
  | _ => []

/-- The right powers on the right spine: those of the root, its rightmost child and so on, down to
a term. -/
def rightSpine (powers : Powers) : OperatorTree α → List Nat
  | term _ => []
  | binary operator _ right => powers.right operator :: rightSpine powers right
  | unary operator operand => powers.before operator :: rightSpine powers operand

/-- No operator could have taken more or less than it has. What is to the right of an operator
begins with operators that bind tighter than it does, and each operator that ends at its left
leaves it alone. -/
def Canonical (powers : Powers) : OperatorTree α → Prop
  | term _ => True
  | binary operator left right =>
    (∀ power ∈ leftSpine powers right, powers.right operator < power) ∧
    (∀ power ∈ rightSpine powers left, powers.left operator ≤ power) ∧
    Canonical powers left ∧ Canonical powers right
  | unary operator operand =>
    (∀ power ∈ leftSpine powers operand, powers.before operator < power) ∧
    Canonical powers operand

/-- Every operator has powers for the role that it plays. -/
def Known (powers : Powers) : OperatorTree α → Prop
  | term _ => True
  | binary operator left right =>
    (powers.binary? operator).isSome ∧ Known powers left ∧ Known powers right
  | unary operator operand => (powers.unary? operator).isSome ∧ Known powers operand

/-- The number of operators on the longest path from the root to a term. -/
def height : OperatorTree α → Nat
  | term _ => 0
  | binary _ left right => max (height left) (height right) + 1
  | unary _ operand => height operand + 1

end OperatorTree

/-! ## Elements, roles and slots -/

namespace Slot

variable {α : Type}

/-- The element in a slot. -/
def element : Slot α → Element α
  | term value => .term value
  | binary operator _ _ | unary operator _ => .operator operator

/-- The powers of a slot are those of its operator. -/
def Fits (powers : Powers) : Slot α → Prop
  | term _ => True
  | binary operator left right => powers.binary? operator = some (left, right)
  | unary operator right => powers.unary? operator = some right

/-- The slot of an element in a role. -/
def assigned (powers : Powers) : Element α → UInt8 → Slot α
  | .term value, _ => .term value
  | .operator name, role =>
    if role = binaryRole then .binary name (powers.left name) (powers.right name)
    else .unary name (powers.before name)

end Slot

namespace OperatorTree

variable {α : Type} {powers : Powers}

theorem map_element_slots (tree : OperatorTree α) :
    (tree.slots powers).map Slot.element = tree.walk := by
  induction tree with
  | term => rfl
  | binary operator left right ihl ihr => simp [slots, walk, Slot.element, ihl, ihr]
  | unary operator operand ih => simp [slots, walk, Slot.element, ih]

theorem length_roles (tree : OperatorTree α) : tree.roles.length = tree.walk.length := by
  induction tree with
  | term => rfl
  | binary operator left right ihl ihr => simp [roles, walk, ihl, ihr]
  | unary operator operand ih => simp [roles, walk, ih]

theorem walk_ne_nil (tree : OperatorTree α) : tree.walk ≠ [] := by
  cases tree <;> simp [walk]

/-- The slots of a tree depend on nothing but its elements and their roles. -/
theorem slots_eq_zipWith (tree : OperatorTree α) :
    tree.slots powers = List.zipWith (Slot.assigned powers) tree.walk tree.roles := by
  induction tree with
  | term => rfl
  | binary operator left right ihl ihr =>
    rw [slots, walk, roles, List.zipWith_append left.length_roles.symm, ihl, ihr]
    simp [Slot.assigned]
  | unary operator operand ih =>
    simp [slots, walk, roles, ih, Slot.assigned, binaryRole, unaryRole]

end OperatorTree

end PseudoLang.Precedence
