/-!
Flat sequences of terms and operators, and how tightly each operator binds.
-/

namespace PseudoLang.Precedence

/-- One element of a sequence that has not been associated yet. -/
inductive Element (α : Type)
  | term (value : α)
  | operator (name : String)
  deriving DecidableEq, Repr

/-! ## Roles

What an element can be is a set of roles, held as the bits of a byte. -/

/-- A term is its own role. -/
def termRole : UInt8 := 8

/-- Standing between two operands. -/
def binaryRole : UInt8 := 4

/-- Standing before an operand. -/
def unaryRole : UInt8 := 2

/-! ## Binding powers -/

/-- The binding powers of operators: on both sides for an operator between two operands, on the
right for an operator before its operand. Each operator has at most one entry in each table. -/
structure Powers where
  binary : List (String × Nat × Nat)
  unary : List (String × Nat)
  deriving DecidableEq, Repr

/-- Sets the entry of a key. -/
def assign {β : Type} (table : List (String × β)) (key : String) (value : β) :
    List (String × β) :=
  (key, value) :: table.filter fun entry => entry.1 != key

namespace Powers

def empty : Powers := ⟨[], []⟩

/-- Gives operators the powers of operators between two operands. -/
def withBinary (powers : Powers) (operators : List String) (left right : Nat) : Powers :=
  { powers with
    binary := operators.foldl (fun table name => assign table name (left, right)) powers.binary }

/-- Gives operators the power of operators before an operand. -/
def withUnary (powers : Powers) (operators : List String) (right : Nat) : Powers :=
  { powers with unary := operators.foldl (fun table name => assign table name right) powers.unary }

def binary? (powers : Powers) (name : String) : Option (Nat × Nat) := powers.binary.lookup name

def unary? (powers : Powers) (name : String) : Option Nat := powers.unary.lookup name

/-- The roles that an operator can take. -/
def roles (powers : Powers) (name : String) : UInt8 :=
  (if (powers.binary? name).isSome then binaryRole else 0) |||
    if (powers.unary? name).isSome then unaryRole else 0

/-- Whether left powers are even and right powers odd, so that no two ever coincide. -/
def isWellFormed (powers : Powers) : Bool :=
  powers.binary.all (fun (_, left, right) => left % 2 == 0 && right % 2 == 1) &&
    powers.unary.all fun (_, right) => right % 2 == 1

/-- The operators of the language. -/
def language : Powers :=
  empty
    |>.withBinary ["OR"] 10 11
    |>.withBinary ["AND"] 20 21
    |>.withBinary ["<", ">", "<=", ">=", "<>", "="] 30 31
    |>.withBinary ["+", "-"] 50 51
    |>.withBinary ["*", "/", "%"] 60 61
    |>.withUnary ["NOT"] 21
    |>.withUnary ["-"] 51

end Powers

end PseudoLang.Precedence
