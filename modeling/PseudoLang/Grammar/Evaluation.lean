import PseudoLang.Grammar.Filter
import PseudoLang.Grammar.Table
import PseudoLang.Token

/-!
Evaluation of rules over a stream of tokens. A rule matches from a cursor, and yields the cursor
after the match and a syntax tree; or it does not match, which consumes nothing; or it fails, which
ends the parse. A context is threaded through that holds the names of the open rules, for messages,
and the depth of nesting, which is limited.
-/

namespace PseudoLang.Grammar

/-- The deepest nesting of rule evaluations. -/
def maxDepth : Nat := 1000

/-- How many tokens before the place of an error its message shows. -/
def tokensBefore : Nat := 5

/-- How many tokens from the place of an error on its message shows. -/
def tokensAfter : Nat := 6

/-- The state of a parse: the names of the open rules, outermost first, and the depth of nesting. -/
structure Context where
  stack : List String
  depth : Nat
  deriving DecidableEq, Repr

/-- The context before anything is parsed. -/
def Context.initial : Context := ⟨[], 0⟩

/-- Why a parse ends without a result. -/
inductive Halt
  | error (error : Error)
  /-- A repetition goes on for ever without consuming tokens. -/
  | endless
  deriving DecidableEq, Repr

/-- A step of a parse. The context is kept when it ends early. -/
abbrev Parse (α : Type) := ExceptT Halt (StateM Context) α

/-- A match: the cursor after it and its tree. Without a match there is none. -/
abbrev Match := Option (Nat × SyntaxTree)

/-- A stream of tokens and the grammar that it is parsed by. -/
structure Parser where
  tokens : Array Token
  /-- The file that errors are reported in if there are no tokens. -/
  file : String
  table : Table

namespace Parse

/-- Runs a step from a context. -/
def runFrom {α : Type} (step : Parse α) (context : Context) : Except Halt α × Context :=
  step context

/-- Runs a step one level deeper, and comes back up however it ends. -/
def deeper {α : Type} (step : Parse α) : Parse α := fun context =>
  let (outcome, after) := step.runFrom { context with depth := context.depth + 1 }
  (outcome, { after with depth := after.depth - 1 })

/-- Runs a step with more rules open, and closes them however it ends. -/
def opening {α : Type} (names : List String) (step : Parse α) : Parse α := fun context =>
  let (outcome, after) := step.runFrom { context with stack := context.stack ++ names }
  (outcome, { after with stack := after.stack.take context.stack.length })

end Parse

namespace Parser

variable (p : Parser)

/-- The start of the token at a cursor, or of the last token if the cursor is past the end. -/
def position (cursor : Nat) : Position :=
  match p.tokens[cursor]?.or p.tokens.back? with
  | some token => token.span.start
  | none => ⟨0, p.file⟩

/-- The descriptions of the tokens from one cursor up to another. -/
def describe (first last : Nat) : List String :=
  (p.tokens.extract first last).toList.map Token.describe

/-- A syntax error at a cursor, with the tokens around it. -/
def syntaxError (stack : List String) (cursor : Nat) (message : String) : Error :=
  let last := min p.tokens.size (cursor + tokensAfter)
  let first := min (cursor - tokensBefore) last
  let here := max first (min cursor last)
  ⟨.syntaxError message (p.describe first here) (p.describe here last) stack, p.position here⟩

/-! ## Outcomes -/

def fail {α : Type} (cursor : Nat) (cause : Cause) : Parse α :=
  throw (.error ⟨cause, p.position cursor⟩)

def failSyntax {α : Type} (cursor : Nat) (message : String) : Parse α := do
  let context ← get
  throw (.error (p.syntaxError context.stack cursor message))

/-- No match, or a syntax error if the rule carries a message. -/
def noMatch {α : Type} (cursor : Nat) : Option String → Parse (Option α)
  | some message => p.failSyntax cursor message
  | none => return none

/-- The result of a computation whose failure belongs to a cursor. -/
def lift {α : Type} (cursor : Nat) : Except Cause α → Parse α
  | .ok a => return a
  | .error cause => p.fail cursor cause

/-! ## Sequences and repetitions

The evaluation of the rules inside a rule is a parameter of what follows. -/

/-- How rules are evaluated. -/
abbrev Evaluator := Nat → Rule → Parse Match

/-- How far a sequence of rules has matched. -/
inductive Progress
  /-- The rule that was next does not match at this cursor. -/
  | stopped (position : Nat)
  | done (position : Nat) (values : List SyntaxTree)

/-- Rules one after the other. -/
def inTurn (evaluate : Evaluator) : List Rule → Nat → Parse Progress
  | [], position => return .done position []
  | rule :: rules, position => do
    match ← evaluate position rule with
    | none => return .stopped position
    | some (next, value) =>
      match ← inTurn evaluate rules next with
      | .stopped stop => return .stopped stop
      | .done stop values => return .done stop (value :: values)

/-- The first alternative that matches. -/
def firstOf (evaluate : Evaluator) (cursor : Nat) : List (String × Rule) → Parse Match
  | [] => return none
  | (tag, rule) :: alternatives => do
    match ← evaluate cursor rule with
    | some (next, value) => return some (next, .tagged tag value)
    | none => firstOf evaluate cursor alternatives

/-- One round of a repetition: the cursor after it and the trees that it adds. -/
abbrev Round := Nat → Parse (Option (Nat × List SyntaxTree))

/-- Repeats a round until it does not match. The trees are collected in reverse. A repetition that
moves on with every round ends within one round more than there are tokens left, so that one that
takes more rounds never ends. -/
def iterate (round : Round) : Nat → Nat → List SyntaxTree → Parse (Nat × List SyntaxTree)
  | 0, _, _ => throw .endless
  | rounds + 1, position, values => do
    match ← round position with
    | none => return (position, values.reverse)
    | some (next, more) => iterate round rounds next (more.reverse ++ values)

/-- Repeats a round from `position`, where `values` have been collected before. -/
def repetition (round : Round) (position : Nat) (values : List SyntaxTree) :
    Parse (Nat × List SyntaxTree) :=
  iterate round (p.tokens.size - position + 1) position values.reverse

/-- A round that does not move on counts as no match. -/
def moving (round : Round) : Round := fun position => do
  match ← round position with
  | some (next, values) => return if next = position then none else some (next, values)
  | none => return none

/-- A round of one rule. -/
def single (evaluate : Evaluator) (rule : Rule) : Round := fun position => do
  match ← evaluate position rule with
  | some (next, value) => return some (next, [value])
  | none => return none

/-- A round of several rules, which match together or not at all. -/
def together (evaluate : Evaluator) (rules : List Rule) : Round := fun position => do
  match ← inTurn evaluate rules position with
  | .done next values => return some (next, values)
  | .stopped _ => return none

/-- A round of one rule after another, of which the first is kept if `keep` says so. -/
def following (evaluate : Evaluator) (keep : Bool) (before rule : Rule) : Round :=
  fun position => do
    let some (middle, first) ← evaluate position before | return none
    let some (next, value) ← evaluate middle rule | return none
    return some (next, if keep then [first, value] else [value])

/-! ## Rules -/

/-- The content of a delimited rule from `position`: one element, or any number of them. -/
def content (evaluate : Evaluator) (separator : Option Rule) (element : Rule)
    (error : Option String) (position : Nat) : Parse Match :=
  match separator with
  | none => do
    match ← evaluate position element with
    | some result => return some result
    | none => p.noMatch position error
  | some separator => do
    match ← evaluate position element with
    | none => return some (position, .seq [])
    | some (next, value) =>
      let (stop, values) ←
        p.repetition (following evaluate false separator element) next [value]
      return some (stop, .seq values)

/-- Evaluates a rule, with the evaluation of the rules inside it given. -/
def evaluateRule (evaluate : Evaluator) (cursor : Nat) : Rule → Parse Match
  | .reference name => do
    let (chain, rule) ← p.lift cursor (p.table.resolve name)
    Parse.opening chain (evaluate cursor rule)
  | .token kind error =>
    match p.tokens[cursor]? with
    | some token =>
      if token.typeName = kind then return some (cursor + 1, .token kind token.value)
      else p.noMatch cursor error
    | none => p.noMatch cursor error
  | .filter name rule => do
    let some (next, value) ← evaluate cursor rule | return none
    match Filter.named? name with
    | none => p.fail cursor (.unknownFilter name)
    | some filter => return (← p.lift cursor (filter value)).map fun tree => (next, tree)
  | .optional rule => do
    match ← evaluate cursor rule with
    | some (next, value) => return some (next, .seq [value])
    | none => return some (cursor, .seq [])
  | .many rule => do
    let (stop, values) ← p.repetition (moving (single evaluate rule)) cursor []
    return some (stop, .seq values)
  | .cycle rules => do
    let (stop, values) ← p.repetition (moving (together evaluate rules)) cursor []
    return some (stop, .seq values)
  | .split primary secondary error => do
    match ← evaluate cursor primary with
    | none => p.noMatch cursor error
    | some (next, first) =>
      let (stop, values) ←
        p.repetition (moving (following evaluate true secondary primary)) next [first]
      return some (stop, .seq values)
  | .sequence rules error => do
    match ← inTurn evaluate rules cursor with
    | .done stop values => return some (stop, .seq values)
    | .stopped stop => p.noMatch stop error
  | .delimited left right separator element error => do
    let some (opened, _) ← evaluate cursor left | return none
    let some (position, value) ← p.content evaluate separator element error opened | return none
    match ← evaluate position right with
    | some (stop, _) => return some (stop, value)
    | none => p.noMatch position error
  | .choice alternatives error => do
    match ← firstOf evaluate cursor alternatives with
    | some result => return some result
    | none => p.noMatch cursor error
  | .required rule error => do
    match ← evaluate cursor rule with
    | some result => return some result
    | none => p.failSyntax cursor error
  | .pair left separator right => do
    match ← evaluate cursor left with
    | none =>
      match ← evaluate cursor right with
      | some (stop, value) => return some (stop, .pair none (some value))
      | none => return none
    | some (position, first) =>
      match ← evaluate position separator with
      | none => return some (position, .pair (some first) none)
      | some (middle, _) =>
        match ← evaluate middle right with
        | some (stop, value) => return some (stop, .pair (some first) (some value))
        | none => return none

/-- Evaluates a rule with room for the given number of nested evaluations. The one that does not
fit still counts into the depth. -/
def evaluateWithin : Nat → Evaluator
  | 0 => fun cursor _ => do
    modify fun context => { context with depth := context.depth + 1 }
    p.fail cursor (.nestingTooDeep maxDepth)
  | room + 1 => fun cursor rule =>
    Parse.deeper (p.evaluateRule (evaluateWithin room) cursor rule)

/-- Evaluates a rule from a cursor. -/
def evaluate (cursor : Nat) (rule : Rule) : Parse Match := do
  let context ← get
  p.evaluateWithin (maxDepth - context.depth) cursor rule

/-- Evaluates the rule of the given name from a cursor. -/
def parseRule (cursor : Nat) (name : String) : Parse Match := p.evaluate cursor (.reference name)

/-- Parses the whole stream by the `file` rule, which has to reach the end of the source. -/
def parseFile : Except Halt SyntaxTree :=
  match ((p.parseRule 0 "file").runFrom .initial).1 with
  | .error halt => .error halt
  | .ok outcome =>
    let (stop, tree) := outcome.getD (0, .seq [])
    match p.tokens[stop]? with
    | some token =>
      if token.kind = .eof then .ok tree
      else .error (.error ⟨.trailingInput token.describe, token.span.start⟩)
    | none => .ok tree

end Parser

end PseudoLang.Grammar
