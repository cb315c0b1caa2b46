import PseudoLang.Grammar.Table

/-!
The grammar of the language. A program is a series of `start` blocks and procedures; blocks are
marked by indentation, and most statements end in a keyword of their own.
-/

namespace PseudoLang.Grammar.Language

/-! ## Short forms for writing rules -/

def rule (name : String) : Rule := .reference name

def token (kind : String) : Rule := .token kind none

/-- A token that has to be there. -/
def expect (kind error : String) : Rule := .token kind (some error)

def all (rules : List Rule) : Rule := .sequence rules none

def anyOf (alternatives : List (String × Rule)) : Rule := .choice alternatives none

/-- One element between delimiters. -/
def enclosed (left right element : Rule) : Rule := .delimited left right none element none

/-- Elements between delimiters with separators between them. -/
def listed (left right : Rule) (separator : String) (element : Rule) : Rule :=
  .delimited left right (some (token separator)) element none

/-- At least one primary, with separators between them. -/
def series (primary : Rule) (separator error : String) : Rule :=
  .split primary (token separator) (some error)

/-! ## Programs -/

def file : Rule :=
  .many (anyOf [("start", rule "start"), ("procedure", rule "procedure"),
    ("newline", token "newline")])

def start : Rule :=
  all [token "start", rule "mainbody", expect "end" "expected 'end' closing 'start'"]

def procedure : Rule :=
  all [
    token "name",
    listed (token "(") (expect ")" "expected ')' closing the parameter list") ","
      (rule "predicate"),
    rule "mainbody",
    expect "return" "expected 'return' closing the procedure"]

def mainBody : Rule :=
  all [
    expect "indent" "expected an indented block",
    .optional (rule "declarations"),
    .optional (rule "stmt"),
    .cycle [token "newline", rule "stmt"],
    expect "dedent" "expected a statement or the end of the block",
    expect "newline" "expected a new line after the block"]

/-! ## Declarations -/

def declarations : Rule :=
  all [
    token "Declarations",
    listed (expect "indent" "expected indented declarations")
      (expect "dedent" "expected a declaration or the end of the declarations") "newline"
      (rule "decline")]

def declarationLine : Rule :=
  all [rule "predicate", .optional (all [token "=", rule "expr"])]

def predicate : Rule :=
  all [
    rule "elementtype",
    expect "name" "expected a name after the type",
    .many (rule "arraytypesuffix")]

def arraySuffix : Rule :=
  enclosed (token "[") (expect "]" "expected ']' closing the array size")
    (.optional (rule "expr"))

def elementType : Rule :=
  anyOf [
    ("bool", token "bool"),
    ("num", token "num"),
    ("float", token "float"),
    ("string", token "string"),
    ("InputFile", token "InputFile"),
    ("OutputFile", token "OutputFile"),
    ("proc", rule "proctype")]

def procedureType : Rule :=
  all [
    token "proc",
    listed (expect "(" "expected '(' after 'proc'")
      (expect ")" "expected ')' closing the parameter types") "," (rule "proctypeparam")]

def procedureTypeParameter : Rule :=
  all [rule "elementtype", .many (rule "arraytypesuffix")]

/-! ## Statements -/

def body : Rule :=
  .choice [
    ("indented",
      enclosed (token "indent") (expect "dedent" "expected the indented block to end")
        (series (rule "stmt") "newline" "expected a statement")),
    ("unindented", rule "stmt")]
    (some "expected a statement or an indented block")

def statement : Rule :=
  anyOf [
    ("if", rule "if"),
    ("while", rule "while"),
    ("for", rule "for"),
    ("case", rule "case"),
    ("do", rule "do"),
    ("set", rule "set"),
    ("input", rule "input"),
    ("output", rule "output"),
    ("open", rule "open"),
    ("close", rule "close"),
    ("exprstmt", rule "term")]

def ifStatement : Rule :=
  all [
    token "if",
    rule "condition",
    expect "then" "expected 'then' after the condition",
    .required (rule "body") "expected a body after 'then'",
    .optional (rule "else"),
    .optional (token "newline"),
    expect "endif" "expected 'endif' closing 'if'"]

def elseClause : Rule := all [token "newline", token "else", rule "body"]

def whileStatement : Rule :=
  all [
    token "while",
    rule "condition",
    .required (rule "body") "expected a body after the condition",
    .optional (token "newline"),
    expect "endwhile" "expected 'endwhile' closing 'while'"]

def forStatement : Rule :=
  all [
    token "for",
    expect "name" "expected a loop variable",
    expect "=" "expected '=' after the loop variable",
    rule "expr",
    expect "to" "expected 'to' after the start value",
    rule "expr",
    expect "step" "expected 'step' after the stop value",
    rule "expr",
    .required (rule "body") "expected a body after the step value",
    .optional (token "newline"),
    expect "endfor" "expected 'endfor' closing 'for'"]

def caseStatement : Rule :=
  all [
    token "case",
    rule "expr",
    expect "indent" "expected indented cases",
    .required
      (.pair (.split (rule "case_case") (token "newline") none) (token "newline")
        (rule "default_case"))
      "expected a case or a default case",
    expect "dedent" "expected a case or the end of the cases",
    expect "newline" "expected a new line after the cases",
    expect "endcase" "expected 'endcase' closing 'case'"]

def caseArm : Rule :=
  all [rule "atom", expect ":" "expected ':' after the case value", rule "body"]

def defaultArm : Rule :=
  all [token "default", expect ":" "expected ':' after 'default'", rule "body"]

def doStatement : Rule :=
  all [
    token "do",
    rule "body",
    expect "newline" "expected a new line before 'until'",
    expect "until" "expected 'until' closing 'do'",
    rule "condition"]

def setStatement : Rule :=
  all [
    token "set",
    rule "lval",
    expect "=" "expected '=' after the assignment target",
    .required (rule "expr") "expected a value to assign"]

def inputStatement : Rule :=
  all [
    token "input",
    series (token "name") "," "expected a variable to input into",
    .optional (all [token "from", rule "atom"])]

def outputStatement : Rule :=
  all [
    token "output",
    series (rule "expr") "," "expected a value to output",
    .optional (all [token "to", rule "atom"])]

def openStatement : Rule :=
  all [token "open", expect "name" "expected a file variable after 'open'", rule "atom"]

def closeStatement : Rule :=
  all [token "close", expect "name" "expected a file variable after 'close'"]

def assignmentTarget : Rule := all [token "name", .many (rule "subscript")]

/-! ## Expressions -/

def subscript : Rule :=
  enclosed (token "[") (expect "]" "expected ']' closing the subscript") (rule "expr")

/-- A flat sequence of terms and operators. The equals sign is both an operator and punctuation. -/
def expression : Rule :=
  .filter "precedence"
    (.many (anyOf [("term", rule "term"), ("op", token "op"), ("eq", token "=")]))

def term : Rule := all [rule "atom", .many (rule "suffix")]

def suffix : Rule := anyOf [("subscript", rule "subscript"), ("call", rule "call")]

def call : Rule :=
  listed (token "(") (expect ")" "expected ')' closing the argument list") "," (rule "expr")

def atom : Rule :=
  anyOf [
    ("group", enclosed (token "(") (expect ")" "expected ')' closing the group") (rule "expr")),
    ("list", listed (token "[") (expect "]" "expected ']' closing the list") "," (rule "expr")),
    ("name", token "name"),
    ("num", token "literal_num"),
    ("float", token "literal_float"),
    ("string", token "literal_string"),
    ("bool", token "literal_bool")]

/-- The grammar of the language; a source is matched by its `file` rule. -/
def table : Table := [
  ("file", file),
  ("start", start),
  ("procedure", procedure),
  ("mainbody", mainBody),
  ("declarations", declarations),
  ("decline", declarationLine),
  ("predicate", predicate),
  ("arraytypesuffix", arraySuffix),
  ("elementtype", elementType),
  ("proctype", procedureType),
  ("proctypeparam", procedureTypeParameter),
  ("body", body),
  ("stmt", statement),
  ("if", ifStatement),
  ("else", elseClause),
  ("while", whileStatement),
  ("for", forStatement),
  ("case", caseStatement),
  ("case_case", caseArm),
  ("default_case", defaultArm),
  ("do", doStatement),
  ("set", setStatement),
  ("input", inputStatement),
  ("output", outputStatement),
  ("open", openStatement),
  ("close", closeStatement),
  ("lval", assignmentTarget),
  ("subscript", subscript),
  ("condition", rule "expr"),
  ("expr", expression),
  ("term", term),
  ("suffix", suffix),
  ("call", call),
  ("atom", atom)]

end PseudoLang.Grammar.Language
