import PseudoLang.Proofs.Language.Rereading

/-!
The numbers among the tokens of a rule, and those among the signs that its tree is read as. They are
the same numbers in the same order (`Retains`), whatever becomes of the other tokens: of layout and
separators a tree may keep less than there is, and a program less than its tree.
-/

namespace PseudoLang

open Grammar Grammar.Language
open Sign (between separated)

/-! ## Numbers among tokens and signs -/

/-- The names that the grammar matches numbers by. -/
def isNumberKind (kind : String) : Bool := kind == "literal_num" || kind == "literal_float"

/-- The tokens of numbers. -/
def numerals (terminals : List Terminal) : List Terminal := terminals.filter (isNumberKind ·.1)

theorem numerals_cons {terminal : Terminal} (number : isNumberKind terminal.1 = true)
    (terminals : List Terminal) :
    numerals (terminal :: terminals) = terminal :: numerals terminals :=
  List.filter_cons_of_pos number

theorem numerals_cons_of_other {terminal : Terminal} (other : isNumberKind terminal.1 = false)
    (terminals : List Terminal) : numerals (terminal :: terminals) = numerals terminals :=
  List.filter_cons_of_neg (by simp [other])

theorem numerals_append (terminals more : List Terminal) :
    numerals (terminals ++ more) = numerals terminals ++ numerals more :=
  List.filter_append ..

/-- The signs of numbers. -/
def Sign.numbers (signs : List Sign) : List Sign := signs.filter (isNumberKind ·.kind)

/-- The numbers among the signs are written as those among the tokens. -/
def Numbered (signs : List Sign) (terminals : List Terminal) : Prop :=
  List.Forall₂ Sign.Matches (Sign.numbers signs) (numerals terminals)

namespace Numbered

variable {signs more : List Sign} {terminals rest : List Terminal}

theorem nil : Numbered [] [] := List.Forall₂.nil

theorem append (h : Numbered signs terminals) (hr : Numbered more rest) :
    Numbered (signs ++ more) (terminals ++ rest) := by
  rw [Numbered, Sign.numbers, List.filter_append, numerals_append]
  exact List.rel_append h hr

/-- What is written as one part after the other. -/
theorem cons {parts : List (List Sign)} (h : Numbered signs terminals)
    (hr : Numbered parts.flatten rest) : Numbered (signs :: parts).flatten (terminals ++ rest) :=
  h.append hr

theorem flatten {parts : List (List Sign)} {rounds : List (List Terminal)}
    (h : List.Forall₂ Numbered parts rounds) : Numbered parts.flatten rounds.flatten := by
  induction h with
  | nil => exact nil
  | cons here _ ih => exact here.cons ih

theorem of_matches (h : List.Forall₂ Sign.Matches signs terminals) :
    Numbered signs terminals := by
  induction h with
  | nil => exact nil
  | @cons sign terminal signs terminals here _ ih =>
    rw [Numbered, Sign.numbers, numerals, List.filter_cons, List.filter_cons, here.1]
    split
    · exact .cons here ih
    · exact ih

/-- The signs and the tokens may be without numbers both. -/
theorem none (hs : Sign.numbers signs = []) (ht : numerals terminals = []) :
    Numbered signs terminals := by
  rw [Numbered, hs, ht]
  exact .nil

theorem congr (same : Sign.numbers signs = Sign.numbers more) (h : Numbered more terminals) :
    Numbered signs terminals := by
  rw [Numbered, same]
  exact h

end Numbered

namespace Sign

variable {signs more : List Sign} {parts : List (List Sign)} {separator : String}

theorem numbers_append : numbers (signs ++ more) = numbers signs ++ numbers more :=
  List.filter_append ..

theorem numbers_mark (other : isNumberKind separator = false) :
    numbers (.mark separator :: signs) = numbers signs :=
  List.filter_cons_of_neg (by simp [kind, other])

theorem numbers_between {left right : String} (hl : isNumberKind left = false)
    (hr : isNumberKind right = false) : numbers (between left signs right) = numbers signs := by
  simp [numbers, between, kind, hl, hr]

theorem numbers_after (other : isNumberKind separator = false) :
    numbers (parts.flatMap (.mark separator :: ·)) = numbers parts.flatten := by
  induction parts with
  | nil => rfl
  | cons part parts ih =>
    rw [List.flatMap_cons, List.cons_append, numbers_mark other, numbers_append, ih,
      List.flatten_cons, numbers_append]

theorem numbers_separated (other : isNumberKind separator = false) :
    numbers (separated (.mark separator) parts) = numbers parts.flatten := by
  cases parts with
  | nil => rfl
  | cons first parts =>
    rw [separated, numbers_append, numbers_after other, List.flatten_cons, numbers_append]

theorem numbers_body : numbers (body parts) = numbers parts.flatten := by
  rw [body, numbers_between (by decide) (by decide), numbers_separated (by decide)]

end Sign

/-- What is read from the tree holds the numbers among these tokens. -/
abbrev Retains {α : Type} (read : SyntaxTree → Except Cause α) (signs : α → List Sign)
    (terminals : List Terminal) (tree : SyntaxTree) : Prop :=
  Gives (read tree) fun value => Numbered (signs value) terminals

variable {n : Nat} {terminals : List Terminal} {tree : SyntaxTree}

/-! ## Tokens, lists and series -/

theorem numerals_token {kind : String} {error : Option String}
    (h : Reading n (.token kind error) terminals tree) (other : isNumberKind kind = false) :
    numerals terminals = [] := by
  obtain ⟨text, rfl, -⟩ := h.token
  exact numerals_cons_of_other other []

/-- A token that is no number, where a sign that is none is written. -/
theorem numbered_token {sign : Sign} {kind : String} {error : Option String}
    (h : Reading n (.token kind error) terminals tree)
    (other : isNumberKind kind = false ∧ isNumberKind sign.kind = false) :
    Numbered [sign] terminals :=
  .none (by simp [Sign.numbers, other.2]) (numerals_token h other.1)

theorem numbered_name {error : Option String} (text : String)
    (h : Reading n (.token "name" error) terminals tree) : Numbered [.name text] terminals := by
  have other : isNumberKind "name" = false := by decide
  exact numbered_token h ⟨other, other⟩

/-- The same for a token that may be left out. -/
theorem numbered_optional {sign : Sign} {kind : String} {error : Option String}
    (h : Reading n (.optional (.token kind error)) terminals tree)
    (other : isNumberKind kind = false ∧ isNumberKind sign.kind = false) :
    Numbered [sign] terminals := by
  obtain ⟨rfl, -⟩ | ⟨_, -, token⟩ := h.optional
  · exact .none (by simp [Sign.numbers, other.2]) rfl
  · exact numbered_token token other

section

variable {α : Type} {read : SyntaxTree → Except Cause α} {signs : α → List Sign}

theorem retains_of_rereads {wellFormed : α → Prop}
    (h : Rereads read wellFormed signs terminals tree) : Retains read signs terminals tree :=
  fun value reads => .of_matches (h value reads).2

theorem retains_each {parts : List (List Terminal)} {trees : List SyntaxTree}
    (h : List.Forall₂ (Retains read signs) parts trees) :
    Gives (trees.mapM read) fun values => Numbered (values.map signs).flatten parts.flatten :=
  fun _ reads => .flatten (List.forall₂_map_left_iff.mpr (forall₂_of_mapM h reads))

theorem retains_many {element : Rule} (h : Reading n (.many element) terminals tree)
    (inner : ∀ part tree, Reading n element part tree → Retains read signs part tree) :
    ∃ trees, tree = .seq trees ∧
      Gives (trees.mapM read) fun values => Numbered (values.map signs).flatten terminals := by
  obtain ⟨parts, trees, rfl, rfl, each⟩ := h.many
  exact ⟨trees, rfl, retains_each (each.imp inner)⟩

variable {left right separator : String} {leftError rightError separatorError : Option String}
  {error : Option String} {element : Rule}

theorem Numbered.between {opening inside closing : List Terminal} {before after : SyntaxTree}
    {written : List Sign} (other : isNumberKind left = false ∧ isNumberKind right = false)
    (opens : Reading n (.token left leftError) opening before)
    (closes : Reading n (.token right rightError) closing after) (h : Numbered written inside) :
    Numbered (Sign.between left written right) (opening ++ inside ++ closing) := by
  rw [List.append_assoc, ← List.append_nil closing]
  exact .cons (numbered_token opens ⟨other.1, other.1⟩)
    (.cons h (.cons (numbered_token closes ⟨other.2, other.2⟩) .nil))

theorem retains_after (h : YieldsAfter table Terminal.Genuine n (.token separator separatorError)
      element terminals tree) (other : isNumberKind separator = false)
    (inner : ∀ part, Reading n element part tree → Retains read signs part tree) :
    Retains read signs terminals tree := by
  obtain ⟨before, here, kept, rfl, separates, derived⟩ := h
  intro value reads
  have apart : Numbered [] before := .none rfl (numerals_token separates other)
  exact apart.append (inner here derived value reads)

theorem retains_rounds {first : List Terminal} {rounds : List (List Terminal)} {value : SyntaxTree}
    {items : List SyntaxTree} (other : isNumberKind separator = false)
    (inner : ∀ part tree, Reading n element part tree → Retains read signs part tree)
    (h : Reading n element first value)
    (hr : List.Forall₂ (YieldsAfter table Terminal.Genuine n (.token separator separatorError)
      element) rounds items) :
    Gives ((value :: items).mapM read) fun values =>
      Numbered (separated (.mark separator) (values.map signs)) (first ++ rounds.flatten) := by
  have rest := hr.imp fun part tree after => retains_after after other fun part => inner part tree
  exact fun values reads => .congr (Sign.numbers_separated other)
    (retains_each (.cons (inner first value h) rest) values reads)

/-- Items between delimiters, with separators between them. -/
theorem retains_listed
    (h : Reading n (.delimited (.token left leftError) (.token right rightError)
      (some (.token separator separatorError)) element error) terminals tree)
    (other : (isNumberKind left = false ∧ isNumberKind right = false) ∧
      isNumberKind separator = false)
    (inner : ∀ part tree, Reading n element part tree → Retains read signs part tree) :
    ∃ trees, tree = .seq trees ∧ Gives (trees.mapM read) fun values =>
      Numbered (between left (separated (.mark separator) (values.map signs)) right) terminals := by
  obtain ⟨opening, inside, closing, before, after, trees, rfl, rfl, opens, closes, content⟩ :=
    h.listed
  refine ⟨trees, rfl, fun values reads => .between other.1 opens closes ?_⟩
  obtain ⟨rfl, rfl⟩ | ⟨first, rounds, tree, more, rfl, rfl, derived, yields⟩ := content
  · cases reads
    exact .nil
  · exact retains_rounds other.2 inner derived yields values reads

theorem primaries_of_interleaved {trees items : List SyntaxTree} (h : Interleaved trees items)
    (value : SyntaxTree) : SyntaxTree.primaries (value :: trees) = value :: items := by
  induction h generalizing value with
  | nil => rfl
  | @cons kept item trees items _ ih => rw [SyntaxTree.primaries, ih]

theorem retains_series (h : Reading n (.split element (.token separator separatorError) error)
      terminals tree) (other : isNumberKind separator = false)
    (inner : ∀ part tree, Reading n element part tree → Retains read signs part tree) :
    ∃ trees, tree = .seq trees ∧ Gives ((SyntaxTree.primaries trees).mapM read) fun values =>
      Numbered (separated (.mark separator) (values.map signs)) terminals := by
  obtain ⟨first, rounds, value, trees, items, rfl, rfl, derived, interleaved, yields⟩ := h.split
  refine ⟨value :: trees, rfl, ?_⟩
  rw [primaries_of_interleaved interleaved]
  exact retains_rounds other inner derived yields

/-- What may be left out. -/
theorem retains_part {rule : String} (h : Reading n (.optional element) terminals tree)
    (inner : ∀ part tree, Reading n element part tree → Retains read signs part tree) :
    Gives (tree.part rule read) fun value => Numbered ((value.map signs).getD []) terminals := by
  obtain ⟨rfl, rfl⟩ | ⟨value, rfl, derived⟩ := h.optional
  · exact .ok .nil
  · exact (inner _ _ derived).bind fun value retained => .ok retained

end

end PseudoLang
