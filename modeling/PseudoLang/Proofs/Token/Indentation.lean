import Mathlib.Data.List.Chain
import PseudoLang.Proofs.Token.Stream

/-!
The stack of indentations, and what becomes of it when a line begins. A line goes back to an entry
of the stack, or it extends the innermost entry; every other indentation is an error
(`settle_back`, `settle_extend`, `settle_eq_error`).
-/

namespace PseudoLang

namespace Layout

/-! ## The stack -/

/-- The indentations of the open blocks and of the source itself, innermost first. -/
def stack (layout : Layout) : List (List Char) := layout.blocks ++ [[]]

/-- An indentation that begins with another one and goes on. -/
def Extends (inner outer : List Char) : Prop := outer <+: inner ∧ outer ≠ inner

instance (inner outer : List Char) : Decidable (Extends inner outer) :=
  inferInstanceAs (Decidable (_ ∧ _))

theorem Extends.trans {inner middle outer : List Char} (h : Extends inner middle)
    (ho : Extends middle outer) : Extends inner outer := by
  refine ⟨ho.1.trans h.1, ?_⟩
  rintro rfl
  exact h.2 (h.1.eq_of_length (Nat.le_antisymm h.1.length_le ho.1.length_le))

theorem Extends.not_prefix {inner outer : List Char} (h : Extends inner outer) :
    ¬ inner <+: outer := fun back =>
  h.2 (h.1.eq_of_length (Nat.le_antisymm h.1.length_le back.length_le))

theorem extends_nil {inner : List Char} (h : inner ≠ []) : Extends inner [] :=
  ⟨List.nil_prefix, h.symm⟩

instance : Trans Extends Extends Extends := ⟨Extends.trans⟩

/-- Every block is inside the ones around it. -/
def Nested (blocks : List (List Char)) : Prop := (blocks ++ [[]]).Pairwise Extends

theorem nested_nil : Nested [] := List.pairwise_singleton _ _

theorem nested_cons {block : List Char} {outer : List (List Char)} :
    Nested (block :: outer) ↔ (∀ other ∈ outer ++ [[]], Extends block other) ∧ Nested outer :=
  List.pairwise_cons

theorem Nested.drop {blocks : List (List Char)} (h : Nested blocks) (count : Nat) :
    Nested (blocks.drop count) := by
  by_cases inside : count ≤ blocks.length
  · have := List.Pairwise.drop (i := count) h
    rwa [List.drop_append_of_le_length inside] at this
  · rw [List.drop_eq_nil_of_le (by omega)]
    exact nested_nil

/-- What extends the innermost block extends every one. -/
theorem Nested.extend {blocks : List (List Char)} (h : Nested blocks) {indentation : List Char}
    (longer : Extends indentation (innermost blocks)) : Nested (indentation :: blocks) := by
  refine nested_cons.mpr ⟨?_, h⟩
  cases blocks with
  | nil => exact List.forall_mem_singleton.mpr longer
  | cons block outer =>
    refine List.forall_mem_cons.mpr ⟨longer, fun other member => ?_⟩
    exact longer.trans ((nested_cons.mp h).1 other member)

/-! ## Lines -/

variable {blocks : List (List Char)} {indentation : List Char} {closed : Bool}

/-- A line at an entry of the stack closes the blocks inside it. -/
theorem reindent_back (nested : Nested blocks) :
    ∀ {count : Nat} {closed : Bool}, (blocks ++ [[]])[count]? = some indentation →
      reindent indentation closed blocks =
        some (List.replicate count .dedent ++ [.newline], blocks.drop count) := by
  induction blocks with
  | nil =>
    intro count closed entry
    cases count with
    | zero =>
      obtain rfl : [] = indentation := by simpa using entry
      simp [reindent]
    | succ count => simp at entry
  | cons block outer ih =>
    intro count closed entry
    obtain ⟨inside, nested⟩ := nested_cons.mp nested
    cases count with
    | zero =>
      obtain rfl : block = indentation := by simpa using entry
      simp [reindent]
    | succ count =>
      have entry : (outer ++ [[]])[count]? = some indentation := by simpa using entry
      have longer := inside indentation (List.mem_of_getElem? entry)
      rw [reindent, if_neg longer.2.symm, if_neg longer.not_prefix, if_pos longer.1,
        ih nested entry]
      rfl

/-- A line that extends the innermost entry opens a block. -/
theorem reindent_extend (longer : Extends indentation (innermost blocks)) :
    reindent indentation false blocks = some ([.indent], indentation :: blocks) := by
  cases blocks with
  | nil =>
    have other : indentation ≠ [] := longer.2.symm
    simp [reindent, other]
  | cons block outer =>
    have longer : Extends indentation block := longer
    rw [reindent, if_neg longer.2, if_pos longer.1]
    rfl

/-- Once a block is closed, a line has to go back to an entry. -/
theorem reindent_closed (absent : indentation ∉ blocks ++ [[]]) :
    reindent indentation true blocks = none := by
  induction blocks with
  | nil => simpa [reindent] using absent
  | cons block outer ih =>
    obtain ⟨other, absent⟩ := not_or.mp (mt List.mem_cons.mpr absent)
    rw [reindent, if_neg (Ne.symm other), ih absent]
    split <;> simp

theorem reindent_eq_none (absent : indentation ∉ blocks ++ [[]])
    (apart : ¬ Extends indentation (innermost blocks)) :
    reindent indentation false blocks = none := by
  cases blocks with
  | nil => exact absurd (extends_nil (by simpa using absent)) apart
  | cons block outer =>
    obtain ⟨other, absent⟩ := not_or.mp (mt List.mem_cons.mpr absent)
    have front : ¬ block <+: indentation := fun front => apart ⟨front, Ne.symm other⟩
    rw [reindent, if_neg (Ne.symm other), if_neg front, reindent_closed absent]
    simp

/-! ## What is due before a token -/

variable {layout settled : Layout} {due : List Token.Kind}

theorem settle_back (nested : Nested layout.blocks) (pending : layout.pending = true) {count : Nat}
    (entry : layout.stack[count]? = some layout.blanks) :
    layout.settle = .ok (List.replicate count .dedent ++ [.newline],
      { layout with blocks := layout.blocks.drop count, pending := false, blanks := [] }) := by
  rw [settle, if_pos pending, reindent_back nested entry]

theorem settle_extend (pending : layout.pending = true)
    (longer : Extends layout.blanks (innermost layout.blocks)) :
    layout.settle = .ok ([.indent],
      { layout with
        blocks := layout.blanks :: layout.blocks, pending := false, blanks := [] }) := by
  rw [settle, if_pos pending, reindent_extend longer]

theorem settle_eq_error (pending : layout.pending = true) (absent : layout.blanks ∉ layout.stack)
    (apart : ¬ Extends layout.blanks (innermost layout.blocks)) :
    layout.settle = .error (.incompatibleDedent (String.ofList (innermost layout.blocks))
      (String.ofList layout.blanks)) := by
  rw [settle, if_pos pending, reindent_eq_none absent apart]

/-- There are no other ways. -/
theorem settle_cases (nested : Nested layout.blocks) (h : layout.settle = .ok (due, settled)) :
    (layout.pending = false ∧ due = [] ∧ settled = layout) ∨
    (layout.pending = true ∧ ∃ count, layout.stack[count]? = some layout.blanks ∧
      due = List.replicate count .dedent ++ [.newline] ∧
      settled =
        { layout with blocks := layout.blocks.drop count, pending := false, blanks := [] }) ∨
    (layout.pending = true ∧ Extends layout.blanks (innermost layout.blocks) ∧ due = [.indent] ∧
      settled = { layout with
        blocks := layout.blanks :: layout.blocks, pending := false, blanks := [] }) := by
  cases pending : layout.pending with
  | false =>
    rw [settle, pending] at h
    cases h
    exact .inl ⟨rfl, rfl, rfl⟩
  | true =>
    right
    by_cases entry : layout.blanks ∈ layout.stack
    · obtain ⟨count, entry⟩ := List.getElem?_of_mem entry
      rw [settle_back nested pending entry] at h
      cases h
      exact .inl ⟨rfl, count, entry, rfl, rfl⟩
    · by_cases longer : Extends layout.blanks (innermost layout.blocks)
      · rw [settle_extend pending longer] at h
        cases h
        exact .inr ⟨rfl, longer, rfl, rfl⟩
      · rw [settle_eq_error pending entry longer] at h
        cases h

/-- Everything that reading a lexeme can do to the layout. -/
theorem read_cases {lexeme : Lexeme} {next : Layout} (h : layout.read lexeme = .ok (due, next)) :
    (lexeme.form = .comment ∧ due = [] ∧ next = layout) ∨
    (lexeme.form = .lineBreak ∧ due = [] ∧
      next = { layout with pending := layout.brackets == 0, blanks := [] }) ∨
    (lexeme.form = .blank ∧ due = [] ∧ next = { layout with blanks := lexeme.text }) ∨
    ∃ kind value settled, lexeme.form = .content kind value ∧ layout.settle = .ok (due, settled) ∧
      next = { settled with brackets := countBracket settled.brackets kind value } := by
  unfold read at h
  split at h
  case h_1 form =>
    cases h
    exact .inl ⟨form, rfl, rfl⟩
  case h_2 form =>
    cases h
    exact .inr (.inl ⟨form, rfl, rfl⟩)
  case h_3 form =>
    cases h
    exact .inr (.inr (.inl ⟨form, rfl, rfl⟩))
  case h_4 kind value form =>
    obtain ⟨⟨due, settled⟩, same, h⟩ := bind_eq_ok.mp h
    cases h
    exact .inr (.inr (.inr ⟨kind, value, settled, form, same, rfl⟩))

end Layout

end PseudoLang
