import PseudoLang.Proofs.Number.Reading
import PseudoLang.Proofs.Token.Writing

/-!
The tokens of numbers. An integer is written with digits and a floating-point number with digits
and a point (`numberText_of_tokenize`), so that the former stands for an integer, which may be too
large, and the latter always for a floating-point number.
-/

namespace PseudoLang

open Text (isDigit)

/-- The texts of numbers. -/
structure NumberText (kind : Token.Kind) (value : String) : Prop where
  number : kind = .number → value.toList ≠ [] ∧ ∀ c ∈ value.toList, isDigit c = true
  float : kind = .float → ∃ whole decimals,
    value = String.ofList (whole ++ '.' :: decimals) ∧ (whole ≠ [] ∨ decimals ≠ []) ∧
    (∀ c ∈ whole, isDigit c = true) ∧ ∀ c ∈ decimals, isDigit c = true

/-- What is no number may have any text. -/
theorem numberText_of_ne {kind : Token.Kind} (number : kind ≠ .number) (float : kind ≠ .float)
    (value : String) : NumberText kind value :=
  ⟨fun same => absurd same number, fun same => absurd same float⟩

theorem Writing.numberText {vocabulary : Vocabulary} {kind : Token.Kind} {value : String}
    {text : List Char} (h : Writing vocabulary kind value text) : NumberText kind value := by
  cases h with
  | word =>
    have word_kind := classify_mem vocabulary (String.ofList text)
    exact numberText_of_ne (ne_of_mem_of_not_mem word_kind (by decide))
      (ne_of_mem_of_not_mem word_kind (by decide)) _
  | number number =>
    cases number with
    | whole some digits =>
      have point : '.' ∉ text := fun member => absurd (digits _ member) (by decide)
      rw [if_neg point]
      refine ⟨fun _ => ?_, nofun⟩
      rw [String.toList_ofList]
      exact ⟨some, digits⟩
    | @pointed whole decimals some hw hd =>
      rw [if_pos (by simp)]
      exact ⟨nofun, fun _ => ⟨whole, decimals, rfl, some, hw, hd⟩⟩
  | literal parts => exact numberText_of_ne (by decide) (by decide) _
  | punctuation member =>
    have kinds : ∀ entry ∈ Lexeme.punctuation, entry.2 ≠ .number ∧ entry.2 ≠ .float := by decide
    exact numberText_of_ne (kinds _ member).1 (kinds _ member).2 _

/-- A token with a text that is written for it, if it is neither layout nor the end of a source. -/
def Token.HasWriting (vocabulary : Vocabulary) (token : Token) : Prop :=
  token.kind ∈ .eof :: Layout.kinds ∨ ∃ text, Writing vocabulary token.kind token.value text

namespace Lexing

variable {vocabulary : Vocabulary} {file : String} {state : Lexing} {tokens : Array Token}

theorem writing_of_finish (h : state.finish vocabulary file = .ok tokens)
    (before : ∀ token ∈ state.tokens, token.HasWriting vocabulary) :
    ∀ token ∈ tokens, token.HasWriting vocabulary := by
  revert before
  refine induction_of_finish (motive := fun state =>
    (∀ token ∈ state.tokens, token.HasWriting vocabulary) →
      ∀ token ∈ tokens, token.HasWriting vocabulary) ?_ ?_ h
  · rintro state - rfl before token member
    obtain member | rfl := Array.mem_push.mp member
    · exact before token member
    · exact .inl List.mem_cons_self
  · intro state next taken ih before
    obtain ⟨lexeme, rest, due, layout, scanned, read, rfl⟩ := step_eq_ok.mp taken
    refine ih fun token member => ?_
    rw [← Array.mem_toList_iff, Array.toList_appendList, List.mem_append,
      Array.mem_toList_iff] at member
    obtain member | member := member
    · exact before token member
    · obtain layout | content := List.mem_append.mp member
      · obtain ⟨kind, due_kind, rfl⟩ := List.mem_map.mp layout
        exact .inl (List.mem_cons_of_mem _ (Layout.kinds_of_read read kind due_kind))
      · split at content
        · rename_i kind value form
          rw [List.mem_singleton.mp content]
          exact .inr ⟨_, Lexeme.writing_of_scan scanned form⟩
        · cases content

end Lexing

theorem numberText_of_tokenize {vocabulary : Vocabulary} {source file : String}
    {tokens : Array Token} (h : tokenize source file vocabulary = .ok tokens) :
    ∀ token ∈ tokens, NumberText token.kind token.value := by
  intro token member
  obtain layout | ⟨text, writing⟩ := @Lexing.writing_of_finish vocabulary file (.start source)
    tokens h (by simp [Lexing.start]) token member
  · exact numberText_of_ne (ne_of_mem_of_not_mem layout (by decide))
      (ne_of_mem_of_not_mem layout (by decide)) _
  · exact writing.numberText

end PseudoLang
