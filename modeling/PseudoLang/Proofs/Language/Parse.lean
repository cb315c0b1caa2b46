import PseudoLang.FrontEnd
import PseudoLang.Proofs.Grammar.Depth
import PseudoLang.Proofs.Language.Reading

/-!
What is known of a stream of tokens that parses: its tree is derived from the tokens before the
end of the source, and reading the tree fails for nothing but a number.
-/

namespace PseudoLang

open Grammar Grammar.Language

variable {tokens : Array Token} {file : String} {tree : SyntaxTree}

/-- The whole room is there for the first rule. -/
theorem parseRule_initial (p : Parser) (name : String) :
    (p.parseRule 0 name).runFrom .initial =
      (p.evaluateWithin maxDepth 0 (.reference name)).runFrom .initial := rfl

/-- A program is read in three stages. -/
theorem readSource_eq_ok {source : String} {program : Program} :
    readSource source file = .ok program ↔ ∃ tokens tree, tokenize source file = .ok tokens ∧
      parse tokens file = .ok tree ∧ Program.ofTree tree = .ok program := by
  simp only [readSource, readTokens, bind_eq_ok, mapError_eq_ok]
  exact exists_congr fun tokens => exists_and_left.symm

theorem derives_file_nil : Derives table maxDepth (rule "file") [] (.seq []) :=
  ⟨_, _, rfl, _, rfl, .nil⟩

/-- The tree of a stream of tokens is derived from those before the place where the parse stops,
which is the end of the source. -/
theorem derives_of_parse (h : parse tokens file = .ok tree) :
    ∃ stop terminals, (languageParser tokens file).Spans 0 stop terminals ∧
      Derives table maxDepth (rule "file") terminals tree ∧
      ∀ token, tokens[stop]? = some token → token.kind = .eof := by
  have evaluates := Parser.derives_of_evaluateWithin (languageParser tokens file) maxDepth 0
    (rule "file")
  unfold parse Parser.parseFile at h
  rw [parseRule_initial] at h
  generalize run : Parse.runFrom _ _ = outcome at h
  obtain ⟨halt | result, after⟩ := outcome
  · cases h
  have derived := evaluates.of_ok run
  have matched : ∃ terminals,
      (languageParser tokens file).Spans 0 (result.getD (0, .seq [])).1 terminals ∧
      Derives table maxDepth (rule "file") terminals (result.getD (0, .seq [])).2 := by
    cases result with
    | none => exact ⟨[], .refl 0, derives_file_nil⟩
    | some result => exact derived result.1 result.2 rfl
  obtain ⟨terminals, spans, derived⟩ := matched
  dsimp only at h
  split at h
  · rename_i token present
    split at h
    · rename_i ends
      cases h
      refine ⟨_, terminals, spans, derived, ?_⟩
      intro other ho
      cases present.symm.trans ho
      exact ends
    · cases h
  · rename_i absent
    cases h
    refine ⟨_, terminals, spans, derived, ?_⟩
    intro other ho
    cases absent.symm.trans ho

/-- Reading accepts every tree that parsing gives, but for a number that stands for none: no tree
is too deep and none has an unexpected form. -/
theorem ofTree_of_parse (h : parse tokens file = .ok tree) :
    tree.depth ≤ Program.maxTreeDepth ∧
    ((∃ program, Program.ofTree tree = .ok program) ∨
      ∃ text, ∃ leaf : SyntaxTree, leaf.Within tree ∧ leaf.Unreadable text ∧
        Program.ofTree tree = .error (.numberParseError text)) := by
  obtain ⟨stop, terminals, -, derived, -⟩ := derives_of_parse h
  have shallow : tree.depth ≤ Program.maxTreeDepth := by
    rw [SyntaxTree.depth_eq_height]
    exact height_le_of_derives derived
  have shaped : Of (fun _ => True) (maxDepth + 1) "file" tree :=
    ⟨maxDepth, terminals, Nat.lt_succ_self _, fun _ _ => trivial, derived⟩
  refine ⟨shallow, ?_⟩
  obtain read | ⟨terminal, -, -, ⟨leaf, within, unreadable⟩, failed⟩ :=
    (readable_file shaped shallow).ok_or_unreadable
  · exact .inl read
  · exact .inr ⟨terminal.2, leaf, within, unreadable, failed⟩

/-- A call with a number that is too large, alone in an entry. -/
def farCall : Array Token :=
  #[(.keyword, "start"), (.indent, ""), (.name, "f"), (.symbol, "("),
    (.number, "9223372036854775808"), (.symbol, ")"), (.dedent, ""), (.newline, "\n"),
    (.keyword, "end"), (.eof, "")].map fun (kind, value) => .spanning defaultFile 0 0 kind value

theorem ofTree_of_parse_farCall : ∃ tree, parse farCall = .ok tree ∧
    tree.depth ≤ Program.maxTreeDepth ∧
    ((∃ program, Program.ofTree tree = .ok program) ∨
      ∃ text, ∃ leaf : SyntaxTree, leaf.Within tree ∧ leaf.Unreadable text ∧
        Program.ofTree tree = .error (.numberParseError text)) := by
  have parses : (parse farCall).isOk = true := by decide +kernel
  cases h : parse farCall with
  | error halt =>
    rw [h] at parses
    cases parses
  | ok tree => exact ⟨tree, rfl, ofTree_of_parse h⟩

end PseudoLang
