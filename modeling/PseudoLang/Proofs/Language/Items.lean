import PseudoLang.Proofs.Grammar.Succession
import PseudoLang.Proofs.Grammar.Yield
import PseudoLang.Proofs.Language.Lossless
import PseudoLang.Proofs.Language.Rendering.Programs

/-!
The items of a file, read one after the other. Nothing is read past the token that an item ends
with, so that an item is the same whatever comes after it.
-/

namespace PseudoLang

open Grammar Grammar.Language Grammar.Parse

namespace Grammar.Parser

/-! ## Reading items -/

/-- Reads one item of a file. -/
def itemRound (p : Parser) : Round := moving (single (p.evaluateWithin (maxDepth - 2)) fileItem)

/-- Reads the items of a file one after the other. -/
def items (p : Parser) : Parse (Nat × List SyntaxTree) := p.repetition p.itemRound 0 []

end Grammar.Parser

/-- The context that the items of a file are read in. -/
def fileContext : Context := ⟨["file"], 2⟩

section

variable {tokens : Array Token} {file : String} {tree : SyntaxTree}

theorem parseRule_file (tokens : Array Token) (file : String) :
    (((languageParser tokens file).parseRule 0 "file").runFrom .initial).1 =
      match ((languageParser tokens file).items.runFrom fileContext).1 with
      | .ok (stop, trees) => .ok (some (stop, .seq trees))
      | .error halt => .error halt := by
  have same : (((languageParser tokens file).parseRule 0 "file").runFrom .initial).1 =
      (((languageParser tokens file).items >>= fun result =>
        (pure (some (result.1, .seq result.2)) : Parse Match)).runFrom fileContext).1 := rfl
  rw [same, runFrom_bind]
  obtain ⟨halt | result, after⟩ := (languageParser tokens file).items.runFrom fileContext
  · rfl
  · rfl

/-- The tree of a file is made of its items, which are read up to the end of the source. -/
theorem parse_eq_ok : parse tokens file = .ok tree ↔
    ∃ stop trees, ((languageParser tokens file).items.runFrom fileContext).1 = .ok (stop, trees) ∧
      tree = .seq trees ∧ ∀ token, tokens[stop]? = some token → token.kind = .eof := by
  unfold parse Parser.parseFile
  rw [parseRule_file]
  generalize ((languageParser tokens file).items.runFrom fileContext).1 = outcome
  cases outcome with
  | error halt => simp
  | ok result =>
    obtain ⟨stop, trees⟩ := result
    have tokens_eq : (languageParser tokens file).tokens = tokens := rfl
    simp only [Option.getD_some, tokens_eq]
    cases here : tokens[stop]? with
    | none =>
      constructor
      · rintro ⟨⟩
        exact ⟨stop, trees, rfl, rfl, by simp [here]⟩
      · rintro ⟨_, _, ⟨⟩, rfl, -⟩
        rfl
    | some token =>
      by_cases ends : token.kind = .eof
      · simp only [if_pos ends]
        constructor
        · rintro ⟨⟩
          refine ⟨stop, trees, rfl, rfl, fun other found => ?_⟩
          rw [here] at found
          cases found
          exact ends
        · rintro ⟨_, _, ⟨⟩, rfl, -⟩
          rfl
      · simp only [if_neg ends]
        constructor
        · rintro ⟨⟩
        · rintro ⟨_, _, ⟨⟩, rfl, stops⟩
          exact absurd (stops token here) ends

end

/-! ## What an item is made of -/

/-- The kinds of tokens that items end with. -/
def itemEnds : List String := ["end", "return"]

/-- Rules that match no end of an item. -/
abbrev WithinItem (rule : Rule) : Prop :=
  rule.avoids ["file", "start", "procedure"] itemEnds = true

theorem closed_withinItem : Closed table itemEnds WithinItem :=
  closed_avoids (by decide)

theorem closing_fileItem : Closing table WithinItem fileItem := by
  refine .choice (List.forall_mem_cons.mpr ⟨.reference rfl ?_, List.forall_mem_cons.mpr
    ⟨.reference rfl ?_, List.forall_mem_singleton.mpr (.token _ _)⟩⟩)
  · show Closing table WithinItem (.sequence ([token "start", rule "mainbody"] ++ [_]) none)
    exact .sequence (by decide) (.token _ _)
  · show Closing table WithinItem (.sequence ([token "name", _, rule "mainbody"] ++ [_]) none)
    exact .sequence (by decide) (.token _ _)

/-- An item ends with a token of its own, unless it is a line break. -/
theorem item_cases {n : Nat} {terminals : List Terminal} {tree : SyntaxTree}
    (h : Yields table (fun _ => True) n fileItem terminals tree) :
    (∃ front kind value, terminals = front ++ [(kind, value)] ∧ kind ∈ itemEnds) ∨
    ∃ value, terminals = [("newline", value)] ∧
      tree = .tagged "newline" (.token "newline" value) := by
  obtain ⟨tag, rule, tree, member, rfl, derived⟩ := h.choice
  simp only [List.mem_cons, List.not_mem_nil, or_false, Prod.mk.injEq] at member
  obtain ⟨rfl, rfl⟩ | ⟨rfl, rfl⟩ | ⟨rfl, rfl⟩ := member
  · obtain ⟨_, rfl, parts⟩ := (derived.body rfl).sequence
    obtain ⟨word, _, _, _, rfl, rfl, -, inside, _, _, _, rfl, rfl, -, _, _, _, _, rfl, rfl, last,
      rfl, rfl⟩ := parts
    obtain ⟨value, rfl, -⟩ := last.token
    exact .inl ⟨word ++ inside, "end", value, by simp, by decide⟩
  · obtain ⟨_, rfl, parts⟩ := (derived.body rfl).sequence
    obtain ⟨word, _, _, _, rfl, rfl, -, parameters, _, _, _, rfl, rfl, -, inside, _, _, _, rfl,
      rfl, -, _, _, _, _, rfl, rfl, last, rfl, rfl⟩ := parts
    obtain ⟨value, rfl, -⟩ := last.token
    exact .inl ⟨word ++ (parameters ++ inside), "return", value, by simp, by decide⟩
  · obtain ⟨value, rfl, rfl, -⟩ := derived.token
    exact .inr ⟨value, rfl, rfl⟩

/-! ## Streams of tokens that begin alike -/

/-- The first tokens of one stream are the tokens of another one before its end. -/
structure Begins (tokens all : Array Token) (count : Nat) : Prop where
  size : tokens.size = count + 1
  longer : tokens.size ≤ all.size
  agree : ∀ i < count, tokens[i]?.map Token.terminal = all[i]?.map Token.terminal
  stop : ∀ token, tokens[count]? = some token → token.typeName = endKind

section

variable {tokens all : Array Token} {file other : String} {count : Nat}

/-- A token that is not the end of the source is before it, in both streams. -/
theorem Begins.inside (h : Begins tokens all count) {i : Nat} {token : Token}
    (here : tokens[i]? = some token) (notEnd : token.typeName ≠ endKind) : i < count := by
  have bound : i < tokens.size := (Array.getElem?_eq_some_iff.mp here).1
  have size := h.size
  have apart : i ≠ count := by
    rintro rfl
    exact notEnd (h.stop token here)
  omega

/-- A line break is an item. -/
theorem returns_newline {position : Nat} {token : Token} (here : all[position]? = some token)
    (named : token.typeName = "newline") (room : Nat) :
    Returns (some (position + 1, .tagged "newline" (.token "newline" token.value)))
      ((languageParser all other).evaluateWithin (room + 4) position fileItem) := by
  have apart : ∀ kind ≠ "newline", ∀ found, (languageParser all other).tokens[position]? =
      some found → found.typeName ≠ kind := by
    intro kind different found same
    cases here.symm.trans same
    rw [named]
    exact different.symm
  have start : Returns none
      ((languageParser all other).evaluateWithin (room + 3) position (rule "start")) :=
    Parser.returns_reference rfl
      (Parser.returns_none_sequence (Parser.returns_none_token (apart "start" (by decide)) _) _)
  have procedure : Returns none
      ((languageParser all other).evaluateWithin (room + 3) position (rule "procedure")) :=
    Parser.returns_reference rfl
      (Parser.returns_none_sequence (Parser.returns_none_token (apart "name" (by decide)) _) _)
  have newline : Returns (some (position + 1, .token "newline" token.value))
      ((languageParser all other).evaluateWithin (room + 3) position (.token "newline" none)) :=
    Parser.returns_token here named none _
  have before : ∀ alternative ∈ [("start", rule "start"), ("procedure", rule "procedure")],
      Returns none
        ((languageParser all other).evaluateWithin (room + 3) position alternative.2) :=
    List.forall_mem_cons.mpr ⟨start, List.forall_mem_singleton.mpr procedure⟩
  exact Parser.returns_choice before newline [] none

/-- An item with a token of its own at its end. -/
theorem returns_ended (h : Begins tokens all count) {position next room : Nat} {context : Context}
    {front : List Terminal} {kind value : String} {tree : SyntaxTree}
    (spans : (languageParser tokens file).Spans position next (front ++ [(kind, value)]))
    (ends : kind ∈ itemEnds)
    (ran : (((languageParser tokens file).evaluateWithin room position fileItem).runFrom
      context).1 = .ok (some (next, tree))) :
    Returns (some (next, tree))
      ((languageParser all other).evaluateWithin room position fileItem) := by
  have last : tokens[position + front.length]?.map Token.terminal = some (kind, value) := by
    rw [← List.getElem?_concat_length]
    exact spans.getElem? (by simp)
  obtain ⟨token, here, same⟩ := Option.map_eq_some_iff.mp last
  have named : token.typeName = kind := congrArg Prod.fst same
  have notEnd : token.typeName ≠ endKind := by
    rintro named'
    rw [← named, named'] at ends
    exact absurd ends (by decide)
  have inside := h.inside here notEnd
  have aligned : (languageParser tokens file).Aligned .any itemEnds
      (fun i j => i = j ∧ i ≤ position + front.length) (languageParser all other) := by
    refine Parser.aligned_upTo rfl (fun i less => h.agree i (by omega)) ?_ h.longer
    intro other found
    cases here.symm.trans found
    rw [named]
    exact ends
  have simulates := Parser.simulates_closing aligned closed_withinItem closing_fileItem room room
    (Nat.le_refl _) position position ⟨rfl, by omega⟩
  refine simulates.returns ran ?_
  rintro _ (_ | ⟨⟨rfl, -⟩ | ⟨_, _, ⟨rfl, -⟩, rfl, rfl⟩⟩)
  · rfl
  · rfl

/-- An item is read in the longer stream as it is read in the shorter one. -/
theorem returns_item (h : Begins tokens all count) (position : Nat) :
    Ensures Parser.AnyHalt
      (fun result => ∀ next tree, result = some (next, tree) → position < next ∧
        Returns (some (next, tree))
          ((languageParser all other).evaluateWithin (maxDepth - 2) position fileItem))
      ((languageParser tokens file).evaluateWithin (maxDepth - 2) position fileItem) := by
  intro context
  have derived := Parser.derives_of_evaluateWithin (languageParser tokens file) (maxDepth - 2)
    position fileItem context
  cases ran : (((languageParser tokens file).evaluateWithin (maxDepth - 2) position
      fileItem).runFrom context).1 with
  | error halt => trivial
  | ok result =>
    rintro next tree rfl
    rw [ran] at derived
    obtain ⟨terminals, spans, derived⟩ := derived next tree rfl
    have length := spans.length
    have yields : Yields table (fun _ => True) maxDepth fileItem terminals tree :=
      ⟨maxDepth - 2, by decide, fun _ _ => trivial, derived⟩
    obtain ⟨front, kind, value, rfl, ends⟩ | ⟨value, rfl, rfl⟩ := item_cases yields
    · rw [List.length_append, List.length_singleton] at length
      exact ⟨by omega, returns_ended h spans ends ran⟩
    · rw [List.length_singleton] at length
      have only : tokens[position]?.map Token.terminal = some ("newline", value) :=
        spans.getElem? (show 0 < _ from Nat.zero_lt_one)
      obtain ⟨token, here, same⟩ := Option.map_eq_some_iff.mp only
      have notEnd : token.typeName ≠ endKind := by
        rw [show token.typeName = "newline" from congrArg Prod.fst same]
        decide
      rw [h.agree position (h.inside here notEnd)] at only
      obtain ⟨token, here, same⟩ := Option.map_eq_some_iff.mp only
      obtain ⟨named, rfl⟩ := Prod.mk.inj same
      rw [← length]
      exact ⟨Nat.lt_succ_self _, returns_newline here named _⟩

theorem returns_round {p : Parser} {position next : Nat} {tree : SyntaxTree}
    (forward : position < next)
    (h : Returns (some (next, tree)) (p.evaluateWithin (maxDepth - 2) position fileItem)) :
    Returns (some (next, [tree])) (p.itemRound position) := by
  have one : Returns (some (next, [tree]))
      (Parser.single (p.evaluateWithin (maxDepth - 2)) fileItem position) := h.bind (.pure _)
  have moves : next ≠ position := by omega
  refine one.bind ?_
  dsimp only
  rw [if_neg moves]
  exact .pure _

/-- The items of the shorter stream are items of the longer one. -/
theorem rounds_items (h : Begins tokens all count) (file other : String) :
    Ensures Parser.AnyHalt
      (fun result => Parser.Rounds (languageParser all other).itemRound 0 result.2 result.1)
      (languageParser tokens file).items := by
  have each (position : Nat) : Ensures Parser.AnyHalt
      (Parser.Repeats (languageParser all other).itemRound position)
      ((languageParser tokens file).itemRound position) := by
    have single : Ensures Parser.AnyHalt
        (Parser.Repeats (languageParser all other).itemRound position)
        (Parser.single ((languageParser tokens file).evaluateWithin (maxDepth - 2)) fileItem
          position) := by
      apply (returns_item h position).bind
      rintro (_ | ⟨next, tree⟩) item
      · exact .pure fun _ _ none => nomatch none
      · obtain ⟨forward, returns⟩ := item next tree rfl
        apply Ensures.pure
        rintro _ _ ⟨⟩
        exact ⟨forward, returns_round forward returns⟩
    apply single.bind
    rintro (_ | ⟨next, values⟩) repeats
    · exact .pure fun _ _ none => nomatch none
    · refine .pure fun _ _ same => ?_
      split at same
      · cases same
      · exact repeats _ _ same
  apply (Parser.rounds_of_iterate each _ 0 []).mono
  rintro ⟨stop, _⟩ ⟨trees, rfl, rounds⟩
  exact rounds

/-! ## Streams of tokens one after the other -/

/-- What is read from a stream is read from it after other tokens, too. -/
theorem returns_after {shift stop : Nat} {trees : List SyntaxTree} {context : Context}
    (agree : ∀ i, tokens[i]?.map Token.terminal = all[shift + i]?.map Token.terminal)
    (size : tokens.size + shift ≤ all.size)
    (ran : ((languageParser tokens file).items.runFrom context).1 = .ok (stop, trees))
    (before : List SyntaxTree) {rounds : Nat} (enough : tokens.size + 1 ≤ rounds) :
    Returns (shift + stop, before ++ trees)
      (Parser.iterate (languageParser all other).itemRound rounds shift before.reverse) := by
  have aligned : (languageParser tokens file).Aligned .any [] (fun i j => j = shift + i)
      (languageParser all other) := Parser.aligned_after rfl agree size
  have evaluates := Parser.simulates_evaluateWithin aligned (closed_true table) (maxDepth - 2)
    (maxDepth - 2) (Nat.le_refl _)
  have alike : Parser.RoundsAlike .any (fun i j => j = shift + i)
      (languageParser tokens file).itemRound (languageParser all other).itemRound :=
    (Parser.RoundsAlike.single evaluates trivial).moving aligned
  have simulates := Parser.simulates_iterate alike (.inl trivial) before _ rounds enough
    (.inl trivial) 0 shift rfl []
  refine simulates.returns ran ?_
  rintro ⟨_, _⟩ ⟨rfl, rfl⟩
  rfl

/-- Two streams with some items between them are read as one: the items of both, one after the
other. -/
theorem returns_items {first second all : Array Token} {file other third : String}
    {count shift stop : Nat} {trees gap more : List SyntaxTree} {context : Context}
    (begins : Begins first all count)
    (ran : ((languageParser first file).items.runFrom context).1 = .ok (count, trees))
    (between : Parser.Rounds (languageParser all third).itemRound count gap shift)
    (agree : ∀ i, second[i]?.map Token.terminal = all[shift + i]?.map Token.terminal)
    (size : second.size + shift = all.size)
    (ran' : ((languageParser second other).items.runFrom context).1 = .ok (stop, more)) :
    Returns (shift + stop, trees ++ gap ++ more) (languageParser all third).items := by
  have rounds := rounds_items begins file third context
  rw [ran] at rounds
  have long : (languageParser all third).tokens.size = second.size + shift := size.symm
  apply (rounds.append between).returns_iterate (second.size + 1) _ (by omega) []
  intro rounds enough
  rw [List.append_nil]
  exact returns_after agree (Nat.le_of_eq size) ran' _ enough

end

end PseudoLang
