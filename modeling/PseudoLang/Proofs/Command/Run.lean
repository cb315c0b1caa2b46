import Mathlib
import PseudoLang.Command.Run
import PseudoLang.Proofs.Command.Files
import PseudoLang.Proofs.Token.Stream

/-!
What a run of the command leaves behind. It ends in one of few ways (`Exit`), each of which comes
after the steps before it have been made and before any step after it. So a run prints all that it
was asked for or nothing, and writes only what it has (`run_whole`).
-/

namespace PseudoLang

open Grammar (Halt)

/-! ## Complaints -/

theorem Report.render_ne_empty (error : Error) (source file : String) :
    render error source file ≠ "" := by
  unfold render title
  split <;> simp

namespace Command

theorem line_ne_empty (text : String) : text ++ "\n" ≠ "" := by
  simp

theorem haltReport_ne_empty (halt : Halt) (source file : String) :
    haltReport halt source file ≠ "" := by
  cases halt with
  | error error => exact Report.render_ne_empty error source file
  | endless => simp [haltReport]

theorem listing_ne_empty {tokens : Array Token} (some : tokens ≠ #[]) : listing tokens ≠ "" := by
  unfold listing
  cases same : tokens.toList with
  | nil => exact absurd (Array.toList_eq_nil_iff.mp same) some
  | cons token rest =>
    rw [List.map_cons, String.join_cons, ne_eq, String.append_eq_empty_iff]
    exact fun empty => line_ne_empty _ empty.1

/-! ## Steps of a run -/

section

variable {σ α β : Type} {state : σ}

/-- What holds of the result of a step, and of the state after it. -/
def Leads (step : StateM σ α) (state : σ) (post : α → σ → Prop) : Prop :=
  post (step state).1 (step state).2

theorem Leads.pure {a : α} {post : α → σ → Prop} (h : post a state) :
    Leads (pure a) state post := h

theorem Leads.bind {step : StateM σ α} {next : α → StateM σ β} {between : α → σ → Prop}
    {post : β → σ → Prop} (h : Leads step state between)
    (hn : ∀ a after, between a after → Leads (next a) after post) :
    Leads (step >>= next) state post :=
  hn _ _ h

theorem Leads.mono {step : StateM σ α} {post post' : α → σ → Prop} (h : Leads step state post)
    (weaker : ∀ a after, post a after → post' a after) : Leads step state post' :=
  weaker _ _ h

end

/-! ## What the source stands for -/

namespace Options

variable (options : Options)

/-- The source in a file, if the file holds a text. -/
def sourceOf (bytes : ByteArray) : Option String :=
  (String.fromUTF8? bytes).map fun text =>
    if options.keepQuotes then text else Source.straightenQuotes text

/-- The tokens of the source in a file, if it has any. -/
def tokensOf (bytes : ByteArray) : Option (Array Token) := do
  let source ← options.sourceOf bytes
  (tokenize source (shownName options.file)).toOption

/-- The syntax tree of the source in a file, if it has one. -/
def treeOf (bytes : ByteArray) : Option SyntaxTree := do
  let tokens ← options.tokensOf bytes
  (parse tokens (shownName options.file)).toOption

end Options

/-! ## Ends of a run -/

section

variable {σ F : Type} (host : Host (StateM σ)) (options : Options)
  (content : σ → F → Option ByteArray)

/-- A text is written to a path, if there is one: the result, and the files before and after. -/
inductive Writes (text : String) :
    Option String → Except Fault Unit → (F → Option ByteArray) → (F → Option ByteArray) → Prop
  | unasked (files : F → Option ByteArray) : Writes text none (.ok ()) files files
  | asked (path : String) (state : σ) :
    Writes text (some path) (host.write path text state).1 (content state)
      (content (host.write path text state).2)

/-- How a run ends from the syntax tree on. -/
inductive TreeExit (tree : SyntaxTree) (before after : F → Option ByteArray) : Outcome → Prop
  | treeUnwritten {fault : Fault} {notes complaint : String} :
    Writes host content (tree.toJson.render options.compact) options.treePath (.error fault)
      before after →
    complaint ≠ "" → TreeExit tree before after (.failure notes complaint)
  | unread {cause : Cause} {notes complaint : String} :
    Writes host content (tree.toJson.render options.compact) options.treePath (.ok ())
      before after →
    Program.ofTree tree = .error cause →
    complaint ≠ "" → TreeExit tree before after (.failure notes complaint)
  | programUnwritten {between : F → Option ByteArray} {program : Program} {fault : Fault}
      {notes complaint : String} :
    Writes host content (tree.toJson.render options.compact) options.treePath (.ok ())
      before between →
    Program.ofTree tree = .ok program →
    Writes host content (program.toJson.render options.compact) options.programPath (.error fault)
      between after →
    complaint ≠ "" → TreeExit tree before after (.failure notes complaint)
  | printed {between : F → Option ByteArray} {program : Program} {notes : String} :
    Writes host content (tree.toJson.render options.compact) options.treePath (.ok ())
      before between →
    Program.ofTree tree = .ok program →
    Writes host content (program.toJson.render options.compact) options.programPath (.ok ())
      between after →
    TreeExit tree before after ⟨0, program.toJson.render options.compact ++ "\n", notes⟩

/-- How a run ends, after what comes of reading the file of the source. -/
inductive Exit (read : Except Fault ByteArray) (before after : F → Option ByteArray) :
    Outcome → Prop
  | failed {notes complaint : String} :
    after = before → complaint ≠ "" → Exit read before after (.failure notes complaint)
  | listed {bytes : ByteArray} {tokens : Array Token} {notes : String} :
    read = .ok bytes → options.tokensOf bytes = some tokens → options.tokens = true →
    after = before → tokens ≠ #[] → Exit read before after ⟨0, listing tokens, notes⟩
  | parsed {bytes : ByteArray} {tree : SyntaxTree} {outcome : Outcome} :
    read = .ok bytes → options.treeOf bytes = some tree → options.tokens = false →
    TreeExit host options content tree before after outcome → Exit read before after outcome

end

section

variable {σ F : Type} {host : Host (StateM σ)} {fileOf : String → F}
  (content : σ → F → Option ByteArray) (options : Options)

theorem leads_writeFile (path : Option String) (json : Json) (state : σ) :
    Leads (writeFile host options path json) state fun complaint after =>
      ∃ result, Writes host content (json.render options.compact) path result (content state)
          (content after) ∧
        match complaint with
        | none => result = .ok ()
        | some complaint => complaint ≠ "" ∧ ∃ fault, result = .error fault := by
  unfold writeFile
  cases path with
  | none => exact .pure ⟨.ok (), .unasked _, rfl⟩
  | some path =>
    have write : Leads (host.write path (json.render options.compact)) state fun result after =>
        Writes host content (json.render options.compact) (some path) result (content state)
          (content after) := Writes.asked path state
    refine write.bind fun result after written => ?_
    cases result with
    | ok _ => exact .pure ⟨.ok (), written, rfl⟩
    | error fault => exact .pure ⟨.error fault, written, line_ne_empty _, fault, rfl⟩

variable {content} (files : host.Files fileOf content)

include files

theorem leads_clock (state : σ) :
    Leads host.clock state fun _ after => content after = content state := files.clock state

theorem leads_note (label : String) (start : Nat) (state : σ) :
    Leads (note host options label start) state fun _ after => content after = content state := by
  unfold note
  split
  · exact (leads_clock files state).bind fun _ _ kept => .pure kept
  · exact .pure rfl

theorem leads_readFile (state : σ) : Leads (readFile host options) state fun result after =>
    content after = content state ∧ ∀ source, result = .ok source →
      ∃ bytes, (host.read options.file state).1 = .ok bytes ∧
        options.sourceOf bytes = some source := by
  have read : Leads (host.read options.file) state fun result after =>
      content after = content state ∧ result = (host.read options.file state).1 :=
    ⟨files.read options.file state, rfl⟩
  unfold readFile
  refine read.bind fun result after ⟨kept, same⟩ => ?_
  cases result with
  | error fault => exact .pure ⟨kept, nofun⟩
  | ok bytes =>
    dsimp only
    split
    · rename_i text decoded
      refine .pure ⟨kept, ?_⟩
      rintro source ⟨⟩
      exact ⟨bytes, same.symm, by rw [Options.sourceOf, decoded]; rfl⟩
    · exact .pure ⟨kept, nofun⟩

theorem leads_runTree (source : String) (start : Nat) (notes : String) (tree : SyntaxTree)
    (state : σ) : Leads (runTree host options source start notes tree) state fun outcome after =>
      TreeExit host options content tree (content state) (content after) outcome := by
  unfold runTree
  refine (leads_writeFile content options options.treePath tree.toJson state).bind
    fun complaint between ⟨result, written, met⟩ => ?_
  cases complaint with
  | some complaint =>
    obtain ⟨some, fault, rfl⟩ := met
    exact .pure (.treeUnwritten written some)
  | none =>
    obtain rfl := met
    -- Asking for the time leaves the files alone, so that each write starts from what the one before
    -- has left.
    refine (leads_clock files between).bind fun treeStart later kept => ?_
    rw [← kept] at written
    cases lowered : Program.ofTree tree with
    | error cause => exact .pure (.unread written lowered (Report.render_ne_empty _ _ _))
    | ok program =>
      refine (leads_note options files _ _ later).bind fun first after kept => ?_
      rw [← kept] at written
      refine (leads_note options files _ _ after).bind fun second last kept => ?_
      rw [← kept] at written
      refine (leads_writeFile content options options.programPath program.toJson last).bind
        fun complaint finish ⟨result, printed, met⟩ => ?_
      cases complaint with
      | some complaint =>
        obtain ⟨some, fault, rfl⟩ := met
        exact .pure (.programUnwritten written lowered printed some)
      | none =>
        obtain rfl := met
        exact .pure (.printed written lowered printed)

theorem leads_runSource {bytes : ByteArray} {source : String}
    (decoded : options.sourceOf bytes = some source) (state : σ) :
    Leads (runSource host options source) state fun outcome after =>
      Exit host options content (.ok bytes) (content state) (content after) outcome := by
  unfold runSource
  refine (leads_clock files state).bind fun start after kept => ?_
  cases tokenized : tokenize source (shownName options.file) with
  | error error => exact .pure (.failed kept (Report.render_ne_empty _ _ _))
  | ok tokens =>
    have tokensOf : options.tokensOf bytes = some tokens := by
      rw [Options.tokensOf, decoded]
      simp [tokenized, Except.toOption]
    refine (leads_note options files _ start after).bind fun notes later kept' => ?_
    rw [kept] at kept'
    by_cases list : options.tokens = true
    · rw [if_pos list]
      have some : tokens ≠ #[] := by
        rintro rfl
        obtain ⟨content, stop, same, -⟩ := tokenize_eq_ok tokenized
        simp at same
      exact .pure (.listed rfl tokensOf list kept' some)
    · rw [if_neg list]
      refine (leads_clock files later).bind fun parseStart after kept => ?_
      rw [kept'] at kept
      cases parsed : parse tokens (shownName options.file) with
      | error halt => exact .pure (.failed kept (haltReport_ne_empty _ _ _))
      | ok tree =>
        have treeOf : options.treeOf bytes = some tree := by
          rw [Options.treeOf, tokensOf]
          simp [parsed, Except.toOption]
        refine (leads_note options files _ parseStart after).bind fun more last kept' => ?_
        rw [kept] at kept'
        refine (leads_runTree options files _ _ _ tree last).mono fun outcome finish ended => ?_
        rw [kept'] at ended
        exact .parsed rfl treeOf (Bool.eq_false_iff.mpr list) ended

/-- A run ends in one of the ways that there are. -/
theorem leads_run (state : σ) : Leads (run host options) state fun outcome after =>
    Exit host options content (host.read options.file state).1 (content state) (content after)
      outcome := by
  unfold run
  refine (leads_readFile options files state).bind fun result between ⟨kept, found⟩ => ?_
  cases result with
  | error fault => exact .pure (.failed kept (line_ne_empty _))
  | ok source =>
    obtain ⟨bytes, read, decoded⟩ := found source rfl
    rw [read, ← kept]
    exact leads_runSource options files decoded between

end

/-! ## All or nothing -/

/-- Either the run has succeeded and printed something, or it has failed, printed nothing and told
why. -/
def Outcome.Clear (outcome : Outcome) : Prop :=
  outcome.code = 0 ∧ outcome.output ≠ "" ∨
  outcome.code = 1 ∧ outcome.output = "" ∧ outcome.notes ≠ ""

theorem Outcome.clear_failure {notes complaint : String} (some : complaint ≠ "") :
    (failure notes complaint).Clear := by
  refine .inr ⟨rfl, rfl, ?_⟩
  rw [failure, ne_eq, String.append_eq_empty_iff]
  exact fun empty => some empty.2

section

variable {σ F : Type} {host : Host (StateM σ)} {options : Options} {fileOf : String → F}
  {content : σ → F → Option ByteArray} {text : String} {path : Option String}
  {read : Except Fault ByteArray} {tree : SyntaxTree} {before after : F → Option ByteArray}
  {outcome : Outcome}

theorem TreeExit.clear (h : TreeExit host options content tree before after outcome) :
    outcome.Clear := by
  cases h with
  | treeUnwritten _ some => exact Outcome.clear_failure some
  | unread _ _ some => exact Outcome.clear_failure some
  | programUnwritten _ _ _ some => exact Outcome.clear_failure some
  | printed => exact .inl ⟨rfl, line_ne_empty _⟩

theorem Exit.clear (h : Exit host options content read before after outcome) : outcome.Clear := by
  cases h with
  | failed _ some => exact Outcome.clear_failure some
  | listed _ _ _ _ some => exact .inl ⟨rfl, listing_ne_empty some⟩
  | parsed _ _ _ ended => exact ended.clear

/-- Files change only where the source has a syntax tree and the tokens are not all that is asked
for. -/
theorem Exit.parsed_of_changed (h : Exit host options content read before after outcome)
    (changed : after ≠ before) : ∃ bytes tree, read = .ok bytes ∧ options.treeOf bytes = some tree ∧
      options.tokens = false ∧ TreeExit host options content tree before after outcome := by
  cases h with
  | failed same => exact absurd same changed
  | listed _ _ _ same => exact absurd same changed
  | parsed read found tokens ended => exact ⟨_, _, read, found, tokens, ended⟩

theorem Exit.printed_of_code (h : Exit host options content read before after outcome)
    (code : outcome.code = 0) (tokens : options.tokens = false) : ∃ bytes tree program between,
      read = .ok bytes ∧ options.treeOf bytes = some tree ∧ Program.ofTree tree = .ok program ∧
      outcome.output = program.toJson.render options.compact ++ "\n" ∧
      Writes host content (tree.toJson.render options.compact) options.treePath (.ok ())
        before between ∧
      Writes host content (program.toJson.render options.compact) options.programPath (.ok ())
        between after := by
  cases h with
  | failed => cases code
  | listed _ _ list =>
    rw [tokens] at list
    cases list
  | parsed read found _ ended =>
    cases ended with
    | treeUnwritten => cases code
    | unread => cases code
    | programUnwritten => cases code
    | printed written lowered printed =>
      exact ⟨_, _, _, _, read, found, lowered, rfl, written, printed⟩

section

variable (files : host.Files fileOf content)

include files

theorem Writes.others {result : Except Fault Unit}
    (h : Writes host content text path result before after) {file : F}
    (other : ∀ name ∈ path, file ≠ fileOf name) : after file = before file := by
  cases h with
  | unasked => rfl
  | asked name state => exact files.write_others name text state file (other name rfl)

theorem Writes.holds {result : Except Fault Unit}
    (h : Writes host content text path result before after) (ok : result = .ok ()) :
    ∀ name ∈ path, after (fileOf name) = some text.toUTF8 := by
  cases h with
  | unasked => exact nofun
  | asked name state =>
    rintro _ ⟨⟩
    exact files.write_ok name text state ok

/-- Of the files, only those that are asked for change. -/
theorem TreeExit.others (h : TreeExit host options content tree before after outcome) {file : F}
    (notTree : ∀ name ∈ options.treePath, file ≠ fileOf name)
    (notProgram : ∀ name ∈ options.programPath, file ≠ fileOf name) :
    after file = before file := by
  cases h with
  | treeUnwritten written => exact written.others files notTree
  | unread written => exact written.others files notTree
  | programUnwritten written _ printed =>
    exact (printed.others files notProgram).trans (written.others files notTree)
  | printed written _ printed =>
    exact (printed.others files notProgram).trans (written.others files notTree)

/-- Where the tree is not written, only a program and after the tree. -/
theorem TreeExit.program_of_changed
    (h : TreeExit host options content tree before after outcome) {file : F}
    (notTree : ∀ name ∈ options.treePath, file ≠ fileOf name)
    (changed : after file ≠ before file) : ∃ program between,
      Program.ofTree tree = .ok program ∧
      Writes host content (tree.toJson.render options.compact) options.treePath (.ok ())
        before between := by
  cases h with
  | treeUnwritten written => exact absurd (written.others files notTree) changed
  | unread written => exact absurd (written.others files notTree) changed
  | programUnwritten written lowered => exact ⟨_, _, lowered, written⟩
  | printed written lowered => exact ⟨_, _, lowered, written⟩

end

/-- A run fails and tells why, or prints all that it was asked for. It changes no file but those
that it was asked to write: that of the tree only if the source has a tree and more than the tokens
is asked for, and that of the program only if moreover the tree is written and stands for a program.
When it succeeds, the program is printed, and the files hold the program and the tree. -/
theorem run_whole (files : host.Files fileOf content) (options : Options) (start finish : σ)
    (outcome : Outcome) (ran : run host options start = (outcome, finish))
    (distinct : ∀ raw ∈ options.treePath, ∀ ast ∈ options.programPath, fileOf raw ≠ fileOf ast) :
    (outcome.code = 0 ∨ outcome.code = 1) ∧
    (outcome.code = 0 ↔ outcome.output ≠ "") ∧
    (outcome.code = 1 → outcome.output = "" ∧ outcome.notes ≠ "") ∧
    (∀ raw ∈ options.treePath, content finish (fileOf raw) ≠ content start (fileOf raw) →
      options.tokens = false ∧ ∃ bytes tree,
        (host.read options.file start).1 = .ok bytes ∧ options.treeOf bytes = some tree) ∧
    (∀ ast ∈ options.programPath, content finish (fileOf ast) ≠ content start (fileOf ast) →
      options.tokens = false ∧ ∃ bytes tree program between,
        (host.read options.file start).1 = .ok bytes ∧ options.treeOf bytes = some tree ∧
        Program.ofTree tree = .ok program ∧
        Writes host content (tree.toJson.render options.compact) options.treePath (.ok ())
          (content start) between) ∧
    (∀ file, (∀ raw ∈ options.treePath, file ≠ fileOf raw) →
      (∀ ast ∈ options.programPath, file ≠ fileOf ast) →
      content finish file = content start file) ∧
    (outcome.code = 0 → options.tokens = false → ∃ bytes tree program,
      (host.read options.file start).1 = .ok bytes ∧ options.treeOf bytes = some tree ∧
      Program.ofTree tree = .ok program ∧
      outcome.output = program.toJson.render options.compact ++ "\n" ∧
      (∀ ast ∈ options.programPath,
        content finish (fileOf ast) = some (program.toJson.render options.compact).toUTF8) ∧
      ∀ raw ∈ options.treePath,
        content finish (fileOf raw) = some (tree.toJson.render options.compact).toUTF8) := by
  have ended := leads_run options files start
  rw [Leads, ran] at ended
  dsimp only at ended
  refine ⟨?_, ?_, ?_, ?_, ?_, ?_, ?_⟩
  · obtain ⟨code, -⟩ | ⟨code, -⟩ := ended.clear
    · exact .inl code
    · exact .inr code
  · obtain ⟨code, output⟩ | ⟨code, output, -⟩ := ended.clear
    · simp [code, output]
    · simp [code, output]
  · intro code
    obtain ⟨other, -⟩ | ⟨-, told⟩ := ended.clear
    · rw [code] at other
      cases other
    · exact told
  · intro raw _ changed
    obtain ⟨bytes, tree, read, found, tokens, -⟩ :=
      ended.parsed_of_changed fun same => changed (congrFun same _)
    exact ⟨tokens, bytes, tree, read, found⟩
  · intro ast asked changed
    obtain ⟨bytes, tree, read, found, tokens, ended⟩ :=
      ended.parsed_of_changed fun same => changed (congrFun same _)
    obtain ⟨program, between, lowered, written⟩ := ended.program_of_changed files
      (fun raw also => (distinct raw also ast asked).symm) changed
    exact ⟨tokens, bytes, tree, program, between, read, found, lowered, written⟩
  · intro file notTree notProgram
    by_contra changed
    obtain ⟨_, _, -, -, -, ended⟩ :=
      ended.parsed_of_changed fun same => changed (congrFun same _)
    exact changed (ended.others files notTree notProgram)
  · intro code tokens
    obtain ⟨bytes, tree, program, between, read, found, lowered, output, written, printed⟩ :=
      ended.printed_of_code code tokens
    refine ⟨bytes, tree, program, read, found, lowered, output, printed.holds files rfl, ?_⟩
    -- the program is written after the tree, but to another file
    intro raw asked
    rw [printed.others files (distinct raw asked)]
    exact written.holds files rfl raw asked

end

/-- A directory with an empty source. -/
def blankDirectory : Directory := Directory.empty.add "s" "".toUTF8

def blankOptions : Options where
  file := "s"
  compact := true
  treePath := some "t"
  programPath := some "p"

theorem run_whole_blank : ∃ outcome finish tree program,
    run Directory.host blankOptions blankDirectory = (outcome, finish) ∧ outcome.code = 0 ∧
    Program.ofTree tree = .ok program ∧
    outcome.output = program.toJson.render true ++ "\n" ∧
    finish.file? (Directory.placeOf "p") = some (program.toJson.render true).toUTF8 ∧
    finish.file? (Directory.placeOf "t") = some (tree.toJson.render true).toUTF8 := by
  have raw : Directory.placeOf "t" = ["t"] := by cbv
  have ast : Directory.placeOf "p" = ["p"] := by cbv
  have distinct : ∀ raw ∈ blankOptions.treePath, ∀ ast ∈ blankOptions.programPath,
      Directory.placeOf raw ≠ Directory.placeOf ast := by
    rintro _ ⟨⟩ _ ⟨⟩
    rw [raw, ast]
    decide
  have code : (run Directory.host blankOptions blankDirectory).1.code = 0 := by cbv
  have whole := run_whole Directory.host_files blankOptions blankDirectory _ _ rfl distinct
  obtain ⟨_, tree, program, -, -, lowered, output, printed, written⟩ :=
    whole.2.2.2.2.2.2 code rfl
  exact ⟨_, _, tree, program, rfl, code, lowered, output, printed "p" rfl, written "t" rfl⟩

end Command

end PseudoLang
