import PseudoLang.Text.Bytes
import PseudoLang.Token.Layout

/-!
From source text to tokens. The source is read lexeme by lexeme; each token is preceded by the
layout tokens that the line break before it calls for, and an `eof` token ends the stream. The
first error ends the reading.
-/

namespace PseudoLang

open Text (byteCount)

namespace Token

/-- The text of a layout token. -/
def layoutValue : Kind → String
  | .newline => "\n"
  | _ => ""

/-- A token over the bytes of `file` from `start` to `stop`. -/
def spanning (file : String) (start stop : Nat) (kind : Kind) (value : String) : Token :=
  ⟨kind, value, ⟨start.toUInt32, file⟩, ⟨stop.toUInt32, file⟩⟩

/-- The tokens of a lexeme at `offset`: layout first, all of it without extent, then the lexeme
itself if it is not skipped. -/
def ofLexeme (file : String) (offset : Nat) (layout : List Kind) (lexeme : Lexeme) : List Token :=
  layout.map (fun kind => spanning file offset offset kind (layoutValue kind)) ++
    match lexeme.form with
    | .content kind value => [spanning file offset (offset + byteCount lexeme.text) kind value]
    | _ => []

end Token

/-- Reads tokens from the text at `offset`, after those that have been read. -/
def tokenizeFrom (vocabulary : Vocabulary) (file : String) (offset : Nat) (layout : Layout)
    (tokens : Array Token) (cs : List Char) : Except Error (Array Token) :=
  match cs with
  | [] => .ok (tokens.push (Token.spanning file offset offset .eof ""))
  | c :: tail =>
    match scanned : Lexeme.scan vocabulary (c :: tail) with
    | .error cause => .error ⟨cause, offset.toUInt32, file⟩
    | .ok (lexeme, rest) =>
      match layout.read lexeme with
      | .error cause => .error ⟨cause, offset.toUInt32, file⟩
      | .ok (kinds, next) =>
        have : rest.length < (c :: tail).length := Lexeme.length_lt_of_scan scanned
        tokenizeFrom vocabulary file (offset + byteCount lexeme.text) next
          (tokens ++ Token.ofLexeme file offset kinds lexeme) rest
termination_by cs.length
decreasing_by assumption

/-- The tokens of a source text. -/
def tokenize (source : String) (file : String := defaultFile)
    (vocabulary : Vocabulary := Vocabulary.language) : Except Error (Array Token) :=
  tokenizeFrom vocabulary file 0 .initial #[] source.toList

end PseudoLang
