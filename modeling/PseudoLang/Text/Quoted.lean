import PseudoLang.Text.Unprintable
import PseudoLang.Text.GraphemeExtend

/-!
Quoted text, as messages show it: between double quotes, with everything escaped that could be
mistaken for the quote itself or could not be seen.
-/

namespace PseudoLang.Text

/-- Whether a character would merge with the one before it. The two halfwidth sound marks of
katakana extend a grapheme as well, but they fill a place of their own. -/
def mergesLeft (c : Char) : Bool :=
  isGraphemeExtend c && c != '\uff9e' && c != '\uff9f'

/-- How one character is written between quotes. An apostrophe needs no escape there. -/
def escape (c : Char) : List Char :=
  match c with
  | '"' => ['\\', '"']
  | '\\' => ['\\', '\\']
  | '\n' => ['\\', 'n']
  | '\r' => ['\\', 'r']
  | '\t' => ['\\', 't']
  | '\x00' => ['\\', '0']
  | c =>
    if isPrintable c && !mergesLeft c then [c]
    else '\\' :: 'u' :: '{' :: Nat.toDigits 16 c.toNat ++ ['}']

/-- A text in double quotes. -/
def quoted (s : String) : String :=
  String.ofList ('"' :: s.toList.flatMap escape ++ ['"'])

/-- A list in brackets, its items separated by commas. -/
def bracketed (items : List String) : String :=
  "[" ++ ", ".intercalate items ++ "]"

/-- A list of quoted texts in brackets. -/
def quotedList (items : List String) : String := bracketed (items.map quoted)

end PseudoLang.Text
