import PortGraph.Text.Unprintable

/-!
A text inside quotation marks for a diagnostic. Line ends, tabs and the null character have short
escapes; what cannot be printed, and marks that would join the character before them, are given by
their number.
-/

namespace PortGraph.Text

def hexNatural (n : Nat) : List Char := (Nat.toDigits 16 n)

def escapedForDisplay (c : Char) : List Char :=
  match c with
  | '"' => ['\\', '"']
  | '\\' => ['\\', '\\']
  | '\n' => ['\\', 'n']
  | '\r' => ['\\', 'r']
  | '\t' => ['\\', 't']
  | '\x00' => ['\\', '0']
  | c =>
      if isUnprintable c then '\\' :: 'u' :: '\x7b' :: (hexNatural c.val.toNat ++ ['\x7d'])
      else [c]

def quoted (s : String) : String :=
  String.ofList ('"' :: (s.toList.flatMap escapedForDisplay ++ ['"']))

end PortGraph.Text
