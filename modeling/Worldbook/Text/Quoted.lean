/-!
# Quoted text

A string between double quotes. The quote, the backslash and five control characters have short
escapes; which other characters are escaped by their code point is for the format to say.
-/

namespace Worldbook.Quoted

def unicodeEscape (c : Char) : List Char :=
  let digits := Nat.toDigits 16 c.toNat
  '\\' :: 'u' :: (List.replicate (4 - digits.length) '0' ++ digits)

def escape (isControl : Char → Bool) (c : Char) : List Char :=
  match c with
  | '"' => ['\\', '"']
  | '\\' => ['\\', '\\']
  | '\n' => ['\\', 'n']
  | '\r' => ['\\', 'r']
  | '\t' => ['\\', 't']
  | '\x08' => ['\\', 'b']
  | '\x0c' => ['\\', 'f']
  | c => if isControl c then unicodeEscape c else [c]

def encode (isControl : Char → Bool) (cs : List Char) : List Char :=
  '"' :: cs.flatMap (escape isControl) ++ ['"']

end Worldbook.Quoted
