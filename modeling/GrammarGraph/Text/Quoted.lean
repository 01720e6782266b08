/-! Quoted texts: one line, printable characters only. A text stands in single quotes,
or in double quotes if it holds a single quote and no double one. -/
namespace GrammarGraph.Text

/-- Inclusive ranges of code points in increasing order: the Unicode categories of control, format,
surrogate, private use and separator characters. Of these the plain space alone is shown as it is.
Code points without a category count as printable. -/
def hiddenRanges : List (Nat × Nat) := [
  (0x0000, 0x0020), (0x007f, 0x00a0), (0x00ad, 0x00ad), (0x0600, 0x0605), (0x061c, 0x061c),
  (0x06dd, 0x06dd), (0x070f, 0x070f), (0x0890, 0x0891), (0x08e2, 0x08e2), (0x1680, 0x1680),
  (0x180e, 0x180e), (0x2000, 0x200f), (0x2028, 0x202f), (0x205f, 0x2064), (0x2066, 0x206f),
  (0x3000, 0x3000), (0xd800, 0xf8ff), (0xfeff, 0xfeff), (0xfff9, 0xfffb), (0x110bd, 0x110bd),
  (0x110cd, 0x110cd), (0x13430, 0x1343f), (0x1bca0, 0x1bca3), (0x1d173, 0x1d17a),
  (0xe0001, 0xe0001), (0xe0020, 0xe007f), (0xf0000, 0xffffd), (0x100000, 0x10fffd)]

def isPrintable (c : Char) : Bool :=
  c == ' ' || !hiddenRanges.any fun (low, high) => low ≤ c.toNat && c.toNat ≤ high

/-- The code point in lower-case hexadecimal digits, with zeros in front up to `width`. -/
def hexadecimal (width : Nat) (c : Char) : List Char :=
  List.leftpad width '0' (Nat.toDigits 16 c.toNat)

def escape (quote c : Char) : List Char :=
  if c == '\\' || c == quote then ['\\', c]
  else if c == '\n' then ['\\', 'n']
  else if c == '\r' then ['\\', 'r']
  else if c == '\t' then ['\\', 't']
  else if isPrintable c then [c]
  else if c.toNat < 0x100 then '\\' :: 'x' :: hexadecimal 2 c
  else if c.toNat < 0x10000 then '\\' :: 'u' :: hexadecimal 4 c
  else '\\' :: 'U' :: hexadecimal 8 c

def quoteFor (s : List Char) : Char :=
  if s.contains '\'' && !s.contains '"' then '"' else '\''

def quoted (s : String) : String :=
  let quote := quoteFor s.toList
  String.ofList (quote :: s.toList.flatMap (escape quote) ++ [quote])

end GrammarGraph.Text
