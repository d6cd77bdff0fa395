import SchemaStore.Text.Printable

/-!
Text in quotation marks, as documents and error messages show it.  Single marks are used unless
the text holds a single mark and no double one.  What cannot be shown as it is stands as an
escape with the fewest hexadecimal digits that fit its code point: two, four or eight.
-/

namespace SchemaStore
namespace Text

/-- The hexadecimal digits of a number, with zeros in front up to a width. -/
def hex (width n : Nat) : List Char :=
  let ds := Nat.toDigits 16 n
  List.replicate (width - ds.length) '0' ++ ds

def padded (width n : Nat) : List Char :=
  let ds := Nat.toDigits 10 n
  List.replicate (width - ds.length) '0' ++ ds

/-- The mark to put around a text with these characters. -/
def quotationMark (cs : List Char) : Char :=
  if cs.contains '\x27' && !cs.contains '"' then '"' else '\x27'

/-- A character inside quotation marks. -/
def quotedChar (mark c : Char) : List Char :=
  if c = mark ∨ c = '\\' then ['\\', c]
  else if c = '\t' then ['\\', 't']
  else if c = '\n' then ['\\', 'n']
  else if c = '\r' then ['\\', 'r']
  else if isPrintable c then [c]
  else if c.toNat ≤ 0xff then '\\' :: 'x' :: hex 2 c.toNat
  else if c.toNat ≤ 0xffff then '\\' :: 'u' :: hex 4 c.toNat
  else '\\' :: 'U' :: hex 8 c.toNat

def quoted (s : String) : String :=
  let cs := s.toList
  let mark := quotationMark cs
  String.ofList (mark :: (cs.flatMap (quotedChar mark) ++ [mark]))

/-- A run of bytes in quotation marks.  Printable ASCII stands for itself and any other byte is
written as an escape. -/
def quotedBytes (bytes : List UInt8) : String :=
  let cs := bytes.map fun b => Char.ofNat b.toNat
  let mark := quotationMark cs
  let body := cs.flatMap fun c =>
    if 0x7f ≤ c.toNat then '\\' :: 'x' :: hex 2 c.toNat else quotedChar mark c
  String.ofList ('b' :: mark :: (body ++ [mark]))

end Text
end SchemaStore
