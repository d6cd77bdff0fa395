import SchemaStore.Text.Utf8

/-!
The lines of stored text.  A line feed, a carriage return, and the two together each end a line.
-/

namespace SchemaStore
namespace Text

/-- The text with every line ending written as one line feed. -/
def unifyBreaks : List Char → List Char
  | [] => []
  | '\r' :: '\n' :: rest => '\n' :: unifyBreaks rest
  | '\r' :: rest => '\n' :: unifyBreaks rest
  | c :: rest => c :: unifyBreaks rest

/-- The lines that are ended, without their endings, and what follows the last of them. -/
def splitLines : List Char → List (List Char) × List Char
  | [] => ([], [])
  | '\n' :: rest =>
    let (ls, tail) := splitLines rest
    ([] :: ls, tail)
  | '\r' :: '\n' :: rest =>
    let (ls, tail) := splitLines rest
    ([] :: ls, tail)
  | '\r' :: rest =>
    let (ls, tail) := splitLines rest
    ([] :: ls, tail)
  | c :: rest =>
    match splitLines rest with
    | (l :: ls, tail) => ((c :: l) :: ls, tail)
    | ([], tail) => ([], c :: tail)

/-- All lines of a text.  A last line without an ending counts when it is not empty. -/
def lines (cs : List Char) : List (List Char) :=
  let (ls, tail) := splitLines cs
  if tail.isEmpty then ls else ls ++ [tail]

/-- The lines that can be read before the first fault, and the fault: characters that are at hand
come first, and then those that bytes of a file encode.  A line that the fault cuts short is not
among them; nor is one whose ending is a carriage return that no character follows yet, since a
line feed might belong to it. -/
def storedLines (atHand : List Char) (bytes : Utf8.Bytes) :
    List (List Char) × Option Utf8.Fault :=
  match Utf8.decodeInPieces bytes with
  | (cs, none) => (lines (atHand ++ cs), none)
  | (cs, some fault) =>
    let cs := atHand ++ cs
    let read := if cs.getLast? = some '\r' then cs.dropLast else cs
    ((splitLines read).1, some fault)

example : lines "a\r\nb\n\rc".toList = ["a".toList, "b".toList, [], "c".toList] := by decide

end Text
end SchemaStore
