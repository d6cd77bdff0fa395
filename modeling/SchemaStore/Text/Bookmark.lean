import SchemaStore.Number.Power
import SchemaStore.Text.Lines

/-!
Bookmarks: places in a text file, each kept as one number.  For nearly all places the number is
the byte at which reading goes on.  Its higher digits, in base two, hold what else a reader of
text has to know to go on in the middle of a piece, and every number below the bound is a
bookmark, whether some reader left it there or not.
-/

namespace SchemaStore

structure Bookmark where
  /-- The byte at which reading goes on. -/
  start : Int
  /-- The character before was a carriage return, and a line feed may still belong to it. -/
  isAfterReturn : Bool
  /-- How many bytes are read at once to find the place in them; -1 stands for all. -/
  fed : Int
  /-- How many of the characters in these bytes lie before the place. -/
  skipped : Int
  /-- These bytes are to be read as the last of the file. -/
  isAtEnd : Bool
deriving DecidableEq, Repr

inductive BookmarkFault where
  | tooGreat
  /-- It starts where no file has a byte. -/
  | outOfReach
  | negativeLength
  | malformed (fault : Utf8.Fault)
  | tooFewCharacters

namespace Bookmark

/-- The number that the lowest `width` binary digits of `n` stand for when the highest of them is
a sign. -/
def signed (width n : Nat) : Int :=
  let low := n % Power.two width
  if low < Power.two (width - 1) then low else (low : Int) - Power.two width

/-- The bookmark that a number is, if it is one. -/
def ofNat? (n : Nat) : Option Bookmark :=
  if Power.two 168 ≤ n then none
  else some
    { start := signed 64 n
      isAfterReturn := n / Power.two 64 % 2 == 1
      fed := signed 32 (n / Power.two 96)
      skipped := signed 32 (n / Power.two 128)
      isAtEnd := n / Power.two 160 != 0 }

/-- The farthest place in a file: a file has fewer than 2 ^ 32 blocks of 4096 bytes. -/
def farthest : Int := (Power.two 32 - 1) * 4096

/-- What is to be read from a bookmark on: characters that are at hand, and bytes. -/
structure Remainder where
  characters : List Char
  bytes : Utf8.Bytes

/-- The characters in the bytes that are read at once, and how many of these bytes they take.
Bytes of an unfinished character are left for the next piece, unless there is none. -/
def decodeFed (b : Bookmark) (bytes : Utf8.Bytes) :
    Except BookmarkFault (List Char × Nat) :=
  match Utf8.decodeFrom 0 bytes with
  | (cs, none) => .ok (cs, bytes.length)
  | (cs, some fault) =>
    if fault.shownAt = bytes.length ∧ !b.isAtEnd then .ok (cs, fault.start)
    else .error (.malformed fault)

/-- What a file holds from a bookmark on.  A carriage return at the end of what was read waits for
the character after it, and lines end in one way only before characters are counted. -/
def remainder (b : Bookmark) (content : Utf8.Bytes) : Except BookmarkFault Remainder := do
  if b.start < 0 ∨ farthest < b.start then throw .outOfReach
  let bytes := content.drop b.start.toNat
  let before := if b.isAfterReturn then ['\r'] else []
  if b.skipped = 0 then .ok { characters := before, bytes := bytes }
  else
    if b.fed < -1 then throw .negativeLength
    let (cs, used) ← b.decodeFed (if b.fed < 0 then bytes else bytes.take b.fed.toNat)
    let cs := before ++ cs
    let waits := !b.isAtEnd && cs.getLast? == some '\r'
    let counted := Text.unifyBreaks (if waits then cs.dropLast else cs)
    if counted.length < b.skipped then throw .tooFewCharacters
    .ok
      { characters := counted.drop b.skipped.toNat ++ (if waits then ['\r'] else [])
        bytes := bytes.drop used }

/-- What a file holds from a numbered place on.  A number within the file counts its bytes; only
beyond its end do the higher digits of the number say more. -/
def openAt (n : Nat) (content : Utf8.Bytes) : Except BookmarkFault Remainder :=
  if n ≤ content.length then .ok { characters := [], bytes := content.drop n }
  else
    match ofNat? n with
    | none => .error .tooGreat
    | some b => b.remainder content

theorem openAt_of_le {n : Nat} {content : Utf8.Bytes} (h : n ≤ content.length) :
    openAt n content = .ok { characters := [], bytes := content.drop n } := by
  simp [openAt, h]

end Bookmark
end SchemaStore
