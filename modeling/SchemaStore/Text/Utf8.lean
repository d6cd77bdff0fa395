/-!
UTF-8.  `Utf8.decode` reads a whole run of bytes and, where it is not well formed, says which
byte sequence is at fault and why.  A fault also names the byte at which it shows, because a
file that is read piece by piece reports a fault only with the piece that holds that byte.
-/

namespace SchemaStore
namespace Utf8

abbrev Bytes := List UInt8

inductive Reason where
  | invalidStart
  | invalidContinuation
  | unexpectedEnd
deriving DecidableEq, Repr

def Reason.text : Reason → String
  | invalidStart => "invalid start byte"
  | invalidContinuation => "invalid continuation byte"
  | unexpectedEnd => "unexpected end of data"

/-- A run of bytes that encodes no character. -/
structure Fault where
  /-- Where the run starts. -/
  start : Nat
  /-- Its length, not counting the byte that breaks it off. -/
  length : Nat
  first : UInt8
  reason : Reason
  /-- The position at which the fault shows: the byte that breaks the run off, or the end.  Two
  bytes that start a surrogate show only with what follows them. -/
  shownAt : Nat
deriving DecidableEq, Repr

def encode (cs : List Char) : Bytes := cs.flatMap String.utf8EncodeChar

def ofString (s : String) : Bytes := encode s.toList

/-- A continuation byte. -/
def isTail (b : UInt8) : Bool := 0x80 ≤ b && b ≤ 0xbf

/-- The bytes that may follow the first byte of a long sequence.  They leave out the encodings
of surrogates, of what a shorter sequence encodes, and of what lies beyond the last character. -/
def isSecond (first second : UInt8) : Bool :=
  let low : UInt8 := if first = 0xe0 then 0xa0 else if first = 0xf0 then 0x90 else 0x80
  let high : UInt8 := if first = 0xed then 0x9f else if first = 0xf4 then 0x8f else 0xbf
  low ≤ second && second ≤ high

/-- Two bytes start the encoding of a surrogate, which is no character. -/
def startsSurrogate (first second : UInt8) : Bool := first == 0xed && 0xa0 ≤ second && isTail second

/-- The character whose leading byte carries `lead` and whose continuation bytes are `tail`. -/
def assemble (lead : Nat) (tail : List UInt8) : Char :=
  Char.ofNat (tail.foldl (fun n b => n * 64 + (b.toNat - 0x80)) lead)

/-- The characters before the first fault, and the fault if there is one.  `position` is the
place of the first byte given. -/
def decodeFrom (position : Nat) : Bytes → List Char × Option Fault
  | [] => ([], none)
  | a :: rest =>
    let fault (length : Nat) (reason : Reason) (shown : Nat) : List Char × Option Fault :=
      ([], some { start := position, length := length, first := a, reason := reason,
                  shownAt := position + shown })
    let keep (c : Char) (next : List Char × Option Fault) : List Char × Option Fault :=
      (c :: next.1, next.2)
    if a < 0x80 then keep (Char.ofNat a.toNat) (decodeFrom (position + 1) rest)
    else if a < 0xc2 ∨ 0xf4 < a then fault 1 .invalidStart 0
    else
      match rest with
      | [] => fault 1 .unexpectedEnd 1
      | b :: rest =>
        if !isSecond a b then
          fault 1 .invalidContinuation (if startsSurrogate a b then 2 else 1)
        else if a < 0xe0 then
          keep (assemble (a.toNat - 0xc0) [b]) (decodeFrom (position + 2) rest)
        else
          match rest with
          | [] => fault 2 .unexpectedEnd 2
          | c :: rest =>
            if !isTail c then fault 2 .invalidContinuation 2
            else if a < 0xf0 then
              keep (assemble (a.toNat - 0xe0) [b, c]) (decodeFrom (position + 3) rest)
            else
              match rest with
              | [] => fault 3 .unexpectedEnd 3
              | d :: rest =>
                if !isTail d then fault 3 .invalidContinuation 3
                else keep (assemble (a.toNat - 0xf0) [b, c, d]) (decodeFrom (position + 4) rest)

/-- The text that well-formed bytes encode, or the first fault. -/
def decode (bytes : Bytes) : Except Fault (List Char) :=
  match decodeFrom 0 bytes with
  | (cs, none) => .ok cs
  | (_, some fault) => .error fault

def pieceSize : Nat := 8192

/-- The text that can be read before the piece of the file that shows the first fault, and the
fault with its place counted as the reader of that piece counts it.  Bytes of an unfinished
character are carried over to the next piece, where they come first; what is left at the end of
the file is a piece of its own.  A file without a fault is read whole. -/
def decodeInPieces (bytes : Bytes) : List Char × Option Fault :=
  match decodeFrom 0 bytes with
  | (cs, none) => (cs, none)
  | (_, some fault) =>
    let piece :=
      if fault.shownAt = bytes.length then bytes.length
      else fault.shownAt / pieceSize * pieceSize
    let kept := min fault.start piece
    let read := decodeFrom 0 (bytes.take kept)
    let base := match read.2 with
      | none => kept
      | some unfinished => unfinished.start
    (read.1, some { fault with start := fault.start - base })

def Fault.message (f : Fault) : String :=
  let place :=
    if f.length = 1 then
      let code := String.ofList (Nat.toDigits 16 f.first.toNat)
      s!"byte 0x{code} in position {f.start}"
    else s!"bytes in position {f.start}-{f.start + f.length - 1}"
  s!"'utf-8' codec can't decode {place}: {f.reason.text}"

end Utf8
end SchemaStore
