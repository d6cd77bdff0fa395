import SchemaStore.Json.Reader
import SchemaStore.Json.Writer
import SchemaStore.Misuse
import SchemaStore.Time.Iso

/-!
The stored form of documents: JSON in which a date or a moment is an object with one tag.
`Stored.encode` writes it and `Stored.decode` reads it.
-/

namespace SchemaStore
namespace Stored

def dateTimeTag : String := "$datetime"
def dateTag : String := "$date"

/-- The object that stands for a date or a moment. -/
def tagged (tag : String) (iso : List Char) : List Char :=
  '\x7b' :: (Json.quote tag ++ ':' :: ' ' :: (Json.quote (String.ofList iso) ++ ['\x7d']))

/-- The stored form of values that JSON has no form for. -/
def foreign : Value → Except Json.WriteFault (List Char)
  | .dateTime t => .ok (tagged dateTimeTag t.iso)
  | .date d => .ok (tagged dateTag d.iso)
  | v => .error (.notStorable v.className)

def encode (v : Value) : Except Json.WriteFault String :=
  (Json.write foreign none v).map String.ofList

/-- Why a tagged object stands for no date or moment. -/
inductive TagFault where
  | iso (text : String) (fault : Iso.Fault)
  | notText

def TagFault.message : TagFault → String
  | iso text fault => fault.message text
  | notText => Misuse.isoFromOther.message

/-- The date or moment that the text under a tag denotes. -/
def readTag {α : Type} (read : String → Except Iso.Fault α) (wrap : α → Value) (v : Value) :
    Except TagFault Value :=
  match v with
  | .str s =>
    match read s with
    | .ok a => .ok (wrap a)
    | .error fault => .error (.iso s fault)
  | _ => .error .notText

/-- An object whose only key is a tag becomes a date or a moment; any other stays as it is. -/
def revive (es : Entries) : Except TagFault Value :=
  match es with
  | [(.str name, v)] =>
    if name = dateTimeTag then readTag Iso.readDateTime .dateTime v
    else if name = dateTag then readTag Iso.readDate .date v
    else .ok (.dict es)
  | _ => .ok (.dict es)

/-- Why a stored form cannot be decoded. -/
inductive DecodeFault where
  | unreadable (fault : Json.ReadFault TagFault)
  /-- Something other than a text was to be decoded, or stood under a tag. -/
  | misuse (m : Misuse)

def decodeText (s : String) : Except DecodeFault Value :=
  match Json.read revive s.toList with
  | .ok v => .ok v
  | .error (.revived .notText) => .error (.misuse .isoFromOther)
  | .error fault => .error (.unreadable fault)

/-- The value that is stored in a record.  A record that was damaged may hold something other
than a text. -/
def decode : Value → Except DecodeFault Value
  | .str s => decodeText s
  | v => .error (.misuse (.notJsonInput v.className))

end Stored
end SchemaStore
