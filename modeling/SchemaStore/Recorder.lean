import SchemaStore.Value.Entries

/-!
A stand-in for a collection.  It answers every query with the same documents, keeps nothing, and
records what it was asked, so that the code around a collection can be observed by itself.
-/

namespace SchemaStore

structure Recorder where
  /-- The answer to every query. -/
  docs : List Value
  /-- The documents that were to be inserted. -/
  inserted : List Value
  filters : List Value

namespace Recorder

def ofDocs (docs : List Value) : Recorder := { docs := docs, inserted := [], filters := [] }

def find (r : Recorder) (filter : Value) : List Value × Recorder :=
  (r.docs, { r with filters := r.filters ++ [filter] })

/-- Records an insertion.  The answer is the document with an id that counts the insertions. -/
def insert (r : Recorder) (doc : Value) : Value × Recorder :=
  let inserted := r.inserted ++ [doc]
  let id := s!"id-{inserted.length}"
  (.dict ((doc.entries?.getD []).insert (.str "_id") (.str id)), { r with inserted := inserted })

end Recorder

end SchemaStore
