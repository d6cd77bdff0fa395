import SchemaStore.Collection
import SchemaStore.Proofs.Storage.WriteOnce
import SchemaStore.Proofs.Value.Parts
import SchemaStore.Proofs.Value.Showing

/-!
Collections on the storage engine.  A key of a collection is its name, a colon and the text of an
id.  No name has a colon, so the first colon of a key tells its collection, whatever the id is.
-/

namespace SchemaStore
namespace Collection

/-- A text that may name a collection. -/
def IsName (name : String) : Prop := name ≠ "" ∧ separator ∉ name.toList

def named (name : String) : Collection := { name := .str name }

theorem checkName_str {name : String} (h : IsName name) : checkName (.str name) = .ok () := by
  have htruthy : (Value.str name).truthy = true := by
    show (!name.isEmpty) = true
    rw [Bool.not_eq_true', ← Bool.not_eq_true, String.isEmpty_iff]
    exact h.1
  have hholds : (Value.str name).holdsText separator = .ok false := by
    show Except.ok (name.toList.contains separator) = _
    rw [List.contains_eq_mem, decide_eq_false h.2]
  rw [checkName, htruthy, hholds]
  rfl

/-! ## Keys -/

theorem toList_keyStart (name : String) :
    (named name).keyStart.toList = name.toList ++ [separator] := by
  rw [keyStart, String.toList_append, String.toList_singleton]
  rfl

theorem toList_keyOf (name id : String) :
    ((named name).keyOf id).toList = name.toList ++ separator :: id.toList := by
  rw [keyOf, String.toList_append, toList_keyStart, List.append_assoc]
  rfl

/-- What stands before the first separator, and what behind it, can be read off. -/
theorem cut_inj {a b x y : List Char} (ha : separator ∉ a) (hb : separator ∉ b)
    (h : a ++ separator :: x = b ++ separator :: y) : a = b ∧ x = y := by
  induction a generalizing b with
  | nil =>
    cases b with
    | nil => exact ⟨rfl, (List.cons.inj h).2⟩
    | cons d b => exact absurd (List.mem_cons.mpr (.inl (List.cons.inj h).1)) hb
  | cons c a ih =>
    cases b with
    | nil => exact absurd (List.mem_cons.mpr (.inl (List.cons.inj h).1.symm)) ha
    | cons d b =>
      obtain ⟨rfl, hrest⟩ := List.cons.inj h
      obtain ⟨rfl, hxy⟩ := ih (fun hin => ha (List.mem_cons_of_mem c hin))
        (fun hin => hb (List.mem_cons_of_mem c hin)) hrest
      exact ⟨rfl, hxy⟩

variable {a b : String}

theorem keyOf_inj (ha : IsName a) (hb : IsName b) {i j : String}
    (h : (named a).keyOf i = (named b).keyOf j) : a = b ∧ i = j := by
  have hcut : a.toList ++ separator :: i.toList = b.toList ++ separator :: j.toList := by
    rw [← toList_keyOf, h, toList_keyOf]
  obtain ⟨hname, hid⟩ := cut_inj ha.2 hb.2 hcut
  exact ⟨String.toList_inj.mp hname, String.toList_inj.mp hid⟩

/-- The keys that start as those of a collection are those of the collection. -/
theorem keyStart_isPrefixOf (ha : IsName a) (hb : IsName b) (id : String) :
    (named a).keyStart.toList.isPrefixOf ((named b).keyOf id).toList = decide (b = a) := by
  rw [Bool.eq_iff_iff, List.isPrefixOf_iff_prefix, decide_eq_true_eq, toList_keyStart,
    toList_keyOf]
  constructor
  · rintro ⟨rest, hrest⟩
    rw [List.append_assoc] at hrest
    exact (String.toList_inj.mp (cut_inj ha.2 hb.2 hrest).1).symm
  · rintro rfl
    exact ⟨id.toList, List.append_assoc _ _ _⟩

/-! ## Insertions -/

variable {m : Pairs} {site : Site} {es : Entries} {text : String}

theorem insert_of_unshowable (h : (idOf es).isShowable = false) (c : Collection) (clock : Int)
    (site : Site) : c.insert clock es site = .error (.badValue .unshowable) site := by
  rw [insert, h]
  rfl

/-- A document without a stored form is refused before anything is done, and by no schema. -/
theorem insert_of_unencodable {fault : Json.WriteFault}
    (h : Stored.encode (.dict es) = .error fault) :
    ∃ failure : Failure, (∀ e, failure ≠ .validation e) ∧
      ∀ (c : Collection) clock site, c.insert clock es site = .error failure site := by
  cases hshown : (idOf es).isShowable with
  | false => exact ⟨.badValue .unshowable, nofun, insert_of_unshowable hshown⟩
  | true =>
    refine ⟨.ofEncode fault, nofun, fun c clock site => ?_⟩
    rw [insert, hshown, h]
    rfl

/-- The id of a document that has a stored form has a text. -/
theorem isShowable_idOf (h : Stored.encode (.dict es) = .ok text) :
    (idOf es).isShowable = true := by
  rw [idOf]
  cases hid : es.field? idField with
  | none => rfl
  | some id =>
    have hentries := Value.isShowable_dict_iff.mp (Stored.isShowable_of_encode h)
    exact (hentries _ (Entries.mem_of_field? hid)).2

/-- A document with a stored form is written under its key unless that has a value. -/
theorem insert_of_encode (h : Stored.encode (.dict es) = .ok text) (c : Collection) (clock : Int)
    (site : Site) :
    c.insert clock es site
      = (Engine.putNew clock (.str (c.keyOf (idOf es).text)) (.str text) >>= fun isNew =>
          if !isNew then throw (.store (.duplicateId (idOf es) c.name.text))
          else pure ()) site := by
  rw [insert, isShowable_idOf h, h]
  rfl

theorem insert_of_new (hsite : site.Serves m) (hopen : site.engine.isClosed = false)
    (hencode : Stored.encode (.dict es) = .ok text) (c : Collection) (clock : Int)
    (hnew : m.lookup (c.keyOf (idOf es).text) = none)
    (hsize : m.weight + Pairs.weight [(c.keyOf (idOf es).text, text)] < Sheet.capacity) :
    ∃ after, c.insert clock es site = .ok () after ∧
      after.Serves (m ++ [(c.keyOf (idOf es).text, text)]) ∧
      after.engine.directory = site.engine.directory := by
  cases hsite with
  | closed _ _ _ => exact absurd hopen.symm Bool.false_ne_true
  | @opened s settings files hc hon hs =>
    have hlookup : s.lookup (c.keyOf (idOf es).text) = none := (hs.holds.lookup _).trans hnew
    rw [← hs.weight_eq] at hsize
    obtain ⟨after, hput, hafter⟩ := Engine.putNew_shelf_of_none hc hon
      (c.keyOf (idOf es).text, text) hsize clock hlookup
    refine ⟨_, ?_, .opened hc hafter (hs.put settings _ hnew), rfl⟩
    rw [insert_of_encode hencode]
    exact bind_of_ok hput

theorem insert_of_taken (hsite : site.Serves m) (hopen : site.engine.isClosed = false)
    (hencode : Stored.encode (.dict es) = .ok text) (c : Collection) (clock : Int) {old : String}
    (htaken : m.lookup (c.keyOf (idOf es).text) = some old) :
    c.insert clock es site = .error (.store (.duplicateId (idOf es) c.name.text)) site := by
  cases hsite with
  | closed _ _ _ => exact absurd hopen.symm Bool.false_ne_true
  | @opened s settings files hc hon hs =>
    have hput := Engine.putNew_shelf_of_some hon settings clock (.str text)
      ((hs.holds.lookup _).trans htaken)
    rw [insert_of_encode hencode]
    exact bind_of_ok hput

theorem insert_closed (hclosed : site.engine.isClosed = true) (c : Collection) (es : Entries) :
    ∃ failure, ∀ clock, c.insert clock es site = .error failure site := by
  cases hencode : Stored.encode (.dict es) with
  | error fault =>
    obtain ⟨failure, -, hfails⟩ := insert_of_unencodable hencode
    exact ⟨failure, fun clock => hfails c clock site⟩
  | ok text =>
    refine ⟨.store (.closed site.engine.directory), fun clock => ?_⟩
    rw [insert_of_encode hencode]
    exact bind_of_error (Engine.putNew_closed hclosed _ _ _)

/-! ## Queries -/

theorem isReading_find (c : Collection) (filter : Value) : Engine.IsReading (c.find filter) :=
  (Engine.isReading_scan c.keyStart).bind fun _ => Engine.isReading_ofResult _

theorem isReading_get (c : Collection) (id : Value) : Engine.IsReading (c.get id) := by
  cases id with
  | str id =>
    refine (Engine.isReading_get (.str (c.keyOf id))).bind fun found => ?_
    cases found with
    | null => exact fun _ => rfl
    | _ => exact Engine.isReading_ofResult _
  | _ => exact fun _ => rfl

end Collection
end SchemaStore
