import FurcateMesh.Library.Binary64
import FurcateMesh.Library.Results

/-!
# A data model for self-describing formats

Values are what a self-describing format carries between two programs: a writer turns
its data into a value, a format turns the value into bytes, and the reader goes the
other way.  A record is a map with text keys; a tagged record has one more entry that
names its variant.

Readers take more than writers give: unknown entries are skipped, a record may come as
a sequence, names may come as bytes or, for fields, as positions, and an integer may
stand for a float.  Which of several faults of one value is reported is left open.

The readers are those that derived code is made of.  `readRecord` collects the fields of a
record by name, each at most once; `Fields.required` and `Fields.withDefault` take one of
them; `readTagged` separates the tag from the rest.

A format is a pair of functions between values and bytes, and a law says which value comes
back of one that was written: the value itself (`Exact`), or the value with its floats as
they are read from decimal text (`Decimal`).  The laws are stated for the values that every
format can write (`Portable`): numbers up to 64 bits, texts, and records of such values with
distinct names.
-/

namespace Serde

inductive Value where
  | null
  | bool (b : Bool)
  | int (n : Int)
  | float (x : Binary64)
  | text (s : String)
  | bytes (b : List UInt8)
  | seq (items : List Value)
  | map (entries : List (Value × Value))

/-- Induction over a value with a hypothesis for each item and each entry. -/
@[elab_as_elim]
theorem Value.induction {motive : Value → Prop} (null : motive .null)
    (bool : ∀ b, motive (.bool b)) (int : ∀ n, motive (.int n)) (float : ∀ x, motive (.float x))
    (text : ∀ s, motive (.text s)) (bytes : ∀ b, motive (.bytes b))
    (seq : ∀ items, (∀ item ∈ items, motive item) → motive (.seq items))
    (map : ∀ entries, (∀ entry ∈ entries, motive entry.1 ∧ motive entry.2) → motive (.map entries))
    (value : Value) : motive value :=
  @Value.rec motive (fun items => ∀ item ∈ items, motive item)
    (fun entries => ∀ entry ∈ entries, motive entry.1 ∧ motive entry.2)
    (fun entry => motive entry.1 ∧ motive entry.2)
    null bool int float text bytes seq map
    (by simp) (fun _ _ hitem hitems => List.forall_mem_cons.mpr ⟨hitem, hitems⟩)
    (by simp) (fun _ _ hentry hentries => List.forall_mem_cons.mpr ⟨hentry, hentries⟩)
    (fun _ _ hkey hvalue => ⟨hkey, hvalue⟩) value

inductive DecodeError where
  | missingField (name : String)
  | duplicateField (name : String)
  | unknownVariant (name : Option String)
  | invalidType (expected : String)
  | invalidValue (expected : String)
  | invalidLength (length : Nat) (expected : String)
  | custom
deriving DecidableEq, Repr

/-! ### Scalars -/

/-- A text, or bytes that are the UTF-8 form of one. -/
def readText : Value → Except DecodeError String
  | .text s => .ok s
  | .bytes b => (String.fromUTF8? ⟨b.toArray⟩).elim (.error (.invalidValue "a string")) .ok
  | _ => .error (.invalidType "a string")

def readUInt (bound : Nat) (expected : String) : Value → Except DecodeError Nat
  | .int n =>
      if 0 ≤ n ∧ n < (bound : Int) then .ok n.toNat else .error (.invalidValue expected)
  | _ => .error (.invalidType expected)

/-- A float, or an integer that is rounded to one. -/
def readFloat : Value → Except DecodeError Binary64
  | .float x => .ok x
  | .int n => .ok (Binary64.ofInt n)
  | _ => .error (.invalidType "f64")

def readOption {α : Type} (read : Value → Except DecodeError α) :
    Value → Except DecodeError (Option α)
  | .null => .ok none
  | value => (read value).map some

theorem readOption_present {α : Type} (read : Value → Except DecodeError α) {value : Value}
    (h : value ≠ .null) : readOption read value = (read value).map some := by
  cases value with
  | null => exact absurd rfl h
  | _ => rfl

/-! ### Records -/

def record (fields : List (String × Value)) : Value :=
  .map (fields.map fun field => (.text field.1, field.2))

def isName (name : String) : Value → Bool
  | .text s => s == name
  | .bytes b => b == name.toUTF8.toList
  | _ => false

/-- The field a key stands for; `none` for one that is skipped. -/
def readField (names : List String) : Value → Except DecodeError (Option String)
  | .int n => if 0 ≤ n then .ok names[n.toNat]? else .error (.invalidType "field identifier")
  | .text s => .ok (if s ∈ names then some s else none)
  | .bytes b => .ok (names.find? (fun name => name.toUTF8.toList == b))
  | _ => .error (.invalidType "field identifier")

def readEntries (names : List String) :
    List (Value × Value) → Except DecodeError (List (String × Value))
  | [] => .ok []
  | (key, value) :: entries =>
      match readField names key, readEntries names entries with
      | .error e, _ => .error e
      | _, .error e => .error e
      | .ok none, .ok fields => .ok fields
      | .ok (some name), .ok fields =>
          if name ∈ fields.map Prod.fst then .error (.duplicateField name)
          else .ok ((name, value) :: fields)

/-- The fields of a record that were found, and what to report for one that was not. -/
structure Fields where
  found : List (String × Value)
  absent : String → DecodeError

/-- The fields of a record that comes as a map or, in the order of the names, as a
    sequence. -/
def readRecord (expected : String) (names : List String) : Value → Except DecodeError Fields
  | .map entries => (readEntries names entries).map fun fields => ⟨fields, .missingField⟩
  | .seq items =>
      if names.length < items.length then
        .error (.invalidLength items.length (toString names.length ++ " elements in sequence"))
      else
        .ok ⟨names.zip items, fun _ =>
          .invalidLength items.length (expected ++ " with " ++ toString names.length ++ " elements")⟩
  | _ => .error (.invalidType expected)

def Fields.required {α : Type} (fields : Fields) (name : String)
    (read : Value → Except DecodeError α) : Except DecodeError α :=
  match fields.found.lookup name with
  | none => .error (fields.absent name)
  | some value => read value

def Fields.withDefault {α : Type} (fields : Fields) (name : String) (default : α)
    (read : Value → Except DecodeError α) : Except DecodeError α :=
  match fields.found.lookup name with
  | none => .ok default
  | some value => read value

def readTagged (expected tag : String) : Value → Except DecodeError (Value × Value)
  | .map entries =>
      match entries.filter (fun entry => isName tag entry.1) with
      | [] => .error (.missingField tag)
      | [entry] => .ok (entry.2, .map (entries.filter fun entry => !isName tag entry.1))
      | _ :: _ :: _ => .error (.duplicateField tag)
  | .seq [] => .error (.missingField tag)
  | .seq (value :: items) => .ok (value, .seq items)
  | _ => .error (.invalidType expected)

/-- The variant a tag names, as text or as bytes. -/
def readVariant {α : Type} (name : α → String) (variants : List α) (tag : Value) :
    Except DecodeError α :=
  match tag, variants.find? (fun variant => isName (name variant) tag) with
  | _, some variant => .ok variant
  | .text s, none => .error (.unknownVariant (some s))
  | .bytes b, none => .error (.unknownVariant (String.fromUTF8? ⟨b.toArray⟩))
  | _, none => .error (.invalidType "variant identifier")

/-! ### Reading what a writer gave -/

theorem Fields.required_cons {α : Type} (key : String) (value : Value)
    (found : List (String × Value)) (absent : String → DecodeError) (name : String)
    (read : Value → Except DecodeError α) :
    Fields.required ⟨(key, value) :: found, absent⟩ name read =
      if name = key then read value else Fields.required ⟨found, absent⟩ name read := by
  by_cases h : name = key
  · rw [if_pos h, Fields.required, List.lookup_cons, beq_iff_eq.mpr h]
  · rw [if_neg h, Fields.required, List.lookup_cons, beq_false_of_ne h]
    rfl

theorem Fields.withDefault_cons {α : Type} (key : String) (value : Value)
    (found : List (String × Value)) (absent : String → DecodeError) (name : String)
    (default : α) (read : Value → Except DecodeError α) :
    Fields.withDefault ⟨(key, value) :: found, absent⟩ name default read =
      if name = key then read value else Fields.withDefault ⟨found, absent⟩ name default read := by
  by_cases h : name = key
  · rw [if_pos h, Fields.withDefault, List.lookup_cons, beq_iff_eq.mpr h]
  · rw [if_neg h, Fields.withDefault, List.lookup_cons, beq_false_of_ne h]
    rfl

theorem Fields.withDefault_nil {α : Type} (absent : String → DecodeError) (name : String)
    (default : α) (read : Value → Except DecodeError α) :
    Fields.withDefault ⟨[], absent⟩ name default read = .ok default := rfl

@[simp] theorem readText_text (s : String) : readText (.text s) = .ok s := rfl

@[simp] theorem readFloat_float (x : Binary64) : readFloat (.float x) = .ok x := rfl

@[simp] theorem readFloat_null : readFloat .null = .error (.invalidType "f64") := rfl

theorem readUInt_int {bound n : Nat} (expected : String) (hn : n < bound) :
    readUInt bound expected (.int n) = .ok n := by
  rw [readUInt, if_pos ⟨Int.natCast_nonneg n, Int.ofNat_lt.mpr hn⟩, Int.toNat_natCast]

theorem readEntries_record {names : List String} {fields : List (String × Value)}
    (hnames : ∀ field ∈ fields, field.1 ∈ names) (hnodup : (fields.map Prod.fst).Nodup) :
    readEntries names (fields.map fun field => (.text field.1, field.2)) = .ok fields := by
  induction fields with
  | nil => rfl
  | cons field fields ih =>
    rw [List.forall_mem_cons] at hnames
    rw [List.map_cons, List.nodup_cons] at hnodup
    rw [List.map_cons, readEntries]
    simp only [readField, if_pos hnames.1, ih hnames.2 hnodup.2, if_neg hnodup.1]

/-- A record that is given with known fields, each once, is read field by field. -/
theorem readRecord_record (expected : String) {names : List String}
    {fields : List (String × Value)} (hnames : ∀ field ∈ fields, field.1 ∈ names)
    (hnodup : (fields.map Prod.fst).Nodup) :
    readRecord expected names (record fields) = .ok ⟨fields, .missingField⟩ := by
  rw [record, readRecord, readEntries_record hnames hnodup]
  rfl

/-- The tag comes first and no field shares its name. -/
theorem readTagged_record (expected : String) {tag : String} (variant : Value)
    {fields : List (String × Value)} (htag : tag ∉ fields.map Prod.fst) :
    readTagged expected tag (record ((tag, variant) :: fields)) =
      .ok (variant, record fields) := by
  have hother : ∀ entry ∈ fields.map (fun field => (Value.text field.1, field.2)),
      isName tag entry.1 = false := by
    intro entry hentry
    obtain ⟨field, hfield, rfl⟩ := List.mem_map.mp hentry
    exact beq_false_of_ne fun heq => htag (heq ▸ List.mem_map_of_mem hfield)
  have hself : isName tag (.text tag) = true := beq_self_eq_true tag
  have htags : (fields.map (fun field => (Value.text field.1, field.2))).filter
      (fun entry => isName tag entry.1) = [] :=
    List.filter_eq_nil_iff.mpr fun entry hentry => by simp [hother entry hentry]
  have hrest : (fields.map (fun field => (Value.text field.1, field.2))).filter
      (fun entry => !isName tag entry.1) = fields.map (fun field => (Value.text field.1, field.2)) :=
    List.filter_eq_self.mpr fun entry hentry => by simp [hother entry hentry]
  simp only [record, List.map_cons, readTagged, List.filter_cons, hself, htags, hrest, if_true,
    Bool.not_true, Bool.false_eq_true, if_false]

/-! ### Formats -/

/-- What every format here can write: numbers up to 64 bits, texts and records of such
    values with distinct names. -/
inductive Portable : Value → Prop
  | null : Portable .null
  | nat (n : Nat) (hn : n < 2 ^ 64) : Portable (.int n)
  | float (x : Binary64) : Portable (.float x)
  | text (s : String) : Portable (.text s)
  | record (fields : List (String × Value)) (hnodup : (fields.map Prod.fst).Nodup)
      (hfields : ∀ field ∈ fields, Portable field.2) : Portable (record fields)

structure Format where
  toVec : Value → Except String (List UInt8)
  fromSlice : List UInt8 → Except String Value

/-- The format writes every portable value and reads `carried` back, or rejects its own
    text where `carried` has nothing. -/
def Format.Carries (format : Format) (carried : Value → Option Value) : Prop :=
  ∀ value, Portable value → ∃ bytes, format.toVec value = .ok bytes ∧
    (format.fromSlice bytes).toOption = carried value

section Decimal

variable (reread : Binary64 → Option Binary64)

mutual
/-- What comes back of a value from a format with decimal floats: a finite float as the
    reader takes its text, and null for a float that has none. -/
def decimal : Value → Option Value
  | .null => some .null
  | .bool b => some (.bool b)
  | .int n => some (.int n)
  | .float x => if x.isFinite then (reread x).map .float else some .null
  | .text s => some (.text s)
  | .bytes b => some (.bytes b)
  | .seq items => (decimalItems items).map .seq
  | .map entries => (decimalEntries entries).map .map

def decimalItems : List Value → Option (List Value)
  | [] => some []
  | value :: items => do
      let value ← decimal value
      let items ← decimalItems items
      some (value :: items)

def decimalEntries : List (Value × Value) → Option (List (Value × Value))
  | [] => some []
  | (key, value) :: entries => do
      let key ← decimal key
      let value ← decimal value
      let entries ← decimalEntries entries
      some ((key, value) :: entries)
end

def decimalFields : List (String × Value) → Option (List (String × Value))
  | [] => some []
  | (name, value) :: fields => do
      let value ← decimal reread value
      let fields ← decimalFields fields
      some ((name, value) :: fields)

@[simp] theorem decimal_text (s : String) : decimal reread (.text s) = some (.text s) := by
  rw [decimal]

@[simp] theorem decimal_int (n : Int) : decimal reread (.int n) = some (.int n) := by
  rw [decimal]

theorem decimal_float (x : Binary64) :
    decimal reread (.float x) = if x.isFinite then (reread x).map .float else some .null := by
  rw [decimal]

@[simp] theorem decimal_record (fields : List (String × Value)) :
    decimal reread (record fields) = (decimalFields reread fields).map record := by
  have hentries : decimalEntries reread (fields.map fun field => (.text field.1, field.2)) =
      (decimalFields reread fields).map
        (List.map fun field : String × Value => (.text field.1, field.2)) := by
    induction fields with
    | nil => simp [decimalEntries, decimalFields]
    | cons field fields ih =>
      rcases hvalue : decimal reread field.2 with _ | value
      · simp [decimalEntries, decimalFields, hvalue]
      · rcases hrest : decimalFields reread fields with _ | rest
        · simp [decimalEntries, decimalFields, hvalue, ih, hrest]
        · simp [decimalEntries, decimalFields, hvalue, ih, hrest]
  rw [record, decimal, hentries, Option.map_map]
  rfl

end Decimal

/-- The format keeps every value as it is. -/
structure Exact extends Format where
  carries : toFormat.Carries some

/-- The format writes finite floats in decimal, and what it reads for such a text is
    `reread`; it has no form for the other floats and writes null for them. -/
structure Decimal (reread : Binary64 → Option Binary64) extends Format where
  carries : toFormat.Carries (decimal reread)

abbrev NullsNonFinite := Decimal some

instance : Coe Exact Format := ⟨Exact.toFormat⟩

instance {reread : Binary64 → Option Binary64} : CoeOut (Decimal reread) Format :=
  ⟨Decimal.toFormat⟩

theorem Exact.exists_bytes (format : Exact) {value : Value} (h : Portable value) :
    ∃ bytes, format.toVec value = .ok bytes ∧ format.fromSlice bytes = .ok value := by
  obtain ⟨bytes, hto, hfrom⟩ := format.carries value h
  exact ⟨bytes, hto, Results.toOption_eq_some_iff.mp hfrom⟩

end Serde
