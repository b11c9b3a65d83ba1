import Searpc.JsonValueProofs

/-! # GObjects as JSON — `json_gobject_serialize` and `json_gobject_deserialize`

    An object travels as a JSON object with one member for each property of its
    class.  What GObject itself contributes is kept to what these functions use
    of it: the properties a class lists (`Classes`), property lookup, which
    takes `_` for `-`, and `g_object_newv`, which gives every property the
    value set for it or its default.  Setting a property stores the value,
    getting it gives the value back. -/

namespace SearpcGObject

open ByteMemory JsonValue

/-! ## Objects and classes -/

/-- A registered type. -/
abbrev GType := Nat

/-- The type of a property: its fundamental type, and for an object the class.
    What the serialiser does not know is `unsupported`. -/
inductive ValueType where
  | string
  | boolean
  | int
  | uint
  | long
  | ulong
  | int64
  | float
  | double
  | char
  | uchar
  | enum
  | flags
  | object (gtype : GType)
  | unsupported
deriving DecidableEq, Repr

/-- A `GValue`; floating-point numbers are kept as bit patterns.  An object is
    its class and the values of its properties in the order the class lists
    them. -/
inductive GValue where
  | string (value : Option Bytes)
  | boolean (value : Bool)
  | int (value : Int32)
  | uint (value : UInt32)
  | long (value : Int64)
  | ulong (value : UInt64)
  | int64 (value : Int64)
  | float (bits : UInt32)
  | double (bits : UInt64)
  | char (value : Int8)
  | uchar (value : UInt8)
  | enum (value : Int32)
  | flags (value : UInt32)
  | nullObject
  | object (gtype : GType) (props : List (Bytes × GValue))
  | unsupported

/-- A `GObject`. -/
structure GObject where
  gtype : GType
  props : List (Bytes × GValue)

/-- A `GParamSpec`: the name, the type, the two flags the deserialiser looks
    at, and the default. -/
structure Pspec where
  name          : Bytes
  type          : ValueType
  writable      : Bool
  constructOnly : Bool
  default       : GValue

/-- The classes that are registered, with the properties each lists. -/
abbrev Classes := GType → Option (List Pspec)

/-- GObject's spelling of a property name. -/
def canonical (name : Bytes) : Bytes := name.map (fun b => if b = 0x5F then 0x2D else b)

/-- `g_object_class_find_property`. -/
def gObjectClassFindProperty (klass : List Pspec) (name : Bytes) : Option Pspec :=
  klass.find? (fun pspec => pspec.name = canonical name)

/-- The value given for a property; the last one counts. -/
def paramValue (params : List (Bytes × GValue)) (name : Bytes) : Option GValue :=
  (params.reverse.find? (fun p => p.1 = name)).map Prod.snd

/-- `g_object_newv`; absent for a type without a class. -/
def gObjectNewv (C : Classes) (gtype : GType) (params : List (Bytes × GValue)) : Option GObject :=
  (C gtype).map (fun klass =>
    ⟨gtype, klass.map (fun pspec =>
      (pspec.name, (paramValue params pspec.name).getD pspec.default))⟩)

/-! ## Serialising -/

/-- `json_real`: no value for an infinity or a NaN. -/
def jsonReal (bits : UInt64) : Option Json :=
  if (Float.ofBits bits).isFinite then some (.real bits) else none

mutual
/-- `json_serialize_pspec`; absent where the JSON constructor gives `NULL`. -/
def jsonSerializePspec : GValue → Option Json
  | .string none => some .null
  | .string (some value) => jsonString (cstr value)
  | .boolean value => some (.bool value)
  | .int value => some (.int value.toInt)
  | .uint value => some (.int value.toNat)
  | .long value => some (.int value.toInt)
  | .ulong value => some (.int value.toInt64.toInt)
  | .int64 value => some (.int value.toInt)
  | .float bits => jsonReal (Float32.ofBits bits).toFloat.toBits
  | .double bits => jsonReal bits
  | .char value => some (.int value.toInt)
  | .uchar value => some (.int value.toNat)
  | .enum value => some (.int value.toInt)
  | .flags value => some (.int value.toNat)
  | .nullObject => some .null
  | .object _ props => some (.obj (serializeProps [] props))
  | .unsupported => some .null

/-- The loop of `json_gobject_serialize` over the properties. -/
def serializeProps (object : List (Bytes × Json)) : List (Bytes × GValue) → List (Bytes × Json)
  | [] => object
  | (name, value) :: props =>
      serializeProps (jsonObjectSetNew object name (jsonSerializePspec value)) props
end

/-- `json_gobject_serialize`. -/
def jsonGobjectSerialize (gobject : GObject) : Json := .obj (serializeProps [] gobject.props)

/-! ## Deserialising -/

/-- An integer member, converted to the property's type as C converts it. -/
def deserializeInteger (value : Int) : ValueType → Option GValue
  | .char => some (.char (Int8.ofInt value))
  | .uchar => some (.uchar (UInt8.ofInt value))
  | .int => some (.int (Int32.ofInt value))
  | .uint => some (.uint (UInt32.ofInt value))
  | .long => some (.long (Int64.ofInt value))
  | .ulong => some (.ulong (UInt64.ofInt value))
  | .int64 => some (.int64 (Int64.ofInt value))
  | .enum => some (.enum (Int32.ofInt value))
  | .flags => some (.flags (UInt32.ofInt value))
  | _ => none

/-- `g_value_take_object`, or `NULL` for no object. -/
def valueOfObject : Option GObject → GValue
  | some object => .object object.gtype object.props
  | none => .nullObject

mutual
/-- `json_deserialize_pspec`; absent where it returns `FALSE`. -/
def jsonDeserializePspec (C : Classes) (type : ValueType) : Json → Option GValue
  | .obj members =>
      match type with
      | .object gtype =>
          some (valueOfObject (gObjectNewv C gtype (constructParams C gtype members)))
      | _ => none
  | .str s => if type = .string then some (.string (some (cstr s))) else none
  | .int value => deserializeInteger value type
  | .real bits =>
      match type with
      | .float => some (.float (Float.ofBits bits).toFloat32.toBits)
      | .double => some (.double bits)
      | _ => none
  | .bool value => if type = .boolean then some (.boolean value) else none
  | .null =>
      match type with
      | .string => some (.string none)
      | .object _ => some .nullObject
      | _ => none
  | .arr _ => none

/-- The loop of `json_gobject_deserialize` over the members: unknown,
    construct-only and read-only properties are passed over, and so is a member
    whose JSON type does not fit. -/
def constructParams (C : Classes) (gtype : GType) : List (Bytes × Json) → List (Bytes × GValue)
  | [] => []
  | (name, val) :: members =>
      match gObjectClassFindProperty ((C gtype).getD []) name with
      | none => constructParams C gtype members
      | some pspec =>
          if pspec.constructOnly ∨ ¬ pspec.writable then constructParams C gtype members
          else
            match jsonDeserializePspec C pspec.type val with
            | some value => (pspec.name, value) :: constructParams C gtype members
            | none => constructParams C gtype members
end

/-- `json_gobject_deserialize`: anything but an object has no members. -/
def jsonGobjectDeserialize (C : Classes) (gtype : GType) : Json → Option GObject
  | .obj members => gObjectNewv C gtype (constructParams C gtype members)
  | _ => gObjectNewv C gtype []

/-- A registered class can always be instantiated. -/
theorem jsonGobjectDeserialize_isSome {C : Classes} {gtype : GType} (h : (C gtype).isSome)
    (v : Json) : (jsonGobjectDeserialize C gtype v).isSome := by
  have hnew : ∀ params, (gObjectNewv C gtype params).isSome := by
    intro params
    rw [gObjectNewv, Option.isSome_map]
    exact h
  cases v with
  | obj members => exact hnew _
  | _ => exact hnew _

end SearpcGObject
