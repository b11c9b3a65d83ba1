import Searpc.ByteMemoryProofs

/-! # JSON values — the data model and its partial accessors

    The values a C JSON library hands out: a value is one of seven kinds, text
    is a byte string that must be well-formed UTF-8, objects keep their members
    in insertion order.  Every accessor is total and answers `none`, `0` or the
    empty list on a value of another kind, which is how callers get to ignore
    shapes they did not expect. -/

namespace JsonValue

open ByteMemory

/-! ## UTF-8 -/

/-- Check UTF-8 with `n` continuation bytes still owed, the next of which has
    to lie between `lo` and `hi`.  The bounds exclude overlong forms,
    surrogates and code points above `0x10FFFF`. -/
def utf8Run : Nat → UInt8 → UInt8 → Bytes → Bool
  | 0, _, _, [] => true
  | _ + 1, _, _, [] => false
  | 0, _, _, b :: s =>
      if b < 0x80 then utf8Run 0 0x80 0xBF s
      else if 0xC2 ≤ b ∧ b ≤ 0xDF then utf8Run 1 0x80 0xBF s
      else if b = 0xE0 then utf8Run 2 0xA0 0xBF s
      else if b = 0xED then utf8Run 2 0x80 0x9F s
      else if 0xE1 ≤ b ∧ b ≤ 0xEF then utf8Run 2 0x80 0xBF s
      else if b = 0xF0 then utf8Run 3 0x90 0xBF s
      else if 0xF1 ≤ b ∧ b ≤ 0xF3 then utf8Run 3 0x80 0xBF s
      else if b = 0xF4 then utf8Run 3 0x80 0x8F s
      else false
  | n + 1, lo, hi, b :: s =>
      if lo ≤ b ∧ b ≤ hi then utf8Run n 0x80 0xBF s else false

/-- Well-formed UTF-8. -/
def utf8Valid (s : Bytes) : Bool := utf8Run 0 0x80 0xBF s

/-- A C string: well-formed text without a NUL byte. -/
def Text (s : Bytes) : Prop := utf8Valid s = true ∧ (0 : UInt8) ∉ s

instance (s : Bytes) : Decidable (Text s) := inferInstanceAs (Decidable (_ ∧ _))

/-- What a reader of a NUL-terminated string sees of a byte buffer. -/
def cstr (s : Bytes) : Bytes := s.takeWhile (· ≠ 0)

theorem cstr_eq_self {s : Bytes} (h : (0 : UInt8) ∉ s) : cstr s = s := by
  induction s with
  | nil => rfl
  | cons b s ih =>
      have hb : b ≠ 0 := fun h0 => h (h0 ▸ List.mem_cons_self)
      have hs : (0 : UInt8) ∉ s := fun hm => h (List.mem_cons_of_mem b hm)
      rw [show cstr (b :: s) = b :: cstr s by simp [cstr, hb], ih hs]

/-! ## Values -/

/-- A JSON value.  Integers are the codec's 64-bit ones; a real is kept as the
    bit pattern of its double. -/
inductive Json where
  | null
  | bool (b : Bool)
  | int (i : Int)
  | real (bits : UInt64)
  | str (s : Bytes)
  | arr (vs : List Json)
  | obj (ms : List (Bytes × Json))
deriving Repr

mutual
/-- Structural comparison of values. -/
def Json.same : Json → Json → Bool
  | .null, .null => true
  | .bool x, .bool y => x == y
  | .int x, .int y => x == y
  | .real x, .real y => x == y
  | .str x, .str y => x == y
  | .arr x, .arr y => Json.sameList x y
  | .obj x, .obj y => Json.sameMembers x y
  | _, _ => false

/-- Structural comparison of element lists. -/
def Json.sameList : List Json → List Json → Bool
  | [], [] => true
  | x :: xs, y :: ys => Json.same x y && Json.sameList xs ys
  | _, _ => false

/-- Structural comparison of member lists. -/
def Json.sameMembers : List (Bytes × Json) → List (Bytes × Json) → Bool
  | [], [] => true
  | (j, x) :: xs, (k, y) :: ys => j == k && Json.same x y && Json.sameMembers xs ys
  | _, _ => false
end

mutual
theorem Json.same_iff : ∀ a b : Json, Json.same a b = true ↔ a = b
  | .null, b => by cases b <;> simp [Json.same]
  | .bool x, b => by cases b <;> simp [Json.same]
  | .int x, b => by cases b <;> simp [Json.same]
  | .real x, b => by cases b <;> simp [Json.same]
  | .str x, b => by cases b <;> simp [Json.same]
  | .arr x, b => by
      cases b with
      | arr y => simp [Json.same, Json.sameList_iff x y]
      | _ => simp [Json.same]
  | .obj x, b => by
      cases b with
      | obj y => simp [Json.same, Json.sameMembers_iff x y]
      | _ => simp [Json.same]

theorem Json.sameList_iff : ∀ a b : List Json, Json.sameList a b = true ↔ a = b
  | [], [] => by simp [Json.sameList]
  | [], _ :: _ => by simp [Json.sameList]
  | _ :: _, [] => by simp [Json.sameList]
  | x :: xs, y :: ys => by simp [Json.sameList, Json.same_iff x y, Json.sameList_iff xs ys]

theorem Json.sameMembers_iff :
    ∀ a b : List (Bytes × Json), Json.sameMembers a b = true ↔ a = b
  | [], [] => by simp [Json.sameMembers]
  | [], _ :: _ => by simp [Json.sameMembers]
  | _ :: _, [] => by simp [Json.sameMembers]
  | (j, x) :: xs, (k, y) :: ys => by
      simp [Json.sameMembers, Json.same_iff x y, Json.sameMembers_iff xs ys, and_assoc]
end

instance : DecidableEq Json := fun a b => decidable_of_iff _ (Json.same_iff a b)

/-- The range of the codec's integers. -/
def IntRange (i : Int) : Prop := -2 ^ 63 ≤ i ∧ i < 2 ^ 63

instance (i : Int) : Decidable (IntRange i) := inferInstanceAs (Decidable (_ ∧ _))

/-! ## Accessors -/

/-- `json_string`: no value for text that is not UTF-8. -/
def jsonString (s : Bytes) : Option Json :=
  if utf8Valid s then some (.str s) else none

/-- `json_string_value`: absent on anything but a string. -/
def jsonStringValue : Option Json → Option Bytes
  | some (.str s) => some (cstr s)
  | _ => none

/-- `json_integer_value`: `0` on anything but an integer. -/
def jsonIntegerValue : Option Json → Int
  | some (.int i) => i
  | _ => 0

/-- `json_is_null`: false on an absent value. -/
def jsonIsNull : Option Json → Bool
  | some .null => true
  | _ => false

/-- `json_array_get`: absent on a non-array and out of range. -/
def jsonArrayGet : Option Json → Nat → Option Json
  | some (.arr vs), i => vs[i]?
  | _, _ => none

/-- `json_array_append_new`: appending no value leaves the array unchanged. -/
def jsonArrayAppendNew (vs : List Json) : Option Json → List Json
  | some v => vs ++ [v]
  | none => vs

/-- The value of a member list at a key. -/
def memberGet (ms : List (Bytes × Json)) (k : Bytes) : Option Json :=
  (ms.find? (fun m => m.1 = k)).map Prod.snd

/-- `json_object_get`: absent on a non-object. -/
def jsonObjectGet : Option Json → Bytes → Option Json
  | some (.obj ms), k => memberGet ms k
  | _, _ => none

/-- Set a member: replace the value in place, or add the member at the end. -/
def memberSet : List (Bytes × Json) → Bytes → Json → List (Bytes × Json)
  | [], k, v => [(k, v)]
  | (j, w) :: ms, k, v => if j = k then (j, v) :: ms else (j, w) :: memberSet ms k v

/-- `json_object_set_new`: setting no value leaves the object unchanged. -/
def jsonObjectSetNew (ms : List (Bytes × Json)) (k : Bytes) : Option Json → List (Bytes × Json)
  | some v => memberSet ms k v
  | none => ms

@[simp] theorem jsonString_of_valid {s : Bytes} (h : utf8Valid s = true) :
    jsonString s = some (.str s) := if_pos h

@[simp] theorem memberGet_nil (k : Bytes) : memberGet [] k = none := rfl

theorem memberGet_cons (j : Bytes) (v : Json) (ms : List (Bytes × Json)) (k : Bytes) :
    memberGet ((j, v) :: ms) k = if j = k then some v else memberGet ms k := by
  by_cases h : j = k
  · simp [memberGet, h]
  · simp [memberGet, h]

/-- Setting one member leaves the others alone. -/
theorem memberGet_memberSet_ne (ms : List (Bytes × Json)) {j k : Bytes} (v : Json)
    (h : j ≠ k) : memberGet (memberSet ms j v) k = memberGet ms k := by
  induction ms with
  | nil =>
      show memberGet [(j, v)] k = none
      rw [memberGet_cons, if_neg h]
      rfl
  | cons m ms ih =>
      obtain ⟨i, w⟩ := m
      by_cases hi : i = j
      · simp only [memberSet, if_pos hi]
        rw [memberGet_cons, memberGet_cons, if_neg (hi ▸ h), if_neg (hi ▸ h)]
      · simp only [memberSet, if_neg hi]
        rw [memberGet_cons, memberGet_cons, ih]

end JsonValue
