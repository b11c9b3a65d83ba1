import Searpc.JanssonProofs

/-! # The call text — `fcall_to_str`

    A call goes out as a JSON array: the function name, then one element for
    each parameter.  The server finds parameter `i` at index `i`, so everything
    rests on each append adding exactly one element.  It does not when the
    element is a string that is not UTF-8: `json_string` makes no value of it
    and `json_array_append_new` quietly leaves the array as it was. -/

namespace SearpcFcall

open ByteMemory JsonValue SearpcJansson

/-! ## Parameters -/

/-- A parameter as the caller passes it: an `int` in a pointer-sized word, a
    pointer to a `gint64`, a string or a JSON value that may be `NULL`. -/
inductive Param where
  | int (value : Int64)
  | int64 (value : Int64)
  | string (value : Option Bytes)
  | json (value : Option Json)
deriving DecidableEq

/-- One `(type, value)` pair of the argument list; the type may be one that
    the client does not know. -/
inductive Arg where
  | param (p : Param)
  | unrecognized (type : Bytes)
deriving DecidableEq

/-- `json_array_add_string_or_null_element`. -/
def jsonArrayAddStringOrNullElement (array : List Json) : Option Bytes → List Json
  | some value => jsonArrayAppendNew array (jsonString (cstr value))
  | none => jsonArrayAppendNew array (some .null)

/-- `json_array_add_json_or_null_element`; a deep copy is the same value. -/
def jsonArrayAddJsonOrNullElement (array : List Json) : Option Json → List Json
  | some value => jsonArrayAppendNew array (some value)
  | none => jsonArrayAppendNew array (some .null)

/-- One turn of the loop of `fcall_to_str` for a type it knows;
    `(int)(long)value` keeps the low 32 bits. -/
def appendParam (array : List Json) : Param → List Json
  | .int value => jsonArrayAppendNew array (some (.int value.toInt32.toInt))
  | .int64 value => jsonArrayAppendNew array (some (.int value.toInt))
  | .string value => jsonArrayAddStringOrNullElement array value
  | .json value => jsonArrayAddJsonOrNullElement array value

/-- The loop of `fcall_to_str`: the first unknown type ends it. -/
def appendArgs (array : List Json) : List Arg → Option (List Json)
  | [] => some array
  | .param p :: args => appendArgs (appendParam array p) args
  | .unrecognized _ :: _ => none

/-- The array `fcall_to_str` prints. -/
def fcallArray (fname : Bytes) (args : List Arg) : Option (List Json) :=
  appendArgs (jsonArrayAppendNew [] (jsonString (cstr fname))) args

/-- `fcall_to_str`, absent where it returns `NULL`. -/
def fcallToStr (J : Jansson) (fname : Bytes) (args : List Arg) : Option Bytes :=
  (fcallArray fname args).map (fun array => J.dumps (.arr array) true)

/-! ## What each parameter adds -/

/-- The value a parameter stands for. -/
def Param.element : Param → Json
  | .int value => .int value.toInt32.toInt
  | .int64 value => .int value.toInt
  | .string (some value) => .str (cstr value)
  | .string none => .null
  | .json (some value) => value
  | .json none => .null

/-- The parameter's text, if it has any, is UTF-8. -/
def Param.Utf8 : Param → Prop
  | .string (some value) => utf8Valid (cstr value) = true
  | _ => True

instance : (p : Param) → Decidable p.Utf8
  | .int _ => isTrue trivial
  | .int64 _ => isTrue trivial
  | .string (some _) => inferInstanceAs (Decidable (_ = _))
  | .string none => isTrue trivial
  | .json _ => isTrue trivial

/-- Each parameter adds its element, or nothing. -/
theorem appendParam_eq (array : List Json) (p : Param) :
    appendParam array p = array ++ (if p.Utf8 then [p.element] else []) := by
  cases p with
  | int value => rw [if_pos (show Param.Utf8 (.int value) from trivial)]; rfl
  | int64 value => rw [if_pos (show Param.Utf8 (.int64 value) from trivial)]; rfl
  | string value =>
      cases value with
      | none => rw [if_pos (show Param.Utf8 (.string none) from trivial)]; rfl
      | some s =>
          show jsonArrayAppendNew array (jsonString (cstr s)) = _
          by_cases h : utf8Valid (cstr s) = true
          · rw [if_pos (show Param.Utf8 (.string (some s)) from h), jsonString_of_valid h]
            rfl
          · rw [if_neg (show ¬ Param.Utf8 (.string (some s)) from h), jsonString, if_neg h,
              List.append_nil]
            rfl
  | json value =>
      cases value with
      | none => rw [if_pos (show Param.Utf8 (.json none) from trivial)]; rfl
      | some v => rw [if_pos (show Param.Utf8 (.json (some v)) from trivial)]; rfl

/-- The elements a parameter list adds. -/
def elements (ps : List Param) : List Json :=
  (ps.filter (fun p => p.Utf8)).map Param.element

theorem appendArgs_params (array : List Json) (ps : List Param) :
    appendArgs array (ps.map .param) = some (array ++ elements ps) := by
  induction ps generalizing array with
  | nil =>
      show some array = some (array ++ [])
      rw [List.append_nil]
  | cons p ps ih =>
      show appendArgs (appendParam array p) (ps.map .param) = _
      rw [ih, appendParam_eq, List.append_assoc]
      by_cases h : p.Utf8
      · rw [if_pos h, elements, elements, List.filter_cons_of_pos (by simpa using h)]
        rfl
      · rw [if_neg h, elements, elements, List.filter_cons_of_neg (by simpa using h)]
        rfl

/-- **THE CALL ARRAY**: the name and the parameters, those left out that are
    not UTF-8. -/
theorem fcallArray_params (fname : Bytes) (ps : List Param) :
    fcallArray fname (ps.map .param)
      = some ((if utf8Valid (cstr fname) then [.str (cstr fname)] else []) ++ elements ps) := by
  rw [fcallArray, appendArgs_params]
  by_cases h : utf8Valid (cstr fname) = true
  · rw [if_pos h, jsonString_of_valid h]
    rfl
  · rw [if_neg h, jsonString, if_neg h]
    rfl

theorem elements_eq {ps : List Param} (h : ∀ p ∈ ps, p.Utf8) :
    elements ps = ps.map Param.element := by
  rw [elements, List.filter_eq_self.mpr (by simpa using h)]

theorem elements_length_lt {ps : List Param} (h : ¬ ∀ p ∈ ps, p.Utf8) :
    (elements ps).length < ps.length := by
  rw [elements, List.length_map]
  refine Nat.lt_of_le_of_ne (List.length_filter_le _ _) (fun heq => h ?_)
  simpa using List.length_filter_eq_length_iff.mp heq

/-! ## Positions -/

/-- Every argument stands where the server looks for it. -/
def InPlace (fname : Bytes) (ps : List Param) (array : List Json) : Prop :=
  array.length = ps.length + 1 ∧ array[0]? = some (.str (cstr fname))
    ∧ ∀ i, (h : i < ps.length) → array[i + 1]? = some (ps[i].element)

/-- **POSITIONS, EXACTLY**: the client refuses the call or sends every argument
    in its place, if and only if the function name and all its string
    parameters are UTF-8. -/
theorem fcallToStr_inPlace_iff (J : Jansson) (fname : Bytes) (ps : List Param) :
    (fcallToStr J fname (ps.map .param) = none
      ∨ ∃ array, fcallToStr J fname (ps.map .param) = some (J.dumps (.arr array) true)
          ∧ fcallArray fname (ps.map .param) = some array ∧ InPlace fname ps array)
    ↔ utf8Valid (cstr fname) = true ∧ ∀ p ∈ ps, p.Utf8 := by
  have harr := fcallArray_params fname ps
  have hstr : fcallToStr J fname (ps.map .param)
      = some (J.dumps (.arr ((if utf8Valid (cstr fname) then [.str (cstr fname)] else [])
          ++ elements ps)) true) := by
    rw [fcallToStr, harr]
    rfl
  constructor
  · rintro (hnone | ⟨array, -, harray, hlen, -, -⟩)
    · rw [hstr] at hnone
      exact nomatch hnone
    · rw [harr, Option.some.injEq] at harray
      rw [← harray, List.length_append] at hlen
      have hle : (elements ps).length ≤ ps.length := by
        rw [elements, List.length_map]
        exact List.length_filter_le _ _
      by_cases hf : utf8Valid (cstr fname) = true
      · refine ⟨hf, ?_⟩
        by_contra hno
        have hlt := elements_length_lt hno
        rw [if_pos hf, List.length_singleton] at hlen
        omega
      · rw [if_neg hf, List.length_nil] at hlen
        omega
  · rintro ⟨hf, hps⟩
    refine Or.inr ⟨_, hstr, harr, ?_⟩
    rw [if_pos hf, elements_eq hps]
    refine ⟨by simp, rfl, fun i hi => ?_⟩
    show (.str (cstr fname) :: ps.map Param.element)[i + 1]? = _
    rw [List.getElem?_cons_succ, List.getElem?_map, List.getElem?_eq_getElem hi]
    rfl

/-- A string that is not UTF-8 makes the next parameter move up. -/
theorem fcallToStr_shifts :
    ¬ (fcallToStr textCodec (ascii "f")
          ([.string (some [0xFF]), .string (some (ascii "x"))].map .param) = none
      ∨ ∃ array, fcallToStr textCodec (ascii "f")
            ([.string (some [0xFF]), .string (some (ascii "x"))].map .param)
              = some (textCodec.dumps (.arr array) true)
          ∧ fcallArray (ascii "f")
            ([.string (some [0xFF]), .string (some (ascii "x"))].map .param) = some array
          ∧ InPlace (ascii "f") [.string (some [0xFF]), .string (some (ascii "x"))] array) := by
  have harr : fcallArray (ascii "f")
      ([.string (some [0xFF]), .string (some (ascii "x"))].map .param)
        = some [.str (ascii "f"), .str (ascii "x")] := by decide
  rintro (hnone | ⟨array, -, harray, hlen, -, -⟩)
  · rw [fcallToStr, harr] at hnone
    exact nomatch hnone
  · rw [harr, Option.some.injEq] at harray
    rw [← harray] at hlen
    exact absurd hlen (by decide)

end SearpcFcall
