import Searpc.GObjectTransferProofs
import Searpc.ReplyProofs

/-! # Silent loss — what a reply without an error may still have lost

    Encoding failures leave no trace in a reply: `json_string` makes no value
    of bytes that are not UTF-8, setting no value leaves the object as it was,
    and a missing member reads as `NULL` or as the default of a property.  So a
    caller may get a value the function did not return, without an error.

    This module says for which values it does not: those whose strings are all
    UTF-8, or stand for what the other side assumes anyway. -/

namespace SearpcReplyLoss

open ByteMemory JsonValue SearpcJansson SearpcGObject SearpcGObjectTransfer SearpcReply

/-- A value that a function of one of the three types with strings may return:
    its strings are C strings, its objects are as their class lists them, and
    the client asks for that class. -/
def Returned (C : Classes) (gtype : GType) : RetVal → Prop
  | .string ret => ∀ s ∈ ret, (0 : UInt8) ∉ s
  | .object ret => ∀ o ∈ ret, o.gtype = gtype ∧ Conforms C o
  | .objlist ret => ∀ o ∈ ret, o.gtype = gtype ∧ Conforms C o
  | _ => False

/-- The reply to a call that set no error. -/
def replyOf (J : Jansson) (v : RetVal) : Bytes := searpcMarshalSetRetCommon J (setRet v) none

/-- What the client delivers without an error is what the function returned. -/
def NoSilentLoss (J : Jansson) (C : Classes) (gtype : GType) (v : RetVal) : Prop :=
  ∀ got, searpcClientFret J C gtype (replyOf J v) v.type = some (got, none) → got = v

/-- All properties of an object come back. -/
def ObjectKept (C : Classes) (o : GObject) : Prop :=
  ∃ klass, C o.gtype = some klass ∧ PropsKept C o.props klass

/-- A string is `NULL` or UTF-8; the properties of objects come back. -/
def Kept (C : Classes) : RetVal → Prop
  | .string (some s) => utf8Valid s = true
  | .object (some o) => ObjectKept C o
  | .objlist ret => ∀ o ∈ ret, ObjectKept C o
  | _ => True

theorem roundTrip_iff_kept {C : Classes} (hnamed : WellNamed C) {o : GObject} (h : Conforms C o) :
    jsonGobjectDeserialize C o.gtype (jsonGobjectSerialize o) = some o ↔ ObjectKept C o := by
  obtain ⟨klass, hC, hfit⟩ := h
  rw [roundTrip_iff hnamed hC hfit]
  constructor
  · exact fun hkept => ⟨klass, hC, hkept⟩
  · rintro ⟨klass', hC', hkept⟩
    rw [hC, Option.some.injEq] at hC'
    exact hC' ▸ hkept

theorem setRet_string_invalid {s : Bytes} (hnul : (0 : UInt8) ∉ s) (hutf : ¬ utf8Valid s = true) :
    setRet (.string (some s)) = [] := by
  show jsonObjectSetNew [] (ascii "ret") (jsonString (cstr s)) = []
  rw [cstr_eq_self hnul, jsonString, if_neg hutf]
  rfl

/-- One value is delivered, so there is one to compare. -/
theorem noSilentLoss_iff_of_fret {J : Jansson} {C : Classes} {gtype : GType} {v got : RetVal}
    (hfret : searpcClientFret J C gtype (replyOf J v) v.type = some (got, none)) :
    NoSilentLoss J C gtype v ↔ got = v := by
  constructor
  · exact fun h => h got hfret
  · intro heq got' hfret'
    rw [hfret, Option.some.injEq, Prod.mk.injEq] at hfret'
    exact hfret'.1.symm.trans heq

/-- Lists come back as they were when each object does. -/
theorem forall₂_eq_iff {C : Classes} (hnamed : WellNamed C) {gtype : GType} {os os' : List GObject}
    (hos : ∀ o ∈ os, o.gtype = gtype ∧ Conforms C o)
    (hall : List.Forall₂ (fun o o' =>
      jsonGobjectDeserialize C gtype (jsonGobjectSerialize o) = some o') os os') :
    os' = os ↔ ∀ o ∈ os, ObjectKept C o := by
  induction hall with
  | nil => exact iff_of_true rfl (by rintro o ⟨⟩)
  | cons hhead htail ih =>
      rename_i o o' os os'
      obtain ⟨rfl, hconf⟩ := hos o List.mem_cons_self
      have hone := roundTrip_iff_kept hnamed hconf
      rw [hhead, Option.some.injEq] at hone
      rw [List.cons.injEq, hone, ih (fun q hq => hos q (List.mem_cons_of_mem _ hq)),
        List.forall_mem_cons]

/-- A value with a member `ret` is decoded from it. -/
theorem fret_carried {J : Jansson} {C : Classes} {gtype : GType} {v : RetVal}
    (hload : J.loadb (replyOf J v) = .ok (.obj (setRet v)))
    (hC : v.type = .objlist → (C gtype).isSome) (hv : v.Carried (fun _ => True)) :
    ∃ got, searpcClientFret J C gtype (replyOf J v) v.type = some (got, none)
      ∧ v.Received C gtype got := by
  refine decode_element hC hv (handleRetCommon_ok_iff.mpr ⟨?_, ?_⟩)
  · rw [hload, setRet_eq hv]
  · have hne : ascii "ret" ≠ ascii "err_code" := by decide
    simp only [jsonObjectGet, memberGet_cons, if_neg hne, memberGet_nil]

/-- What the client makes of a reply that parses. -/
theorem noSilentLoss_of_parsed {J : Jansson} {C : Classes} (hnamed : WellNamed C) {gtype : GType}
    {v : RetVal} (hv : Returned C gtype v)
    (hload : J.loadb (replyOf J v) = .ok (.obj (setRet v))) :
    NoSilentLoss J C gtype v ↔ Kept C v := by
  cases v with
  | string ret =>
      cases ret with
      | none =>
          obtain ⟨got, hfret, hrec⟩ := fret_carried hload (by rintro ⟨⟩) trivial
          rw [noSilentLoss_iff_of_fret hfret]
          exact iff_of_true hrec trivial
      | some s =>
          have hnul := hv s rfl
          by_cases hutf : utf8Valid s = true
          · obtain ⟨got, hfret, hrec⟩ := fret_carried hload (by rintro ⟨⟩) ⟨hutf, hnul⟩
            rw [noSilentLoss_iff_of_fret hfret]
            exact iff_of_true hrec hutf
          · -- the member is missing and reads as `NULL`
            rw [setRet_string_invalid hnul hutf] at hload
            have hfret : searpcClientFret J C gtype (replyOf J (.string (some s))) .string
                = some (.string none, none) := by
              simp only [searpcClientFret, searpcClientFretString, fretWith, handleRetCommon, hload,
                jsonObjectGet, memberGet_nil]
              rfl
            rw [noSilentLoss_iff_of_fret hfret]
            exact iff_of_false (by rintro ⟨⟩) hutf
  | object ret =>
      cases ret with
      | none =>
          obtain ⟨got, hfret, hrec⟩ := fret_carried hload (by rintro ⟨⟩) trivial
          rw [noSilentLoss_iff_of_fret hfret]
          exact iff_of_true hrec trivial
      | some o =>
          obtain ⟨got, hfret, hrec⟩ := fret_carried hload (by rintro ⟨⟩) trivial
          obtain ⟨rfl, hconf⟩ := hv o rfl
          rw [noSilentLoss_iff_of_fret hfret, show got = _ from hrec, RetVal.object.injEq]
          exact roundTrip_iff_kept hnamed hconf
  | objlist ret =>
      cases ret with
      | nil =>
          have hfret : searpcClientFret J C gtype (replyOf J (.objlist [])) .objlist
              = some (.objlist [], none) := by
            simp only [searpcClientFret, searpcClientFretObjlist, fretWith,
              handleRetCommon_ok_iff.mpr ⟨hload, rfl⟩]
            rfl
          rw [noSilentLoss_iff_of_fret hfret]
          exact iff_of_true rfl (by rintro o ⟨⟩)
      | cons o os =>
          obtain ⟨hgtype, klass, hklass, -⟩ := hv o List.mem_cons_self
          have hsome : (C gtype).isSome := by
            rw [← hgtype, hklass]
            rfl
          obtain ⟨got, hfret, os', rfl, hall⟩ := fret_carried hload (fun _ => hsome) trivial
          rw [noSilentLoss_iff_of_fret hfret, RetVal.objlist.injEq]
          exact forall₂_eq_iff hnamed hv hall
  | int ret => exact hv.elim
  | int64 ret => exact hv.elim
  | json ret => exact hv.elim

/-- A reply that is refused makes every decoder report the parser's error. -/
theorem searpcClientFret_refused {J : Jansson} {data text : Bytes}
    (h : J.loadb data = .error text) (C : Classes) (gtype : GType) (type : RpcType) :
    searpcClientFret J C gtype data type
      = some (failedRet type, some ⟨.searpcJson, 0, cstr text⟩) := by
  refine searpcClientFret_of_common ?_ C gtype type
  simp only [handleRetCommon, h]

/-- **NO SILENT LOSS, EXACTLY**: over a codec that reads back what it wrote or
    refuses it, a caller that gets no error gets the value the function
    returned, if and only if the reply is refused or every string, at every
    depth, is `NULL` or UTF-8 or, as a property, the default of its class. -/
theorem noSilentLoss_iff {J : Jansson} {C : Classes} (hnamed : WellNamed C) {gtype : GType}
    {v : RetVal} (hv : Returned C gtype v)
    (hread : ∀ object, J.loadb (replyOf J v) = .ok object → object = .obj (setRet v)) :
    NoSilentLoss J C gtype v ↔ (∃ text, J.loadb (replyOf J v) = .error text) ∨ Kept C v := by
  cases hload : J.loadb (replyOf J v) with
  | error text =>
      refine iff_of_true ?_ (Or.inl ⟨text, rfl⟩)
      intro got hfret
      rw [searpcClientFret_refused hload, Option.some.injEq, Prod.mk.injEq] at hfret
      cases hfret.2
  | ok object =>
      rw [hread object hload] at hload
      rw [noSilentLoss_of_parsed hnamed hv hload]
      constructor
      · exact Or.inr
      · rintro (⟨text, herr⟩ | hkept)
        · cases herr
        · exact hkept

/-- A list of one object comes through. -/
theorem noSilentLoss_nodes : NoSilentLoss textCodec nodeClasses 1 (.objlist [nodes]) := by
  have hv : Returned nodeClasses 1 (.objlist [nodes]) := by
    intro o ho
    rw [List.mem_singleton.mp ho]
    exact ⟨rfl, nodes_conforms⟩
  have hload : textCodec.loadb (replyOf textCodec (.objlist [nodes]))
      = .ok (.obj (setRet (.objlist [nodes]))) := by decide +kernel
  have hread : ∀ object, textCodec.loadb (replyOf textCodec (.objlist [nodes])) = .ok object →
      object = .obj (setRet (.objlist [nodes])) := by
    intro object h
    rw [hload] at h
    exact (Except.ok.inj h).symm
  have hkept : Kept nodeClasses (.objlist [nodes]) := by
    intro o ho
    rw [List.mem_singleton.mp ho]
    obtain ⟨-, klass, hC, hprops⟩ := nodes_clean
    obtain ⟨klass', hC', hfit⟩ := nodes_conforms
    rw [hC, Option.some.injEq] at hC'
    subst hC'
    exact ⟨klass, hC, propsKept_of_clean nodeClasses_plain rfl hC _ _ (fun _ h => h) hfit hprops⟩
  exact (noSilentLoss_iff nodeClasses_wellNamed hv hread).mpr (Or.inr hkept)

/-- A string that is not UTF-8 comes back as `NULL`, without an error. -/
theorem string_silently_lost :
    ¬ ∀ v, Returned nodeClasses 1 v → NoSilentLoss textCodec nodeClasses 1 v := by
  intro h
  have hload : textCodec.loadb (replyOf textCodec (.string (some [0xFF]))) = .ok (.obj []) := by
    decide +kernel
  have hfret : searpcClientFret textCodec nodeClasses 1
      (replyOf textCodec (.string (some [0xFF]))) .string = some (.string none, none) := by
    simp only [searpcClientFret, searpcClientFretString, fretWith, handleRetCommon, hload]
    rfl
  have hreturned : Returned nodeClasses 1 (.string (some [0xFF])) := by
    rintro s ⟨⟩
    decide
  have heq := h _ hreturned _ hfret
  cases heq

end SearpcReplyLoss
