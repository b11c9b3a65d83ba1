import Searpc.GObjectProofs

/-! # Objects across the wire — serialised, then deserialised

    The serialiser switches on the type of a property, the deserialiser on the
    type of the JSON value, and the two have to pair up.  An object comes back
    with every property that was transmitted, and with the class's default for
    every other one; `received` says so for one level and the recursion over
    nested objects turns it into an exact condition, `PropsKept`.

    The only property of an ordinary class that is not transmitted is a string
    that is not UTF-8.  Without such strings the round trip is the identity. -/

namespace SearpcGObjectTransfer

open ByteMemory JsonValue SearpcGObject

/-! ## Integers

    Every integer type passes through the codec's signed 64 bits. -/

theorem uint8_ofInt_toNat (v : UInt8) : UInt8.ofInt (v.toNat : Int) = v := by
  have hlt : v.toNat < 256 := v.toNat_lt
  have hmod : ((v.toNat : Int) % 2 ^ 8).toNat = v.toNat := by omega
  rw [UInt8.ofInt, hmod, UInt8.ofNat_toNat]

theorem uint32_ofInt_toNat (v : UInt32) : UInt32.ofInt (v.toNat : Int) = v := by
  have hlt : v.toNat < 4294967296 := v.toNat_lt
  have hmod : ((v.toNat : Int) % 2 ^ 32).toNat = v.toNat := by omega
  rw [UInt32.ofInt, hmod, UInt32.ofNat_toNat]

/-- From `2 ^ 63` on the number is negative on the wire. -/
theorem uint64_ofInt_toInt64 (v : UInt64) : UInt64.ofInt v.toInt64.toInt = v := by
  have hsigned : v.toInt64.toInt = (v.toNat : Int).bmod (2 ^ 64) := BitVec.toInt_eq_toNat_bmod _
  have hlt : v.toNat < 2 ^ 64 := v.toNat_lt
  have hmod : (v.toInt64.toInt % 2 ^ 64).toNat = v.toNat := by
    rw [hsigned, show ((2 : Int) ^ 64) = ((2 ^ 64 : Nat) : Int) from rfl, Int.bmod_emod]
    omega
  rw [UInt64.ofInt, hmod, UInt64.ofNat_toNat]

/-! ## One level -/

/-- What GObject guarantees of every class: names are in canonical spelling,
    and no two properties share one. -/
def WellNamed (C : Classes) : Prop :=
  ∀ gtype klass, C gtype = some klass →
    (klass.map Pspec.name).Nodup ∧ ∀ p ∈ klass, canonical p.name = p.name

/-- The members of a serialised object. -/
def members (props : List (Bytes × GValue)) : List (Bytes × Json) :=
  props.filterMap (fun x => (jsonSerializePspec x.2).map (fun node => (x.1, node)))

/-- The value the other side sets for a property, if it sets one. -/
def transmitted (C : Classes) (p : Pspec) (v : GValue) : Option GValue :=
  if p.constructOnly ∨ ¬ p.writable then none
  else (jsonSerializePspec v).bind (jsonDeserializePspec C p.type)

/-- The properties the other side sets. -/
def paramsOf (C : Classes) : List Pspec → List (Bytes × GValue) → List (Bytes × GValue)
  | p :: ps, (_, v) :: props =>
      match transmitted C p v with
      | some w => (p.name, w) :: paramsOf C ps props
      | none => paramsOf C ps props
  | _, _ => []

/-- The properties of the object that comes back. -/
def received (C : Classes) : List Pspec → List (Bytes × GValue) → List (Bytes × GValue)
  | p :: ps, (_, v) :: props =>
      (p.name, (transmitted C p v).getD p.default) :: received C ps props
  | _, _ => []

theorem memberSet_fresh {ms : List (Bytes × Json)} {k : Bytes} (h : k ∉ ms.map Prod.fst)
    (v : Json) :
    memberSet ms k v = ms ++ [(k, v)] := by
  induction ms with
  | nil => rfl
  | cons m ms ih =>
      rw [List.map_cons, List.mem_cons, not_or] at h
      rw [memberSet, if_neg (Ne.symm h.1), ih h.2]
      rfl

/-- No member is set twice, so the loop only appends. -/
theorem serializeProps_eq {object : List (Bytes × Json)} {props : List (Bytes × GValue)}
    (hnd : (object.map Prod.fst ++ props.map Prod.fst).Nodup) :
    serializeProps object props = object ++ members props := by
  induction props generalizing object with
  | nil =>
      show object = object ++ []
      rw [List.append_nil]
  | cons x props ih =>
      obtain ⟨name, value⟩ := x
      have hfresh : name ∉ object.map Prod.fst := by
        intro hmem
        exact (List.nodup_append.mp hnd).2.2 name hmem name List.mem_cons_self rfl
      rw [serializeProps]
      cases hnode : jsonSerializePspec value with
      | none =>
          have hnd' : (object.map Prod.fst ++ props.map Prod.fst).Nodup :=
            hnd.sublist (List.Sublist.append_left (List.sublist_cons_self _ _) _)
          rw [show jsonObjectSetNew object name none = object from rfl, ih hnd', members, members,
            List.filterMap_cons_none (by rw [hnode]; rfl)]
      | some node =>
          have hset : jsonObjectSetNew object name (some node) = object ++ [(name, node)] :=
            memberSet_fresh hfresh node
          have hnd' : ((object ++ [(name, node)]).map Prod.fst ++ props.map Prod.fst).Nodup := by
            rw [List.map_append, List.append_assoc]
            exact hnd
          rw [hset, ih hnd', members, members, List.append_assoc,
            List.filterMap_cons_some (b := (name, node)) (by rw [hnode]; rfl)]
          rfl

theorem findProperty_eq {klass : List Pspec} (hnd : (klass.map Pspec.name).Nodup)
    (hcanon : ∀ p ∈ klass, canonical p.name = p.name) {p : Pspec} (hp : p ∈ klass) :
    gObjectClassFindProperty klass p.name = some p := by
  rw [gObjectClassFindProperty, hcanon p hp]
  induction klass with
  | nil => cases hp
  | cons q klass ih =>
      rw [List.map_cons, List.nodup_cons] at hnd
      rcases List.mem_cons.mp hp with rfl | hmem
      · rw [List.find?_cons_of_pos (by simp)]
      · have hne : q.name ≠ p.name := by
          intro heq
          exact hnd.1 (heq ▸ List.mem_map_of_mem hmem)
        rw [List.find?_cons_of_neg (by simpa using hne)]
        exact ih hnd.2 (fun r hr => hcanon r (List.mem_cons_of_mem _ hr)) hmem

/-- The loop over the members finds each property by its name. -/
theorem constructParams_members {C : Classes} {gtype : GType} {klass : List Pspec}
    (hC : C gtype = some klass) (hnamed : WellNamed C) {ps : List Pspec}
    {props : List (Bytes × GValue)} (hsub : ∀ p ∈ ps, p ∈ klass)
    (hnames : props.map Prod.fst = ps.map Pspec.name) :
    constructParams C gtype (members props) = paramsOf C ps props := by
  obtain ⟨hnd, hcanon⟩ := hnamed gtype klass hC
  induction ps generalizing props with
  | nil =>
      rw [List.map_nil, List.map_eq_nil_iff] at hnames
      rw [hnames]
      rfl
  | cons p ps ih =>
      cases props with
      | nil => cases hnames
      | cons x props =>
          obtain ⟨name, value⟩ := x
          rw [List.map_cons, List.map_cons, List.cons.injEq] at hnames
          obtain ⟨rfl, hnames⟩ := hnames
          have hrest := ih (fun q hq => hsub q (List.mem_cons_of_mem _ hq)) hnames
          have hfind := findProperty_eq hnd hcanon (hsub p List.mem_cons_self)
          cases hnode : jsonSerializePspec value with
          | none =>
              have htrans : transmitted C p value = none := by
                rw [transmitted, hnode, Option.bind_none, ite_self]
              rw [members, List.filterMap_cons_none (by rw [hnode]; rfl), paramsOf, htrans]
              exact hrest
          | some node =>
              rw [members, List.filterMap_cons_some (b := (p.name, node)) (by rw [hnode]; rfl),
                constructParams, hC, Option.getD_some, hfind, paramsOf, transmitted, hnode,
                Option.bind_some]
              by_cases hskip : p.constructOnly ∨ ¬ p.writable
              · simp only [if_pos hskip]
                exact hrest
              · simp only [if_neg hskip]
                cases jsonDeserializePspec C p.type node with
                | none => exact hrest
                | some w => exact congrArg ((p.name, w) :: ·) hrest

theorem paramValue_cons (name : Bytes) (w : GValue) (params : List (Bytes × GValue)) (k : Bytes) :
    paramValue ((name, w) :: params) k
      = (paramValue params k).or (if name = k then some w else none) := by
  rw [paramValue, paramValue, List.reverse_cons, List.find?_append]
  cases params.reverse.find? (fun p => p.1 = k) with
  | some x => rfl
  | none =>
      by_cases h : name = k
      · simp [h]
      · simp [h]

theorem paramValue_absent {params : List (Bytes × GValue)} {k : Bytes}
    (h : k ∉ params.map Prod.fst) : paramValue params k = none := by
  induction params with
  | nil => rfl
  | cons x params ih =>
      obtain ⟨name, w⟩ := x
      rw [List.map_cons, List.mem_cons, not_or] at h
      rw [paramValue_cons, ih h.2, if_neg (Ne.symm h.1)]
      rfl

theorem paramsOf_names (C : Classes) (ps : List Pspec) (props : List (Bytes × GValue)) :
    ∀ k ∈ (paramsOf C ps props).map Prod.fst, k ∈ ps.map Pspec.name := by
  induction ps generalizing props with
  | nil =>
      intro k hk
      cases hk
  | cons p ps ih =>
      intro k hk
      cases props with
      | nil => cases hk
      | cons x props =>
          rw [paramsOf] at hk
          rw [List.map_cons, List.mem_cons]
          cases htrans : transmitted C p x.2 with
          | none =>
              simp only [htrans] at hk
              exact Or.inr (ih props k hk)
          | some w =>
              simp only [htrans, List.map_cons, List.mem_cons] at hk
              exact hk.imp id (ih props k)

/-- `g_object_newv` gives each property what was set for it, or its default. -/
theorem newv_paramsOf {C : Classes} {ps : List Pspec} {props : List (Bytes × GValue)}
    (hnd : (ps.map Pspec.name).Nodup) (hlen : props.length = ps.length) :
    ps.map (fun p => (p.name, (paramValue (paramsOf C ps props) p.name).getD p.default))
      = received C ps props := by
  induction ps generalizing props with
  | nil => rfl
  | cons p ps ih =>
      cases props with
      | nil => cases hlen
      | cons x props =>
          rw [List.map_cons, List.nodup_cons] at hnd
          have habsent : paramValue (paramsOf C ps props) p.name = none :=
            paramValue_absent (fun hmem => hnd.1 (paramsOf_names C ps props _ hmem))
          have hrest := ih hnd.2 (Nat.succ.inj hlen)
          rw [List.map_cons, received, ← hrest, paramsOf]
          cases htrans : transmitted C p x.2 with
          | none => rw [habsent]
          | some w =>
              have hhead : paramValue ((p.name, w) :: paramsOf C ps props) p.name = some w := by
                rw [paramValue_cons, habsent, if_pos rfl]
                rfl
              rw [hhead]
              refine congrArg _ (List.map_congr_left ?_)
              intro q hq
              have hne : p.name ≠ q.name := by
                intro heq
                exact hnd.1 (heq ▸ List.mem_map_of_mem hq)
              rw [paramValue_cons, if_neg hne, Option.or_none]

/-- **ONE LEVEL**: the object comes back with what was transmitted of each
    property. -/
theorem jsonGobjectDeserialize_serialize {C : Classes} (hnamed : WellNamed C) {gtype : GType}
    {klass : List Pspec} (hC : C gtype = some klass) {props : List (Bytes × GValue)}
    (hnames : props.map Prod.fst = klass.map Pspec.name) :
    jsonGobjectDeserialize C gtype (jsonGobjectSerialize ⟨gtype, props⟩)
      = some ⟨gtype, received C klass props⟩ := by
  have hnd := (hnamed gtype klass hC).1
  have hser : serializeProps [] props = members props := by
    rw [serializeProps_eq (by rw [List.map_nil, List.nil_append, hnames]; exact hnd),
      List.nil_append]
  have hlen : props.length = klass.length := by
    rw [← List.length_map Prod.fst, hnames, List.length_map]
  rw [jsonGobjectSerialize, jsonGobjectDeserialize, hser,
    constructParams_members hC hnamed (fun _ h => h) hnames, gObjectNewv, hC, Option.map_some,
    newv_paramsOf hnd hlen]

/-! ## Every level -/

mutual
/-- A value that a property of the type can hold; the class of an object may
    be a subclass of the declared one. -/
def Fits (C : Classes) : GValue → ValueType → Prop
  | .string none, type => type = .string
  | .string (some s), type => type = .string ∧ (0 : UInt8) ∉ s
  | .boolean _, type => type = .boolean
  | .int _, type => type = .int
  | .uint _, type => type = .uint
  | .long _, type => type = .long
  | .ulong _, type => type = .ulong
  | .int64 _, type => type = .int64
  | .float _, type => type = .float
  | .double _, type => type = .double
  | .char _, type => type = .char
  | .uchar _, type => type = .uchar
  | .enum _, type => type = .enum
  | .flags _, type => type = .flags
  | .nullObject, type => ∃ declared, type = .object declared
  | .object gtype props, type =>
      (∃ declared, type = .object declared) ∧ ∃ klass, C gtype = some klass ∧ PropsFit C props klass
  | .unsupported, type => type = .unsupported

/-- Properties as a class lists them. -/
def PropsFit (C : Classes) : List (Bytes × GValue) → List Pspec → Prop
  | [], ps => ps = []
  | (name, value) :: props, ps =>
      ∃ p rest, ps = p :: rest ∧ name = p.name ∧ Fits C value p.type ∧ PropsFit C props rest
end

/-- The property is passed over on the other side. -/
def Skipped (p : Pspec) : Prop := p.constructOnly = true ∨ ¬ p.writable = true

/-- The value makes no member, or one that no property takes. -/
def Dropped : GValue → Prop
  | .string (some s) => ¬ utf8Valid s = true
  | .float bits => jsonReal (Float32.ofBits bits).toFloat.toBits = none
  | .double bits => jsonReal bits = none
  | .unsupported => True
  | _ => False

mutual
/-- The value itself is set on the other side. -/
def Arrives (C : Classes) : GValue → ValueType → Prop
  | .string (some s), _ => utf8Valid s = true
  | .float bits, _ => ∃ real, jsonReal (Float32.ofBits bits).toFloat.toBits = some (.real real)
      ∧ (Float.ofBits real).toFloat32.toBits = bits
  | .double bits, _ => jsonReal bits ≠ none
  | .object gtype props, type =>
      type = .object gtype ∧ ∃ klass, C gtype = some klass ∧ PropsKept C props klass
  | .unsupported, _ => False
  | _, _ => True

/-- Every property comes back with its value: the value arrives, or it does
    not and is the class's default. -/
def PropsKept (C : Classes) : List (Bytes × GValue) → List Pspec → Prop
  | [], _ => True
  | (_, value) :: props, ps => ∃ p rest, ps = p :: rest
      ∧ (¬ Skipped p ∧ Arrives C value p.type ∨ (Skipped p ∨ Dropped value) ∧ value = p.default)
      ∧ PropsKept C props rest
end

theorem propsFit_names {C : Classes} {props : List (Bytes × GValue)} {ps : List Pspec}
    (h : PropsFit C props ps) : props.map Prod.fst = ps.map Pspec.name := by
  induction props generalizing ps with
  | nil =>
      rw [show ps = [] from h]
      rfl
  | cons x props ih =>
      obtain ⟨name, value⟩ := x
      obtain ⟨p, rest, rfl, rfl, -, hrest⟩ := h
      rw [List.map_cons, List.map_cons, ih hrest]

/-- Where a property is read, what is transmitted is what the two switches make
    of the value. -/
theorem transmitted_of_not_skipped {p : Pspec} (h : ¬ Skipped p) (C : Classes) (v : GValue) :
    transmitted C p v = (jsonSerializePspec v).bind (jsonDeserializePspec C p.type) := if_neg h

theorem transmitted_of_skipped {p : Pspec} (h : Skipped p) (C : Classes) (v : GValue) :
    transmitted C p v = none := if_pos h

theorem jsonReal_cases (bits : UInt64) :
    jsonReal bits = some (.real bits) ∨ jsonReal bits = none := by
  rw [jsonReal]
  by_cases h : (Float.ofBits bits).isFinite = true
  · rw [if_pos h]
    exact Or.inl rfl
  · rw [if_neg h]
    exact Or.inr rfl

/-- What the two switches make of one value: the value back, nothing, or
    something else. -/
def crossed (C : Classes) (v : GValue) (type : ValueType) : Option GValue :=
  (jsonSerializePspec v).bind (jsonDeserializePspec C type)

/-- A value is dropped when it makes no member or one of the wrong type. -/
theorem crossed_eq_none_iff {C : Classes} {v : GValue} {type : ValueType} (h : Fits C v type) :
    crossed C v type = none ↔ Dropped v := by
  cases v with
  | string value =>
      cases value with
      | none =>
          rw [show type = .string from h]
          exact iff_of_false (Option.some_ne_none _) id
      | some s =>
          obtain ⟨rfl, hnul⟩ := h
          rw [crossed, jsonSerializePspec, cstr_eq_self hnul, jsonString]
          by_cases hutf : utf8Valid s = true
          · rw [if_pos hutf]
            exact iff_of_false (Option.some_ne_none _) (fun hd => hd hutf)
          · rw [if_neg hutf]
            exact iff_of_true rfl hutf
  | float bits =>
      rw [show type = .float from h, crossed, jsonSerializePspec, Dropped]
      rcases jsonReal_cases (Float32.ofBits bits).toFloat.toBits with hreal | hreal
      · rw [hreal]
        exact iff_of_false (Option.some_ne_none _) (Option.some_ne_none _)
      · rw [hreal]
        exact iff_of_true rfl rfl
  | double bits =>
      rw [show type = .double from h, crossed, jsonSerializePspec, Dropped]
      rcases jsonReal_cases bits with hreal | hreal
      · rw [hreal]
        exact iff_of_false (Option.some_ne_none _) (Option.some_ne_none _)
      · rw [hreal]
        exact iff_of_true rfl rfl
  | object gtype props =>
      obtain ⟨⟨declared, rfl⟩, -⟩ := h
      exact iff_of_false (Option.some_ne_none _) id
  | nullObject =>
      obtain ⟨declared, rfl⟩ := h
      exact iff_of_false (Option.some_ne_none _) id
  | unsupported =>
      rw [show type = .unsupported from h]
      exact iff_of_true rfl trivial
  | _ =>
      subst h
      exact iff_of_false (Option.some_ne_none _) id

/-- An object crosses as the object that comes back. -/
theorem crossed_object {C : Classes} (hnamed : WellNamed C) {gtype declared : GType}
    {klass : List Pspec} (hC : C gtype = some klass) {props : List (Bytes × GValue)}
    (hfit : PropsFit C props klass) :
    crossed C (.object gtype props) (.object declared) = some (.object gtype props)
      ↔ declared = gtype ∧ received C klass props = props := by
  have hcross : crossed C (.object gtype props) (.object declared)
      = some (valueOfObject (jsonGobjectDeserialize C declared
          (jsonGobjectSerialize ⟨gtype, props⟩))) := rfl
  rw [hcross, Option.some.injEq]
  constructor
  · intro h
    have hdeclared : declared = gtype := by
      rw [jsonGobjectSerialize, jsonGobjectDeserialize, gObjectNewv] at h
      cases hdec : C declared with
      | none =>
          rw [hdec] at h
          cases h
      | some dklass =>
          rw [hdec] at h
          exact (GValue.object.inj h).1
    refine ⟨hdeclared, ?_⟩
    rw [hdeclared, jsonGobjectDeserialize_serialize hnamed hC (propsFit_names hfit)] at h
    exact (GValue.object.inj h).2
  · rintro ⟨rfl, hback⟩
    rw [jsonGobjectDeserialize_serialize hnamed hC (propsFit_names hfit), hback]
    rfl

/-- A string crosses when it is UTF-8. -/
theorem crossed_string {C : Classes} {s : Bytes} (hnul : (0 : UInt8) ∉ s) :
    crossed C (.string (some s)) .string = some (.string (some s)) ↔ utf8Valid s = true := by
  rw [crossed, jsonSerializePspec, cstr_eq_self hnul, jsonString]
  by_cases hutf : utf8Valid s = true
  · rw [if_pos hutf]
    refine iff_of_true ?_ hutf
    show some (GValue.string (some (cstr s))) = _
    rw [cstr_eq_self hnul]
  · rw [if_neg hutf]
    exact iff_of_false (by rintro ⟨⟩) hutf

/-- A float crosses when it is finite and survives the conversion. -/
theorem crossed_float {C : Classes} (bits : UInt32) :
    crossed C (.float bits) .float = some (.float bits) ↔ Arrives C (.float bits) .float := by
  rw [crossed, jsonSerializePspec, Arrives]
  rcases jsonReal_cases (Float32.ofBits bits).toFloat.toBits with hreal | hreal
  · rw [hreal]
    constructor
    · intro hback
      exact ⟨_, rfl, GValue.float.inj (Option.some.inj hback)⟩
    · rintro ⟨real, hr, hback⟩
      cases hr
      exact congrArg (fun b => some (GValue.float b)) hback
  · rw [hreal]
    refine iff_of_false (by rintro ⟨⟩) ?_
    rintro ⟨real, hr, -⟩
    cases hr

/-- A double crosses when it is finite. -/
theorem crossed_double {C : Classes} (bits : UInt64) :
    crossed C (.double bits) .double = some (.double bits)
      ↔ Arrives C (.double bits) .double := by
  rw [crossed, jsonSerializePspec, Arrives]
  rcases jsonReal_cases bits with hreal | hreal
  · rw [hreal]
    exact iff_of_true rfl (Option.some_ne_none _)
  · rw [hreal]
    exact iff_of_false (by rintro ⟨⟩) (fun hne => hne rfl)

mutual
/-- **A VALUE ARRIVES** exactly when the two switches pair up on it. -/
theorem crossed_eq_some_iff {C : Classes} (hnamed : WellNamed C) :
    ∀ (v : GValue) (type : ValueType), Fits C v type →
      (crossed C v type = some v ↔ Arrives C v type)
  | .string none, type, h => by
      rw [show type = .string from h]
      exact iff_of_true rfl trivial
  | .string (some s), type, h => by
      obtain ⟨rfl, hnul⟩ := h
      exact crossed_string hnul
  | .boolean b, type, h => by
      rw [show type = .boolean from h]
      exact iff_of_true rfl trivial
  | .int value, type, h => by
      rw [show type = .int from h]
      exact iff_of_true (congrArg (fun i => some (GValue.int i)) (Int32.ofInt_toInt value)) trivial
  | .uint value, type, h => by
      rw [show type = .uint from h]
      exact iff_of_true (congrArg (fun i => some (GValue.uint i)) (uint32_ofInt_toNat value))
        trivial
  | .long value, type, h => by
      rw [show type = .long from h]
      exact iff_of_true (congrArg (fun i => some (GValue.long i)) (Int64.ofInt_toInt value)) trivial
  | .ulong value, type, h => by
      rw [show type = .ulong from h]
      exact iff_of_true (congrArg (fun i => some (GValue.ulong i)) (uint64_ofInt_toInt64 value))
        trivial
  | .int64 value, type, h => by
      rw [show type = .int64 from h]
      exact iff_of_true (congrArg (fun i => some (GValue.int64 i)) (Int64.ofInt_toInt value))
        trivial
  | .float bits, type, h => by
      rw [show type = .float from h]
      exact crossed_float bits
  | .double bits, type, h => by
      rw [show type = .double from h]
      exact crossed_double bits
  | .char value, type, h => by
      rw [show type = .char from h]
      exact iff_of_true (congrArg (fun i => some (GValue.char i)) (Int8.ofInt_toInt value)) trivial
  | .uchar value, type, h => by
      rw [show type = .uchar from h]
      exact iff_of_true (congrArg (fun i => some (GValue.uchar i)) (uint8_ofInt_toNat value))
        trivial
  | .enum value, type, h => by
      rw [show type = .enum from h]
      exact iff_of_true (congrArg (fun i => some (GValue.enum i)) (Int32.ofInt_toInt value)) trivial
  | .flags value, type, h => by
      rw [show type = .flags from h]
      exact iff_of_true (congrArg (fun i => some (GValue.flags i)) (uint32_ofInt_toNat value))
        trivial
  | .nullObject, type, h => by
      obtain ⟨declared, rfl⟩ := h
      exact iff_of_true rfl trivial
  | .object gtype props, type, h => by
      obtain ⟨⟨declared, rfl⟩, klass, hC, hfit⟩ := h
      rw [crossed_object hnamed hC hfit, received_eq_iff hnamed props klass hfit]
      constructor
      · rintro ⟨rfl, hkept⟩
        exact ⟨rfl, klass, hC, hkept⟩
      · rintro ⟨htype, klass', hC', hkept⟩
        cases htype
        rw [hC, Option.some.injEq] at hC'
        exact ⟨rfl, hC' ▸ hkept⟩
  | .unsupported, type, h => by
      rw [show type = .unsupported from h]
      exact iff_of_false (by rintro ⟨⟩) id

/-- **ALL PROPERTIES COME BACK** exactly when each arrives or is a default. -/
theorem received_eq_iff {C : Classes} (hnamed : WellNamed C) :
    ∀ (props : List (Bytes × GValue)) (ps : List Pspec), PropsFit C props ps →
      (received C ps props = props ↔ PropsKept C props ps)
  | [], ps, h => by
      rw [show ps = [] from h]
      exact iff_of_true rfl trivial
  | (name, value) :: props, ps, h => by
      obtain ⟨p, rest, rfl, rfl, hvalue, hrest⟩ := h
      have hone : (transmitted C p value).getD p.default = value
          ↔ ¬ Skipped p ∧ Arrives C value p.type
            ∨ (Skipped p ∨ Dropped value) ∧ value = p.default := by
        rw [Option.getD_eq_iff, eq_comm (a := p.default)]
        by_cases hskip : Skipped p
        · rw [transmitted_of_skipped hskip]
          constructor
          · rintro (hsome | ⟨-, hdefault⟩)
            · cases hsome
            · exact Or.inr ⟨Or.inl hskip, hdefault⟩
          · rintro (⟨hno, -⟩ | ⟨-, hdefault⟩)
            · exact absurd hskip hno
            · exact Or.inr ⟨rfl, hdefault⟩
        · rw [transmitted_of_not_skipped hskip]
          refine or_congr ?_ (and_congr_left' ?_)
          · exact (crossed_eq_some_iff hnamed value p.type hvalue).trans
              ⟨fun h => ⟨hskip, h⟩, fun h => h.2⟩
          · exact (crossed_eq_none_iff hvalue).trans
              ⟨Or.inr, fun h => h.resolve_left hskip⟩
      rw [received, List.cons.injEq, Prod.mk.injEq, hone, received_eq_iff hnamed props rest hrest,
        PropsKept]
      constructor
      · rintro ⟨⟨-, hkept⟩, htail⟩
        exact ⟨p, rest, rfl, hkept, htail⟩
      · rintro ⟨q, rest', heq, hkept, htail⟩
        cases heq
        exact ⟨⟨rfl, hkept⟩, htail⟩
end

/-! ## The round trip -/

/-- An object as its class lists it. -/
def Conforms (C : Classes) (o : GObject) : Prop :=
  ∃ klass, C o.gtype = some klass ∧ PropsFit C o.props klass

/-- The types both switches know, floating point apart. -/
def PlainType : ValueType → Prop
  | .float => False
  | .double => False
  | .unsupported => False
  | _ => True

/-- Classes whose properties are written back and have plain types, closed
    under the classes of object properties.  A class may mention itself. -/
structure Plain (C : Classes) (S : GType → Prop) : Prop where
  registered : ∀ gtype, S gtype → ∃ klass, C gtype = some klass
  written    : ∀ gtype klass p, S gtype → C gtype = some klass → p ∈ klass →
    p.writable = true ∧ p.constructOnly = false
  types      : ∀ gtype klass p, S gtype → C gtype = some klass → p ∈ klass → PlainType p.type
  nested     : ∀ gtype klass p declared, S gtype → C gtype = some klass → p ∈ klass →
    p.type = .object declared → S declared

mutual
/-- Strings are `NULL` or UTF-8, objects `NULL` or of exactly the declared
    class, at every depth. -/
def Clean (C : Classes) : GValue → ValueType → Prop
  | .string (some s), _ => utf8Valid s = true
  | .object gtype props, type =>
      type = .object gtype ∧ ∃ klass, C gtype = some klass ∧ PropsClean C props klass
  | _, _ => True

def PropsClean (C : Classes) : List (Bytes × GValue) → List Pspec → Prop
  | [], _ => True
  | (_, value) :: props, ps =>
      ∃ p rest, ps = p :: rest ∧ Clean C value p.type ∧ PropsClean C props rest
end

mutual
/-- In plain classes a clean value arrives. -/
theorem arrives_of_clean {C : Classes} {S : GType → Prop} (hplain : Plain C S) :
    ∀ (v : GValue) (type : ValueType), PlainType type →
      (∀ declared, type = .object declared → S declared) → Fits C v type → Clean C v type →
      Arrives C v type
  | .string (some s), type, _, _, _, hclean => hclean
  | .object gtype props, type, _, hS, hfit, hclean => by
      obtain ⟨rfl, klass, hC, hprops⟩ := hclean
      obtain ⟨-, klass', hC', hfits⟩ := hfit
      rw [hC, Option.some.injEq] at hC'
      subst hC'
      exact ⟨rfl, klass, hC, propsKept_of_clean hplain (hS gtype rfl) hC props klass
        (fun _ h => h) hfits hprops⟩
  | .float _, type, hplainType, _, hfit, _ => by
      rw [show type = .float from hfit] at hplainType
      exact hplainType.elim
  | .double _, type, hplainType, _, hfit, _ => by
      rw [show type = .double from hfit] at hplainType
      exact hplainType.elim
  | .unsupported, type, hplainType, _, hfit, _ => by
      rw [show type = .unsupported from hfit] at hplainType
      exact hplainType.elim
  | .string none, _, _, _, _, _ => trivial
  | .boolean _, _, _, _, _, _ => trivial
  | .int _, _, _, _, _, _ => trivial
  | .uint _, _, _, _, _, _ => trivial
  | .long _, _, _, _, _, _ => trivial
  | .ulong _, _, _, _, _, _ => trivial
  | .int64 _, _, _, _, _, _ => trivial
  | .char _, _, _, _, _, _ => trivial
  | .uchar _, _, _, _, _, _ => trivial
  | .enum _, _, _, _, _, _ => trivial
  | .flags _, _, _, _, _, _ => trivial
  | .nullObject, _, _, _, _, _ => trivial

theorem propsKept_of_clean {C : Classes} {S : GType → Prop} (hplain : Plain C S) {gtype : GType}
    (hS : S gtype) {klass : List Pspec} (hC : C gtype = some klass) :
    ∀ (props : List (Bytes × GValue)) (ps : List Pspec), (∀ p ∈ ps, p ∈ klass) →
      PropsFit C props ps → PropsClean C props ps → PropsKept C props ps
  | [], _, _, _, _ => trivial
  | (_, value) :: props, ps, hsub, hfit, hclean => by
      obtain ⟨p, rest, rfl, -, hvalue, hrest⟩ := hfit
      obtain ⟨q, rest', heq, hcv, hcrest⟩ := hclean
      cases heq
      have hp := hsub p List.mem_cons_self
      obtain ⟨hw, hc⟩ := hplain.written gtype klass p hS hC hp
      have hnot : ¬ Skipped p := by
        rintro (h | h)
        · rw [hc] at h
          cases h
        · exact h hw
      have harrives := arrives_of_clean hplain value p.type (hplain.types gtype klass p hS hC hp)
        (fun declared => hplain.nested gtype klass p declared hS hC hp) hvalue hcv
      exact ⟨p, rest, rfl, Or.inl ⟨hnot, harrives⟩, propsKept_of_clean hplain hS hC props rest
        (fun r hr => hsub r (List.mem_cons_of_mem _ hr)) hrest hcrest⟩
end

/-- An object comes back as it was, if and only if its properties are kept. -/
theorem roundTrip_iff {C : Classes} (hnamed : WellNamed C) {o : GObject} {klass : List Pspec}
    (hC : C o.gtype = some klass) (hfit : PropsFit C o.props klass) :
    jsonGobjectDeserialize C o.gtype (jsonGobjectSerialize o) = some o
      ↔ PropsKept C o.props klass := by
  obtain ⟨gtype, props⟩ := o
  rw [jsonGobjectDeserialize_serialize hnamed hC (propsFit_names hfit),
    ← received_eq_iff hnamed props klass hfit, Option.some.injEq, GObject.mk.injEq]
  exact ⟨fun h => h.2, fun h => ⟨rfl, h⟩⟩

/-- **OBJECT ROUND TRIP**: over plain classes every object whose strings are
    UTF-8 and whose nested objects have the declared class comes back with every
    property as it was, at every depth and over the whole range of each integer
    type, and serialises to the same JSON again. -/
theorem jsonGobject_roundTrip {C : Classes} {S : GType → Prop} (hnamed : WellNamed C)
    (hplain : Plain C S) {o : GObject} (hS : S o.gtype) (hfit : Conforms C o)
    (hclean : Clean C (.object o.gtype o.props) (.object o.gtype)) :
    ∃ o', jsonGobjectDeserialize C o.gtype (jsonGobjectSerialize o) = some o' ∧ o' = o
      ∧ jsonGobjectSerialize o' = jsonGobjectSerialize o := by
  obtain ⟨klass, hC, hprops⟩ := hfit
  obtain ⟨-, klass', hC', hcprops⟩ := hclean
  rw [hC, Option.some.injEq] at hC'
  subst hC'
  have hkept := propsKept_of_clean hplain hS hC o.props klass (fun _ h => h) hprops hcprops
  exact ⟨o, (roundTrip_iff hnamed hC hprops).mpr hkept, rfl, rfl⟩

/-- A class with a string, an unsigned long and a property of the class
    itself. -/
def nodeClass : List Pspec :=
  [⟨ascii "name", .string, true, false, .string none⟩,
    ⟨ascii "size", .ulong, true, false, .ulong 0⟩,
    ⟨ascii "next", .object 1, true, false, .nullObject⟩]

def nodeClasses : Classes := fun gtype => if gtype = 1 then some nodeClass else none

theorem nodeClasses_eq {gtype : GType} {klass : List Pspec}
    (h : nodeClasses gtype = some klass) : klass = nodeClass := by
  rw [nodeClasses] at h
  by_cases h1 : gtype = 1
  · rw [if_pos h1] at h
    exact (Option.some.inj h).symm
  · rw [if_neg h1] at h
    cases h

theorem nodeClasses_wellNamed : WellNamed nodeClasses := by
  intro gtype klass h
  rw [nodeClasses_eq h]
  exact ⟨by decide, by decide⟩

theorem nodeClasses_plain : Plain nodeClasses (fun gtype => gtype = 1) := by
  have hclass : ∀ p ∈ nodeClass, (p.writable = true ∧ p.constructOnly = false)
      ∧ PlainType p.type ∧ ∀ declared, p.type = .object declared → declared = 1 := by
    simp [nodeClass, PlainType]
  constructor
  · rintro gtype rfl
    exact ⟨_, rfl⟩
  · intro gtype klass p _ h hp
    exact (hclass p (nodeClasses_eq h ▸ hp)).1
  · intro gtype klass p _ h hp
    exact (hclass p (nodeClasses_eq h ▸ hp)).2.1
  · intro gtype klass p declared _ h hp
    exact (hclass p (nodeClasses_eq h ▸ hp)).2.2 declared

/-- Two nodes; the size of the first is negative on the wire. -/
def nodes : GObject :=
  ⟨1, [(ascii "name", .string (some [0xC3, 0xA9])), (ascii "size", .ulong 0xFFFFFFFFFFFFFFFF),
    (ascii "next", .object 1 [(ascii "name", .string none), (ascii "size", .ulong 7),
      (ascii "next", .nullObject)])]⟩

theorem nodes_conforms : Conforms nodeClasses nodes := by
  have hinner : PropsFit nodeClasses [(ascii "name", .string none), (ascii "size", .ulong 7),
      (ascii "next", .nullObject)] nodeClass :=
    ⟨_, _, rfl, rfl, rfl, _, _, rfl, rfl, rfl, _, _, rfl, rfl, ⟨1, rfl⟩, rfl⟩
  exact ⟨_, rfl, _, _, rfl, rfl, ⟨rfl, by decide⟩, _, _, rfl, rfl, rfl, _, _, rfl, rfl,
    ⟨⟨1, rfl⟩, _, rfl, hinner⟩, rfl⟩

theorem nodes_clean :
    Clean nodeClasses (.object nodes.gtype nodes.props) (.object nodes.gtype) := by
  have hutf : utf8Valid [0xC3, 0xA9] = true := by decide
  exact ⟨rfl, _, rfl, _, _, rfl, hutf, _, _, rfl, trivial, _, _, rfl,
    ⟨rfl, _, rfl, _, _, rfl, trivial, _, _, rfl, trivial, _, _, rfl, trivial, trivial⟩, trivial⟩

theorem jsonGobject_roundTrip_nodes :
    ∃ o', jsonGobjectDeserialize nodeClasses 1 (jsonGobjectSerialize nodes) = some o' ∧ o' = nodes
      ∧ jsonGobjectSerialize o' = jsonGobjectSerialize nodes :=
  jsonGobject_roundTrip nodeClasses_wellNamed nodeClasses_plain rfl nodes_conforms nodes_clean

end SearpcGObjectTransfer
