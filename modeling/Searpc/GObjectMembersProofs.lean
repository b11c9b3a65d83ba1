import Searpc.GObjectTransferProofs

/-! # Which members count — two runs of `json_gobject_deserialize`

    The loop passes over a member that names no property, or a property it may
    not set, or whose JSON type does not fit.  So two JSON objects that differ
    in such members, and in the order of all members, make equal objects, and
    this at every depth of nested object properties.

    A member gives at most one construct parameter, which makes the loop a
    `filterMap` (`constructParams_eq`).  Reordering the members then reorders the
    parameters, and as no two of them are for the same property
    `g_object_newv` cannot tell. -/

namespace SearpcGObjectMembers

open ByteMemory JsonValue SearpcGObject SearpcGObjectTransfer

/-! ## Members -/

/-- The property a member name denotes. -/
def property (C : Classes) (gtype : GType) (name : Bytes) : Option Pspec :=
  gObjectClassFindProperty ((C gtype).getD []) name

/-- A member that is passed over: it names no property, or a read-only or
    construct-only one, or its JSON type does not fit. -/
def Ignored (C : Classes) (gtype : GType) (m : Bytes × Json) : Prop :=
  ∀ pspec, property C gtype m.1 = some pspec →
    Skipped pspec ∨ jsonDeserializePspec C pspec.type m.2 = none

/-- No two member names denote the same property. -/
def Distinct (C : Classes) (gtype : GType) (members : List (Bytes × Json)) : Prop :=
  members.Pairwise (fun m n =>
    ∀ pspec, property C gtype m.1 = some pspec → property C gtype n.1 ≠ some pspec)

mutual
/-- Nor do they in the values of object properties, at any depth. -/
def NoClash (C : Classes) : Json → ValueType → Prop
  | .obj members, .object gtype => Distinct C gtype members ∧ NoClashMembers C gtype members
  | _, _ => True

def NoClashMembers (C : Classes) (gtype : GType) : List (Bytes × Json) → Prop
  | [] => True
  | (name, val) :: members =>
      (∀ pspec, property C gtype name = some pspec → NoClash C val pspec.type)
        ∧ NoClashMembers C gtype members
end

/-- Two JSON objects for a class that differ in the order of the members, in
    members that are passed over, and in the values of object properties that
    differ in the same way. -/
inductive SameMembers (C : Classes) : GType → List (Bytes × Json) → List (Bytes × Json) → Prop
  where
  | nil {gtype : GType} : SameMembers C gtype [] []
  | same {gtype : GType} {ms ms' : List (Bytes × Json)} (m : Bytes × Json) :
      SameMembers C gtype ms ms' → SameMembers C gtype (m :: ms) (m :: ms')
  | nested {gtype inner : GType} {name : Bytes} {pspec : Pspec}
      {vs vs' ms ms' : List (Bytes × Json)} (hfind : property C gtype name = some pspec)
      (htype : pspec.type = .object inner) :
      SameMembers C inner vs vs' → SameMembers C gtype ms ms' →
        SameMembers C gtype ((name, .obj vs) :: ms) ((name, .obj vs') :: ms')
  | left {gtype : GType} {m : Bytes × Json} {ms ms' : List (Bytes × Json)}
      (h : Ignored C gtype m) : SameMembers C gtype ms ms' → SameMembers C gtype (m :: ms) ms'
  | right {gtype : GType} {m : Bytes × Json} {ms ms' : List (Bytes × Json)}
      (h : Ignored C gtype m) : SameMembers C gtype ms ms' → SameMembers C gtype ms (m :: ms')
  | perm {gtype : GType} {ms ns ms' : List (Bytes × Json)} (h : ms.Perm ns) :
      SameMembers C gtype ns ms' → SameMembers C gtype ms ms'

/-! ## Construct parameters -/

/-- The construct parameter a member gives. -/
def param (C : Classes) (gtype : GType) (m : Bytes × Json) : Option (Bytes × GValue) :=
  (property C gtype m.1).bind (fun pspec =>
    if pspec.constructOnly ∨ ¬ pspec.writable then none
    else (jsonDeserializePspec C pspec.type m.2).map (fun value => (pspec.name, value)))

section Params

variable {C : Classes} {gtype : GType}

/-- The loop, a member at a time. -/
theorem constructParams_eq (members : List (Bytes × Json)) :
    constructParams C gtype members = members.filterMap (param C gtype) := by
  induction members with
  | nil => rfl
  | cons m members ih =>
      obtain ⟨name, val⟩ := m
      rw [constructParams]
      cases hfind : gObjectClassFindProperty ((C gtype).getD []) name with
      | none =>
          have hparam : param C gtype (name, val) = none := by
            rw [param, property, hfind]
            rfl
          rw [List.filterMap_cons_none hparam]
          exact ih
      | some pspec =>
          have hbind : param C gtype (name, val)
              = if pspec.constructOnly ∨ ¬ pspec.writable then none
                else (jsonDeserializePspec C pspec.type val).map (fun v => (pspec.name, v)) := by
            rw [param, property, hfind]
            rfl
          by_cases hskip : pspec.constructOnly ∨ ¬ pspec.writable
          · rw [if_pos hskip] at hbind
            rw [List.filterMap_cons_none hbind]
            dsimp only
            rw [if_pos hskip]
            exact ih
          · rw [if_neg hskip] at hbind
            dsimp only
            rw [if_neg hskip]
            cases hval : jsonDeserializePspec C pspec.type val with
            | none =>
                rw [hval] at hbind
                rw [List.filterMap_cons_none hbind]
                exact ih
            | some value =>
                rw [hval] at hbind
                rw [List.filterMap_cons_some hbind, ← ih]

theorem param_of_ignored {m : Bytes × Json} (h : Ignored C gtype m) : param C gtype m = none := by
  refine Option.bind_eq_none_iff.mpr (fun pspec hfind => ?_)
  rcases h pspec hfind with hskip | hval
  · exact if_pos hskip
  · rw [hval]
    exact ite_self _

/-- A parameter is for the property its member names. -/
theorem property_of_param {m : Bytes × Json} {p : Bytes × GValue}
    (h : param C gtype m = some p) : ∃ pspec, property C gtype m.1 = some pspec
      ∧ pspec.name = p.1 := by
  obtain ⟨pspec, hfind, hset⟩ := Option.bind_eq_some_iff.mp h
  by_cases hskip : pspec.constructOnly ∨ ¬ pspec.writable
  · rw [if_pos hskip] at hset
    cases hset
  · rw [if_neg hskip] at hset
    obtain ⟨value, -, rfl⟩ := Option.map_eq_some_iff.mp hset
    exact ⟨pspec, hfind, rfl⟩

/-- Lookup goes by the canonical name. -/
theorem name_of_find {klass : List Pspec} {name : Bytes} {pspec : Pspec}
    (h : gObjectClassFindProperty klass name = some pspec) : pspec.name = canonical name := by
  have hname := List.find?_some h
  exact of_decide_eq_true hname

/-- So the name tells the property. -/
theorem property_inj {m n : Bytes} {p q : Pspec} (hp : property C gtype m = some p)
    (hq : property C gtype n = some q) (hname : p.name = q.name) : p = q := by
  have hm : p.name = canonical m := name_of_find hp
  have hn : q.name = canonical n := name_of_find hq
  have hsame : property C gtype m = property C gtype n := by
    rw [property, property, gObjectClassFindProperty, gObjectClassFindProperty, ← hm, ← hn, hname]
  exact Option.some.inj (hp.symm.trans (hsame.trans hq))

/-- No property is set twice. -/
theorem nodup_params {members : List (Bytes × Json)} (h : Distinct C gtype members) :
    ((members.filterMap (param C gtype)).map Prod.fst).Nodup := by
  rw [List.Nodup, List.pairwise_map, List.pairwise_filterMap]
  refine List.Pairwise.imp ?_ h
  intro m n hmn p hp q hq hname
  obtain ⟨pspec, hm, hpname⟩ := property_of_param hp
  obtain ⟨pspec', hn, hqname⟩ := property_of_param hq
  have hsame := property_inj hm hn (hpname.trans (hname.trans hqname.symm))
  exact hmn pspec hm (hsame ▸ hn)

end Params

/-- Where no property is set twice, its value is the one in the list. -/
theorem paramValue_eq_some_iff {params : List (Bytes × GValue)}
    (hnd : (params.map Prod.fst).Nodup) {k : Bytes} {v : GValue} :
    paramValue params k = some v ↔ (k, v) ∈ params := by
  induction params with
  | nil => exact iff_of_false (by rintro ⟨⟩) List.not_mem_nil
  | cons p params ih =>
      obtain ⟨name, w⟩ := p
      obtain ⟨hfresh, hrest⟩ := List.nodup_cons.mp hnd
      rw [paramValue_cons, List.mem_cons, Prod.mk.injEq]
      by_cases hk : name = k
      · subst hk
        have hnone := paramValue_absent hfresh
        have hout : (name, v) ∉ params := fun hmem =>
          hfresh (List.mem_map.mpr ⟨(name, v), hmem, rfl⟩)
        rw [hnone, if_pos rfl, Option.none_or, Option.some.injEq]
        exact ⟨fun h => .inl ⟨rfl, h.symm⟩, fun h => (h.resolve_right hout).2.symm⟩
      · rw [if_neg hk, Option.or_none, ih hrest]
        exact ⟨.inr, fun h => h.resolve_left (fun hv => hk hv.1.symm)⟩

/-- **THE ORDER IS NOT SEEN** by `g_object_newv`. -/
theorem gObjectNewv_perm (C : Classes) (gtype : GType) {params params' : List (Bytes × GValue)}
    (hnd : (params.map Prod.fst).Nodup) (h : params.Perm params') :
    gObjectNewv C gtype params = gObjectNewv C gtype params' := by
  have hnd' : (params'.map Prod.fst).Nodup := (h.map Prod.fst).nodup_iff.mp hnd
  have hvalue : paramValue params = paramValue params' := by
    funext k
    refine Option.ext (fun v => ?_)
    rw [paramValue_eq_some_iff hnd, paramValue_eq_some_iff hnd', h.mem_iff]
  rw [gObjectNewv, gObjectNewv, hvalue]

/-! ## Two runs -/

section Runs

variable {C : Classes} {gtype : GType}

theorem noClashMembers_iff {members : List (Bytes × Json)} :
    NoClashMembers C gtype members ↔ ∀ m ∈ members, ∀ pspec,
      property C gtype m.1 = some pspec → NoClash C m.2 pspec.type := by
  induction members with
  | nil => exact iff_of_true trivial (fun m hm => absurd hm List.not_mem_nil)
  | cons m members ih =>
      rw [NoClashMembers, ih, List.forall_mem_cons]

theorem Distinct.perm {ms ns : List (Bytes × Json)} (h : ms.Perm ns) (hd : Distinct C gtype ms) :
    Distinct C gtype ns := by
  refine (h.pairwise_iff ?_).mp hd
  intro m n hmn pspec hn hm
  exact hmn pspec hm hn

/-- Names that differ, `_` read as `-`, denote different properties. -/
theorem distinct_of_canonical {members : List (Bytes × Json)}
    (h : (members.map (fun m => canonical m.1)).Nodup) : Distinct C gtype members := by
  refine (List.pairwise_map.mp h).imp ?_
  intro m n hne pspec hm hn
  exact hne ((name_of_find hm).symm.trans (name_of_find hn))

/-- **TWO RUNS OF THE LOOP** collect the same parameters, in some order. -/
theorem constructParams_perm {ms ms' : List (Bytes × Json)} (h : SameMembers C gtype ms ms')
    (hclash : NoClash C (.obj ms) (.object gtype)) :
    (constructParams C gtype ms).Perm (constructParams C gtype ms') := by
  rw [constructParams_eq, constructParams_eq]
  induction h with
  | nil => exact .refl _
  | same m _ ih =>
      obtain ⟨hdistinct, hnested⟩ := hclash
      rw [List.filterMap_cons, List.filterMap_cons]
      have hrest := ih ⟨(List.pairwise_cons.mp hdistinct).2, hnested.2⟩
      cases param C _ m with
      | none => exact hrest
      | some p => exact hrest.cons p
  | @nested gtype inner name pspec vs vs' ms ms' hfind htype _ _ ihv ihm =>
      obtain ⟨hdistinct, hnested⟩ := hclash
      have hinner : NoClash C (.obj vs) (.object inner) := htype ▸ hnested.1 pspec hfind
      have hnew : gObjectNewv C inner (constructParams C inner vs)
          = gObjectNewv C inner (constructParams C inner vs') := by
        rw [constructParams_eq, constructParams_eq]
        exact gObjectNewv_perm C inner (nodup_params hinner.1) (ihv hinner)
      have hparam : param C gtype (name, .obj vs) = param C gtype (name, .obj vs') := by
        rw [param, param, hfind]
        simp only [Option.bind_some, htype, jsonDeserializePspec, hnew]
      have hrest := ihm ⟨(List.pairwise_cons.mp hdistinct).2, hnested.2⟩
      rw [List.filterMap_cons, List.filterMap_cons, hparam]
      cases param C gtype (name, .obj vs') with
      | none => exact hrest
      | some p => exact hrest.cons p
  | left hignored _ ih =>
      obtain ⟨hdistinct, hnested⟩ := hclash
      rw [List.filterMap_cons_none (param_of_ignored hignored)]
      exact ih ⟨(List.pairwise_cons.mp hdistinct).2, hnested.2⟩
  | right hignored _ ih =>
      rw [List.filterMap_cons_none (param_of_ignored hignored)]
      exact ih hclash
  | perm hperm _ ih =>
      obtain ⟨hdistinct, hnested⟩ := hclash
      have hmembers := fun m hm => noClashMembers_iff.mp hnested m (hperm.mem_iff.mpr hm)
      have hrest := ih ⟨hdistinct.perm hperm, noClashMembers_iff.mpr hmembers⟩
      exact (hperm.filterMap _).trans hrest

/-- What an object has for a property that the loop does not set. -/
theorem lookup_props {klass : List Pspec} {name : Bytes} {pspec : Pspec}
    (hfind : gObjectClassFindProperty klass name = some pspec) (value : Pspec → GValue) :
    (klass.map (fun p => (p.name, value p))).lookup pspec.name = some (value pspec) := by
  rw [gObjectClassFindProperty, ← name_of_find hfind] at hfind
  induction klass with
  | nil => cases hfind
  | cons p klass ih =>
      rw [List.find?_cons] at hfind
      rw [List.map_cons, List.lookup_cons]
      by_cases hp : p.name = pspec.name
      · rw [decide_eq_true hp] at hfind
        obtain rfl := Option.some.inj hfind
        rw [beq_self_eq_true]
      · rw [decide_eq_false hp] at hfind
        rw [beq_eq_false_iff_ne.mpr (Ne.symm hp)]
        exact ih hfind

/-- A member that is passed over leaves no trace: its property keeps the
    default, and the object is the one made without it. -/
theorem deserialize_ignored {pre post : List (Bytes × Json)} {m : Bytes × Json}
    {pspec : Pspec} (hdistinct : Distinct C gtype (pre ++ m :: post))
    (hfind : property C gtype m.1 = some pspec) (hignored : Ignored C gtype m) :
    ∃ o, jsonGobjectDeserialize C gtype (.obj (pre ++ m :: post)) = some o
      ∧ o.props.lookup pspec.name = some pspec.default
      ∧ jsonGobjectDeserialize C gtype (.obj (pre ++ post)) = some o := by
  have hsame : constructParams C gtype (pre ++ m :: post)
      = constructParams C gtype (pre ++ post) := by
    rw [constructParams_eq, constructParams_eq, List.filterMap_append, List.filterMap_append,
      List.filterMap_cons_none (param_of_ignored hignored)]
  have hunset : pspec.name ∉ (constructParams C gtype (pre ++ post)).map Prod.fst := by
    rw [constructParams_eq]
    intro hmem
    obtain ⟨p, hp, hname⟩ := List.mem_map.mp hmem
    obtain ⟨n, hn, hparam⟩ := List.mem_filterMap.mp hp
    obtain ⟨pspec', hfind', hname'⟩ := property_of_param hparam
    obtain rfl := property_inj hfind' hfind (hname'.trans hname)
    have hperm : (pre ++ m :: post).Perm (m :: (pre ++ post)) := List.perm_middle
    have hothers := (List.pairwise_cons.mp (hdistinct.perm hperm)).1
    exact hothers n hn pspec' hfind hfind'
  cases hC : C gtype with
  | none =>
      rw [property, hC] at hfind
      cases hfind
  | some klass =>
      have hklass : gObjectClassFindProperty klass m.1 = some pspec := by
        rw [property, hC] at hfind
        exact hfind
      have hnew : ∀ params, gObjectNewv C gtype params = some ⟨gtype, klass.map (fun p =>
          (p.name, (paramValue params p.name).getD p.default))⟩ := by
        intro params
        rw [gObjectNewv, hC]
        rfl
      have hmade : jsonGobjectDeserialize C gtype (.obj (pre ++ post)) = _ := hnew _
      have hmade' : jsonGobjectDeserialize C gtype (.obj (pre ++ m :: post)) = _ := hnew _
      rw [hsame] at hmade'
      refine ⟨_, hmade', ?_, hmade⟩
      rw [lookup_props hklass, paramValue_absent hunset]
      rfl

/-- **ONLY THE RELEVANT MEMBERS COUNT**: two JSON objects that differ in the order
    of members and in members that are passed over, at any depth, give objects
    with all properties equal, as long as in one of them no two names denote
    the same property; and a member of the wrong JSON type leaves its property
    at the default and the others as they are without it. -/
theorem deserialize_sameMembers {ms ms' : List (Bytes × Json)}
    (hclash : NoClash C (.obj ms) (.object gtype)) (h : SameMembers C gtype ms ms') :
    jsonGobjectDeserialize C gtype (.obj ms) = jsonGobjectDeserialize C gtype (.obj ms')
      ∧ ∀ pre m post pspec, ms = pre ++ m :: post → property C gtype m.1 = some pspec →
        jsonDeserializePspec C pspec.type m.2 = none →
        ∃ o, jsonGobjectDeserialize C gtype (.obj ms) = some o
          ∧ o.props.lookup pspec.name = some pspec.default
          ∧ jsonGobjectDeserialize C gtype (.obj (pre ++ post)) = some o := by
  constructor
  · have hnd := nodup_params hclash.1
    rw [← constructParams_eq] at hnd
    exact gObjectNewv_perm C gtype hnd (constructParams_perm h hclash)
  · rintro pre m post pspec rfl hfind hval
    refine deserialize_ignored hclash.1 hfind ?_
    intro p hp
    obtain rfl := Option.some.inj (hfind.symm.trans hp)
    exact .inr hval

end Runs

/-- A class with a read-only property and one of its own type. -/
def entryClass : List Pspec :=
  [⟨ascii "name", .string, true, false, .string none⟩,
    ⟨ascii "n-bytes", .int, true, false, .int 0⟩,
    ⟨ascii "kind", .int, false, false, .int 0⟩,
    ⟨ascii "next", .object 1, true, false, .nullObject⟩]

def entryClasses : Classes := fun gtype => if gtype = 1 then some entryClass else none

/-- The value of `next`, with a member no property takes. -/
def nextMembers : List (Bytes × Json) :=
  [(ascii "owner", .str (ascii "x")), (ascii "n_bytes", .int 7)]

/-- A member of the wrong type, one for the read-only property, and the rest. -/
def entryMembers : List (Bytes × Json) :=
  [(ascii "n_bytes", .str (ascii "many")), (ascii "next", .obj nextMembers),
    (ascii "name", .str (ascii "a")), (ascii "kind", .int 3)]

/-- The members that count, in another order. -/
theorem deserialize_sameMembers_entry :
    jsonGobjectDeserialize entryClasses 1 (.obj entryMembers)
      = jsonGobjectDeserialize entryClasses 1 (.obj
        [(ascii "name", .str (ascii "a")), (ascii "next", .obj [(ascii "n_bytes", .int 7)])]) := by
  have hnext : NoClash entryClasses (.obj nextMembers) (.object 1) := by
    refine ⟨distinct_of_canonical (by decide), ?_, ?_, trivial⟩
    · exact fun pspec _ => trivial
    · exact fun pspec _ => trivial
  have hclash : NoClash entryClasses (.obj entryMembers) (.object 1) := by
    refine ⟨distinct_of_canonical (by decide), ?_, ?_, ?_, ?_, trivial⟩
    · exact fun pspec _ => trivial
    · intro pspec hfind
      obtain rfl := Option.some.inj hfind
      exact hnext
    · exact fun pspec _ => trivial
    · exact fun pspec _ => trivial
  have hmany : Ignored entryClasses 1 (ascii "n_bytes", .str (ascii "many")) := by
    intro pspec hfind
    obtain rfl := Option.some.inj hfind
    exact .inr rfl
  have hkind : Ignored entryClasses 1 (ascii "kind", .int 3) := by
    intro pspec hfind
    obtain rfl := Option.some.inj hfind
    exact .inl (.inr Bool.false_ne_true)
  have howner : Ignored entryClasses 1 (ascii "owner", .str (ascii "x")) := by
    rintro pspec ⟨⟩
  have hsame : SameMembers entryClasses 1
      [(ascii "name", .str (ascii "a")), (ascii "next", .obj nextMembers),
        (ascii "n_bytes", .str (ascii "many")), (ascii "kind", .int 3)]
      [(ascii "name", .str (ascii "a")), (ascii "next", .obj [(ascii "n_bytes", .int 7)])] :=
    .same _ (.nested rfl rfl (.left howner (.same _ .nil)) (.left hmany (.left hkind .nil)))
  exact (deserialize_sameMembers hclash (.perm (by decide) hsame)).1

end SearpcGObjectMembers
