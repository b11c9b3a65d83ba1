import Searpc.RegistryOriginProofs

/-! # Signatures — from a row of the RPC table to its marshal

    A row of the table, a return type and a list of parameter types, is written
    down flat in three ways: as the name of its marshal, as the name of its
    signature function, and as the text that this function hashes.  The first
    two join the names of the types by `_`, with `void` for an empty list, the
    third joins them by `:`.

    Each of the three can be split again, so rows do not share them.  Nothing
    at run time checks that a function goes with its marshal; that all rests on
    these names. -/

namespace SearpcSignature

open ByteMemory JsonValue SearpcJansson SearpcReply SearpcCodegen SearpcServer SearpcRegistry
  SearpcRegistryCells

variable {F ρ : Type}

/-! ## Joining and splitting -/

/-- Lists of words without the separator are told apart by their join. -/
theorem intercalate_injective {α : Type} [DecidableEq α] {x : α} {ls ls' : List (List α)}
    (h : ∀ l ∈ ls, x ∉ l) (h' : ∀ l ∈ ls', x ∉ l) (hne : ls ≠ []) (hne' : ls' ≠ [])
    (heq : [x].intercalate ls = [x].intercalate ls') : ls = ls' := by
  rw [← List.splitOn_intercalate x h hne, heq, List.splitOn_intercalate x h' hne']

/-! ## The generator -/

/-- A row of `func_table`. -/
abbrev Row := RpcType × List RpcType

/-- A generated signature function: its name and what it passes to
    `searpc_compute_signature`. -/
structure SignatureFunc where
  name    : String
  retType : String
  pnum    : Nat
  ptypes  : List String

/-- `generate_signature`. -/
def generateSignature (row : Row) : SignatureFunc where
  name := "searpc_signature_" ++ typeName row.1 ++ "__" ++ argsName row.2
  retType := typeName row.1
  pnum := row.2.length
  ptypes := row.2.map typeName

/-- `signature_template`, filled in. -/
def SignatureFunc.text (f : SignatureFunc) : String :=
  "\ninline static gchar *\n" ++ f.name ++ "(void)\n\x7b\n    return searpc_compute_signature (\""
    ++ f.retType ++ "\", " ++ toString f.pnum
    ++ String.join (f.ptypes.map (fun t => ", \"" ++ t ++ "\"")) ++ ");\n\x7d\n"

/-- A statement of the generated `register_marshals`. -/
structure RegisterItem where
  signatureName : String
  marshalName   : String

/-- `generate_marshal_register_item`. -/
def generateMarshalRegisterItem (row : Row) : RegisterItem where
  signatureName := "searpc_signature_" ++ typeName row.1 ++ "__" ++ argsName row.2
  marshalName := "marshal_" ++ typeName row.1 ++ "__" ++ argsName row.2

/-- `marshal_register_item`, filled in. -/
def RegisterItem.text (item : RegisterItem) : String :=
  "\n    \x7b\n        searpc_server_register_marshal (" ++ item.signatureName ++ "(), "
    ++ item.marshalName ++ ");\n    \x7d\n"

/-! ## What the C does -/

/-- The loop of `searpc_compute_signature`: what the checksum has been fed. -/
def checksumLoop (cksum : Bytes) : Nat → List Bytes → Bytes
  | pnum + 1, ptype :: ap => checksumLoop (cksum ++ ascii ":" ++ ptype) pnum ap
  | _, _ => cksum

/-- `searpc_compute_signature`; `md5` is GLib's checksum in hexadecimal. -/
def searpcComputeSignature (md5 : Bytes → Bytes) (retType : Bytes) (pnum : Nat) (ap : List Bytes) :
    Bytes :=
  md5 (checksumLoop retType pnum ap)

/-- The text that a row's signature function hashes. -/
def hashed (row : Row) : Bytes :=
  checksumLoop (ascii (typeName row.1)) row.2.length (row.2.map (fun t => ascii (typeName t)))

/-- A call of a signature function. -/
def SignatureFunc.call (md5 : Bytes → Bytes) (f : SignatureFunc) : Bytes :=
  searpcComputeSignature md5 (ascii f.retType) f.pnum (f.ptypes.map ascii)

theorem generateSignature_call (md5 : Bytes → Bytes) (row : Row) :
    (generateSignature row).call md5 = md5 (hashed row) := by
  have hptypes : (generateSignature row).ptypes.map ascii
      = row.2.map (fun t => ascii (typeName t)) := List.map_map
  have hret : (generateSignature row).retType = typeName row.1 := rfl
  have hpnum : (generateSignature row).pnum = row.2.length := rfl
  rw [SignatureFunc.call, searpcComputeSignature, hptypes, hret, hpnum, hashed]

/-- The generated C for a table: the function that a name means.  Two functions
    of one name do not compile. -/
def resolveMarshal (table : List Row) (name : String) : Option Marshal :=
  (table.map (fun row => generateMarshal row.1 row.2)).find? (fun m => m.name = name)

def resolveSignature (table : List Row) (name : String) : Option SignatureFunc :=
  (table.map generateSignature).find? (fun f => f.name = name)

/-- The statements of `register_marshals`, one after the other: what each
    registration returned, and the server.  Absent where a name means nothing
    or freed memory is read. -/
def runItems (gStrHash : Bytes → Nat) (md5 : Bytes → Bytes) (table : List Row) :
    List RegisterItem → Cells F Marshal → Option (List Bool × Cells F Marshal)
  | [], S => some ([], S)
  | item :: items, S =>
      match resolveSignature table item.signatureName, resolveMarshal table item.marshalName with
      | some f, some m =>
          match registerMarshal gStrHash S (f.call md5) m with
          | some (registered, S') =>
              (runItems gStrHash md5 table items S').map (fun r => (registered :: r.1, r.2))
          | none => none
      | _, _ => none

/-- `register_marshals`, as generated for a table. -/
def registerMarshals (gStrHash : Bytes → Nat) (md5 : Bytes → Bytes) (table : List Row)
    (S : Cells F Marshal) : Option (List Bool × Cells F Marshal) :=
  runItems gStrHash md5 table (table.map generateMarshalRegisterItem) S

/-- The calls that `register_marshals` makes for a table, newest first. -/
def registerCalls (md5 : Bytes → Bytes) (table : List Row) : List (Op F Marshal) :=
  (table.map (fun row =>
    Op.registerMarshal (md5 (hashed row)) (generateMarshal row.1 row.2))).reverse

/-! ## Rows are told apart -/

theorem typeName_injective {t t' : RpcType} (h : typeName t = typeName t') : t = t' := by
  cases t <;> cases t' <;> first | rfl | exact absurd h (by decide)

theorem typeName_no_underscore (t : RpcType) : '_' ∉ (typeName t).toList := by
  cases t <;> decide

theorem typeName_ne_void (t : RpcType) : typeName t ≠ "void" := by
  cases t <;> decide

/-- The words that `argsName` joins. -/
def argWords : List RpcType → List String
  | [] => ["void"]
  | argTypes => argTypes.map typeName

theorem argsName_eq (argTypes : List RpcType) :
    argsName argTypes = String.intercalate "_" (argWords argTypes) := by
  cases argTypes <;> rfl

theorem argWords_ne_nil (argTypes : List RpcType) : argWords argTypes ≠ [] := by
  cases argTypes <;> exact List.cons_ne_nil _ _

theorem argWords_injective {as as' : List RpcType} (h : argWords as = argWords as') : as = as' := by
  have hmap : ∀ {xs ys : List RpcType}, xs.map typeName = ys.map typeName → xs = ys :=
    fun heq => List.map_injective_iff.mpr (fun _ _ => typeName_injective) heq
  cases as with
  | nil =>
      cases as' with
      | nil => rfl
      | cons t ts => exact absurd (List.cons.inj h).1.symm (typeName_ne_void t)
  | cons t ts =>
      cases as' with
      | nil => exact absurd (List.cons.inj h).1 (typeName_ne_void t)
      | cons t' ts' => exact hmap h

/-- The words of an identifier: the return type, nothing, the parameters. -/
def identWords (row : Row) : List (List Char) :=
  (typeName row.1).toList :: [] :: (argWords row.2).map String.toList

theorem identWords_no_underscore (row : Row) : ∀ w ∈ identWords row, '_' ∉ w := by
  have hargs : ∀ s ∈ argWords row.2, '_' ∉ s.toList := by
    cases row.2 with
    | nil =>
        intro s hs
        rw [List.mem_singleton.mp hs]
        decide
    | cons t ts =>
        intro s hs
        obtain ⟨u, -, rfl⟩ := List.mem_map.mp hs
        exact typeName_no_underscore u
  intro w hw
  rcases List.mem_cons.mp hw with rfl | hw
  · exact typeName_no_underscore row.1
  · rcases List.mem_cons.mp hw with rfl | hw
    · exact List.not_mem_nil
    · obtain ⟨s, hs, rfl⟩ := List.mem_map.mp hw
      exact hargs s hs

/-- An identifier is its first word and the join of the others. -/
theorem identifier_toList (front : String) (row : Row) :
    (front ++ typeName row.1 ++ "__" ++ argsName row.2).toList
      = front.toList ++ ['_'].intercalate (identWords row) := by
  obtain ⟨w, ws, hws⟩ := List.exists_cons_of_ne_nil (argWords_ne_nil row.2)
  simp only [String.toList_append, argsName_eq, String.toList_intercalate, identWords, hws,
    List.map_cons, List.intercalate_cons_cons, List.append_assoc]
  rfl

/-- **IDENTIFIERS** with one beginning are told apart by their rows. -/
theorem identifier_injective {front : String} {row row' : Row}
    (h : front ++ typeName row.1 ++ "__" ++ argsName row.2
      = front ++ typeName row'.1 ++ "__" ++ argsName row'.2) : row = row' := by
  have hlist := congrArg String.toList h
  rw [identifier_toList, identifier_toList, List.append_cancel_left_eq] at hlist
  have hwords := intercalate_injective (identWords_no_underscore row)
    (identWords_no_underscore row') (List.cons_ne_nil _ _) (List.cons_ne_nil _ _) hlist
  obtain ⟨hret, hrest⟩ := List.cons.inj hwords
  have hargs := List.map_injective_iff.mpr (fun _ _ => String.toList_inj.mp)
    (List.cons.inj hrest).2
  exact Prod.ext (typeName_injective (String.toList_inj.mp hret)) (argWords_injective hargs)

/-- A character that is in none of the words, and not the underscore, is not in
    an identifier. -/
theorem identifier_no_char {front : String} {c : Char} (hfront : c ∉ front.toList) (hc : c ≠ '_')
    (htypes : ∀ t, c ∉ (typeName t).toList) (hvoid : c ∉ "void".toList) (row : Row) :
    c ∉ (front ++ typeName row.1 ++ "__" ++ argsName row.2).toList := by
  have hjoin : ∀ ws : List (List Char), (∀ w ∈ ws, c ∉ w) → c ∉ ['_'].intercalate ws := by
    intro ws hws
    induction ws with
    | nil => exact List.not_mem_nil
    | cons w ws ih =>
        have hw := hws w List.mem_cons_self
        have hrest := ih (fun v hv => hws v (List.mem_cons_of_mem w hv))
        cases ws with
        | nil =>
            rw [List.intercalate_singleton]
            exact hw
        | cons v ws =>
            rw [List.intercalate_cons_cons]
            simp only [List.mem_append, List.mem_singleton, not_or]
            exact ⟨⟨hw, hc⟩, hrest⟩
  have hwords : ∀ w ∈ identWords row, c ∉ w := by
    refine List.forall_mem_cons.mpr ⟨htypes row.1, List.forall_mem_cons.mpr
      ⟨List.not_mem_nil, ?_⟩⟩
    intro w hw
    obtain ⟨s, hs, rfl⟩ := List.mem_map.mp hw
    cases hargs : row.2 with
    | nil =>
        rw [hargs] at hs
        rw [List.mem_singleton.mp hs]
        exact hvoid
    | cons t ts =>
        rw [hargs] at hs
        obtain ⟨u, -, rfl⟩ := List.mem_map.mp hs
        exact htypes u
  rw [identifier_toList, List.mem_append, not_or]
  exact ⟨hfront, hjoin _ hwords⟩

/-- A name between a fixed beginning and a character that it does not have is
    read off the text. -/
theorem name_of_text {front : String} {c : Char} {name name' tail tail' : String}
    (hname : c ∉ name.toList) (hname' : c ∉ name'.toList)
    (h : front ++ name ++ (String.singleton c ++ tail)
      = front ++ name' ++ (String.singleton c ++ tail')) : name = name' := by
  have htake : ∀ {l t : List Char}, c ∉ l → (l ++ c :: t).takeWhile (· != c) = l := by
    intro l t hl
    rw [List.takeWhile_append_of_pos, List.takeWhile_cons_of_neg (by simp), List.append_nil]
    intro a ha
    simpa using fun heq : a = c => hl (heq ▸ ha)
  have hlist := congrArg String.toList h
  simp only [String.toList_append, String.toList_singleton, List.append_assoc,
    List.append_cancel_left_eq, List.singleton_append] at hlist
  rw [← String.toList_inj, ← htake hname, hlist, htake hname']

/-- Whatever is printed behind a name is one text. -/
theorem exists_tail (s₁ s₂ s₃ s₄ : String) :
    ∃ tail, s₁ ++ (s₂ ++ (s₃ ++ s₄)) = s₁ ++ (s₂ ++ (s₃ ++ tail)) := ⟨s₄, rfl⟩

theorem marshal_open : " (void *func, json_t *param_array, gsize *ret_len)\n\x7b\n"
      = String.singleton ' ' ++ "(void *func, json_t *param_array, gsize *ret_len)\n\x7b\n" := by
  decide

theorem marshal_text_eq (m : Marshal) :
    ∃ tail, m.text = "\nstatic char *\n" ++ m.name ++ (String.singleton ' ' ++ tail) := by
  unfold Marshal.text
  rw [marshal_open]
  generalize "\nstatic char *\n" = front
  generalize String.singleton ' ' = blank
  generalize "(void *func, json_t *param_array, gsize *ret_len)\n\x7b\n" = rest
  generalize "    GError *error = NULL;\n" = next
  simp only [String.append_assoc]
  exact exists_tail _ _ _ _

theorem signature_open : "(void)\n\x7b\n    return searpc_compute_signature (\""
      = String.singleton '(' ++ "void)\n\x7b\n    return searpc_compute_signature (\"" := by
  decide

theorem signature_text_eq (f : SignatureFunc) :
    ∃ tail, f.text = "\ninline static gchar *\n" ++ f.name ++ (String.singleton '(' ++ tail) := by
  unfold SignatureFunc.text
  rw [signature_open]
  generalize "\ninline static gchar *\n" = front
  generalize String.singleton '(' = paren
  generalize "void)\n\x7b\n    return searpc_compute_signature (\"" = rest
  simp only [String.append_assoc]
  exact exists_tail _ _ _ _

theorem item_open : "(), " = String.singleton '(' ++ "), " := by decide

theorem item_text_eq (item : RegisterItem) :
    ∃ tail, item.text = "\n    \x7b\n        searpc_server_register_marshal ("
      ++ item.signatureName ++ (String.singleton '(' ++ tail) := by
  unfold RegisterItem.text
  rw [item_open]
  generalize "\n    \x7b\n        searpc_server_register_marshal (" = front
  generalize String.singleton '(' = paren
  generalize "), " = rest
  simp only [String.append_assoc]
  exact exists_tail _ _ _ _

/-- **TEXTS** of generated functions and statements are told apart by their
    rows: no two rows print the same marshal, signature function or
    registration. -/
theorem text_injective {row row' : Row}
    (h : (generateMarshal row.1 row.2).text = (generateMarshal row'.1 row'.2).text
      ∨ (generateSignature row).text = (generateSignature row').text
      ∨ (generateMarshalRegisterItem row).text = (generateMarshalRegisterItem row').text) :
    row = row' := by
  have hblank : ∀ row : Row, ' ' ∉ (generateMarshal row.1 row.2).name.toList :=
    identifier_no_char (by decide) (by decide) (by intro t; cases t <;> decide) (by decide)
  have hparen : ∀ row : Row, '(' ∉ (generateSignature row).name.toList :=
    identifier_no_char (by decide) (by decide) (by intro t; cases t <;> decide) (by decide)
  rcases h with h | h | h
  · obtain ⟨tail, htail⟩ := marshal_text_eq (generateMarshal row.1 row.2)
    obtain ⟨tail', htail'⟩ := marshal_text_eq (generateMarshal row'.1 row'.2)
    rw [htail, htail'] at h
    exact identifier_injective (name_of_text (hblank row) (hblank row') h)
  · obtain ⟨tail, htail⟩ := signature_text_eq (generateSignature row)
    obtain ⟨tail', htail'⟩ := signature_text_eq (generateSignature row')
    rw [htail, htail'] at h
    exact identifier_injective (name_of_text (hparen row) (hparen row') h)
  · obtain ⟨tail, htail⟩ := item_text_eq (generateMarshalRegisterItem row)
    obtain ⟨tail', htail'⟩ := item_text_eq (generateMarshalRegisterItem row')
    rw [htail, htail'] at h
    exact identifier_injective (name_of_text (hparen row) (hparen row') h)

/-- The words that are joined for the checksum. -/
def hashWords (row : Row) : List Bytes := (row.1 :: row.2).map (fun t => ascii (typeName t))

theorem hashWords_no_colon (row : Row) : ∀ w ∈ hashWords row, (0x3A : UInt8) ∉ w := by
  intro w hw
  obtain ⟨t, -, rfl⟩ := List.mem_map.mp hw
  cases t <;> decide

/-- The checksum is fed the join of the words. -/
theorem checksumLoop_eq (cksum : Bytes) (ap : List Bytes) :
    checksumLoop cksum ap.length ap = [0x3A].intercalate (cksum :: ap) := by
  have hcolon : ascii ":" = [0x3A] := by decide
  induction ap generalizing cksum with
  | nil =>
      show cksum = _
      rw [List.intercalate_singleton]
  | cons ptype ap ih =>
      rw [List.length_cons, checksumLoop, ih, hcolon]
      cases ap with
      | nil =>
          rw [List.intercalate_singleton, List.intercalate_cons_cons, List.intercalate_singleton]
      | cons q ap =>
          rw [List.intercalate_cons_cons, List.intercalate_cons_cons, List.intercalate_cons_cons]
          simp only [List.append_assoc]

theorem ascii_typeName_injective {t t' : RpcType}
    (h : ascii (typeName t) = ascii (typeName t')) : t = t' := by
  cases t <;> cases t' <;> first | rfl | exact absurd h (by decide)

/-- **HASHED TEXTS** are told apart by their rows. -/
theorem hashed_injective {row row' : Row} (h : hashed row = hashed row') : row = row' := by
  have hjoin : ∀ row : Row, hashed row = [0x3A].intercalate (hashWords row) := by
    intro row
    rw [hashed, ← List.length_map (fun t => ascii (typeName t)), checksumLoop_eq]
    rfl
  rw [hjoin, hjoin] at h
  have hwords := intercalate_injective (hashWords_no_colon row) (hashWords_no_colon row')
    (List.cons_ne_nil _ _) (List.cons_ne_nil _ _) h
  have hrow := List.map_injective_iff.mpr (fun _ _ => ascii_typeName_injective) hwords
  exact Prod.ext (List.cons.inj hrow).1 (List.cons.inj hrow).2

/-! ## The generated program -/

/-- A name that one function has means that function. -/
theorem find?_of_injective {β : Type} {table : List Row} {f : Row → β} {name : β → String}
    (hinj : ∀ row row', name (f row) = name (f row') → row = row') {row : Row} (h : row ∈ table) :
    (table.map f).find? (fun b => name b = name (f row)) = some (f row) := by
  induction table with
  | nil => cases h
  | cons r table ih =>
      rw [List.map_cons]
      by_cases heq : r = row
      · rw [heq, List.find?_cons_of_pos (by simp)]
      · have hne : name (f r) ≠ name (f row) := fun hname => heq (hinj _ _ hname)
        rw [List.find?_cons_of_neg (by simpa using hne)]
        exact ih ((List.mem_cons.mp h).resolve_left (Ne.symm heq))

theorem resolveMarshal_eq {table : List Row} {row : Row} (h : row ∈ table) :
    resolveMarshal table (generateMarshalRegisterItem row).marshalName
      = some (generateMarshal row.1 row.2) :=
  find?_of_injective (f := fun row : Row => generateMarshal row.1 row.2)
    (fun _ _ hname => identifier_injective hname) h

theorem resolveSignature_eq {table : List Row} {row : Row} (h : row ∈ table) :
    resolveSignature table (generateMarshalRegisterItem row).signatureName
      = some (generateSignature row) :=
  find?_of_injective (f := generateSignature) (fun _ _ hname => identifier_injective hname) h

/-- What `register_marshals` does, row by row: every registration succeeds, and
    the server is left as by these calls. -/
theorem runItems_eq {gStrHash : Bytes → Nat} {md5 : Bytes → Bytes} {table rows : List Row}
    (hsub : ∀ row ∈ rows, row ∈ table) (hnd : rows.Nodup)
    (hmd5 : ∀ row ∈ table, ∀ row' ∈ table, md5 (hashed row) = md5 (hashed row') →
      hashed row = hashed row')
    {S : Cells F Marshal} {past : List (Op F Marshal)} (hpast : afterCells gStrHash past = some S)
    (hown : Owned gStrHash S) (hagree : Agree S (after past))
    (hfresh : ∀ row ∈ rows, marshalOf past (md5 (hashed row)) = none) :
    ∃ S', runItems gStrHash md5 table (rows.map generateMarshalRegisterItem) S
        = some (rows.map (fun _ => true), S')
      ∧ afterCells gStrHash (registerCalls md5 rows ++ past) = some S' := by
  induction rows generalizing S past with
  | nil => exact ⟨S, rfl, hpast⟩
  | cons row rows ih =>
      have hrow := hsub row List.mem_cons_self
      obtain ⟨hnot, hnd⟩ := List.nodup_cons.mp hnd
      have hkey := (after_matches past).marshals (md5 (hashed row))
      rw [hfresh row List.mem_cons_self, Option.map_eq_none_iff] at hkey
      obtain ⟨S₁, hstep, hown₁, hagree₁⟩ := registerMarshal_step hown hagree
        (md5 (hashed row)) (generateMarshal row.1 row.2)
      have haccepted : (searpcServerRegisterMarshal (after past) (md5 (hashed row))
          (generateMarshal row.1 row.2)).1 = true := by
        simp only [searpcServerRegisterMarshal, hkey]
      rw [haccepted] at hstep
      have hpast₁ : afterCells gStrHash
          (Op.registerMarshal (md5 (hashed row)) (generateMarshal row.1 row.2) :: past)
            = some S₁ := by
        rw [afterCells, hpast, Option.bind_some, stepCells, hstep]
        rfl
      have hne : ∀ r ∈ rows, md5 (hashed row) ≠ md5 (hashed r) := by
        intro r hr heq
        have hsame := hashed_injective (hmd5 row hrow r (hsub r (List.mem_cons_of_mem _ hr)) heq)
        exact hnot (hsame ▸ hr)
      obtain ⟨S', hrun, hafter⟩ := ih (fun r hr => hsub r (List.mem_cons_of_mem _ hr)) hnd hpast₁
        hown₁ hagree₁ (fun r hr => by
          rw [marshalOf, hfresh r (List.mem_cons_of_mem _ hr), if_neg (hne r hr)]
          rfl)
      refine ⟨S', ?_, ?_⟩
      · simp only [List.map_cons, runItems, resolveSignature_eq hrow, resolveMarshal_eq hrow,
          generateSignature_call, hstep, hrun, Option.map_some]
      · rw [registerCalls, List.map_cons, List.reverse_cons, List.append_assoc]
        exact hafter

/-- The signature of a row then means its marshal. -/
theorem marshalOf_registerCalls {md5 : Bytes → Bytes} {table rows : List Row}
    (hsub : ∀ row ∈ rows, row ∈ table)
    (hmd5 : ∀ row ∈ table, ∀ row' ∈ table, md5 (hashed row) = md5 (hashed row') →
      hashed row = hashed row')
    {past : List (Op F Marshal)} {row : Row} (hrow : row ∈ rows)
    (hfresh : marshalOf past (md5 (hashed row)) = none) :
    marshalOf (registerCalls md5 rows ++ past) (md5 (hashed row))
      = some (generateMarshal row.1 row.2) := by
  induction rows generalizing past with
  | nil => cases hrow
  | cons r rows ih =>
      have hsub' := fun x hx => hsub x (List.mem_cons_of_mem r hx)
      have happend : registerCalls md5 (r :: rows) ++ past = registerCalls md5 rows
          ++ (Op.registerMarshal (md5 (hashed r)) (generateMarshal r.1 r.2) :: past) := by
        rw [registerCalls, List.map_cons, List.reverse_cons, List.append_assoc]
        rfl
      rw [happend]
      by_cases heq : r = row
      · subst heq
        refine marshalOf_append ?_ _
        rw [marshalOf, hfresh, if_pos rfl]
        rfl
      · have hmem := (List.mem_cons.mp hrow).resolve_left (Ne.symm heq)
        refine ih hsub' hmem ?_
        have hne : md5 (hashed r) ≠ md5 (hashed row) := fun hkey => heq (hashed_injective
          (hmd5 r (hsub r List.mem_cons_self) row (hsub' row hmem) hkey))
        rw [marshalOf, hfresh, if_neg hne]
        rfl

/-- The statement that reads parameter `i`. -/
theorem getParameters_getElem? (k : Nat) (argTypes : List RpcType) (i : Nat) :
    (getParameters k argTypes)[i]? = argTypes[i]?.map (fun t =>
      ⟨(typeTable t).paramType, k + i + 1, (typeTable t).getter, k + i + 1⟩) := by
  induction argTypes generalizing k i with
  | nil => rfl
  | cons t ts ih =>
      cases i with
      | zero => rfl
      | succ i =>
          rw [getParameters, List.getElem?_cons_succ, List.getElem?_cons_succ, ih]
          simp only [Nat.add_assoc, Nat.add_comm 1 i]

theorem getter_of_paramType {t : RpcType} (h : t ∈ paramTypes) :
    ∃ getter, (typeTable t).getter = some getter := by
  cases t with
  | object => exact absurd h (by decide)
  | objlist => exact absurd h (by decide)
  | string => exact ⟨_, rfl⟩
  | int => exact ⟨_, rfl⟩
  | int64 => exact ⟨_, rfl⟩
  | json => exact ⟨_, rfl⟩

/-- No name is registered again, a service is there and a signature means a
    marshal: the function is registered, and run by that marshal until its
    service or its name is touched. -/
theorem registerFunction_selects {gStrHash : Bytes → Nat} {past later : List (Op F Marshal)}
    {svcName fname signature : Bytes} {func : F} {marshal : Marshal}
    (hfresh : NoReRegistration (later ++ .registerFunction svcName func fname signature :: past))
    (hsvc : serviceExists past svcName = true)
    (hsig : marshalOf past signature = some marshal)
    (hlater : ∀ op ∈ later, ¬ Touches svcName fname op) :
    ∃ S S', afterCells gStrHash past = some S
      ∧ registerFunction gStrHash S svcName func fname signature = some (true, S')
      ∧ ∃ S'', afterCells gStrHash (later ++ .registerFunction svcName func fname signature :: past)
          = some S''
        ∧ ∀ (J : Jansson) (mfunc : Marshal → F → Json → ρ) (slowLog : Option SlowLog)
            (clock : Clock) (text : Bytes) (array : Json), J.loadb text = .ok array →
            jsonStringValue (jsonArrayGet (some array) 0) = some fname →
            (callFunction gStrHash J S'' mfunc slowLog clock svcName text).map Called.outcome
              = some (.ran (mfunc marshal func array)) := by
  have hnow := hfresh.past (List.suffix_append later _)
  obtain ⟨S, hS, hown, hagree⟩ : ∃ S, afterCells gStrHash past = some S ∧ Owned gStrHash S
      ∧ Agree S (after past) := afterCells_agree hnow.2
  have hmatches := after_matches past
  -- the registration succeeds
  have hservice := (hmatches.services svcName).trans hsvc
  obtain ⟨service, hservice⟩ := Option.isSome_iff_exists.mp hservice
  have hitem := (hmatches.marshals signature).trans hsig
  obtain ⟨mitem, hmitem, -⟩ := Option.map_eq_some_iff.mp hitem
  have hnone : findFunction (after past) svcName fname = none := by
    by_contra hsome
    refine hnow.1 ⟨by rw [hsig]; rfl, ?_⟩
    rw [← hmatches.functions svcName fname, Option.isSome_map]
    exact Option.isSome_iff_ne_none.mpr hsome
  obtain ⟨S', hstep, -⟩ := registerFunction_step hown hagree svcName func fname signature
    (fun _ => hnone)
  have haccepted : (searpcServerRegisterFunction (after past) svcName func fname signature).1
      = true := by
    simp only [searpcServerRegisterFunction, hservice, hmitem]
  rw [haccepted] at hstep
  refine ⟨S, S', hS, hstep, ?_⟩
  -- and the history remembers it
  obtain ⟨S'', hS'', hown'', hagree''⟩ : ∃ S, afterCells gStrHash
      (later ++ .registerFunction svcName func fname signature :: past) = some S
      ∧ Owned gStrHash S ∧ Agree S (after _) := afterCells_agree hfresh
  refine ⟨S'', hS'', fun J mfunc slowLog clock text array hload hname => ?_⟩
  have hregistered : registration (.registerFunction svcName func fname signature :: past) svcName
      fname = some (func, marshal) := by
    rw [registration, if_pos ⟨rfl, rfl, hsvc⟩, hsig]
  have hsvc' : serviceExists (.registerFunction svcName func fname signature :: past) svcName
      = true := hsvc
  rw [callFunction_agree hown'' hagree'', callFunction_history (after_matches _) hload hname,
    if_pos (serviceExists_append hsvc' hlater), registration_append hregistered hsvc' hlater]

/-- **SIGNATURES SELECT MARSHALS**, for every table of distinct rows: rows share
    no identifier and no hashed text; `register_marshals`, run while no marshal
    is registered, is never refused; and a function registered with the
    signature of a row is only ever run by the marshal of the row, whatever else
    is registered, and registered again.  A call does run it, until its service
    or its name is touched, in every run that registers no function name again:
    one that does may have to read a freed key.  The marshal reads parameter `i`
    at index `i` with the getter of its type. -/
theorem signatures_select_marshals (gStrHash : Bytes → Nat) (md5 : Bytes → Bytes)
    (table : List Row) (hnd : table.Nodup)
    (hargs : ∀ row ∈ table, ∀ t ∈ row.2, t ∈ paramTypes)
    (hmd5 : ∀ row ∈ table, ∀ row' ∈ table, md5 (hashed row) = md5 (hashed row') →
      hashed row = hashed row') :
    (∀ row ∈ table, ∀ row' ∈ table,
        (generateMarshal row.1 row.2).name = (generateMarshal row'.1 row'.2).name
          ∨ (generateSignature row).name = (generateSignature row').name
          ∨ hashed row = hashed row' → row = row')
      ∧ (∀ (start : List (Op F Marshal)) (S : Cells F Marshal), NoReRegistration start →
          afterCells gStrHash start = some S → S.marshalTable = [] →
          ∃ S₁, registerMarshals gStrHash md5 table S = some (table.map (fun _ => true), S₁)
            ∧ afterCells gStrHash (registerCalls md5 table ++ start) = some S₁
            ∧ ∀ row ∈ table, ∃ f, resolveSignature table (generateSignature row).name = some f
              ∧ (∀ (later : List (Op F Marshal)) (func : F) (S₂ : Cells F Marshal),
                afterCells gStrHash (later ++ registerCalls md5 table ++ start) = some S₂ →
                (∀ svcName fname signature, Op.registerFunction svcName func fname signature
                  ∈ later ++ registerCalls md5 table ++ start → signature = f.call md5) →
                ∀ (J : Jansson) (slowLog : Option SlowLog) (clock : Clock) (svcName text : Bytes)
                  (marshal : Marshal),
                  (callFunction gStrHash J S₂ (fun m g _ => (m, g)) slowLog clock svcName text).map
                    Called.outcome = some (.ran (marshal, func)) →
                  marshal = generateMarshal row.1 row.2)
              ∧ ∀ (before later : List (Op F Marshal)) (svcName fname : Bytes) (func : F),
                NoReRegistration (later ++ .registerFunction svcName func fname (f.call md5)
                  :: (before ++ registerCalls md5 table ++ start)) →
                serviceExists (before ++ registerCalls md5 table ++ start) svcName = true →
                (∀ op ∈ later, ¬ Touches svcName fname op) →
                ∃ S₂ S₃, afterCells gStrHash (before ++ registerCalls md5 table ++ start) = some S₂
                  ∧ registerFunction gStrHash S₂ svcName func fname (f.call md5) = some (true, S₃)
                  ∧ ∃ S₄, afterCells gStrHash
                        (later ++ .registerFunction svcName func fname (f.call md5)
                          :: (before ++ registerCalls md5 table ++ start)) = some S₄
                    ∧ ∀ (J : Jansson) (mfunc : Marshal → F → Json → ρ) (slowLog : Option SlowLog)
                        (clock : Clock) (text : Bytes) (array : Json), J.loadb text = .ok array →
                        jsonStringValue (jsonArrayGet (some array) 0) = some fname →
                        (callFunction gStrHash J S₄ mfunc slowLog clock svcName text).map
                            Called.outcome
                          = some (.ran (mfunc (generateMarshal row.1 row.2) func array)))
      ∧ ∀ row ∈ table, ∀ (i : Nat) (t : RpcType), row.2[i]? = some t →
        ∃ getter, (typeTable t).getter = some getter
          ∧ (generateMarshal row.1 row.2).params[i]?
              = some ⟨(typeTable t).paramType, i + 1, some getter, i + 1⟩ := by
  refine ⟨?_, ?_, ?_⟩
  · rintro row - row' - (h | h | h)
    · exact identifier_injective h
    · exact identifier_injective h
    · exact hashed_injective h
  · intro start S hstart hS hempty
    obtain ⟨S', hS', hown, hagree⟩ : ∃ S, afterCells gStrHash start = some S
        ∧ Owned gStrHash S ∧ Agree S (after start) := afterCells_agree hstart
    obtain rfl := Option.some.inj (hS.symm.trans hS')
    have hfresh : ∀ row ∈ table, marshalOf start (md5 (hashed row)) = none := by
      intro row _
      rw [← (after_matches start).marshals, ← hagree.marshals, hempty]
      rfl
    obtain ⟨S₁, hrun, hafter⟩ :=
      runItems_eq (fun _ h => h) hnd hmd5 hS hown hagree hfresh
    refine ⟨S₁, hrun, hafter, fun row hrow => ⟨_, resolveSignature_eq hrow, ?_, ?_⟩⟩
    · intro later func S₂ hS₂ honly J slowLog clock svcName text marshal hran
      obtain ⟨svcName', fname, signature, hmem, hmarshal⟩ := ran_registered hS₂ hran
      have hsig := marshalOf_append
        (marshalOf_registerCalls (fun _ h => h) hmd5 hrow (hfresh row hrow)) later
      rw [← List.append_assoc, ← generateSignature_call md5 row] at hsig
      rw [honly svcName' fname signature hmem] at hmarshal
      exact Option.some.inj (hmarshal.symm.trans hsig)
    · intro before later svcName fname func hhistory hsvc hlater
      have hsig := marshalOf_append
        (marshalOf_registerCalls (fun _ h => h) hmd5 hrow (hfresh row hrow)) before
      rw [← List.append_assoc, ← generateSignature_call md5 row] at hsig
      exact registerFunction_selects hhistory hsvc hsig hlater
  · intro row hrow i t ht
    obtain ⟨getter, hgetter⟩ := getter_of_paramType (hargs row hrow t (List.mem_of_getElem? ht))
    refine ⟨getter, hgetter, ?_⟩
    rw [generateMarshal, getParameters_getElem?, ht, Option.map_some, hgetter, Nat.zero_add]

/-- MD5 on the two texts below. -/
def md5OfTwo (s : Bytes) : Bytes :=
  if s = ascii "string" then ascii "b45cffe084dd3d20d928bee85e7b0f21"
  else if s = ascii "int:string:int" then ascii "7cea4b59ecec4ed07dbefc15d4d9bc27"
  else s

/-- A table of a function without parameters and one with two. -/
def twoRows : List Row := [(.string, []), (.int, [.string, .int])]

/-- `f` is registered as `int f (string, int)`. -/
theorem signatures_select_marshals_twoRows :
    ∃ S₁, registerMarshals djb2 md5OfTwo twoRows (searpcServerInit : Cells Unit Marshal)
        = some ([true, true], S₁)
      ∧ ∃ f, resolveSignature twoRows "searpc_signature_int__string_int" = some f
        ∧ ∃ S₂ S₃, afterCells djb2
              ([.createService (ascii "s")] ++ registerCalls md5OfTwo twoRows ++ []) = some S₂
          ∧ registerFunction djb2 S₂ (ascii "s") () (ascii "f") (f.call md5OfTwo) = some (true, S₃)
          ∧ ∃ S₄ : Cells Unit Marshal, (callFunction djb2 textCodec S₄ (fun m _ _ => m.name) none
              ⟨0, 0⟩ (ascii "s") (textCodec.dumps (.arr [.str (ascii "f")]) true)).map
                Called.outcome = some (.ran "marshal_int__string_int") := by
  have hmd5 : ∀ row ∈ twoRows, ∀ row' ∈ twoRows,
      md5OfTwo (hashed row) = md5OfTwo (hashed row') → hashed row = hashed row' := by decide
  obtain ⟨-, hreg, -⟩ := signatures_select_marshals (F := Unit) (ρ := String) djb2 md5OfTwo twoRows
    (by decide) (by decide) hmd5
  obtain ⟨S₁, hrun, -, hrows⟩ := hreg [] searpcServerInit trivial rfl rfl
  obtain ⟨f, hf, -, hcalls⟩ := hrows (.int, [.string, .int]) (by decide)
  have hfresh : NoReRegistration ([] ++ Op.registerFunction (ascii "s") () (ascii "f")
      (f.call md5OfTwo) :: ([Op.createService (ascii "s")]
        ++ registerCalls md5OfTwo twoRows ++ [])) := by
    refine ⟨?_, id, id, id, trivial⟩
    rintro ⟨-, h⟩
    revert h
    decide
  obtain ⟨S₂, S₃, hS₂, hfunc, S₄, -, hran⟩ := hcalls [.createService (ascii "s")] []
    (ascii "s") (ascii "f") () hfresh (by decide) (fun _ h => (List.not_mem_nil h).elim)
  exact ⟨S₁, hrun, f, hf, S₂, S₃, hS₂, hfunc, S₄, hran textCodec (fun m _ _ => m.name) none ⟨0, 0⟩
    _ (.arr [.str (ascii "f")]) (by decide +kernel) rfl⟩

end SearpcSignature
