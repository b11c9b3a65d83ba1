import Mathlib.Data.List.Nodup
import Searpc.RegistryProofs

/-! # The registry with its memory — who owns the keys of the tables

    The tables borrow their keys: the key of an entry is the name inside the
    value stored there, and destroying the value frees it.  `g_hash_table_insert`
    on a key that is present keeps the OLD key and destroys the old value, so a
    function registered again under its name leaves the table with a key that
    has been freed.

    Names are cells with an identity here, and reading a freed cell is a fault.
    As long as no function name is registered again no key is ever freed under
    its entry, nothing faults, and the tables with cells do what the tables of
    `SearpcServer` do (`afterCells_agree`, `callFunction_agree`). -/

namespace SearpcRegistryCells

open ByteMemory JsonValue SearpcJansson SearpcServer SearpcRegistry

variable {α F M ρ : Type}

/-! ## Cells -/

/-- The identity of an allocated string. -/
abbrev Cell := Nat

/-- The strings that are allocated; `next` is the cell of the next
    `g_strdup`. -/
structure Heap where
  next : Cell
  text : Cell → Option Bytes

/-- `g_strdup`; the new cell is `next`. -/
def Heap.strdup (heap : Heap) (s : Bytes) : Heap :=
  ⟨heap.next + 1, fun c => if c = heap.next then some s else heap.text c⟩

/-- `g_free`. -/
def Heap.free (heap : Heap) (cell : Cell) : Heap :=
  ⟨heap.next, fun c => if c = cell then none else heap.text c⟩

theorem text_strdup_self (heap : Heap) (s : Bytes) : (heap.strdup s).text heap.next = some s :=
  if_pos rfl

theorem text_strdup_ne {heap : Heap} {c : Cell} (h : c ≠ heap.next) (s : Bytes) :
    (heap.strdup s).text c = heap.text c := if_neg h

theorem text_free_ne {heap : Heap} {c cell : Cell} (h : c ≠ cell) :
    (heap.free cell).text c = heap.text c := if_neg h

/-- Freeing a list of cells, one after the other. -/
def Heap.freeAll (heap : Heap) (cells : List Cell) : Heap := cells.foldl Heap.free heap

theorem text_freeAll {c : Cell} {cells : List Cell} (h : c ∉ cells) (heap : Heap) :
    (heap.freeAll cells).text c = heap.text c := by
  induction cells generalizing heap with
  | nil => rfl
  | cons cell cells ih =>
      rw [List.mem_cons, not_or] at h
      exact (ih h.2 (heap.free cell)).trans (text_free_ne h.1)

/-- No cell is in use that was not allocated. -/
def Heap.Bounded (heap : Heap) : Prop := ∀ c, heap.next ≤ c → heap.text c = none

theorem bounded_strdup {heap : Heap} (h : heap.Bounded) (s : Bytes) : (heap.strdup s).Bounded := by
  intro c hc
  have hc' : heap.next < c := hc
  rw [text_strdup_ne (Nat.ne_of_gt hc')]
  exact h c (Nat.le_of_lt hc')

theorem bounded_free {heap : Heap} (h : heap.Bounded) (cell : Cell) : (heap.free cell).Bounded := by
  intro c hc
  by_cases heq : c = cell
  · exact if_pos heq
  · rw [text_free_ne heq]
    exact h c hc

theorem bounded_freeAll {heap : Heap} (h : heap.Bounded) (cells : List Cell) :
    (heap.freeAll cells).Bounded := by
  induction cells generalizing heap with
  | nil => exact h
  | cons cell cells ih => exact ih (bounded_free h cell)

/-! ## Hash tables

    A table keeps the hash of each key beside the key and compares the key
    itself only where the hashes agree. -/

/-- A node of a hash table. -/
structure Entry (α : Type) where
  hash  : Nat
  key   : Cell
  value : α

/-- Walk the nodes; absent when a freed key is read. -/
def findNode (heap : Heap) (hash : Nat) (key : Bytes) : List (Entry α) → Option (Option (Entry α))
  | [] => some none
  | e :: table =>
      if e.hash = hash then
        match heap.text e.key with
        | none => none
        | some text => if text = key then some (some e) else findNode heap hash key table
      else findNode heap hash key table

section Tables

variable (gStrHash : Bytes → Nat)

/-- `g_hash_table_lookup`. -/
def gHashTableLookup (heap : Heap) (table : List (Entry α)) (key : Bytes) : Option (Option α) :=
  (findNode heap (gStrHash key) key table).map (Option.map Entry.value)

/-- Give the node with a key cell a new value. -/
def setValue (key : Cell) (value : α) : List (Entry α) → List (Entry α)
  | [] => []
  | e :: table =>
      if e.key = key then ⟨e.hash, e.key, value⟩ :: table else e :: setValue key value table

/-- `g_hash_table_insert`: the table, and the value to be destroyed if the key
    was present.  The key is not replaced. -/
def gHashTableInsert (heap : Heap) (table : List (Entry α)) (cell : Cell) (key : Bytes)
    (value : α) :
    Option (List (Entry α) × Option α) :=
  match findNode heap (gStrHash key) key table with
  | none => none
  | some none => some (⟨gStrHash key, cell, value⟩ :: table, none)
  | some (some e) => some (setValue e.key value table, some e.value)

/-- `g_hash_table_remove`: the table, and the value to be destroyed. -/
def gHashTableRemove (heap : Heap) (table : List (Entry α)) (key : Bytes) :
    Option (List (Entry α) × Option α) :=
  match findNode heap (gStrHash key) key table with
  | none => none
  | some none => some (table, none)
  | some (some e) => some (table.eraseP (fun x => x.key = e.key), some e.value)

end Tables

/-! ## The server -/

structure MarshalCell (M : Type) where
  mfunc     : M
  signature : Cell

structure FuncCell (F M : Type) where
  func    : F
  fname   : Cell
  marshal : MarshalCell M

structure ServiceCell (F M : Type) where
  name      : Cell
  funcTable : List (Entry (FuncCell F M))

/-- The server's tables and the strings they use. -/
structure Cells (F M : Type) where
  heap         : Heap
  marshalTable : List (Entry (MarshalCell M))
  serviceTable : List (Entry (ServiceCell F M))

/-- `searpc_server_init`. -/
def searpcServerInit : Cells F M := ⟨⟨0, fun _ => none⟩, [], []⟩

/-- `func_item_free`, for a value that may be there. -/
def funcItemFree (heap : Heap) : Option (FuncCell F M) → Heap
  | none => heap
  | some item => heap.free item.fname

/-- `marshal_item_free`. -/
def marshalItemFree (heap : Heap) : Option (MarshalCell M) → Heap
  | none => heap
  | some item => heap.free item.signature

/-- `service_free`: the name, then the names inside the functions. -/
def serviceFree (heap : Heap) : Option (ServiceCell F M) → Heap
  | none => heap
  | some service =>
      (heap.free service.name).freeAll (service.funcTable.map (fun e => e.value.fname))

/-- Give the service with a name cell a new function table. -/
def setFuncTable (name : Cell) (table : List (Entry (FuncCell F M))) :
    List (Entry (ServiceCell F M)) → List (Entry (ServiceCell F M))
  | [] => []
  | e :: services =>
      if e.value.name = name then ⟨e.hash, e.key, ⟨e.value.name, table⟩⟩ :: services
      else e :: setFuncTable name table services

section Server

variable (gStrHash : Bytes → Nat)

/-- `searpc_create_service`; absent when freed memory is read. -/
def createService (S : Cells F M) (svcName : Bytes) : Option (Cells F M) :=
  match gHashTableLookup gStrHash S.heap S.serviceTable svcName with
  | none => none
  | some (some _) => some S
  | some none =>
      let cell := S.heap.next
      let heap := S.heap.strdup svcName
      match gHashTableInsert gStrHash heap S.serviceTable cell svcName ⟨cell, []⟩ with
      | none => none
      | some (table, old) => some ⟨serviceFree heap old, S.marshalTable, table⟩

/-- `searpc_remove_service`. -/
def removeService (S : Cells F M) (svcName : Bytes) : Option (Cells F M) :=
  match gHashTableRemove gStrHash S.heap S.serviceTable svcName with
  | none => none
  | some (table, old) => some ⟨serviceFree S.heap old, S.marshalTable, table⟩

/-- `searpc_server_register_marshal`; the caller's signature becomes the key, or
    is freed. -/
def registerMarshal (S : Cells F M) (signature : Bytes) (marshal : M) : Option (Bool × Cells F M) :=
  let cell := S.heap.next
  let heap := S.heap.strdup signature
  match gHashTableLookup gStrHash heap S.marshalTable signature with
  | none => none
  | some (some _) => some (false, ⟨heap.free cell, S.marshalTable, S.serviceTable⟩)
  | some none =>
      match gHashTableInsert gStrHash heap S.marshalTable cell signature ⟨marshal, cell⟩ with
      | none => none
      | some (table, old) => some (true, ⟨marshalItemFree heap old, table, S.serviceTable⟩)

/-- `searpc_server_register_function`.  Without the service the caller's
    signature is not freed. -/
def registerFunction (S : Cells F M) (svcName : Bytes) (func : F) (fname signature : Bytes) :
    Option (Bool × Cells F M) :=
  let sigCell := S.heap.next
  let heap := S.heap.strdup signature
  match gHashTableLookup gStrHash heap S.serviceTable svcName with
  | none => none
  | some none => some (false, ⟨heap, S.marshalTable, S.serviceTable⟩)
  | some (some service) =>
      match gHashTableLookup gStrHash heap S.marshalTable signature with
      | none => none
      | some none => some (false, ⟨heap.free sigCell, S.marshalTable, S.serviceTable⟩)
      | some (some mitem) =>
          let cell := heap.next
          let heap := heap.strdup fname
          match gHashTableInsert gStrHash heap service.funcTable cell fname ⟨func, cell, mitem⟩ with
          | none => none
          | some (table, old) =>
              some (true, ⟨(funcItemFree heap old).free sigCell, S.marshalTable,
                setFuncTable service.name table S.serviceTable⟩)

/-- One call. -/
def stepCells (S : Cells F M) : Op F M → Option (Cells F M)
  | .createService svcName => createService gStrHash S svcName
  | .removeService svcName => removeService gStrHash S svcName
  | .registerMarshal signature marshal =>
      (registerMarshal gStrHash S signature marshal).map Prod.snd
  | .registerFunction svcName func fname signature =>
      (registerFunction gStrHash S svcName func fname signature).map Prod.snd

/-- The server after a history, newest call first. -/
def afterCells : List (Op F M) → Option (Cells F M)
  | [] => some searpcServerInit
  | op :: history => (afterCells history).bind (fun S => stepCells gStrHash S op)

/-- `searpc_server_call_function`. -/
def callFunction (J : Jansson) (S : Cells F M) (mfunc : M → F → Json → ρ)
    (slowLog : Option SlowLog) (clock : Clock) (svcName func : Bytes) : Option (Called ρ) :=
  match gHashTableLookup gStrHash S.heap S.serviceTable svcName with
  | none => none
  | some none =>
      some ⟨.errorReply 501 (errorToJson J 501
        (snprintf 255 (ascii "cannot find service " ++ svcName ++ ascii "."))), none⟩
  | some (some service) =>
      match J.loadb func with
      | .error text =>
          some ⟨.errorReply 511 (errorToJson J 511
            (snprintf 511 (ascii "failed to load RPC call: " ++ cstr text ++ ascii "\n"))), none⟩
      | .ok array =>
          match jsonStringValue (jsonArrayGet (some array) 0) with
          | none => some ⟨.nullLookup, none⟩
          | some fname =>
              match gHashTableLookup gStrHash S.heap service.funcTable fname with
              | none => none
              | some none =>
                  some ⟨.errorReply 500 (errorToJson J 500
                    (snprintf 255 (ascii "cannot find function " ++ fname ++ ascii "."))), none⟩
              | some (some fitem) =>
                  match slowLog with
                  | none => some ⟨.ran (mfunc fitem.marshal.mfunc fitem.func array), none⟩
                  | some log =>
                      match S.heap.text fitem.fname with
                      | none => none
                      | some name =>
                          some ⟨.ran (mfunc fitem.marshal.mfunc fitem.func array),
                            if log.filteredFuncs = [] ∨ rpcIncludePasswd log name = false then
                              printSlowLogIfNecessary log svcName func clock.start clock.finish
                            else none⟩

end Server

/-! ## Tables whose keys are alive -/

variable {gStrHash : Bytes → Nat}

/-- Every key is alive, has the hash kept for it, and is the only one of its
    text. -/
structure Sound (gStrHash : Bytes → Nat) (heap : Heap) (table : List (Entry α)) : Prop where
  live : ∀ e ∈ table, ∃ text, heap.text e.key = some text ∧ e.hash = gStrHash text
  keys : (table.map (fun e => heap.text e.key)).Nodup

/-- The node with a key. -/
def pick (heap : Heap) (table : List (Entry α)) (key : Bytes) : Option (Entry α) :=
  table.find? (fun e => heap.text e.key = some key)

/-- The value under a key. -/
def cellLookup (heap : Heap) (table : List (Entry α)) (key : Bytes) : Option α :=
  (pick heap table key).map Entry.value

/-- Nothing faults, and the walk finds the key. -/
theorem findNode_eq {heap : Heap} {table : List (Entry α)} (h : Sound gStrHash heap table)
    (key : Bytes) : findNode heap (gStrHash key) key table = some (pick heap table key) := by
  have hlive := h.live
  clear h
  induction table with
  | nil => rfl
  | cons e table ih =>
      obtain ⟨text, htext, hhash⟩ := hlive e List.mem_cons_self
      have ih' := ih (fun x hx => hlive x (List.mem_cons_of_mem _ hx))
      rw [findNode, htext, pick]
      by_cases heq : text = key
      · rw [if_pos (by rw [hhash, heq]), List.find?_cons_of_pos (by rw [htext, heq]; simp)]
        exact if_pos heq
      · rw [List.find?_cons_of_neg (by rw [htext]; simpa using heq)]
        by_cases hh : e.hash = gStrHash key
        · rw [if_pos hh]
          exact (if_neg heq).trans ih'
        · rw [if_neg hh]
          exact ih'

theorem gHashTableLookup_eq {heap : Heap} {table : List (Entry α)} (h : Sound gStrHash heap table)
    (key : Bytes) :
    gHashTableLookup gStrHash heap table key = some (cellLookup heap table key) := by
  rw [gHashTableLookup, findNode_eq h]
  rfl

theorem gHashTableInsert_fresh {heap : Heap} {table : List (Entry α)}
    (h : Sound gStrHash heap table) {key : Bytes} (hfresh : cellLookup heap table key = none)
    (cell : Cell) (value : α) :
    gHashTableInsert gStrHash heap table cell key value
      = some (⟨gStrHash key, cell, value⟩ :: table, none) := by
  have hpick : pick heap table key = none := Option.map_eq_none_iff.mp hfresh
  rw [gHashTableInsert, findNode_eq h, hpick]

theorem cellLookup_cons (heap : Heap) (e : Entry α) (table : List (Entry α)) (key : Bytes) :
    cellLookup heap (e :: table) key
      = if heap.text e.key = some key then some e.value else cellLookup heap table key := by
  by_cases heq : heap.text e.key = some key
  · rw [if_pos heq, cellLookup, pick, List.find?_cons_of_pos (by simpa using heq), Option.map_some]
  · rw [if_neg heq, cellLookup, pick, List.find?_cons_of_neg (by simpa using heq), cellLookup, pick]

theorem cellLookup_cons_text {heap : Heap} {e : Entry α} {text : Bytes}
    (h : heap.text e.key = some text) (table : List (Entry α)) (key : Bytes) :
    cellLookup heap (e :: table) key
      = if text = key then some e.value else cellLookup heap table key := by
  rw [cellLookup_cons, h]
  by_cases heq : text = key
  · rw [if_pos heq, if_pos (congrArg some heq)]
  · rw [if_neg heq, if_neg (fun hsome => heq (Option.some.inj hsome))]

theorem cellLookup_append (heap : Heap) (t₁ t₂ : List (Entry α)) (key : Bytes) :
    cellLookup heap (t₁ ++ t₂) key = (cellLookup heap t₁ key).or (cellLookup heap t₂ key) := by
  rw [cellLookup, pick, List.find?_append, Option.map_or]
  rfl

theorem cellLookup_absent {heap : Heap} {table : List (Entry α)} {key : Bytes}
    (h : ∀ e ∈ table, heap.text e.key ≠ some key) : cellLookup heap table key = none := by
  rw [cellLookup, Option.map_eq_none_iff, pick, List.find?_eq_none]
  intro e he
  simpa using h e he

/-- The lookup depends on the texts of the keys alone. -/
theorem cellLookup_frame {heap heap' : Heap} {table : List (Entry α)}
    (h : ∀ e ∈ table, heap'.text e.key = heap.text e.key) (key : Bytes) :
    cellLookup heap' table key = cellLookup heap table key := by
  induction table with
  | nil => rfl
  | cons e table ih =>
      rw [cellLookup_cons, cellLookup_cons, h e List.mem_cons_self,
        ih (fun x hx => h x (List.mem_cons_of_mem _ hx))]

theorem sound_frame {heap heap' : Heap} {table : List (Entry α)}
    (h : ∀ e ∈ table, heap'.text e.key = heap.text e.key) (hs : Sound gStrHash heap table) :
    Sound gStrHash heap' table := by
  refine ⟨fun e he => ?_, ?_⟩
  · rw [h e he]
    exact hs.live e he
  · rw [List.map_congr_left h]
    exact hs.keys

/-- A new key in front. -/
theorem sound_cons {heap : Heap} {table : List (Entry α)} (hs : Sound gStrHash heap table)
    {key : Bytes} {cell : Cell} (hcell : heap.text cell = some key)
    (hfresh : cellLookup heap table key = none) (value : α) :
    Sound gStrHash heap (⟨gStrHash key, cell, value⟩ :: table) := by
  refine ⟨fun e he => ?_, ?_⟩
  · rcases List.mem_cons.mp he with rfl | he
    · exact ⟨key, hcell, rfl⟩
    · exact hs.live e he
  · rw [List.map_cons, List.nodup_cons]
    refine ⟨?_, hs.keys⟩
    rw [List.mem_map]
    rintro ⟨e, he, htext⟩
    have hnone : pick heap table key = none := Option.map_eq_none_iff.mp hfresh
    exact List.find?_eq_none.mp hnone e he (by simpa using htext.trans hcell)

/-- A node that is found stands between nodes with other keys. -/
theorem pick_split {heap : Heap} {table : List (Entry α)} (hs : Sound gStrHash heap table)
    {key : Bytes} {e : Entry α} (h : pick heap table key = some e) :
    ∃ t₁ t₂, table = t₁ ++ e :: t₂ ∧ heap.text e.key = some key
      ∧ ∀ x ∈ t₁ ++ t₂, heap.text x.key ≠ some key := by
  obtain ⟨hkey, t₁, t₂, rfl, -⟩ := List.find?_eq_some_iff_append.mp h
  have hkey' : heap.text e.key = some key := by simpa using hkey
  have hnd := hs.keys
  rw [List.map_append, List.map_cons, List.nodup_middle, List.nodup_cons, ← List.map_append] at hnd
  refine ⟨t₁, t₂, rfl, hkey', fun x hx htext => hnd.1 ?_⟩
  rw [hkey', ← htext]
  exact List.mem_map_of_mem hx

/-- A lookup around a node whose key no other node has. -/
theorem cellLookup_middle {heap : Heap} {t₁ t₂ : List (Entry α)} {e : Entry α} {text : Bytes}
    (he : heap.text e.key = some text) (hother : ∀ x ∈ t₁ ++ t₂, heap.text x.key ≠ some text)
    (key : Bytes) :
    cellLookup heap (t₁ ++ e :: t₂) key
      = if text = key then some e.value else cellLookup heap (t₁ ++ t₂) key := by
  rw [cellLookup_append, cellLookup_cons_text he, cellLookup_append]
  by_cases heq : text = key
  · have habsent : cellLookup heap t₁ key = none :=
      cellLookup_absent (fun x hx => heq ▸ hother x (List.mem_append_left _ hx))
    rw [if_pos heq, if_pos heq, habsent, Option.none_or]
  · rw [if_neg heq, if_neg heq]

/-- Nodes with different texts have different cells. -/
theorem key_ne_of_text {heap : Heap} {e x : Entry α} {text : Bytes}
    (he : heap.text e.key = some text) (hx : heap.text x.key ≠ some text) : x.key ≠ e.key :=
  fun heq => hx (heq ▸ he)

/-! ## Ownership -/

/-- The keys a service brings into the tables. -/
def serviceKeys (e : Entry (ServiceCell F M)) : List Cell :=
  e.key :: e.value.funcTable.map Entry.key

/-- The keys of all tables. -/
def keyCells (S : Cells F M) : List Cell :=
  S.marshalTable.map Entry.key ++ S.serviceTable.flatMap serviceKeys

/-- Every key is the name of the value in its entry, alive, and used once. -/
structure Owned (gStrHash : Bytes → Nat) (S : Cells F M) : Prop where
  marshals    : Sound gStrHash S.heap S.marshalTable
  services    : Sound gStrHash S.heap S.serviceTable
  functions   : ∀ e ∈ S.serviceTable, Sound gStrHash S.heap e.value.funcTable
  marshalKey  : ∀ e ∈ S.marshalTable, e.key = e.value.signature
  serviceKey  : ∀ e ∈ S.serviceTable, e.key = e.value.name
  functionKey : ∀ e ∈ S.serviceTable, ∀ f ∈ e.value.funcTable, f.key = f.value.fname
  distinct    : (keyCells S).Nodup
  bounded     : S.heap.Bounded

theorem marshal_mem_keyCells {S : Cells F M} {e : Entry (MarshalCell M)} (h : e ∈ S.marshalTable) :
    e.key ∈ keyCells S := List.mem_append_left _ (List.mem_map_of_mem h)

theorem service_mem_keyCells {S : Cells F M} {e : Entry (ServiceCell F M)} {c : Cell}
    (h : e ∈ S.serviceTable) (hc : c ∈ serviceKeys e) : c ∈ keyCells S :=
  List.mem_append_right _ (List.mem_flatMap_of_mem h hc)

theorem function_mem_serviceKeys {e : Entry (ServiceCell F M)} {f : Entry (FuncCell F M)}
    (h : f ∈ e.value.funcTable) : f.key ∈ serviceKeys e :=
  List.mem_cons_of_mem _ (List.mem_map_of_mem h)

theorem keyCells_live {S : Cells F M} (h : Owned gStrHash S) {c : Cell} (hc : c ∈ keyCells S) :
    S.heap.text c ≠ none := by
  have hlive : ∀ {β : Type} {table : List (Entry β)} {e : Entry β}, Sound gStrHash S.heap table →
      e ∈ table → S.heap.text e.key ≠ none := by
    intro β table e hs he hnone
    obtain ⟨text, htext, -⟩ := hs.live e he
    rw [htext] at hnone
    cases hnone
  rcases List.mem_append.mp hc with hm | hs
  · obtain ⟨e, he, rfl⟩ := List.mem_map.mp hm
    exact hlive h.marshals he
  · obtain ⟨e, he, hk⟩ := List.mem_flatMap.mp hs
    rcases List.mem_cons.mp hk with rfl | hf
    · exact hlive h.services he
    · obtain ⟨f, hmem, rfl⟩ := List.mem_map.mp hf
      exact hlive (h.functions e he) hmem

theorem next_not_mem {S : Cells F M} (h : Owned gStrHash S) : S.heap.next ∉ keyCells S :=
  fun hc => keyCells_live h hc (h.bounded _ (Nat.le_refl _))

/-- What happens to other cells does not matter. -/
theorem owned_frame {S : Cells F M} (h : Owned gStrHash S) {heap : Heap}
    (hsame : ∀ c ∈ keyCells S, heap.text c = S.heap.text c) (hb : heap.Bounded) :
    Owned gStrHash ⟨heap, S.marshalTable, S.serviceTable⟩ where
  marshals := sound_frame (fun _ he => hsame _ (marshal_mem_keyCells he)) h.marshals
  services := sound_frame (fun _ he => hsame _ (service_mem_keyCells he List.mem_cons_self))
    h.services
  functions := fun e he => sound_frame
    (fun _ hf => hsame _ (service_mem_keyCells he (function_mem_serviceKeys hf))) (h.functions e he)
  marshalKey := h.marshalKey
  serviceKey := h.serviceKey
  functionKey := h.functionKey
  distinct := h.distinct
  bounded := hb

/-- The function under a name in a service. -/
def cellFind (S : Cells F M) (svc fname : Bytes) : Option (FuncCell F M) :=
  (cellLookup S.heap S.serviceTable svc).bind (fun service =>
    cellLookup S.heap service.funcTable fname)

def FuncCell.pair (item : FuncCell F M) : F × M := (item.func, item.marshal.mfunc)

/-- The tables with cells and the tables without say the same. -/
structure Agree (S : Cells F M) (R : Registry F M) : Prop where
  marshals  : ∀ key, (cellLookup S.heap S.marshalTable key).map MarshalCell.mfunc
    = (lookup R.marshalTable key).map MarshalItem.mfunc
  services  : ∀ svc, (cellLookup S.heap S.serviceTable svc).isSome
    = (lookup R.serviceTable svc).isSome
  functions : ∀ svc fname, (cellFind S svc fname).map FuncCell.pair
    = (findFunction R svc fname).map FuncItem.pair

theorem mem_of_cellLookup {heap : Heap} {table : List (Entry α)} {key : Bytes} {v : α}
    (h : cellLookup heap table key = some v) : ∃ e ∈ table, e.value = v := by
  obtain ⟨e, he, hv⟩ := Option.map_eq_some_iff.mp h
  exact ⟨e, List.mem_of_find?_eq_some he, hv⟩

theorem cellFind_frame {S : Cells F M} {heap : Heap}
    (hsame : ∀ c ∈ keyCells S, heap.text c = S.heap.text c) (svc fname : Bytes) :
    cellFind ⟨heap, S.marshalTable, S.serviceTable⟩ svc fname = cellFind S svc fname := by
  have hsvc : cellLookup heap S.serviceTable svc = cellLookup S.heap S.serviceTable svc :=
    cellLookup_frame (fun _ he => hsame _ (service_mem_keyCells he List.mem_cons_self)) svc
  rw [cellFind, cellFind, hsvc]
  cases hfound : cellLookup S.heap S.serviceTable svc with
  | none => rfl
  | some service =>
      obtain ⟨e, he, rfl⟩ := mem_of_cellLookup hfound
      exact cellLookup_frame
        (fun _ hf => hsame _ (service_mem_keyCells he (function_mem_serviceKeys hf))) fname

theorem agree_frame {S : Cells F M} {R : Registry F M} (h : Agree S R) {heap : Heap}
    (hsame : ∀ c ∈ keyCells S, heap.text c = S.heap.text c) :
    Agree ⟨heap, S.marshalTable, S.serviceTable⟩ R where
  marshals := fun key => by
    rw [← h.marshals key]
    exact congrArg _ (cellLookup_frame (fun _ he => hsame _ (marshal_mem_keyCells he)) key)
  services := fun svc => by
    rw [← h.services svc]
    exact congrArg _
      (cellLookup_frame (fun _ he => hsame _ (service_mem_keyCells he List.mem_cons_self)) svc)
  functions := fun svc fname => by
    rw [← h.functions svc fname, cellFind_frame hsame]

/-! ## One call -/

/-- A call copied a string; its cell is new. -/
theorem strdup_same {S : Cells F M} (h : Owned gStrHash S) (s : Bytes) :
    ∀ c ∈ keyCells S, (S.heap.strdup s).text c = S.heap.text c := by
  intro c hc
  exact text_strdup_ne (fun heq => next_not_mem h (heq ▸ hc)) s

theorem owned_strdup {S : Cells F M} (h : Owned gStrHash S) (s : Bytes) :
    Owned gStrHash ⟨S.heap.strdup s, S.marshalTable, S.serviceTable⟩ :=
  owned_frame h (strdup_same h s) (bounded_strdup h.bounded s)

theorem owned_addService {S : Cells F M} (h : Owned gStrHash S) {svcName : Bytes} {c : Cell}
    (hcell : S.heap.text c = some svcName) (hnew : c ∉ keyCells S)
    (hfresh : cellLookup S.heap S.serviceTable svcName = none) :
    Owned gStrHash
      ⟨S.heap, S.marshalTable, ⟨gStrHash svcName, c, ⟨c, []⟩⟩ :: S.serviceTable⟩ where
  marshals := h.marshals
  services := sound_cons h.services hcell hfresh _
  functions :=
    List.forall_mem_cons.mpr ⟨⟨fun _ hf => (List.not_mem_nil hf).elim, .nil⟩, h.functions⟩
  marshalKey := h.marshalKey
  serviceKey := List.forall_mem_cons.mpr ⟨rfl, h.serviceKey⟩
  functionKey := List.forall_mem_cons.mpr ⟨fun _ hf => (List.not_mem_nil hf).elim, h.functionKey⟩
  distinct := List.nodup_middle.mpr (List.nodup_cons.mpr ⟨hnew, h.distinct⟩)
  bounded := h.bounded

theorem agree_addService {S : Cells F M} {R : Registry F M} (ha : Agree S R) {svcName : Bytes}
    {c : Cell} (hcell : S.heap.text c = some svcName) :
    Agree ⟨S.heap, S.marshalTable, ⟨gStrHash svcName, c, ⟨c, []⟩⟩ :: S.serviceTable⟩
      ⟨R.marshalTable, SearpcServer.insert R.serviceTable svcName ⟨svcName, []⟩⟩ where
  marshals := ha.marshals
  services := fun svc => by
    rw [cellLookup_cons_text hcell, lookup_insert]
    by_cases heq : svcName = svc
    · rw [if_pos heq, if_pos heq]
      rfl
    · rw [if_neg heq, if_neg heq, ha.services svc]
  functions := fun svc fname => by
    rw [cellFind, cellLookup_cons_text hcell, findFunction, lookup_insert]
    by_cases heq : svcName = svc
    · rw [if_pos heq, if_pos heq]
      rfl
    · rw [if_neg heq, if_neg heq]
      exact ha.functions svc fname

/-- `searpc_create_service` does what it does without cells. -/
theorem createService_step {S : Cells F M} {R : Registry F M} (h : Owned gStrHash S)
    (ha : Agree S R) (svcName : Bytes) :
    ∃ S', createService gStrHash S svcName = some S' ∧ Owned gStrHash S'
      ∧ Agree S' (searpcCreateService R svcName) := by
  have hexists := ha.services svcName
  cases hsvc : cellLookup S.heap S.serviceTable svcName with
  | some service =>
      rw [hsvc, Option.isSome_some] at hexists
      obtain ⟨rservice, hr⟩ := Option.isSome_iff_exists.mp hexists.symm
      refine ⟨S, ?_, h, ?_⟩
      · simp only [createService, gHashTableLookup_eq h.services, hsvc]
      · simp only [searpcCreateService, hr]
        exact ha
  | none =>
      rw [hsvc, Option.isSome_none] at hexists
      have hr := Option.isNone_iff_eq_none.mp (Option.isSome_eq_false_iff.mp hexists.symm)
      have hown := owned_strdup h svcName
      have hagree := agree_frame ha (strdup_same h svcName)
      have hfresh : cellLookup (S.heap.strdup svcName) S.serviceTable svcName = none :=
        (cellLookup_frame (fun _ he => strdup_same h svcName _
          (service_mem_keyCells he List.mem_cons_self)) svcName).trans hsvc
      have hcell := text_strdup_self S.heap svcName
      refine ⟨⟨S.heap.strdup svcName, S.marshalTable,
        ⟨gStrHash svcName, S.heap.next, ⟨S.heap.next, []⟩⟩ :: S.serviceTable⟩, ?_, ?_, ?_⟩
      · simp only [createService, gHashTableLookup_eq h.services, hsvc,
          gHashTableInsert_fresh hown.services hfresh, serviceFree]
      · exact owned_addService hown hcell (next_not_mem h) hfresh
      · simp only [searpcCreateService, hr]
        exact agree_addService hagree hcell

theorem owned_addMarshal {S : Cells F M} (h : Owned gStrHash S) {signature : Bytes} {c : Cell}
    (hcell : S.heap.text c = some signature) (hnew : c ∉ keyCells S)
    (hfresh : cellLookup S.heap S.marshalTable signature = none) (marshal : M) :
    Owned gStrHash
      ⟨S.heap, ⟨gStrHash signature, c, ⟨marshal, c⟩⟩ :: S.marshalTable, S.serviceTable⟩ where
  marshals := sound_cons h.marshals hcell hfresh _
  services := h.services
  functions := h.functions
  marshalKey := List.forall_mem_cons.mpr ⟨rfl, h.marshalKey⟩
  serviceKey := h.serviceKey
  functionKey := h.functionKey
  distinct := List.nodup_cons.mpr ⟨hnew, h.distinct⟩
  bounded := h.bounded

theorem agree_addMarshal {S : Cells F M} {R : Registry F M} (ha : Agree S R) {signature : Bytes}
    {c : Cell} (hcell : S.heap.text c = some signature) (marshal : M) :
    Agree ⟨S.heap, ⟨gStrHash signature, c, ⟨marshal, c⟩⟩ :: S.marshalTable, S.serviceTable⟩
      ⟨SearpcServer.insert R.marshalTable signature ⟨marshal, signature⟩, R.serviceTable⟩ where
  marshals := fun key => by
    rw [cellLookup_cons_text hcell, lookup_insert]
    by_cases heq : signature = key
    · rw [if_pos heq, if_pos heq]
      rfl
    · rw [if_neg heq, if_neg heq, ha.marshals key]
  services := ha.services
  functions := ha.functions

/-- The two tables give a signature a marshal together. -/
theorem marshal_isSome {S : Cells F M} {R : Registry F M} (ha : Agree S R) (key : Bytes) :
    (cellLookup S.heap S.marshalTable key).isSome = (lookup R.marshalTable key).isSome := by
  have h := congrArg Option.isSome (ha.marshals key)
  rwa [Option.isSome_map, Option.isSome_map] at h

/-- The signature the caller passed is freed; no table used it. -/
theorem freeNext_same {S : Cells F M} (h : Owned gStrHash S) (s : Bytes) :
    ∀ c ∈ keyCells S, ((S.heap.strdup s).free S.heap.next).text c = S.heap.text c := by
  intro c hc
  have hne : c ≠ S.heap.next := fun heq => next_not_mem h (heq ▸ hc)
  rw [text_free_ne hne, text_strdup_ne hne]

/-- `searpc_server_register_marshal` returns and does what it does without
    cells. -/
theorem registerMarshal_step {S : Cells F M} {R : Registry F M} (h : Owned gStrHash S)
    (ha : Agree S R) (signature : Bytes) (marshal : M) :
    ∃ S', registerMarshal gStrHash S signature marshal
        = some ((searpcServerRegisterMarshal R signature marshal).1, S') ∧ Owned gStrHash S'
      ∧ Agree S' (searpcServerRegisterMarshal R signature marshal).2 := by
  have hown := owned_strdup h signature
  have hagree := agree_frame ha (strdup_same h signature)
  have hexists := marshal_isSome hagree signature
  cases hsig : cellLookup (S.heap.strdup signature) S.marshalTable signature with
  | some mitem =>
      rw [hsig, Option.isSome_some] at hexists
      obtain ⟨ritem, hr⟩ := Option.isSome_iff_exists.mp hexists.symm
      refine ⟨⟨(S.heap.strdup signature).free S.heap.next, S.marshalTable, S.serviceTable⟩,
        ?_, ?_, ?_⟩
      · simp only [registerMarshal, gHashTableLookup_eq hown.marshals, hsig,
          searpcServerRegisterMarshal, hr]
      · exact owned_frame h (freeNext_same h signature) (bounded_free hown.bounded _)
      · simp only [searpcServerRegisterMarshal, hr]
        exact agree_frame ha (freeNext_same h signature)
  | none =>
      rw [hsig, Option.isSome_none] at hexists
      have hr := Option.isNone_iff_eq_none.mp (Option.isSome_eq_false_iff.mp hexists.symm)
      have hcell := text_strdup_self S.heap signature
      refine ⟨⟨S.heap.strdup signature,
        ⟨gStrHash signature, S.heap.next, ⟨marshal, S.heap.next⟩⟩ :: S.marshalTable,
        S.serviceTable⟩, ?_, ?_, ?_⟩
      · simp only [registerMarshal, gHashTableLookup_eq hown.marshals, hsig,
          gHashTableInsert_fresh hown.marshals hsig, marshalItemFree,
          searpcServerRegisterMarshal, hr]
      · exact owned_addMarshal hown hcell (next_not_mem h) hsig marshal
      · simp only [searpcServerRegisterMarshal, hr]
        exact agree_addMarshal hagree hcell marshal

/-- Without a service the others stay as they are. -/
theorem owned_dropService {S : Cells F M} (h : Owned gStrHash S)
    {t₁ t₂ : List (Entry (ServiceCell F M))} {e : Entry (ServiceCell F M)}
    (ht : S.serviceTable = t₁ ++ e :: t₂) :
    Owned gStrHash ⟨S.heap, S.marshalTable, t₁ ++ t₂⟩
      ∧ ∀ c ∈ keyCells ⟨S.heap, S.marshalTable, t₁ ++ t₂⟩, c ∉ serviceKeys e := by
  have hsub : (t₁ ++ t₂).Sublist S.serviceTable := by
    rw [ht]
    exact List.Sublist.append_left (List.sublist_cons_self e t₂) t₁
  have hperm : (keyCells S).Perm
      (serviceKeys e ++ keyCells ⟨S.heap, S.marshalTable, t₁ ++ t₂⟩) := by
    rw [keyCells, ht, List.flatMap_append, List.flatMap_cons, keyCells, List.flatMap_append]
    refine (List.Perm.append_left _ ?_).trans (List.perm_append_comm_assoc _ _ _)
    exact List.perm_append_comm_assoc _ _ _
  have hnd := hperm.nodup_iff.mp h.distinct
  refine ⟨⟨h.marshals, ⟨fun x hx => h.services.live x (hsub.subset hx),
    (hsub.map _).nodup h.services.keys⟩, fun x hx => h.functions x (hsub.subset hx), h.marshalKey,
    fun x hx => h.serviceKey x (hsub.subset hx), fun x hx => h.functionKey x (hsub.subset hx),
    (List.nodup_append.mp hnd).2.1, h.bounded⟩, ?_⟩
  intro c hc he
  exact (List.nodup_append.mp hnd).2.2 c he c hc rfl

/-- Destroying a service frees its own keys only. -/
theorem serviceFree_same {S : Cells F M} (h : Owned gStrHash S) {e : Entry (ServiceCell F M)}
    (he : e ∈ S.serviceTable) {c : Cell} (hc : c ∉ serviceKeys e) :
    (serviceFree S.heap (some e.value)).text c = S.heap.text c := by
  rw [serviceKeys, List.mem_cons, not_or] at hc
  have hnames : e.value.funcTable.map (fun f => f.value.fname) = e.value.funcTable.map Entry.key :=
    List.map_congr_left (fun f hf => (h.functionKey e he f hf).symm)
  rw [serviceFree, hnames, text_freeAll hc.2, ← h.serviceKey e he, text_free_ne hc.1]

theorem agree_dropService {S : Cells F M} {R : Registry F M} (ha : Agree S R)
    {t₁ t₂ : List (Entry (ServiceCell F M))} {e : Entry (ServiceCell F M)}
    (ht : S.serviceTable = t₁ ++ e :: t₂) {svcName : Bytes}
    (he : S.heap.text e.key = some svcName)
    (hother : ∀ x ∈ t₁ ++ t₂, S.heap.text x.key ≠ some svcName) :
    Agree ⟨S.heap, S.marshalTable, t₁ ++ t₂⟩ (searpcRemoveService R svcName) := by
  have hkept : ∀ svc, svcName ≠ svc → cellLookup S.heap (t₁ ++ t₂) svc
      = cellLookup S.heap S.serviceTable svc := by
    intro svc hne
    rw [ht, cellLookup_middle he hother, if_neg hne]
  refine ⟨ha.marshals, fun svc => ?_, fun svc fname => ?_⟩
  · rw [searpcRemoveService, lookup_remove]
    by_cases heq : svcName = svc
    · rw [if_pos heq, ← heq, cellLookup_absent hother]
      rfl
    · rw [if_neg heq, hkept svc heq, ha.services svc]
  · rw [cellFind, findFunction, searpcRemoveService, lookup_remove]
    by_cases heq : svcName = svc
    · rw [if_pos heq, ← heq, cellLookup_absent hother]
      rfl
    · rw [if_neg heq, hkept svc heq]
      exact ha.functions svc fname

/-- The node that `g_hash_table_remove` takes out. -/
theorem eraseP_middle {heap : Heap} {t₁ t₂ : List (Entry α)} {e : Entry α} {text : Bytes}
    (he : heap.text e.key = some text) (hother : ∀ x ∈ t₁ ++ t₂, heap.text x.key ≠ some text) :
    (t₁ ++ e :: t₂).eraseP (fun x => x.key = e.key) = t₁ ++ t₂ := by
  rw [List.eraseP_append_right _ ?_, List.eraseP_cons_of_pos (by simp)]
  intro x hx
  simpa using key_ne_of_text he (hother x (List.mem_append_left _ hx))

/-- `searpc_remove_service` does what it does without cells, and leaves the
    other services and the marshals alone. -/
theorem removeService_step {S : Cells F M} {R : Registry F M} (h : Owned gStrHash S)
    (ha : Agree S R) (svcName : Bytes) :
    ∃ S', removeService gStrHash S svcName = some S' ∧ Owned gStrHash S'
      ∧ Agree S' (searpcRemoveService R svcName) ∧ S'.marshalTable = S.marshalTable
      ∧ (∀ key, cellLookup S'.heap S.marshalTable key = cellLookup S.heap S.marshalTable key)
      ∧ (∀ svc, svc ≠ svcName → cellLookup S'.heap S'.serviceTable svc
          = cellLookup S.heap S.serviceTable svc)
      ∧ ∀ svc fname, svc ≠ svcName → cellFind S' svc fname = cellFind S svc fname := by
  cases hpick : pick S.heap S.serviceTable svcName with
  | none =>
      have hnone : cellLookup S.heap S.serviceTable svcName = none := by
        rw [cellLookup, hpick, Option.map_none]
      have hr : lookup R.serviceTable svcName = none := by
        have hexists := ha.services svcName
        rw [hnone, Option.isSome_none] at hexists
        exact Option.isNone_iff_eq_none.mp (Option.isSome_eq_false_iff.mp hexists.symm)
      refine ⟨S, ?_, h, ⟨ha.marshals, fun svc => ?_, fun svc fname => ?_⟩, rfl, fun _ => rfl,
        fun _ _ => rfl, fun _ _ _ => rfl⟩
      · simp only [removeService, gHashTableRemove, findNode_eq h.services, hpick, serviceFree]
      · rw [ha.services svc, searpcRemoveService, lookup_remove]
        by_cases heq : svcName = svc
        · rw [if_pos heq, ← heq, hr]
        · rw [if_neg heq]
      · rw [ha.functions svc fname, findFunction, findFunction, searpcRemoveService, lookup_remove]
        by_cases heq : svcName = svc
        · rw [if_pos heq, ← heq, hr]
        · rw [if_neg heq]
  | some e =>
      obtain ⟨t₁, t₂, ht, he, hother⟩ := pick_split h.services hpick
      have hmem : e ∈ S.serviceTable := List.mem_of_find?_eq_some hpick
      obtain ⟨hown, hapart⟩ := owned_dropService h ht
      have hsame : ∀ c ∈ keyCells ⟨S.heap, S.marshalTable, t₁ ++ t₂⟩,
          (serviceFree S.heap (some e.value)).text c = S.heap.text c :=
        fun c hc => serviceFree_same h hmem (hapart c hc)
      have hbounded : (serviceFree S.heap (some e.value)).Bounded :=
        bounded_freeAll (bounded_free h.bounded _) _
      have hkept : ∀ svc, svc ≠ svcName → cellLookup S.heap (t₁ ++ t₂) svc
          = cellLookup S.heap S.serviceTable svc := by
        intro svc hne
        rw [ht, cellLookup_middle he hother, if_neg (Ne.symm hne)]
      refine ⟨⟨serviceFree S.heap (some e.value), S.marshalTable, t₁ ++ t₂⟩, ?_,
        owned_frame hown hsame hbounded, agree_frame (agree_dropService ha ht he hother) hsame,
        rfl, cellLookup_frame (fun _ hx => hsame _ (marshal_mem_keyCells hx)),
        fun svc hne => ?_, fun svc fname hne => ?_⟩
      · simp only [removeService, gHashTableRemove, findNode_eq h.services, hpick]
        rw [ht, eraseP_middle he hother]
      · rw [← hkept svc hne]
        exact cellLookup_frame
          (fun _ hx => hsame _ (service_mem_keyCells hx List.mem_cons_self)) svc
      · rw [cellFind_frame hsame, cellFind, hkept svc hne, cellFind]

/-- A service with one more function. -/
def withFunction (gStrHash : Bytes → Nat) (e : Entry (ServiceCell F M)) (fname : Bytes) (c : Cell)
    (func : F) (mitem : MarshalCell M) : Entry (ServiceCell F M) :=
  ⟨e.hash, e.key, ⟨e.value.name, ⟨gStrHash fname, c, ⟨func, c, mitem⟩⟩ :: e.value.funcTable⟩⟩

theorem setFuncTable_middle {t₁ t₂ : List (Entry (ServiceCell F M))} {e : Entry (ServiceCell F M)}
    (hother : ∀ x ∈ t₁, x.value.name ≠ e.value.name) (table : List (Entry (FuncCell F M))) :
    setFuncTable e.value.name table (t₁ ++ e :: t₂)
      = t₁ ++ ⟨e.hash, e.key, ⟨e.value.name, table⟩⟩ :: t₂ := by
  induction t₁ with
  | nil => exact if_pos rfl
  | cons x t₁ ih =>
      rw [List.cons_append, setFuncTable, if_neg (hother x List.mem_cons_self),
        ih (fun y hy => hother y (List.mem_cons_of_mem _ hy))]
      rfl

/-- The new key is the only one more. -/
theorem keyCells_withFunction {heap : Heap} {marshals : List (Entry (MarshalCell M))}
    {t₁ t₂ : List (Entry (ServiceCell F M))} {e : Entry (ServiceCell F M)} (fname : Bytes)
    (c : Cell)
    (func : F) (mitem : MarshalCell M) :
    (keyCells ⟨heap, marshals, t₁ ++ withFunction gStrHash e fname c func mitem :: t₂⟩).Perm
      (c :: keyCells ⟨heap, marshals, t₁ ++ e :: t₂⟩) := by
  have hkeys : serviceKeys (withFunction gStrHash e fname c func mitem)
      = e.key :: c :: e.value.funcTable.map Entry.key := rfl
  have hservice : (serviceKeys (withFunction gStrHash e fname c func mitem)).Perm
      (c :: serviceKeys e) := by
    rw [hkeys]
    exact List.Perm.swap c e.key _
  rw [keyCells, keyCells, List.flatMap_append, List.flatMap_append, List.flatMap_cons,
    List.flatMap_cons]
  have hfront : (t₁.flatMap serviceKeys
      ++ (serviceKeys (withFunction gStrHash e fname c func mitem) ++ t₂.flatMap serviceKeys)).Perm
        (c :: (t₁.flatMap serviceKeys ++ (serviceKeys e ++ t₂.flatMap serviceKeys))) :=
    ((hservice.append_right _).append_left _).trans List.perm_middle
  exact (hfront.append_left _).trans List.perm_middle

theorem owned_addFunction {S : Cells F M} (h : Owned gStrHash S)
    {t₁ t₂ : List (Entry (ServiceCell F M))} {e : Entry (ServiceCell F M)}
    (ht : S.serviceTable = t₁ ++ e :: t₂) {fname : Bytes} {c : Cell}
    (hcell : S.heap.text c = some fname) (hnew : c ∉ keyCells S)
    (hfresh : cellLookup S.heap e.value.funcTable fname = none) (func : F) (mitem : MarshalCell M) :
    Owned gStrHash ⟨S.heap, S.marshalTable,
      t₁ ++ withFunction gStrHash e fname c func mitem :: t₂⟩ := by
  obtain ⟨e', he'⟩ : ∃ e', e' = withFunction gStrHash e fname c func mitem := ⟨_, rfl⟩
  have hkey : e'.key = e.key ∧ e'.hash = e.hash ∧ e'.value.name = e.value.name := by
    rw [he']
    exact ⟨rfl, rfl, rfl⟩
  have hmem : e ∈ S.serviceTable := by
    rw [ht]
    exact List.mem_append_right _ List.mem_cons_self
  have hold : ∀ x ∈ t₁ ++ e' :: t₂, x = e' ∨ x ∈ S.serviceTable := by
    intro x hx
    rw [ht]
    rcases List.mem_append.mp hx with hx | hx
    · exact Or.inr (List.mem_append_left _ hx)
    · rcases List.mem_cons.mp hx with hx | hx
      · exact Or.inl hx
      · exact Or.inr (List.mem_append_right _ (List.mem_cons_of_mem _ hx))
  have htexts : (t₁ ++ e' :: t₂).map (fun x => S.heap.text x.key)
      = S.serviceTable.map (fun x => S.heap.text x.key) := by
    rw [ht, List.map_append, List.map_append, List.map_cons, List.map_cons, hkey.1]
  rw [← he']
  refine ⟨h.marshals, ⟨fun x hx => ?_, ?_⟩, fun x hx => ?_, h.marshalKey, fun x hx => ?_,
    fun x hx f hf => ?_, ?_, h.bounded⟩
  · rcases hold x hx with rfl | hx
    · rw [hkey.1, hkey.2.1]
      exact h.services.live e hmem
    · exact h.services.live x hx
  · rw [htexts]
    exact h.services.keys
  · rcases hold x hx with rfl | hx
    · rw [he']
      exact sound_cons (h.functions e hmem) hcell hfresh _
    · exact h.functions x hx
  · rcases hold x hx with rfl | hx
    · rw [hkey.1, hkey.2.2]
      exact h.serviceKey e hmem
    · exact h.serviceKey x hx
  · rcases hold x hx with rfl | hx
    · rw [he'] at hf
      rcases List.mem_cons.mp hf with rfl | hf
      · rfl
      · exact h.functionKey e hmem f hf
    · exact h.functionKey x hx f hf
  · rw [he', (keyCells_withFunction fname c func mitem).nodup_iff, ← ht]
    exact List.nodup_cons.mpr ⟨hnew, h.distinct⟩

theorem agree_addFunction {S : Cells F M} {R : Registry F M} (ha : Agree S R)
    {t₁ t₂ : List (Entry (ServiceCell F M))} {e : Entry (ServiceCell F M)}
    (ht : S.serviceTable = t₁ ++ e :: t₂) {svcName : Bytes}
    (he : S.heap.text e.key = some svcName)
    (hother : ∀ x ∈ t₁ ++ t₂, S.heap.text x.key ≠ some svcName) {rservice : Service F M}
    (hr : lookup R.serviceTable svcName = some rservice) {fname : Bytes} {c : Cell}
    (hcell : S.heap.text c = some fname) (func : F) {mitem : MarshalCell M} {ritem : MarshalItem M}
    (hm : mitem.mfunc = ritem.mfunc) :
    Agree ⟨S.heap, S.marshalTable, t₁ ++ withFunction gStrHash e fname c func mitem :: t₂⟩
      ⟨R.marshalTable, SearpcServer.insert R.serviceTable svcName
        ⟨rservice.name, SearpcServer.insert rservice.funcTable fname ⟨func, fname, ritem⟩⟩⟩ := by
  have he' : S.heap.text (withFunction gStrHash e fname c func mitem).key = some svcName := he
  have hkept : ∀ svc, svcName ≠ svc → cellLookup S.heap (t₁ ++ t₂) svc
      = cellLookup S.heap S.serviceTable svc := by
    intro svc hne
    rw [ht, cellLookup_middle he hother, if_neg hne]
  refine ⟨ha.marshals, fun svc => ?_, fun svc name => ?_⟩
  · rw [cellLookup_middle he' hother, lookup_insert]
    by_cases heq : svcName = svc
    · rw [if_pos heq, if_pos heq]
      rfl
    · rw [if_neg heq, if_neg heq, hkept svc heq, ha.services svc]
  · rw [cellFind, cellLookup_middle he' hother, findFunction, lookup_insert]
    by_cases heq : svcName = svc
    · have hold := ha.functions svcName name
      rw [cellFind, ht, cellLookup_middle he hother, if_pos rfl, findFunction, hr] at hold
      rw [if_pos heq, if_pos heq]
      show (cellLookup S.heap (⟨gStrHash fname, c, ⟨func, c, mitem⟩⟩ :: e.value.funcTable) name).map
          FuncCell.pair
        = (lookup (SearpcServer.insert rservice.funcTable fname ⟨func, fname, ritem⟩) name).map
            FuncItem.pair
      rw [cellLookup_cons_text hcell, lookup_insert]
      by_cases hname : fname = name
      · rw [if_pos hname, if_pos hname]
        exact congrArg (fun m => some (func, m)) hm
      · rw [if_neg hname, if_neg hname]
        exact hold
    · rw [if_neg heq, if_neg heq, hkept svc heq]
      exact ha.functions svc name

/-- The caller's signature is freed at the end; no key is in its cell. -/
theorem freeSignature_same {S : Cells F M} (h : Owned gStrHash S)
    {t₁ t₂ : List (Entry (ServiceCell F M))} {e : Entry (ServiceCell F M)}
    (ht : S.serviceTable = t₁ ++ e :: t₂) (signature fname : Bytes) (func : F)
    (mitem : MarshalCell M) :
    ∀ c ∈ keyCells ⟨(S.heap.strdup signature).strdup fname, S.marshalTable,
        t₁ ++ withFunction gStrHash e fname (S.heap.strdup signature).next func mitem :: t₂⟩,
      (((S.heap.strdup signature).strdup fname).free S.heap.next).text c
        = ((S.heap.strdup signature).strdup fname).text c := by
  intro c hc
  refine text_free_ne ?_
  rintro rfl
  rcases List.mem_cons.mp ((keyCells_withFunction fname _ func mitem).mem_iff.mp hc)
    with heq | hold
  · exact Nat.ne_of_lt (Nat.lt_succ_self _) heq
  · rw [← ht] at hold
    exact next_not_mem h hold

/-- A registration that goes through puts a new entry in front of the service's
    functions. -/
theorem registerFunction_adds {S : Cells F M} {R : Registry F M} (h : Owned gStrHash S)
    (ha : Agree S R) {svcName fname signature : Bytes} (func : F) {e : Entry (ServiceCell F M)}
    {mitem : MarshalCell M}
    (hpick : pick (S.heap.strdup signature) S.serviceTable svcName = some e)
    (hsig : cellLookup (S.heap.strdup signature) S.marshalTable signature = some mitem)
    {rservice : Service F M} (hr : lookup R.serviceTable svcName = some rservice)
    {ritem : MarshalItem M} (hritem : lookup R.marshalTable signature = some ritem)
    (hfresh : findFunction R svcName fname = none) :
    ∃ S', registerFunction gStrHash S svcName func fname signature
        = some ((searpcServerRegisterFunction R svcName func fname signature).1, S')
      ∧ Owned gStrHash S'
      ∧ Agree S' (searpcServerRegisterFunction R svcName func fname signature).2 := by
  have hown := owned_strdup h signature
  have hagree := agree_frame ha (strdup_same h signature)
  have hmem := List.mem_of_find?_eq_some hpick
  have hsvc : cellLookup (S.heap.strdup signature) S.serviceTable svcName = some e.value := by
    rw [cellLookup, hpick, Option.map_some]
  have hmfunc : mitem.mfunc = ritem.mfunc := by
    have hpair := hagree.marshals signature
    rw [hsig, hritem] at hpair
    exact Option.some.inj hpair
  obtain ⟨t₁, t₂, ht, he, hother⟩ := pick_split hown.services hpick
  -- the second copy, of the function's name, leaves the services as they are
  have hown2 := owned_strdup hown fname
  have hagree2 := agree_frame hagree (strdup_same hown fname)
  have hservices : ∀ x ∈ S.serviceTable,
      ((S.heap.strdup signature).strdup fname).text x.key
        = (S.heap.strdup signature).text x.key :=
    fun x hx => strdup_same hown fname _ (service_mem_keyCells hx List.mem_cons_self)
  have he2 := (hservices e hmem).trans he
  have hother2 : ∀ x ∈ t₁ ++ t₂,
      ((S.heap.strdup signature).strdup fname).text x.key ≠ some svcName := by
    intro x hx
    rw [hservices x (ht ▸ List.mem_append.mpr ((List.mem_append.mp hx).imp id
      (List.mem_cons_of_mem e)))]
    exact hother x hx
  have hfunc : cellLookup ((S.heap.strdup signature).strdup fname) e.value.funcTable fname
      = none := by
    have hnone := hagree2.functions svcName fname
    rw [hfresh, cellFind, (cellLookup_frame hservices svcName).trans hsvc] at hnone
    exact Option.map_eq_none_iff.mp hnone
  have hnames : ∀ x ∈ t₁, x.value.name ≠ e.value.name := by
    intro x hx
    have hx' : x ∈ S.serviceTable := ht ▸ List.mem_append_left _ hx
    rw [← h.serviceKey x hx', ← h.serviceKey e hmem]
    exact key_ne_of_text he (hother x (List.mem_append_left _ hx))
  have hcell := text_strdup_self (S.heap.strdup signature) fname
  have hadded := owned_addFunction hown2 ht hcell (next_not_mem hown) hfunc func mitem
  have hfree := freeSignature_same h ht signature fname func mitem
  refine ⟨⟨((S.heap.strdup signature).strdup fname).free S.heap.next, S.marshalTable,
    t₁ ++ withFunction gStrHash e fname (S.heap.strdup signature).next func mitem :: t₂⟩,
    ?_, owned_frame hadded hfree (bounded_free hown2.bounded _), ?_⟩
  · simp only [registerFunction, gHashTableLookup_eq hown.services, hsvc,
      gHashTableLookup_eq hown.marshals, hsig,
      gHashTableInsert_fresh (hown2.functions e hmem) hfunc,
      funcItemFree, searpcServerRegisterFunction, hr, hritem]
    rw [ht, setFuncTable_middle hnames]
    rfl
  · simp only [searpcServerRegisterFunction, hr, hritem]
    exact agree_frame (agree_addFunction hagree2 ht he2 hother2 hr hcell func hmfunc) hfree

/-- `searpc_server_register_function` returns what it returns without cells,
    and does what it does there unless the name is registered already. -/
theorem registerFunction_step {S : Cells F M} {R : Registry F M} (h : Owned gStrHash S)
    (ha : Agree S R) (svcName : Bytes) (func : F) (fname signature : Bytes)
    (hfresh : (lookup R.marshalTable signature).isSome = true →
      findFunction R svcName fname = none) :
    ∃ S', registerFunction gStrHash S svcName func fname signature
        = some ((searpcServerRegisterFunction R svcName func fname signature).1, S')
      ∧ Owned gStrHash S'
      ∧ Agree S' (searpcServerRegisterFunction R svcName func fname signature).2 := by
  have hown := owned_strdup h signature
  have hagree := agree_frame ha (strdup_same h signature)
  have hexists := hagree.services svcName
  have hsigs := marshal_isSome hagree signature
  cases hpick : pick (S.heap.strdup signature) S.serviceTable svcName with
  | none =>
      have hsvc : cellLookup (S.heap.strdup signature) S.serviceTable svcName = none := by
        rw [cellLookup, hpick, Option.map_none]
      rw [hsvc, Option.isSome_none] at hexists
      have hr := Option.isNone_iff_eq_none.mp (Option.isSome_eq_false_iff.mp hexists.symm)
      refine ⟨⟨S.heap.strdup signature, S.marshalTable, S.serviceTable⟩, ?_, hown, ?_⟩
      · simp only [registerFunction, gHashTableLookup_eq hown.services, hsvc,
          searpcServerRegisterFunction, hr]
      · simp only [searpcServerRegisterFunction, hr]
        exact hagree
  | some e =>
      have hsvc : cellLookup (S.heap.strdup signature) S.serviceTable svcName = some e.value := by
        rw [cellLookup, hpick, Option.map_some]
      rw [hsvc, Option.isSome_some] at hexists
      obtain ⟨rservice, hr⟩ := Option.isSome_iff_exists.mp hexists.symm
      cases hsig : cellLookup (S.heap.strdup signature) S.marshalTable signature with
      | none =>
          rw [hsig, Option.isSome_none] at hsigs
          have hrsig := Option.isNone_iff_eq_none.mp (Option.isSome_eq_false_iff.mp hsigs.symm)
          refine ⟨⟨(S.heap.strdup signature).free S.heap.next, S.marshalTable, S.serviceTable⟩,
            ?_, owned_frame h (freeNext_same h signature) (bounded_free hown.bounded _), ?_⟩
          · simp only [registerFunction, gHashTableLookup_eq hown.services, hsvc,
              gHashTableLookup_eq hown.marshals, hsig, searpcServerRegisterFunction, hr, hrsig]
          · simp only [searpcServerRegisterFunction, hr, hrsig]
            exact agree_frame ha (freeNext_same h signature)
      | some mitem =>
          rw [hsig, Option.isSome_some] at hsigs
          obtain ⟨ritem, hritem⟩ := Option.isSome_iff_exists.mp hsigs.symm
          exact registerFunction_adds h ha func hpick hsig hr hritem
            (hfresh (by rw [hritem]; rfl))

/-! ## Whole runs -/

/-- A call that would replace a function that the service has. -/
def ReRegisters (history : List (Op F M)) : Op F M → Prop
  | .registerFunction svcName _ fname signature =>
      (marshalOf history signature).isSome = true
        ∧ (registration history svcName fname).isSome = true
  | _ => False

/-- No call of the history replaced a function. -/
def NoReRegistration : List (Op F M) → Prop
  | [] => True
  | op :: history => ¬ ReRegisters history op ∧ NoReRegistration history

/-- One call that replaces no function. -/
theorem stepCells_agree {S : Cells F M} {R : Registry F M} {history : List (Op F M)}
    (h : Owned gStrHash S) (ha : Agree S R) (hm : Matches R history) {op : Op F M}
    (hop : ¬ ReRegisters history op) :
    ∃ S', stepCells gStrHash S op = some S' ∧ Owned gStrHash S' ∧ Agree S' (step R op) := by
  cases op with
  | createService svcName => exact createService_step h ha svcName
  | removeService svcName =>
      obtain ⟨S', hstep, hown, hagree, -⟩ := removeService_step h ha svcName
      exact ⟨S', hstep, hown, hagree⟩
  | registerMarshal signature marshal =>
      obtain ⟨S', hstep, hown, hagree⟩ := registerMarshal_step h ha signature marshal
      exact ⟨S', by rw [stepCells, hstep]; rfl, hown, hagree⟩
  | registerFunction svcName func fname signature =>
      have hfresh : (lookup R.marshalTable signature).isSome = true →
          findFunction R svcName fname = none := by
        intro hsig
        rw [← Option.isSome_map (f := MarshalItem.mfunc), hm.marshals signature] at hsig
        by_contra hfound
        refine hop ⟨hsig, ?_⟩
        rw [← hm.functions svcName fname, Option.isSome_map]
        exact Option.isSome_iff_ne_none.mpr hfound
      obtain ⟨S', hstep, hown, hagree⟩ :=
        registerFunction_step h ha svcName func fname signature hfresh
      exact ⟨S', by rw [stepCells, hstep]; rfl, hown, hagree⟩

/-- **CELLS REFINE TABLES**: a run that replaces no function never touches freed
    memory, every key stays the name of its value, and the tables say what the
    tables without cells say. -/
theorem afterCells_agree {history : List (Op F M)} (h : NoReRegistration history) :
    ∃ S, afterCells gStrHash history = some S ∧ Owned gStrHash S ∧ Agree S (after history) := by
  induction history with
  | nil =>
      refine ⟨searpcServerInit, rfl, ?_, ⟨fun _ => rfl, fun _ => rfl, fun _ _ => rfl⟩⟩
      have hsound : ∀ {β : Type}, Sound gStrHash ⟨0, fun _ => none⟩ ([] : List (Entry β)) :=
        ⟨fun _ he => (List.not_mem_nil he).elim, .nil⟩
      exact ⟨hsound, hsound, fun _ he => (List.not_mem_nil he).elim,
        fun _ he => (List.not_mem_nil he).elim, fun _ he => (List.not_mem_nil he).elim,
        fun _ he => (List.not_mem_nil he).elim, .nil, fun _ _ => rfl⟩
  | cons op history ih =>
      obtain ⟨S, hS, hown, hagree⟩ := ih h.2
      obtain ⟨S', hstep, hown', hagree'⟩ :=
        stepCells_agree hown hagree (after_matches history) h.1
      exact ⟨S', by rw [afterCells, hS]; exact hstep, hown', hagree'⟩

/-! ## Who owns the keys -/

/-- The key of each entry is the name cell of the value stored in it, so that no
    key in a table has been released. -/
structure KeysOwned (S : Cells F M) : Prop where
  services  : ∀ e ∈ S.serviceTable, e.key = e.value.name
  functions : ∀ e ∈ S.serviceTable, ∀ f ∈ e.value.funcTable, f.key = f.value.fname
  marshals  : ∀ e ∈ S.marshalTable, e.key = e.value.signature
  live      : ∀ c ∈ keyCells S, (S.heap.text c).isSome = true

theorem Owned.keysOwned {S : Cells F M} (h : Owned gStrHash S) : KeysOwned S where
  services := h.serviceKey
  functions := h.functionKey
  marshals := h.marshalKey
  live := fun _ hc => Option.isSome_iff_ne_none.mpr (keyCells_live h hc)

/-- A replaced value sits under the old key. -/
theorem setValue_mem {table : List (Entry α)} {e : Entry α} (h : e ∈ table) (value : α) :
    ∃ x ∈ setValue e.key value table, x.key = e.key ∧ x.value = value := by
  induction table with
  | nil => cases h
  | cons x table ih =>
      rw [setValue]
      by_cases hkey : x.key = e.key
      · rw [if_pos hkey]
        exact ⟨_, List.mem_cons_self, hkey, rfl⟩
      · rw [if_neg hkey]
        rcases List.mem_cons.mp h with rfl | hmem
        · exact absurd rfl hkey
        · obtain ⟨y, hy, heq⟩ := ih hmem
          exact ⟨y, List.mem_cons_of_mem x hy, heq⟩

theorem setFuncTable_mem {services : List (Entry (ServiceCell F M))}
    {e : Entry (ServiceCell F M)} (h : e ∈ services) (table : List (Entry (FuncCell F M))) :
    ∃ x ∈ setFuncTable e.value.name table services, x.value.funcTable = table := by
  induction services with
  | nil => cases h
  | cons x services ih =>
      rw [setFuncTable]
      by_cases hname : x.value.name = e.value.name
      · rw [if_pos hname]
        exact ⟨_, List.mem_cons_self, rfl⟩
      · rw [if_neg hname]
        rcases List.mem_cons.mp h with rfl | hmem
        · exact absurd rfl hname
        · obtain ⟨y, hy, heq⟩ := ih hmem
          exact ⟨y, List.mem_cons_of_mem x hy, heq⟩

/-- **A REPLACED FUNCTION LOSES ITS KEY**: the entry keeps the key of the old
    item, which is freed with it, while the new item has a name of its own. -/
theorem registerFunction_replaces {S S' : Cells F M} {R : Registry F M} (h : Owned gStrHash S)
    (ha : Agree S R) {svcName fname signature : Bytes} {func : F} {b : Bool}
    (hsig : (lookup R.marshalTable signature).isSome = true)
    (hfound : (findFunction R svcName fname).isSome = true)
    (hstep : registerFunction gStrHash S svcName func fname signature = some (b, S')) :
    ¬ KeysOwned S' := by
  have hown := owned_strdup h signature
  have hagree := agree_frame ha (strdup_same h signature)
  have hown2 := owned_strdup hown fname
  have hagree2 := agree_frame hagree (strdup_same hown fname)
  rw [← marshal_isSome hagree] at hsig
  obtain ⟨mitem, hmitem⟩ := Option.isSome_iff_exists.mp hsig
  -- the function that is there, found behind both copies
  have hpair := hagree2.functions svcName fname
  obtain ⟨ritem, hritem⟩ := Option.isSome_iff_exists.mp hfound
  rw [hritem, Option.map_some, Option.map_eq_some_iff] at hpair
  obtain ⟨item, hitem, -⟩ := hpair
  rw [cellFind, Option.bind_eq_some_iff] at hitem
  obtain ⟨service, hservice2, hitem⟩ := hitem
  have hservice : cellLookup (S.heap.strdup signature) S.serviceTable svcName = some service := by
    rw [← hservice2]
    exact (cellLookup_frame (fun x hx => strdup_same hown fname _
      (service_mem_keyCells hx List.mem_cons_self)) svcName).symm
  obtain ⟨e, he, rfl⟩ := mem_of_cellLookup hservice
  obtain ⟨f, hpick, rfl⟩ := Option.map_eq_some_iff.mp hitem
  have hf : f ∈ e.value.funcTable := List.mem_of_find?_eq_some hpick
  have hnode := (findNode_eq (hown2.functions e he) fname).trans (congrArg some hpick)
  simp only [registerFunction, gHashTableLookup_eq hown.services, hservice,
    gHashTableLookup_eq hown.marshals, hmitem, gHashTableInsert, hnode, Option.some.injEq,
    Prod.mk.injEq] at hstep
  obtain ⟨-, rfl⟩ := hstep
  intro howned
  obtain ⟨x, hx, htable⟩ := setFuncTable_mem he (setValue f.key
    ⟨func, (S.heap.strdup signature).next, mitem⟩ e.value.funcTable)
  obtain ⟨y, hy, hkey, hvalue⟩ := setValue_mem hf
    (⟨func, (S.heap.strdup signature).next, mitem⟩ : FuncCell F M)
  rw [← htable] at hy
  have hname : f.key = (S.heap.strdup signature).next := by
    rw [← hkey, howned.functions x hx y hy, hvalue]
  exact next_not_mem hown (hname ▸ service_mem_keyCells he (function_mem_serviceKeys hf))

/-- Keys that stay with their values are never registered again. -/
theorem noReRegistration_of_keysOwned {history : List (Op F M)}
    (h : ∀ past, past <:+ history → ∃ S, afterCells gStrHash past = some S ∧ KeysOwned S) :
    NoReRegistration history := by
  induction history with
  | nil => trivial
  | cons op history ih =>
      have hpast := ih (fun past hp => h past (hp.trans (List.suffix_cons op history)))
      refine ⟨fun hre => ?_, hpast⟩
      obtain ⟨S, hS, hown, hagree⟩ : ∃ S, afterCells gStrHash history = some S
          ∧ Owned gStrHash S ∧ Agree S (after history) := afterCells_agree hpast
      have hmatches := after_matches history
      obtain ⟨S', hS', hkeys⟩ := h (op :: history) (List.suffix_refl _)
      rw [afterCells, hS, Option.bind_some] at hS'
      cases op with
      | registerFunction svcName func fname signature =>
          obtain ⟨hsig, hreg⟩ := hre
          rw [← hmatches.marshals signature, Option.isSome_map] at hsig
          rw [← hmatches.functions svcName fname, Option.isSome_map] at hreg
          rw [stepCells, Option.map_eq_some_iff] at hS'
          obtain ⟨⟨b, S''⟩, hstep, rfl⟩ := hS'
          exact registerFunction_replaces hown hagree hsig hreg hstep hkeys
      | _ => exact hre

theorem NoReRegistration.past {history past : List (Op F M)} (h : NoReRegistration history)
    (hp : past <:+ history) : NoReRegistration past := by
  induction history with
  | nil =>
      rw [List.suffix_nil.mp hp]
      trivial
  | cons op history ih =>
      rcases List.suffix_cons_iff.mp hp with rfl | hp
      · exact h
      · exact ih h.2 hp

/-- **KEYS AND THEIR OWNERS, EXACTLY**: in every state of a run each key is the
    name of the value in its entry, and no released cell is a key, if and only
    if the run registers no function name again while its service has it. -/
theorem keys_owned_iff (gStrHash : Bytes → Nat) (history : List (Op F M)) :
    (∀ past, past <:+ history → ∃ S, afterCells gStrHash past = some S ∧ KeysOwned S)
      ↔ NoReRegistration history := by
  constructor
  · exact noReRegistration_of_keysOwned
  · intro h past hp
    obtain ⟨S, hS, hown, -⟩ : ∃ S, afterCells gStrHash past = some S ∧ Owned gStrHash S
        ∧ Agree S (after past) := afterCells_agree (h.past hp)
    exact ⟨S, hS, hown.keysOwned⟩

/-! ## The history of a server -/

/-- Dispatch over tables with cells is dispatch over the tables without. -/
theorem callFunction_agree {S : Cells F M} {R : Registry F M} (h : Owned gStrHash S)
    (ha : Agree S R) (J : Jansson) (mfunc : M → F → Json → ρ) (slowLog : Option SlowLog)
    (clock : Clock) (svcName func : Bytes) :
    (callFunction gStrHash J S mfunc slowLog clock svcName func).map Called.outcome
      = some (searpcServerCallFunction J R mfunc slowLog clock svcName func).outcome := by
  have hexists := ha.services svcName
  cases hsvc : cellLookup S.heap S.serviceTable svcName with
  | none =>
      rw [hsvc, Option.isSome_none] at hexists
      have hr := Option.isNone_iff_eq_none.mp (Option.isSome_eq_false_iff.mp hexists.symm)
      simp only [callFunction, gHashTableLookup_eq h.services, hsvc, searpcServerCallFunction, hr,
        Option.map_some]
  | some service =>
      rw [hsvc, Option.isSome_some] at hexists
      obtain ⟨rservice, hr⟩ := Option.isSome_iff_exists.mp hexists.symm
      obtain ⟨e, he, rfl⟩ := mem_of_cellLookup hsvc
      simp only [callFunction, gHashTableLookup_eq h.services, hsvc, searpcServerCallFunction, hr]
      cases hload : J.loadb func with
      | error text => rfl
      | ok array =>
          dsimp only
          cases hname : jsonStringValue (jsonArrayGet (some array) 0) with
          | none => rfl
          | some fname =>
              have hpair := ha.functions svcName fname
              rw [cellFind, hsvc, findFunction, hr] at hpair
              dsimp only [Option.bind_some] at hpair ⊢
              rw [gHashTableLookup_eq (h.functions e he)]
              cases hfunc : cellLookup S.heap e.value.funcTable fname with
              | none =>
                  rw [hfunc, Option.map_none] at hpair
                  rw [Option.map_eq_none_iff.mp hpair.symm]
                  rfl
              | some fitem =>
                  rw [hfunc, Option.map_some] at hpair
                  obtain ⟨ritem, hritem, hpair⟩ := Option.map_eq_some_iff.mp hpair.symm
                  obtain ⟨f, hf, rfl⟩ := mem_of_cellLookup hfunc
                  obtain ⟨text, htext, -⟩ := (h.functions e he).live f hf
                  rw [h.functionKey e he f hf] at htext
                  have hran : mfunc f.value.marshal.mfunc f.value.func array
                      = mfunc ritem.marshal.mfunc ritem.func array := by
                    obtain ⟨hfn, hmf⟩ := Prod.mk.inj hpair
                    rw [hfn, hmf]
                  rw [hritem]
                  cases slowLog with
                  | none => exact congrArg (fun r => some (Outcome.ran r)) hran
                  | some log =>
                      dsimp only
                      rw [htext]
                      exact congrArg (fun r => some (Outcome.ran r)) hran

/-- What the history of calls promises of the server's state. -/
structure Meets (gStrHash : Bytes → Nat) (S : Cells F M) (history : List (Op F M)) : Prop where
  /-- A call that names a function runs the last registration with the first
      marshal of its signature; 501 and 500 say exactly what is missing. -/
  calls : ∀ {ρ : Type} (J : Jansson) (mfunc : M → F → Json → ρ) (slowLog : Option SlowLog)
    (clock : Clock) (svcName func : Bytes) (array : Json) (fname : Bytes),
    J.loadb func = .ok array → jsonStringValue (jsonArrayGet (some array) 0) = some fname →
    ∃ called, callFunction gStrHash J S mfunc slowLog clock svcName func = some called
      ∧ ((∃ reply, called.outcome = .errorReply 501 reply) ↔ serviceExists history svcName = false)
      ∧ ((∃ reply, called.outcome = .errorReply 500 reply)
          ↔ serviceExists history svcName = true ∧ registration history svcName fname = none)
      ∧ ∀ impl marshal, serviceExists history svcName = true →
          registration history svcName fname = some (impl, marshal) →
          called.outcome = .ran (mfunc marshal impl array)
  creates : ∀ svcName, serviceExists history svcName = true →
    createService gStrHash S svcName = some S
  removes : ∀ svcName, ∃ S', removeService gStrHash S svcName = some S'
    ∧ S'.marshalTable = S.marshalTable
    ∧ (∀ key, gHashTableLookup gStrHash S'.heap S'.marshalTable key
        = gHashTableLookup gStrHash S.heap S.marshalTable key)
    ∧ ∀ svc, svc ≠ svcName → gHashTableLookup gStrHash S'.heap S'.serviceTable svc
          = gHashTableLookup gStrHash S.heap S.serviceTable svc
        ∧ ∀ service, gHashTableLookup gStrHash S.heap S.serviceTable svc = some (some service) →
            ∀ fname, gHashTableLookup gStrHash S'.heap service.funcTable fname
              = gHashTableLookup gStrHash S.heap service.funcTable fname
  refusedMarshal : ∀ signature marshal S', registerMarshal gStrHash S signature marshal
      = some (false, S') → S'.marshalTable = S.marshalTable ∧ S'.serviceTable = S.serviceTable
  refusedFunction : ∀ svcName func fname signature S',
    registerFunction gStrHash S svcName func fname signature = some (false, S') →
      S'.marshalTable = S.marshalTable ∧ S'.serviceTable = S.serviceTable

/-- A refused marshal leaves both tables as they were. -/
theorem registerMarshal_refused {S S' : Cells F M} {signature : Bytes} {marshal : M}
    (h : registerMarshal gStrHash S signature marshal = some (false, S')) :
    S'.marshalTable = S.marshalTable ∧ S'.serviceTable = S.serviceTable := by
  rw [registerMarshal] at h
  rcases hsig : gHashTableLookup gStrHash (S.heap.strdup signature) S.marshalTable signature
    with _ | _ | mitem
  · rw [hsig] at h
    cases h
  · rw [hsig] at h
    rcases hins : gHashTableInsert gStrHash (S.heap.strdup signature) S.marshalTable S.heap.next
      signature (MarshalCell.mk marshal S.heap.next) with _ | ⟨table, old⟩
    · rw [hins] at h
      cases h
    · rw [hins] at h
      cases h
  · rw [hsig] at h
    cases h
    exact ⟨rfl, rfl⟩

/-- So does a refused function. -/
theorem registerFunction_refused {S S' : Cells F M} {svcName fname signature : Bytes} {func : F}
    (h : registerFunction gStrHash S svcName func fname signature = some (false, S')) :
    S'.marshalTable = S.marshalTable ∧ S'.serviceTable = S.serviceTable := by
  rw [registerFunction] at h
  dsimp only at h
  rcases hsvc : gHashTableLookup gStrHash (S.heap.strdup signature) S.serviceTable svcName
    with _ | _ | service
  · rw [hsvc] at h
    cases h
  · rw [hsvc] at h
    cases h
    exact ⟨rfl, rfl⟩
  · rw [hsvc] at h
    dsimp only at h
    rcases hsig : gHashTableLookup gStrHash (S.heap.strdup signature) S.marshalTable signature
      with _ | _ | mitem
    · rw [hsig] at h
      cases h
    · rw [hsig] at h
      cases h
      exact ⟨rfl, rfl⟩
    · rw [hsig] at h
      dsimp only at h
      rcases hins : gHashTableInsert gStrHash ((S.heap.strdup signature).strdup fname)
        service.funcTable (S.heap.strdup signature).next fname
        (FuncCell.mk func (S.heap.strdup signature).next mitem) with _ | ⟨table, old⟩
      · rw [hins] at h
        cases h
      · rw [hins] at h
        cases h

/-- Removing a service leaves the other services and all marshals alone. -/
theorem removeService_others {S : Cells F M} {R : Registry F M} (h : Owned gStrHash S)
    (ha : Agree S R) (svcName : Bytes) :
    ∃ S', removeService gStrHash S svcName = some S' ∧ S'.marshalTable = S.marshalTable
      ∧ (∀ key, gHashTableLookup gStrHash S'.heap S'.marshalTable key
          = gHashTableLookup gStrHash S.heap S.marshalTable key)
      ∧ ∀ svc, svc ≠ svcName → gHashTableLookup gStrHash S'.heap S'.serviceTable svc
            = gHashTableLookup gStrHash S.heap S.serviceTable svc
          ∧ ∀ service, gHashTableLookup gStrHash S.heap S.serviceTable svc = some (some service) →
              ∀ fname, gHashTableLookup gStrHash S'.heap service.funcTable fname
                = gHashTableLookup gStrHash S.heap service.funcTable fname := by
  obtain ⟨S', hstep, hown, -, htable, hmarshals, hservices, hfunctions⟩ :=
    removeService_step h ha svcName
  refine ⟨S', hstep, htable, fun key => ?_, fun svc hne => ⟨?_, fun service hsvc fname => ?_⟩⟩
  · rw [gHashTableLookup_eq hown.marshals, gHashTableLookup_eq h.marshals, htable, hmarshals key]
  · rw [gHashTableLookup_eq hown.services, gHashTableLookup_eq h.services, hservices svc hne]
  · rw [gHashTableLookup_eq h.services, Option.some.injEq] at hsvc
    have hsvc' := (hservices svc hne).trans hsvc
    have hfind := hfunctions svc fname hne
    rw [cellFind, cellFind, hsvc', hsvc] at hfind
    obtain ⟨e, he, rfl⟩ := mem_of_cellLookup hsvc
    obtain ⟨e', he', hvalue⟩ := mem_of_cellLookup hsvc'
    have hsound := hown.functions e' he'
    rw [hvalue] at hsound
    rw [gHashTableLookup_eq hsound, gHashTableLookup_eq (h.functions e he)]
    exact congrArg some hfind

/-- **THE REGISTRY OVER WHOLE RUNS**: after every sequence of calls in which no
    function name is registered again while its service has it, the server does
    what the history promises. -/
theorem registry_meets_history (gStrHash : Bytes → Nat) (history : List (Op F M))
    (hfresh : NoReRegistration history) :
    ∃ S, afterCells gStrHash history = some S ∧ Meets gStrHash S history := by
  obtain ⟨S, hS, hown, hagree⟩ : ∃ S, afterCells gStrHash history = some S
      ∧ Owned gStrHash S ∧ Agree S (after history) := afterCells_agree hfresh
  have hmatches := after_matches history
  refine ⟨S, hS, ⟨?_, fun svcName hexists => ?_, removeService_others hown hagree,
    fun _ _ _ => registerMarshal_refused, fun _ _ _ _ _ => registerFunction_refused⟩⟩
  · intro ρ J mfunc slowLog clock svcName func array fname hload hname
    have hout := callFunction_agree hown hagree J mfunc slowLog clock svcName func
    rw [callFunction_history hmatches hload hname] at hout
    obtain ⟨called, hcalled, houtcome⟩ := Option.map_eq_some_iff.mp hout
    refine ⟨called, hcalled, ?_⟩
    rw [houtcome]
    cases serviceExists history svcName with
    | false =>
        rw [if_neg Bool.false_ne_true]
        refine ⟨iff_of_true ⟨_, rfl⟩ rfl, iff_of_false ?_ (fun h => Bool.false_ne_true h.1),
          fun _ _ h => absurd h Bool.false_ne_true⟩
        rintro ⟨reply, heq⟩
        exact absurd (Outcome.errorReply.inj heq).1 (by decide)
    | true =>
        rw [if_pos rfl]
        rcases registration history svcName fname with _ | ⟨impl, marshal⟩
        · refine ⟨iff_of_false ?_ (fun h => Bool.false_ne_true h.symm),
            iff_of_true ⟨_, rfl⟩ ⟨rfl, rfl⟩, fun _ _ _ h => by cases h⟩
          rintro ⟨reply, heq⟩
          exact absurd (Outcome.errorReply.inj heq).1 (by decide)
        · refine ⟨iff_of_false ?_ (fun h => Bool.false_ne_true h.symm), iff_of_false ?_ ?_, ?_⟩
          · rintro ⟨reply, heq⟩
            cases heq
          · rintro ⟨reply, heq⟩
            cases heq
          · rintro ⟨-, hnone⟩
            cases hnone
          · rintro impl' marshal' - hsome
            cases hsome
            rfl
  · have hsvc := (hagree.services svcName).trans (hmatches.services svcName)
    rw [hexists] at hsvc
    obtain ⟨service, hservice⟩ := Option.isSome_iff_exists.mp hsvc
    simp only [createService, gHashTableLookup_eq hown.services, hservice]

/-- GLib's string hash, on ASCII text. -/
def djb2 (s : Bytes) : Nat := s.foldl (fun h b => (h * 33 + b.toNat) % 2 ^ 32) 5381

/-- A service with two functions is created twice, and another is removed. -/
def ordinaryHistory : List (Op Nat Nat) :=
  [.removeService (ascii "t"), .createService (ascii "s"),
    .registerFunction (ascii "s") 2 (ascii "g") (ascii "sig"),
    .registerFunction (ascii "s") 1 (ascii "f") (ascii "sig"), .registerMarshal (ascii "sig") 7,
    .createService (ascii "t"), .createService (ascii "s")]

theorem registry_meets_ordinaryHistory :
    NoReRegistration ordinaryHistory
      ∧ ∃ S, afterCells djb2 ordinaryHistory = some S ∧ Meets djb2 S ordinaryHistory := by
  have hfresh : NoReRegistration ordinaryHistory := by
    refine ⟨id, id, ?_, ?_, id, id, id, trivial⟩
    · rintro ⟨-, h⟩
      revert h
      decide
    · rintro ⟨-, h⟩
      revert h
      decide
  exact ⟨hfresh, registry_meets_history djb2 ordinaryHistory hfresh⟩

/-- A function is registered, and registered again. -/
def replacedHistory : List (Op Nat Nat) :=
  [.registerFunction (ascii "s") 2 (ascii "f") (ascii "sig"),
    .registerFunction (ascii "s") 1 (ascii "f") (ascii "sig"), .registerMarshal (ascii "sig") 7,
    .createService (ascii "s")]

/-- The entry of the function is left with the key of the freed item. -/
theorem keys_lost_on_replacement :
    ¬ ∀ history : List (Op Nat Nat), ∃ S, afterCells djb2 history = some S ∧ KeysOwned S := by
  intro h
  have hfresh : NoReRegistration replacedHistory :=
    noReRegistration_of_keysOwned (fun past _ => h past)
  exact hfresh.1 ⟨by decide, by decide⟩

/-- A call of the function then reads the freed key. -/
theorem registry_reads_freed_key :
    ¬ ∀ history : List (Op Nat Nat),
      ∃ S, afterCells djb2 history = some S ∧ Meets djb2 S history := by
  intro h
  obtain ⟨S, hS, hmeets⟩ := h replacedHistory
  obtain ⟨called, hcalled, -⟩ := hmeets.calls textCodec (fun m f _ => (m, f)) none ⟨0, 0⟩
    (ascii "s") (textCodec.dumps (.arr [.str (ascii "f")]) true) (.arr [.str (ascii "f")])
    (ascii "f") (by decide +kernel) rfl
  have hfault : (afterCells djb2 replacedHistory).bind (fun S => callFunction djb2 textCodec S
      (fun m f _ => (m, f)) none ⟨0, 0⟩ (ascii "s")
      (textCodec.dumps (.arr [.str (ascii "f")]) true) |>.map (fun _ => ())) = none := by
    decide +kernel
  rw [hS, Option.bind_some, hcalled] at hfault
  cases hfault

end SearpcRegistryCells
